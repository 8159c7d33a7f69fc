/-
The machine that runs scripts: one thread of it is what it is about to do and
a stack of frames, each of which waits for an outcome.  Nothing is hidden in
the host's own stack, so every state of a run shows all calls going on.
-/
import Scriptlet.Operation
import Scriptlet.Value.Member

namespace Scriptlet

/-- How far a run may go: how deep nodes and hooks may nest, and how many nodes may
be evaluated, 0 for any number. -/
structure Limits where
  maxDepth : Nat
  maxSteps : Nat
deriving DecidableEq, Repr

namespace Limits

/-- How deep nodes and hooks may nest where nothing else is said. -/
def defaultDepth : Nat := 10000

/-- The limits that two numbers ask for.  A depth that is not positive stands
for the usual one, and a number of steps that is not positive for no bound. -/
def ofNumbers (depth steps : Int) : Limits :=
  ⟨if 0 < depth then depth.toNat else defaultDepth, steps.toNat⟩

end Limits

/-- How an evaluation can end. -/
inductive Outcome where
  | value (v : Value)
  | returned (v : Value)
  | left
  | skipped
  | failed (f : Failure)

instance : Inhabited Outcome := ⟨.value .null⟩

inductive HookCheck where
  | truth | equality | text
deriving DecidableEq, Repr

namespace HookCheck

def hook : HookCheck → String
  | .truth => "__bool__"
  | .equality => "__is_eq__"
  | .text => "__repr__"

/-- What the type of the result must be called. -/
def expected : HookCheck → String
  | .truth | .equality => "Bool"
  | .text => "Str"

/-- Whether a result is of the type it must be of. -/
def accepts : HookCheck → Value → Bool
  | .truth, .bool _ | .equality, .bool _ | .text, .str _ _ => true
  | _, _ => false

end HookCheck

/-- What expressions evaluated one after the other are for. -/
inductive Purpose where
  | list
  | call (callee : Value) (site : Position)
  | method (member receiver : Value) (site : Position)

/-- What waits for an outcome. -/
inductive Frame where
  /-- A node is being evaluated; afterwards the scope is `outer` again. -/
  | leaveNode (position : Option Position) (outer : Option Environment)
  /-- A hook is being called. -/
  | leaveHook
  /-- A call that stands in traces is going on. -/
  | leaveCall
  /-- The body of a function is being evaluated. -/
  | leaveFunction (name : String)
  /-- The call of an instance has been passed on to what it holds for that. -/
  | leaveInstance
  | block (rest : List Stmt) (env : Environment)
  | program (rest : List Stmt) (env : Environment)
  | bind (name : String) (env : Environment)
  | storeValue (object subscript : Expr) (env : Environment)
  | storeObject (subscript : Expr) (value : Value) (env : Environment)
  | storeSubscript (object value : Value)
  | stored
  | branchCondition (body : Block) (rest : List Branch) (otherwise : Option Block)
    (env : Environment)
  | branchTruth (body : Block) (rest : List Branch) (otherwise : Option Block) (env : Environment)
  | whileCondition (condition : Expr) (body : Block) (env : Environment)
  | whileTruth (condition : Expr) (body : Block) (env : Environment)
  | whileBody (condition : Expr) (body : Block) (env : Environment)
  | forSource (item : String) (body : Block) (env : Environment)
  | forIterator (item : String) (body : Block) (env : Environment)
  | forNext (iterator : Value) (item : String) (body : Block) (env : Environment)
  | forBody (iterator : Value) (item : String) (body : Block) (env : Environment)
  | giveBack
  /-- Expressions are evaluated from left to right; `done` is last first. -/
  | items (purpose : Purpose) (env : Environment) (done : List Value) (rest : List Expr)
  | operand (op : UnaryOp)
  | leftOperand (op : BinaryOp) (right : Expr) (env : Environment)
  | rightOperand (op : BinaryOp) (left : Value)
  | firstTerm (op : BinaryOp) (right : Expr) (env : Environment)
  | firstTruth (op : BinaryOp) (left : Value) (right : Expr) (env : Environment)
  | negated
  | callee (args : List Expr) (site : Position) (env : Environment)
  | receiver (field : Ident) (args : Option (List Expr)) (env : Environment)
  | indexObject (subscript : Expr) (env : Environment)
  | indexSubscript (object : Value)
  | check (hook : HookCheck) (subject : Value)
  /-- Texts of values to be printed; `done` is last first. -/
  | printing (done : List Text) (rest : List Value)
  | freshText
  | someText
  | listText (done : List Text) (rest : List Value)
  | pairs (rest : List (Value × Value))
  /-- A value is sought in a list; the element asked about has number `index`. -/
  | seeking (target : Value) (index : Nat) (onlyWhether : Bool) (rest : List Value)
  | updating (mutex : Nat)
  | assertTruth
  | assertEqual (left right : Value) (wanted : Bool)
  | assertLeft (right : Value) (wanted : Bool)
  | assertRight (left : Text) (wanted : Bool)

/-- What a thread is about to do.  One that is `asleep` waits for the clock to show a time,
and one that is `joining` waits for threads to end. -/
inductive Control where
  | expr (e : Expr) (env : Environment)
  | stmt (s : Stmt) (env : Environment)
  | block (b : Block) (env : Environment)
  | program (statements : List Stmt) (env : Environment)
  | call (callee : Value) (args : List Value)
  | hook (receiver : Value) (name : String) (args : List Value)
  | asleep (wakeUp : Nat)
  | joining (threads : List Nat)
  | outcome (o : Outcome)

/-- One thread: what it is about to do, the frames that wait for the outcome,
the innermost first, the scope of the node being evaluated, how many nodes and
hooks are going on, the calls going on, the latest first, and the file. -/
structure Task where
  control : Control
  frames : List Frame
  scope : Option Environment
  depth : Nat
  calls : List CallSite
  file : String

namespace Task

/-- A thread with nothing to do. -/
def idle (file : String) : Task := ⟨.outcome (.value .null), [], none, 0, [], file⟩

instance : Inhabited Task := ⟨idle ""⟩

/-- The thread with something else to do. -/
def doing (t : Task) (c : Control) : Task := { t with control := c }

/-- The thread with a new innermost frame. -/
def pushed (t : Task) (f : Frame) : Task := { t with frames := f :: t.frames }

/-- The thread with something to do whose outcome a new frame waits for. -/
def awaiting (t : Task) (f : Frame) (c : Control) : Task :=
  { t with control := c, frames := f :: t.frames }

/-- The thread that has a value. -/
def having (t : Task) (v : Value) : Task := t.doing (.outcome (.value v))

/-- The thread that has failed. -/
def failing (t : Task) (fault : Fault) : Task :=
  t.doing (.outcome (.failed (Failure.ofFault fault)))

def answered (t : Task) : Answer → Task × Store
  | (.ok v, s) => (t.having v, s)
  | (.error fault, s) => (t.failing fault, s)

/-- The outcome that nothing waits for any more. -/
def result? (t : Task) : Option Outcome :=
  match t.control, t.frames with
  | .outcome o, [] => some o
  | _, _ => none

end Task

end Scriptlet
