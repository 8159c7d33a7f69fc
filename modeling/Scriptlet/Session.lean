/-
An interpreter inside a host program.  Global names live from one request of
the host to the next.
-/
import Scriptlet.Job

namespace Scriptlet

/-- A session: the world of the scripts, the terms they run on, and how the host reads its
own files. -/
structure Session where
  world : World
  terms : Terms
  source : String → Except Text Text

/-- Why a request of the host was not met. -/
inductive SessionFault where
  | failed (f : Failure)
  | notSet (name : String) (reason : Text)
  | noVariable (name : String)
  | noFunction (name : String)
  | argument (n : Nat) (reason : Text)
  | result (reason : Text)
  | faulty (ds : List Diagnostic)
  | notSingle (count : Nat)
  | notExpression (s : Stmt)
  | unreadable (reason : Text)

/-- The wording of a fault. -/
def SessionFault.message : SessionFault → Text
  | .failed f => f.text
  | .notSet name reason => Text.ofString ("set " ++ name ++ ": ") ++ reason
  | .noVariable name => Text.ofString ("variable '" ++ name ++ "' not found")
  | .noFunction name => Text.ofString ("function '" ++ name ++ "' not found")
  | .argument n reason => Text.ofString ("argument " ++ toString n ++ ": ") ++ reason
  | .result reason => reason
  | .faulty ds =>
    Text.ofString "parse failed:\n" ++ Text.join (Text.ofString "\n") (ds.map Diagnostic.text)
  | .notSingle count =>
    Text.ofString ("expected a single expression, got " ++ toString count ++ " statements")
  | .notExpression s => Text.ofString ("expected an expression, got " ++ s.nodeName)
  | .unreadable reason => reason

namespace Session

/-- What a request gives: a value of the host, or why there is none. -/
abbrev Reply := Except SessionFault HostValue

def evalLabel : String := "<eval>"

def exprLabel : String := "<expr>"

/-- A session in which nothing has happened. -/
def start (terms : Terms) (source : String → Except Text Text) : Session :=
  ⟨.ofStore .initial Job.noFile, terms, source⟩

def store (s : Session) : Store := s.world.store

def withStore (s : Session) (store : Store) : Session :=
  { s with world := { s.world with store := store } }

def global? (s : Session) (name : String) : Option Value := s.store.scopes.globals.get? name

def setGlobal (s : Session) (name : String) (v : Value) : Session :=
  s.withStore { s.store with scopes := s.store.scopes.set [] name v }

def takeOutput (s : Session) : Text × Session :=
  (s.store.output, s.withStore { s.store with output := .empty })

/-- Gives a global name the value of a value of the host. -/
def set (s : Session) (name : String) (h : HostValue) : Reply × Session :=
  match Marshal.toValue s.store h with
  | (.ok v, store) => (.ok .nil, (s.withStore store).setGlobal name v)
  | (.error reason, store) => (.error (.notSet name reason), s.withStore store)

/-- Gives a global name the value of a value of the host; a function goes by
that name then. -/
def bind (s : Session) (name : String) (h : HostValue) : Reply × Session :=
  match h with
  | .function f =>
    let (v, store) := s.store.newHostFunction f name false
    (.ok .nil, (s.withStore store).setGlobal name v)
  | h => s.set name h

/-- The value of the host for a value of a script; none if carrying it over
never comes to an end. -/
def exported (s : Session) (v : Value) : Option Reply :=
  (Marshal.ofValue s.store v).map fun
    | .ok h => .ok h
    | .error reason => .error (.result reason)

/-- The value of a global name. -/
def get (s : Session) (name : String) : Option Reply :=
  match s.global? name with
  | some v => s.exported v
  | none => some (.error (.noVariable name))

/-- The values of scripts for arguments, after those in `before`, which are last
first; the first has the number `n`. -/
def imported (s : Store) (n : Nat) (before : List Value) :
    List HostValue → Except SessionFault (List Value) × Store
  | [] => (.ok before.reverse, s)
  | h :: rest =>
    match Marshal.toValue s h with
    | (.ok v, s) => imported s (n + 1) (v :: before) rest
    | (.error reason, s) => (.error (.argument n reason), s)

/-- What an evaluation at top level gives to the host. -/
def finished (s : Session) : Outcome × World → Option (Reply × Session)
  | (.failed f, w) => some (.error (.failed f), { s with world := w })
  | (.value v, w) | (.returned v, w) =>
    let s := { s with world := w }
    (s.exported v).map (·, s)
  | (_, w) => some (.ok .nil, { s with world := w })

def call (horizon : Nat) (s : Session) (name : String) (args : List HostValue) :
    Option (Reply × Session) :=
  match s.global? name with
  | none => some (.error (.noFunction name), s)
  | some callee =>
    match imported s.store 0 [] args with
    | (.error fault, store) => some (.error fault, s.withStore store)
    | (.ok values, store) =>
      let s := s.withStore store
      (s.world.apply s.terms horizon callee values).bind s.finished

/-- The program of a source text. -/
def parsed (code : Text) (file : String) : Except SessionFault Program :=
  match Parser.parse code with
  | (statements, []) => .ok ⟨file, statements⟩
  | (_, ds) => .error (.faulty (ds.map (Diagnostic.inFile file)))

def run (horizon : Nat) (s : Session) (code : Text) (file : String) :
    Option (Except SessionFault (List Value) × Session) :=
  match parsed code file with
  | .error fault => some (.error fault, s)
  | .ok p =>
    ((s.world.inFile file).run s.terms horizon p).map fun e =>
      let s := { s with world := e.world }
      match e.failure with
      | some f => (.error (.failed f), s)
      | none => (.ok e.results, s)

/-- Runs a source text, and gives the value of its last statement. -/
def eval (horizon : Nat) (s : Session) (code : Text) : Option (Reply × Session) :=
  (s.run horizon code evalLabel).bind fun
    | (.error fault, s) => some (.error fault, s)
    | (.ok values, s) =>
      match values.getLast? with
      | some v => (s.exported v).map (·, s)
      | none => some (.ok .nil, s)

/-- The expression that a source text consists of. -/
def single (code : Text) : Except SessionFault Expr :=
  match parsed code exprLabel with
  | .error fault => .error fault
  | .ok p =>
    match p.statements with
    | [.expr _ _ e] => .ok e
    | [s] => .error (.notExpression s)
    | ss => .error (.notSingle ss.length)

def evalExpression (horizon : Nat) (s : Session) (code : Text) : Option (Reply × Session) :=
  match single code with
  | .error fault => some (.error fault, s)
  | .ok e => ((s.world.inFile exprLabel).evalExpr s.terms horizon e).bind s.finished

/-- Runs a file of the host. -/
def load (horizon : Nat) (s : Session) (path : String) : Option (Reply × Session) :=
  match s.source path with
  | .error reason => some (.error (.unreadable reason), s)
  | .ok code =>
    (s.run horizon code path).map fun
      | (.error fault, s) => (.error fault, s)
      | (.ok _, s) => (.ok .nil, s)

end Session

end Scriptlet
