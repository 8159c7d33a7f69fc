/-
How a thread goes on when the innermost frame gets its outcome.
-/
import Scriptlet.Machine.Eval

namespace Scriptlet

namespace UnaryOp

def hook : UnaryOp → String
  | .negate => "__neg__"
  | .posit => "__pos__"
  | .invert => "__not__"

end UnaryOp

namespace BinaryOp

def number : BinaryOp → NumberOp
  | .add => .add
  | .sub => .sub
  | .mul => .mul
  | .div => .div
  | .mod => .mod
  | .less => .less
  | .greater => .greater
  | .lessEq => .lessEq
  | .greaterEq => .greaterEq
  | .equal | .notEqual | .both | .either => .equal

end BinaryOp

namespace Task

def applyUnary (t : Task) (s : Store) (op : UnaryOp) (v : Value) : Task × Store :=
  match s.member v op.hook with
  | (.error _, s) => (t.failing (.unaryOperand op.text (s.typeName v)), s)
  | (.ok _, s) => (t.doing (.hook v op.hook []), s)

def applyBinary (t : Task) (s : Store) (op : BinaryOp) (left right : Value) : Task × Store :=
  match op with
  | .equal => (t.askEqual s left right, s)
  | .notEqual => ((t.pushed .negated).askEqual s left right, s)
  | op =>
    match s.member left op.number.hook with
    | (.ok f, s) => (t.doing (.call f [left, right]), s)
    | (.error fault, s) =>
      if fault.kind = .unresolvedName then
        (t.failing (.operands op.text (s.typeName left) (s.typeName right)), s)
      else (t.failing fault, s)

/-- Reads a member, and evaluates the arguments if it is to be called. -/
def useMember (t : Task) (s : Store) (object : Value) (field : Ident) (env : Environment) :
    Option (List Expr) → Task × Store
  | none => t.answered (s.member object field.name)
  | some args =>
    match s.member object field.name with
    | (.error fault, s) => (t.failing fault, s)
    | (.ok f, s) => t.gather s (.method f object field.position) env [] args

def askNext (t : Task) (iterator : Value) (item : String) (body : Block) (env : Environment) :
    Task :=
  t.awaiting (.forNext iterator item body env) (.hook iterator "__next__" [])

/-- Gives a failure its place, also where the thread that left it behind keeps
it. -/
def located (s : Store) (f : Failure) (p : Position) : Failure × Store :=
  if f.position.isKnown then (f, s)
  else
    let f := f.locate p
    match f.thread with
    | some id => (f, s.setThread id (.ended (.error f)))
    | none => (f, s)

/-- Leaves a node with an outcome. -/
def exited (t : Task) (s : Store) (position : Option Position) (outer : Option Environment)
    (o : Outcome) : Task × Store :=
  let t := { t with scope := outer, depth := t.depth - 1 }
  match o, position with
  | .failed f, some p =>
    let (f, s) := located s f p
    (t.doing (.outcome (.failed f)), s)
  | o, _ => (t.doing (.outcome o), s)

/-- Leaves a call that stands in traces with an outcome. -/
def returned (t : Task) (o : Outcome) : Task :=
  let outer := { t with calls := t.calls.tail }
  match o with
  | .failed f => outer.doing (.outcome (.failed (f.withTrace t.calls)))
  | o => outer.doing (.outcome o)

def bodyOutcome (name : String) : Outcome → Outcome
  | .value _ => .value .null
  | .returned v => .value v
  | .left => .failed (Failure.ofFault (.strayBreak (some name)))
  | .skipped => .failed (Failure.ofFault (.strayContinue (some name)))
  | .failed f => .failed f

def unlocked (s : Store) (id : Nat) (v : Option Value) : Store :=
  { s with
    mutexes := s.mutexes.modify id fun c => { c with value := v.getD c.value, locked := false } }

def resumeValue (t : Task) (s : Store) (v : Value) : Frame → Task × Store
  | .block rest env =>
    match rest with
    | [] => (t.having v, s)
    | first :: rest => (t.awaiting (.block rest env) (.stmt first env), s)
  | .bind name env => t.binding s env name v
  | .storeValue object subscript env =>
    (t.awaiting (.storeObject subscript v env) (.expr object env), s)
  | .storeObject subscript value env =>
    (t.awaiting (.storeSubscript v value) (.expr subscript env), s)
  | .storeSubscript object value =>
    (t.awaiting .stored (.hook object "__set_index__" [v, value]), s)
  | .stored => (t.having .null, s)
  | .branchCondition body rest otherwise env =>
    ((t.pushed (.branchTruth body rest otherwise env)).askTruth v, s)
  | .branchTruth body rest otherwise env =>
    match v with
    | .bool true => (t.doing (.block body env), s)
    | _ => (t.chooseFrom env otherwise rest, s)
  | .whileCondition condition body env =>
    ((t.pushed (.whileTruth condition body env)).askTruth v, s)
  | .whileTruth condition body env =>
    match v with
    | .bool true => (t.awaiting (.whileBody condition body env) (.block body env), s)
    | _ => (t.having .null, s)
  | .whileBody condition body env =>
    (t.awaiting (.whileCondition condition body env) (.expr condition env), s)
  | .forSource item body env =>
    (t.awaiting (.forIterator item body env) (.hook v "__iter__" []), s)
  | .forIterator item body env => (t.askNext v item body env, s)
  | .forNext iterator item body env =>
    match v with
    | .none => (t.having .null, s)
    | .some inner _ =>
      (t.awaiting (.forBody iterator item body env) (.block body env),
        { s with scopes := s.scopes.set env item inner })
    | v =>
      (t.failing (.hookResult "__next__" (s.typeName iterator) (s.typeName v) "Option"), s)
  | .forBody iterator item body env => (t.askNext iterator item body env, s)
  | .giveBack => (t.doing (.outcome (.returned v)), s)
  | .items purpose env done rest => t.gather s purpose env (v :: done) rest
  | .operand op => t.applyUnary s op v
  | .leftOperand op right env => (t.awaiting (.rightOperand op v) (.expr right env), s)
  | .rightOperand op left => t.applyBinary s op left v
  | .firstTerm op right env => ((t.pushed (.firstTruth op v right env)).askTruth v, s)
  | .firstTruth op left right env =>
    match op, v with
    | .both, .bool true | .either, .bool false => (t.doing (.expr right env), s)
    | _, _ => (t.having left, s)
  | .negated =>
    match v with
    | .bool false => (t.having (.bool true), s)
    | _ => (t.having (.bool false), s)
  | .callee args site env => t.gather s (.call v site) env [] args
  | .receiver field args env => t.useMember s v field env args
  | .indexObject subscript env => (t.awaiting (.indexSubscript v) (.expr subscript env), s)
  | .indexSubscript object => (t.doing (.hook object "__get_index__" [v]), s)
  | .check hook subject =>
    if hook.accepts v then (t.having v, s)
    else
      (t.failing (.hookResult hook.hook (s.typeName subject) (s.typeName v) hook.expected), s)
  | .printing done rest =>
    match v with
    | .str text _ => t.printing s (text :: done) rest
    | _ => t.printing s done rest
  | .freshText =>
    match v with
    | .str text _ => t.answered (s.giveText text)
    | v => (t.having v, s)
  | .someText =>
    match v with
    | .str text _ =>
      t.answered (s.giveText (Text.ofString "Some(" ++ text ++ Text.ofString ")"))
    | v => (t.having v, s)
  | .listText done rest =>
    match v with
    | .str text _ => t.listText s (text :: done) rest
    | _ => t.listText s done rest
  | .pairs rest =>
    match v with
    | .bool true => (t.comparePairs s rest, s)
    | v => (t.having v, s)
  | .seeking target index onlyWhether rest =>
    match v with
    | .bool true =>
      if onlyWhether then (t.having v, s)
      else
        let (n, s) := s.newInt (Int64.ofNat index)
        t.answered (s.giveSome n)
    | _ => (t.seek s target (index + 1) onlyWhether rest, s)
  | .updating id => (t.having v, unlocked s id (some v))
  | .assertTruth =>
    match v with
    | .bool true => (t.having .null, s)
    | _ => (t.failing .assertion, s)
  | .assertEqual left right wanted =>
    match v with
    | .bool equal =>
      if equal = wanted then (t.having .null, s)
      else ((t.pushed (.assertLeft right wanted)).askText left, s)
    | v => (t.having v, s)
  | .assertLeft right wanted =>
    match v with
    | .str left _ => ((t.pushed (.assertRight left wanted)).askText right, s)
    | v => (t.having v, s)
  | .assertRight left wanted =>
    match v with
    | .str right _ =>
      (t.failing (if wanted then .assertionEqual left right else .assertionDifferent left right), s)
    | v => (t.having v, s)
  | .leaveNode _ _ | .leaveHook | .leaveCall | .leaveFunction _ | .leaveInstance
  | .program _ _ => (t.having v, s)

/-- What the innermost frame, which is taken off, makes of an outcome. -/
def resume (t : Task) (s : Store) (o : Outcome) : Frame → Task × Store
  | .leaveNode position outer => t.exited s position outer o
  | .leaveHook => ({ t with depth := t.depth - 1 }.doing (.outcome o), s)
  | .leaveCall => (t.returned o, s)
  | .leaveFunction name => (t.doing (.outcome (bodyOutcome name o)), s)
  | .leaveInstance => (t.doing (.outcome o), s)
  | .program rest env =>
    match o, rest with
    | .returned v, _ => (t.having v, s)
    | .failed f, _ => (t.doing (.outcome (.failed f)), s)
    | o, [] => (t.doing (.outcome o), s)
    | _, first :: rest => (t.awaiting (.program rest env) (.stmt first env), s)
  | f =>
    match o, f with
    | .value v, f => t.resumeValue s v f
    | .left, .whileBody _ _ _ => (t.having .null, s)
    | .left, .forBody _ _ _ _ => (t.having .null, s)
    | .skipped, .whileBody condition body env =>
      (t.awaiting (.whileCondition condition body env) (.expr condition env), s)
    | .skipped, .forBody iterator item body env => (t.askNext iterator item body env, s)
    | o, .updating id => (t.doing (.outcome o), unlocked s id none)
    | o, _ => (t.doing (.outcome o), s)

end Task

end Scriptlet
