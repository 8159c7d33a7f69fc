/-
How the evaluation of a node begins.
-/
import Scriptlet.Machine.Call

namespace Scriptlet

namespace Task

/-- Why the evaluation of a node is refused, if it is, with the step counted.
A node too deep is not counted. -/
def refusal (limits : Limits) (t : Task) (s : Store) : Option Fault × Store :=
  if limits.maxDepth < t.depth + 1 then (some .tooDeep, s)
  else
    let s := { s with steps := s.steps + 1 }
    if 0 < limits.maxSteps && limits.maxSteps < s.steps then
      (some (.stepLimit limits.maxSteps), s)
    else (s.outside.calledOff.map Fault.cancelled, s)

/-- The thread inside a node, which is evaluated in `env`. -/
def entered (t : Task) (position : Option Position) (env : Environment) : Task :=
  { t with
    frames := .leaveNode position t.scope :: t.frames
    scope := some env
    depth := t.depth + 1 }

/-- Puts evaluated expressions to their purpose. -/
def gathered (t : Task) (s : Store) (values : List Value) : Purpose → Task × Store
  | .list => t.answered (s.giveList values.toArray)
  | .call callee site => (t.applying s callee values site, s)
  | .method member receiver site =>
    match receiver with
    | .module _ => (t.applying s member values site, s)
    | receiver => (t.applying s member (receiver :: values) site, s)

/-- Goes on evaluating expressions for a purpose; `done` is last first. -/
def gather (t : Task) (s : Store) (purpose : Purpose) (env : Environment) (done : List Value) :
    List Expr → Task × Store
  | [] => t.gathered s done.reverse purpose
  | e :: rest => (t.awaiting (.items purpose env done rest) (.expr e env), s)

/-- Goes on with the branches of a choice. -/
def chooseFrom (t : Task) (env : Environment) (otherwise : Option Block) : List Branch → Task
  | .mk _ condition body :: rest =>
    t.awaiting (.branchCondition body rest otherwise env) (.expr condition env)
  | [] =>
    match otherwise with
    | some body => t.doing (.block body env)
    | none => t.having .null

def beginExpr (t : Task) (s : Store) (env : Environment) : Expr → Task × Store
  | .name i =>
    match s.scopes.get? i.name env with
    | some v => (t.having v, s)
    | none => (t.failing (.undefinedName i.name), s)
  | .int _ _ n => t.answered (s.giveInt n)
  | .float _ _ x => t.answered (s.giveFloat x)
  | .str _ text => t.answered (s.giveText text)
  | .bool _ b => (t.having (.bool b), s)
  | .null _ => (t.having .null, s)
  | .list _ items => t.gather s .list env [] items
  | .unary _ op e => (t.awaiting (.operand op) (.expr e env), s)
  | .binary _ op left right =>
    match op with
    | .both | .either => (t.awaiting (.firstTerm op right env) (.expr left env), s)
    | op => (t.awaiting (.leftOperand op right env) (.expr left env), s)
  | .call p callee args => (t.awaiting (.callee args p env) (.expr callee env), s)
  | .member _ object field => (t.awaiting (.receiver field none env) (.expr object env), s)
  | .method _ object field args =>
    (t.awaiting (.receiver field (some args) env) (.expr object env), s)
  | .index _ object subscript => (t.awaiting (.indexObject subscript env) (.expr object env), s)
  | .lambda _ params body =>
    let (v, s) := s.newFunction
      ⟨"<fn>", params.map fun p => p.name.name, body, s.scopes.capture env⟩
    (t.having v, s)

/-- Binds a name and has null. -/
def binding (t : Task) (s : Store) (env : Environment) (name : String) (v : Value) :
    Task × Store :=
  (t.having .null, { s with scopes := s.scopes.set env name v })

def beginStmt (t : Task) (s : Store) (env : Environment) : Stmt → Task × Store
  | .expr _ _ e => (t.doing (.expr e env), s)
  | .assign _ target e => (t.awaiting (.bind target.name env) (.expr e env), s)
  | .store _ _ object subscript e =>
    (t.awaiting (.storeValue object subscript env) (.expr e env), s)
  | .choose _ branches otherwise => (t.chooseFrom env otherwise branches, s)
  | .repeatWhile _ condition body =>
    (t.awaiting (.whileCondition condition body env) (.expr condition env), s)
  | .forEach _ item source body =>
    (t.awaiting (.forSource item.name body env) (.expr source env), s)
  | .declare f =>
    let (v, s) := s.newFunction
      ⟨f.ident.name, f.params.map fun p => p.name.name, f.body, s.scopes.capture env⟩
    t.binding s env f.ident.name v
  | .classDef _ ident fields methods =>
    let (v, s) := s.newClass ⟨ident.name, fields.map fun p => p.name.name, methods⟩
    t.binding s env ident.name v
  | .giveBack _ none => (t.doing (.outcome (.returned .null)), s)
  | .giveBack _ (some e) => (t.awaiting .giveBack (.expr e env), s)
  | .leave _ => (t.doing (.outcome .left), s)
  | .skip _ => (t.doing (.outcome .skipped), s)

def beginBlock (t : Task) (env : Environment) : List Stmt → Task
  | [] => t.having .null
  | first :: rest => t.awaiting (.block rest env) (.stmt first env)

def beginProgram (t : Task) (env : Environment) : List Stmt → Task
  | [] => t.having .null
  | first :: rest => t.awaiting (.program rest env) (.stmt first env)

end Task

end Scriptlet
