/-
Runs in another guise.  What a script does rests neither on the places and
spellings of its tokens nor on type hints and file names; a guise says what
becomes of these, and of the bodies of functions, throughout a run.
-/
import Scriptlet.Machine.World

namespace Scriptlet

/-- What becomes of the places, spellings, type hints and file names in code and
in reports; what stands for the body of a function, given as it is and with its
inside recast; whether a failure for leaving no loop is made a failed assertion;
and what becomes of the numbers of functions and things of the host, and of how
it answers, given what becomes of its values. -/
structure Guise where
  place : Position → Position
  word : String → String
  hint : Option Ident → Option Ident
  file : String → String
  body : Block → Block → Block
  hushes : Bool
  foreign : Nat → Nat
  host : (HostValue → HostValue) → Host → Host

namespace Guise

/-- Everything stays as it is, but for what becomes of file names. -/
def ofFile (file : String → String) : Guise :=
  ⟨id, id, id, file, fun _ b => b, false, id, fun _ h => h⟩

end Guise

def Ident.recast (g : Guise) (i : Ident) : Ident := ⟨i.name, g.place i.position⟩

def Param.recast (g : Guise) (p : Param) : Param := ⟨p.name.recast g, g.hint p.hint⟩

mutual

def Expr.recast (g : Guise) : Expr → Expr
  | .name i => .name (i.recast g)
  | .int p digits value => .int (g.place p) (g.word digits) value
  | .float p digits value => .float (g.place p) (g.word digits) value
  | .str p value => .str (g.place p) value
  | .bool p value => .bool (g.place p) value
  | .null p => .null (g.place p)
  | .list p items => .list (g.place p) (exprsRecast g items)
  | .unary p op operand => .unary (g.place p) op (operand.recast g)
  | .binary p op left right => .binary (g.place p) op (left.recast g) (right.recast g)
  | .call p callee args => .call (g.place p) (callee.recast g) (exprsRecast g args)
  | .member p object field => .member (g.place p) (object.recast g) (field.recast g)
  | .method p object field args =>
    .method (g.place p) (object.recast g) (field.recast g) (exprsRecast g args)
  | .index p object subscript => .index (g.place p) (object.recast g) (subscript.recast g)
  | .lambda p params body =>
    .lambda (g.place p) (params.map (Param.recast g)) (g.body body (body.recast g))

def exprsRecast (g : Guise) : List Expr → List Expr
  | [] => []
  | e :: es => e.recast g :: exprsRecast g es

def Block.recast (g : Guise) : Block → Block
  | .mk p statements => .mk (g.place p) (stmtsRecast g statements)

def stmtsRecast (g : Guise) : List Stmt → List Stmt
  | [] => []
  | s :: ss => s.recast g :: stmtsRecast g ss

def Branch.recast (g : Guise) : Branch → Branch
  | .mk p condition body => .mk (g.place p) (condition.recast g) (body.recast g)

def branchesRecast (g : Guise) : List Branch → List Branch
  | [] => []
  | b :: bs => b.recast g :: branchesRecast g bs

def Func.recast (g : Guise) : Func → Func
  | .mk p ident params hint body =>
    .mk (g.place p) (ident.recast g) (params.map (Param.recast g)) (g.hint hint)
      (g.body body (body.recast g))

def funcsRecast (g : Guise) : List Func → List Func
  | [] => []
  | f :: fs => f.recast g :: funcsRecast g fs

def Stmt.recast (g : Guise) : Stmt → Stmt
  | .expr p word value => .expr (g.place p) (g.word word) (value.recast g)
  | .assign p target value => .assign (g.place p) (target.recast g) (value.recast g)
  | .store p bracket object subscript value =>
    .store (g.place p) (g.place bracket) (object.recast g) (subscript.recast g) (value.recast g)
  | .choose p branches none => .choose (g.place p) (branchesRecast g branches) none
  | .choose p branches (some b) =>
      .choose (g.place p) (branchesRecast g branches) (some (b.recast g))
  | .repeatWhile p condition body =>
    .repeatWhile (g.place p) (condition.recast g) (body.recast g)
  | .forEach p item source body =>
    .forEach (g.place p) (item.recast g) (source.recast g) (body.recast g)
  | .declare f => .declare (f.recast g)
  | .classDef p ident fields methods =>
    .classDef (g.place p) (ident.recast g) (fields.map (Param.recast g)) (funcsRecast g methods)
  | .giveBack p none => .giveBack (g.place p) none
  | .giveBack p (some e) => .giveBack (g.place p) (some (e.recast g))
  | .leave p => .leave (g.place p)
  | .skip p => .skip (g.place p)

end

section

variable (g : Guise)

@[simp] theorem exprsRecast_eq_map (es : List Expr) :
    exprsRecast g es = es.map (Expr.recast g) := by
  induction es with
  | nil => rfl
  | cons e es ih => rw [exprsRecast, ih, List.map_cons]

@[simp] theorem stmtsRecast_eq_map (ss : List Stmt) :
    stmtsRecast g ss = ss.map (Stmt.recast g) := by
  induction ss with
  | nil => rfl
  | cons s ss ih => rw [stmtsRecast, ih, List.map_cons]

@[simp] theorem branchesRecast_eq_map (bs : List Branch) :
    branchesRecast g bs = bs.map (Branch.recast g) := by
  induction bs with
  | nil => rfl
  | cons b bs ih => rw [branchesRecast, ih, List.map_cons]

@[simp] theorem funcsRecast_eq_map (fs : List Func) :
    funcsRecast g fs = fs.map (Func.recast g) := by
  induction fs with
  | nil => rfl
  | cons f fs ih => rw [funcsRecast, ih, List.map_cons]

theorem Expr.position_recast (e : Expr) : (e.recast g).position = g.place e.position := by
  cases e <;> rfl

theorem Block.position_recast (b : Block) : (b.recast g).position = g.place b.position := by
  cases b
  rfl

theorem Block.statements_recast (b : Block) :
    (b.recast g).statements = b.statements.map (Stmt.recast g) := by
  cases b
  exact stmtsRecast_eq_map g _

theorem Func.position_recast (f : Func) : (f.recast g).position = g.place f.position := by
  cases f
  rfl

theorem Stmt.position_recast (s : Stmt) : (s.recast g).position = g.place s.position := by
  cases s with
  | declare f => exact f.position_recast g
  | choose p branches otherwise => cases otherwise <;> rfl
  | giveBack p value => cases value <;> rfl
  | _ => rfl

theorem Func.params_recast (f : Func) :
    (f.recast g).params.map (fun p => p.name.name) = f.params.map fun p => p.name.name := by
  cases f
  exact List.map_map

end

def Closure.recast (g : Guise) (f : Closure) : Closure :=
  { f with body := g.body f.body (f.body.recast g) }

def ClassDef.recast (g : Guise) (c : ClassDef) : ClassDef :=
  { c with methods := c.methods.map (Func.recast g) }

def HostFunction.recast (g : Guise) (f : HostFunction) : HostFunction :=
  { f with number := g.foreign f.number }

def HostPointer.recast (g : Guise) (p : HostPointer) : HostPointer :=
  { p with number := g.foreign p.number }

def Value.recast (g : Guise) : Value → Value
  | .some v id => .some (v.recast g) id
  | .function f id => .function (f.recast g) id
  | .classOf c id => .classOf (c.recast g) id
  | .hostFunction f name bound id => .hostFunction (f.recast g) name bound id
  | .host p id => .host (p.recast g) id
  | v => v

/-- The entries with other values. -/
def Bindings.map {α β : Type} (f : α → β) (b : Bindings α) : Bindings β :=
  ⟨b.entries.map fun entry => (entry.1, f entry.2)⟩

/-- The scopes with other values. -/
def Scopes.map {α β : Type} (f : α → β) (s : Scopes α) : Scopes β :=
  ⟨s.globals.map f, s.frames.map (Bindings.map f)⟩

def Instance.recast (g : Guise) (i : Instance) : Instance :=
  ⟨i.classDef.recast g, i.classId, i.fields.map (Value.recast g)⟩

def MutexCell.recast (g : Guise) (c : MutexCell) : MutexCell := ⟨c.value.recast g, c.locked⟩

def HostValue.recast (g : Guise) : HostValue → HostValue
  | .slice item items => .slice item (hostValuesRecast items)
  | .array item items => .array item (hostValuesRecast items)
  | .pointer p => .pointer (p.recast g)
  | .named name inner => .named name (inner.recast g)
  | .function f => .function (f.recast g)
  | .object v => .object (v.recast g)
  | h => h
where
  hostValuesRecast : List HostValue → List HostValue
    | [] => []
    | h :: hs => h.recast g :: hostValuesRecast hs

def HostMember.recast (g : Guise) : HostMember → HostMember
  | .method f => .method (f.recast g)
  | .field h => .field (h.recast g)

def Request.recast (g : Guise) : Request → Request
  | .file r => .file r
  | .call f args => .call (f.recast g) (args.map (HostValue.recast g))

/-- A host that answers in a guise. -/
def Host.recast (g : Guise) (h : Host) : Host := g.host (HostValue.recast g) h

/-- Surroundings whose host answers in a guise. -/
def Outside.recast (g : Guise) (o : Outside) : Outside := { o with host := o.host.recast g }

def Fault.recast (g : Guise) : Fault → Fault
  | .strayBreak callee => if g.hushes then .assertion else .strayBreak callee
  | .strayContinue callee => if g.hushes then .assertion else .strayContinue callee
  | fault => fault

def CallSite.recast (g : Guise) (site : CallSite) : CallSite :=
  ⟨site.callee, g.file site.file, g.place site.position⟩

def Failure.recast (g : Guise) (f : Failure) : Failure :=
  ⟨f.fault.recast g, g.place f.position, f.trace.map (CallSite.recast g), f.thread⟩

/-- What is known of a thread with a number, recast.  The report of a thread is
that of the thread itself. -/
def ThreadCell.recast (g : Guise) (id : Nat) : ThreadCell → ThreadCell
  | .waits callee file => .waits (callee.recast g) (g.file file)
  | .runs => .runs
  | .ended (.ok v) => .ended (.ok (v.recast g))
  | .ended (.error f) => .ended (.error { f.recast g with thread := some id })

/-- A guise of stores: also what becomes of what is known of the threads and of
the number of steps counted. -/
structure Veil extends Guise where
  threads : Array ThreadCell → Array ThreadCell
  steps : Nat → Nat

/-- What is known of the threads is recast too, and some more steps are counted. -/
def Guise.veil (g : Guise) (extra : Nat) : Veil :=
  { g with threads := fun cells => cells.mapIdx (ThreadCell.recast g), steps := (· + extra) }

def Store.recast (v : Veil) (s : Store) : Store :=
  { s with
    scopes := s.scopes.map (Value.recast v.toGuise)
    lists := s.lists.map fun items => items.map (Value.recast v.toGuise)
    instances := s.instances.map (Instance.recast v.toGuise)
    mutexes := s.mutexes.map (MutexCell.recast v.toGuise)
    threads := v.threads s.threads
    asked := s.asked.map (Request.recast v.toGuise)
    steps := v.steps s.steps
    outside := s.outside.recast v.toGuise }

/-- A guise that leaves functions, values, requests and the host as they are
changes nothing in a store but what is known of the threads and the number of
steps. -/
theorem Store.recast_of_plain {v : Veil} (s : Store) (hfunc : Func.recast v.toGuise = id)
    (hvalue : Value.recast v.toGuise = id) (hrequest : Request.recast v.toGuise = id)
    (houtside : Outside.recast v.toGuise = id) :
    s.recast v = { s with threads := v.threads s.threads, steps := v.steps s.steps } := by
  have hbindings : Bindings.map (Value.recast v.toGuise) = id := by
    funext b
    simp only [Bindings.map, hvalue]
    exact congrArg Bindings.mk (List.map_id _)
  have hscopes : s.scopes.map (Value.recast v.toGuise) = s.scopes := by
    simp only [Scopes.map, hbindings, Array.map_id]
    rfl
  have hlists : s.lists.map (fun items => items.map (Value.recast v.toGuise)) = s.lists := by
    simp only [hvalue, Array.map_id]
    exact Array.map_id' _
  have hinstance : Instance.recast v.toGuise = id := by
    funext i
    simp only [Instance.recast, ClassDef.recast, hbindings, hfunc, List.map_id]
    rfl
  have hcell : MutexCell.recast v.toGuise = id := by
    funext c
    simp only [MutexCell.recast, hvalue]
    rfl
  simp only [recast, hscopes, hlists, hinstance, hcell, hrequest, houtside, Array.map_id,
    List.map_id, id]

def Answer.recast (v : Veil) (a : Answer) : Answer :=
  (match a.1 with
    | .ok x => .ok (x.recast v.toGuise)
    | .error fault => .error (fault.recast v.toGuise), a.2.recast v)

def Outcome.recast (g : Guise) : Outcome → Outcome
  | .value v => .value (v.recast g)
  | .returned v => .returned (v.recast g)
  | .left => .left
  | .skipped => .skipped
  | .failed f => .failed (f.recast g)

def Purpose.recast (g : Guise) : Purpose → Purpose
  | .list => .list
  | .call callee site => .call (callee.recast g) (g.place site)
  | .method member receiver site => .method (member.recast g) (receiver.recast g) (g.place site)

def Frame.recast (g : Guise) (scope : Option Environment) : Frame → Frame
  | .leaveNode position outer => .leaveNode (position.map g.place) (outer.or scope)
  | .block rest env => .block (rest.map (Stmt.recast g)) env
  | .program rest env => .program (rest.map (Stmt.recast g)) env
  | .storeValue object subscript env => .storeValue (object.recast g) (subscript.recast g) env
  | .storeObject subscript value env => .storeObject (subscript.recast g) (value.recast g) env
  | .storeSubscript object value => .storeSubscript (object.recast g) (value.recast g)
  | .branchCondition body rest otherwise env =>
    .branchCondition (body.recast g) (rest.map (Branch.recast g))
      (otherwise.map (Block.recast g)) env
  | .branchTruth body rest otherwise env =>
    .branchTruth (body.recast g) (rest.map (Branch.recast g)) (otherwise.map (Block.recast g)) env
  | .whileCondition condition body env => .whileCondition (condition.recast g) (body.recast g) env
  | .whileTruth condition body env => .whileTruth (condition.recast g) (body.recast g) env
  | .whileBody condition body env => .whileBody (condition.recast g) (body.recast g) env
  | .forSource item body env => .forSource item (body.recast g) env
  | .forIterator item body env => .forIterator item (body.recast g) env
  | .forNext iterator item body env => .forNext (iterator.recast g) item (body.recast g) env
  | .forBody iterator item body env => .forBody (iterator.recast g) item (body.recast g) env
  | .items purpose env done rest =>
    .items (purpose.recast g) env (done.map (Value.recast g)) (rest.map (Expr.recast g))
  | .leftOperand op right env => .leftOperand op (right.recast g) env
  | .rightOperand op left => .rightOperand op (left.recast g)
  | .firstTerm op right env => .firstTerm op (right.recast g) env
  | .firstTruth op left right env => .firstTruth op (left.recast g) (right.recast g) env
  | .callee args site env => .callee (args.map (Expr.recast g)) (g.place site) env
  | .receiver field args env =>
    .receiver (field.recast g) (args.map fun es => es.map (Expr.recast g)) env
  | .indexObject subscript env => .indexObject (subscript.recast g) env
  | .indexSubscript object => .indexSubscript (object.recast g)
  | .check hook subject => .check hook (subject.recast g)
  | .printing done rest => .printing done (rest.map (Value.recast g))
  | .listText done rest => .listText done (rest.map (Value.recast g))
  | .pairs rest => .pairs (rest.map fun pair => (pair.1.recast g, pair.2.recast g))
  | .seeking target index onlyWhether rest =>
    .seeking (target.recast g) index onlyWhether (rest.map (Value.recast g))
  | .assertEqual left right wanted => .assertEqual (left.recast g) (right.recast g) wanted
  | .assertLeft right wanted => .assertLeft (right.recast g) wanted
  | f => f

def Control.recast (g : Guise) : Control → Control
  | .expr e env => .expr (e.recast g) env
  | .stmt s env => .stmt (s.recast g) env
  | .block b env => .block (b.recast g) env
  | .program statements env => .program (statements.map (Stmt.recast g)) env
  | .call callee args => .call (callee.recast g) (args.map (Value.recast g))
  | .hook receiver name args => .hook (receiver.recast g) name (args.map (Value.recast g))
  | .asleep wakeUp => .asleep wakeUp
  | .joining ids => .joining ids
  | .outcome o => .outcome (o.recast g)

/-- What a thread stands on in another guise: further frames below its own, the
nodes and hooks that go on there, and their scope. -/
structure Footing where
  frames : List Frame
  depth : Nat
  scope : Option Environment

/-- Nothing below. -/
def Footing.ground : Footing := ⟨[], 0, none⟩

def Task.recast (g : Guise) (below : Footing) (t : Task) : Task where
  control := t.control.recast g
  frames := t.frames.map (Frame.recast g below.scope) ++ below.frames
  scope := t.scope.or below.scope
  depth := t.depth + below.depth
  calls := t.calls.map (CallSite.recast g)
  file := g.file t.file

def World.recast (g : Guise) (below : Footing) (extra : Nat) (w : World) : World where
  store := w.store.recast (g.veil extra)
  main := w.main.recast g below
  threads := w.threads.map fun entry => (entry.1, entry.2.recast g .ground)
  age := 0

end Scriptlet
