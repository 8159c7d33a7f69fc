/-
What a step of a thread does to its frames and to its books, said once: it goes
on with plain frames, enters a node, a hook or a call, or leaves one.  What is
kept along every run follows from the few forms that a step has.
-/
import Scriptlet.Proofs.CallForms
import Scriptlet.Proofs.StepForms

namespace Scriptlet

namespace Frame

/-- Whether a frame may go on with a call: it waits for a part of an expression
that calls something. -/
def mayCall : Frame → Bool
  | .items _ _ _ _ | .leftOperand _ _ _ | .rightOperand _ _ | .callee _ _ _
  | .receiver _ _ _ => true
  | _ => false

end Frame

def Control.isCall : Control → Bool
  | .call _ _ => true
  | _ => false

/-- What a thread keeps account of: the scope of the node being evaluated, how
many nodes and hooks are going on, and the calls that stand in traces. -/
structure Books where
  scope : Option Environment
  depth : Nat
  calls : List CallSite

/-- The books once a frame is left. -/
def Frame.unwind : Frame → Books → Books
  | .leaveNode _ outer, b => { b with scope := outer, depth := b.depth - 1 }
  | .leaveHook, b => { b with depth := b.depth - 1 }
  | .leaveCall, b => { b with calls := b.calls.tail }
  | _, b => b

theorem Frame.unwind_of_not_isLeaving {f : Frame} (h : f.isLeaving = false) (b : Books) :
    f.unwind b = b := by
  cases f <;> first | rfl | exact nomatch h

namespace Task

def books (t : Task) : Books := ⟨t.scope, t.depth, t.calls⟩

def withBooks (t : Task) (b : Books) : Task :=
  { t with scope := b.scope, depth := b.depth, calls := b.calls }

/-- How a thread goes on without entering or leaving anything but a call that
is to stand in traces: plain frames are pushed, and there is something else to
do.  Calls are made, and frames that may make one are pushed, only if that may
be `here`. -/
inductive Onward (here : Prop) : Task → Task → Prop where
  | doing (t : Task) (c : Control) (hcall : c.isCall → here) : Onward here t (t.doing c)
  | pushed {t u : Task} (f : Frame) (hplain : f.isLeaving = false) (hcall : f.mayCall → here)
      (h : Onward here (t.pushed f) u) : Onward here t u
  | applying (t : Task) (s : Store) (callee : Value) (args : List Value) (site : Position)
      (hcall : here) : Onward here t (t.applying s callee args site)

namespace Onward

variable {here : Prop} {t : Task}

theorem turning {c : Control} (hcall : c.isCall = false) : Onward here t (t.doing c) :=
  .doing t c fun his => absurd his (by simp [hcall])

theorem ended (o : Outcome) : Onward here t (t.doing (.outcome o)) := .turning rfl

theorem answered (a : Answer) : Onward here t (t.answered a).1 := by
  obtain ⟨answer, s⟩ := a
  cases answer with
  | ok v => exact .ended _
  | error fault => exact .ended _

/-- A plain frame that makes no call may be pushed anywhere. -/
theorem behind {u : Task} {f : Frame} (h : Onward here (t.pushed f) u)
    (hplain : f.isLeaving = false) (hcall : f.mayCall = false) :
    Onward here t u :=
  .pushed f hplain (fun hmay => absurd hmay (by simp [hcall])) h

/-- A plain frame waits for the outcome of something that is no call. -/
theorem awaiting {f : Frame} {c : Control} (hplain : f.isLeaving = false)
    (hframe : f.mayCall → here) (hcall : c.isCall = false) : Onward here t (t.awaiting f c) :=
  .pushed f hplain hframe (.turning hcall)

theorem waiting {f : Frame} {c : Control} (hplain : f.isLeaving = false)
    (hframe : f.mayCall = false) (hcall : c.isCall = false) : Onward here t (t.awaiting f c) :=
  .awaiting hplain (fun hmay => absurd hmay (by simp [hframe])) hcall

end Onward

variable {here : Prop} {t : Task} {s : Store}

theorem onward_askTruth (t : Task) (v : Value) : Onward here t (t.askTruth v) := by
  unfold askTruth
  split
  · exact .ended _
  · exact .waiting rfl rfl rfl

theorem onward_askText (t : Task) (v : Value) : Onward here t (t.askText v) :=
  .waiting rfl rfl rfl

theorem onward_askEqual (t : Task) (s : Store) (a b : Value) :
    Onward here t (t.askEqual s a b) := by
  unfold askEqual
  split
  · exact .waiting rfl rfl rfl
  · exact .ended _

theorem onward_printing (t : Task) (s : Store) (done : List Text) (values : List Value) :
    Onward here t (t.printing s done values).1 := by
  induction values generalizing done with
  | nil => exact .answered _
  | cons v rest ih =>
      cases v with
      | str text id => exact ih _
      | _ => exact .behind (onward_askText _ _) rfl rfl

theorem onward_listText (t : Task) (s : Store) (done : List Text) (values : List Value) :
    Onward here t (t.listText s done values).1 := by
  cases values with
  | nil => exact .answered _
  | cons v rest => exact .behind (onward_askText _ v) rfl rfl

theorem onward_comparePairs (t : Task) (s : Store) (pairs : List (Value × Value)) :
    Onward here t (t.comparePairs s pairs) := by
  cases pairs with
  | nil => exact .ended _
  | cons pair rest => exact .behind (onward_askEqual _ s pair.1 pair.2) rfl rfl

theorem onward_seek (t : Task) (s : Store) (target : Value) (index : Nat) (onlyWhether : Bool)
    (values : List Value) : Onward here t (t.seek s target index onlyWhether values) := by
  cases values with
  | nil => exact .ended _
  | cons v rest => exact .behind (onward_askEqual _ s v target) rfl rfl

theorem onward_sleeping (t : Task) (s : Store) (ms : Float) :
    Onward here t (sleeping t s ms) := by
  unfold sleeping
  split
  · exact .ended _
  · exact .turning rfl

theorem onward_useMutex (hcall : here) (t : Task) (s : Store) (m : MutexMethod) (id : Nat)
    (cell : MutexCell) (arg : Option Value) : Onward here t (t.useMutex s m id cell arg).1 := by
  cases m with
  | get => exact .ended _
  | set => exact .ended _
  | update => exact .behind (.applying _ _ _ _ _ hcall) rfl rfl

theorem onward_joinThread (t : Task) (s : Store) (id : Nat) :
    t.joinThread s id = t ∨ Onward here t (t.joinThread s id) := by
  unfold joinThread
  split
  · exact .inr (.ended _)
  · exact .inr (.ended _)
  · exact .inl rfl

/-- Of the operations that call back only those of a mutex make a call; the
others go through hooks.  Where an operation has to wait nothing happens. -/
theorem onward_callBack (t : Task) (s : Store) (b : Builtin) (args : List Value)
    (hmutex : ∀ m id rest, b = .mutexOf m → args = .mutex id :: rest → here) :
    (t.callBack s b args).1 = t ∨ Onward here t (t.callBack s b args).1 := by
  generalize hr : t.callBack s b args = r
  cases callBack_form hr with
  | print => exact .inr (onward_printing _ _ _ _)
  | freshText v | someText v => exact .inr (.behind (onward_askText _ v) rfl rfl)
  | text | restless | refused => exact .inr (.answered _)
  | length | joinPool => exact .inr (.turning rfl)
  | spawned | decided | noMutex => exact .inr (.ended _)
  | sleep => exact .inr (onward_sleeping _ _ _)
  | assertTruth v => exact .inr (.behind (onward_askTruth _ v) rfl rfl)
  | assertEqual x y => exact .inr (.behind (onward_askEqual _ s x y) rfl rfl)
  | seek => exact .inr (onward_seek _ _ _ _ _ _)
  | listText => exact .inr (onward_listText _ _ _ _)
  | comparePairs => exact .inr (onward_comparePairs _ _ _)
  | optionEqual x y => exact .inr (onward_askEqual t s x y)
  | locked => exact .inl rfl
  | useMutex => exact .inr (onward_useMutex (hmutex _ _ _ rfl rfl) _ _ _ _ _ _)
  | joinThread => exact onward_joinThread _ _ _

theorem onward_callHost (t : Task) (s : Store) (f : HostFunction) (name : String) (bound : Bool)
    (args : List Value) : (t.callHost s f name bound args).1 = t ∨
      Onward here t (t.callHost s f name bound args).1 := by
  generalize hr : t.callHost s f name bound args = r
  cases callHost_form hr with
  | failing | having | refused => exact .inr (.ended _)
  | endless => exact .inl rfl

theorem onward_gathered (hcall : here) (t : Task) (s : Store) (values : List Value)
    (purpose : Purpose) : Onward here t (t.gathered s values purpose).1 := by
  cases purpose with
  | list => exact .answered _
  | call callee site => exact .applying _ _ _ _ _ hcall
  | method member receiver site =>
      simp only [gathered]
      split <;> exact .applying _ _ _ _ _ hcall

theorem onward_gather (hcall : here) (t : Task) (s : Store) (purpose : Purpose)
    (env : Environment) (done : List Value) (rest : List Expr) :
    Onward here t (t.gather s purpose env done rest).1 := by
  cases rest with
  | nil => exact onward_gathered hcall _ _ _ _
  | cons e rest => exact .awaiting rfl (fun _ => hcall) rfl

theorem onward_chooseFrom (t : Task) (env : Environment) (otherwise : Option Block)
    (branches : List Branch) : Onward here t (t.chooseFrom env otherwise branches) := by
  cases branches with
  | nil =>
      cases otherwise with
      | none => exact .ended _
      | some body => exact .turning rfl
  | cons branch rest =>
      cases branch
      exact .waiting rfl rfl rfl

theorem onward_beginExpr (hcall : here) (t : Task) (s : Store) (env : Environment) (e : Expr) :
    Onward here t (t.beginExpr s env e).1 := by
  cases e with
  | name i =>
      simp only [beginExpr]
      split <;> exact .ended _
  | int p lexeme n => exact .answered _
  | float p lexeme x => exact .answered _
  | str p text => exact .answered _
  | bool p b => exact .ended _
  | null p => exact .ended _
  | list p items => exact onward_gather hcall _ _ _ _ _ _
  | unary p op e => exact .waiting rfl rfl rfl
  | binary p op left right => cases op <;> exact .awaiting rfl (fun _ => hcall) rfl
  | call p callee args => exact .awaiting rfl (fun _ => hcall) rfl
  | member p object field => exact .awaiting rfl (fun _ => hcall) rfl
  | method p object field args => exact .awaiting rfl (fun _ => hcall) rfl
  | index p object subscript => exact .waiting rfl rfl rfl
  | lambda p params body => exact .ended _

theorem onward_beginStmt (t : Task) (s : Store) (env : Environment) (stmt : Stmt) :
    Onward here t (t.beginStmt s env stmt).1 := by
  cases stmt with
  | expr p q e => exact .turning rfl
  | assign p target e => exact .waiting rfl rfl rfl
  | store p q object subscript e => exact .waiting rfl rfl rfl
  | choose p branches otherwise => exact onward_chooseFrom _ _ _ _
  | repeatWhile p condition body => exact .waiting rfl rfl rfl
  | forEach p item source body => exact .waiting rfl rfl rfl
  | declare f => exact .ended _
  | classDef p ident fields methods => exact .ended _
  | giveBack p value =>
      cases value with
      | none => exact .ended _
      | some e => exact .waiting rfl rfl rfl
  | leave p => exact .ended _
  | skip p => exact .ended _

theorem onward_beginBlock (t : Task) (env : Environment) (statements : List Stmt) :
    Onward here t (t.beginBlock env statements) := by
  cases statements with
  | nil => exact .ended _
  | cons first rest => exact .waiting rfl rfl rfl

theorem onward_beginProgram (t : Task) (env : Environment) (statements : List Stmt) :
    Onward here t (t.beginProgram env statements) := by
  cases statements with
  | nil => exact .ended _
  | cons first rest => exact .waiting rfl rfl rfl

theorem onward_applyUnary (t : Task) (s : Store) (op : UnaryOp) (v : Value) :
    Onward here t (t.applyUnary s op v).1 := by
  unfold applyUnary
  split
  · exact .ended _
  · exact .turning rfl

theorem onward_applyBinary (hcall : here) (t : Task) (s : Store) (op : BinaryOp)
    (left right : Value) : Onward here t (t.applyBinary s op left right).1 := by
  unfold applyBinary
  split
  · exact onward_askEqual _ _ _ _
  · exact .behind (onward_askEqual _ _ _ _) rfl rfl
  · split
    · exact .doing _ _ (fun _ => hcall)
    · split <;> exact .ended _

theorem onward_useMember (hcall : here) (t : Task) (s : Store) (object : Value) (field : Ident)
    (env : Environment) (args : Option (List Expr)) :
    Onward here t (t.useMember s object field env args).1 := by
  cases args with
  | none => exact .answered _
  | some args =>
      simp only [useMember]
      split
      · exact .ended _
      · exact onward_gather hcall _ _ _ _ _ _

theorem onward_askNext (t : Task) (iterator : Value) (item : String) (body : Block)
    (env : Environment) : Onward here t (t.askNext iterator item body env) :=
  .waiting rfl rfl rfl

/-- With a value, a frame goes on with a call only if it is one that may. -/
theorem onward_value {v : Value} {f : Frame} {r : Task × Store} (h : ValueForm t s v f r)
    (hcall : f.mayCall → here) : Onward here t r.1 := by
  cases h with
  | passes | null | bool | fails | binding | giveBack | settled | updating => exact .ended _
  | text | found => exact .answered _
  | branch | secondTerm | indexSubscript => exact .turning rfl
  | next | storeValue | storeObject | storeSubscript | whileTruth | whileBody | forSource
  | forNext | indexObject => exact .waiting rfl rfl rfl
  | branchCondition | whileCondition | firstTerm =>
      exact .behind (onward_askTruth _ v) rfl rfl
  | choose => exact onward_chooseFrom _ _ _ _
  | forIterator | forBody => exact onward_askNext _ _ _ _ _
  | items | callee => exact onward_gather (hcall rfl) _ _ _ _ _ _
  | operand => exact onward_applyUnary _ _ _ _
  | leftOperand => exact .awaiting rfl (fun _ => hcall rfl) rfl
  | rightOperand => exact onward_applyBinary (hcall rfl) _ _ _ _ _
  | receiver => exact onward_useMember (hcall rfl) _ _ _ _ _ _
  | printing => exact onward_printing _ _ _ _
  | listText => exact onward_listText _ _ _ _
  | pairs => exact onward_comparePairs _ _ _
  | seek => exact onward_seek _ _ _ _ _ _
  | assertLeft | assertRight => exact .behind (onward_askText _ _) rfl rfl

/-- A plain frame enters and leaves nothing, whatever the outcome it gets. -/
theorem onward_resume (t : Task) (s : Store) (o : Outcome) (f : Frame)
    (hplain : f.isLeaving = false) : Onward (f.mayCall) t (t.resume s o f).1 := by
  generalize hr : t.resume s o f = r
  cases resume_form hr with
  | exited | leftHook | returned | leftFunction | leftInstance => exact nomatch hplain
  | programReturned | programFailed | programEnds | leftWhile | leftFor | unlocks | skips =>
      exact .ended _
  | programNext | againWhile => exact .waiting rfl rfl rfl
  | value v _ h => exact onward_value h id
  | againFor => exact onward_askNext _ _ _ _ _

/-- A frame of something that was entered is left with an outcome, and the
books are those from before. -/
theorem resume_leaving (t : Task) (s : Store) (o : Outcome) (f : Frame)
    (hleaving : f.isLeaving = true) :
    ∃ o', (t.resume s o f).1 = (t.withBooks (f.unwind t.books)).doing (.outcome o') := by
  cases f with
  | leaveNode position outer =>
      simp only [resume, exited]
      split <;> exact ⟨_, rfl⟩
  | leaveHook => exact ⟨_, rfl⟩
  | leaveCall => cases o <;> exact ⟨_, rfl⟩
  | leaveFunction name => exact ⟨_, rfl⟩
  | leaveInstance => exact ⟨_, rfl⟩
  | _ => exact nomatch hleaving

/-- Whether a thread is about to call a method of a mutex with a mutex. -/
def AsksMutex (t : Task) : Prop :=
  ∃ m id rest, t.control = .call (.builtin (.mutexOf m)) (.mutex id :: rest)

/-- The forms that a step of a thread has. -/
inductive Turn (limits : Limits) (t : Task) : Task → Prop where
  /-- The thread waits, or has its result. -/
  | same : Turn limits t t
  /-- Nothing is entered but what a mutex is updated with. -/
  | onward {u : Task} (h : Onward t.AsksMutex t u) : Turn limits t u
  | entered {u : Task} (position : Option Position) (env : Environment)
      (hdepth : t.depth < limits.maxDepth) (h : Onward True (t.entered position env) u) :
      Turn limits t u
  | hooked (callee receiver : Value) (args : List Value) (hdepth : t.depth < limits.maxDepth) :
      Turn limits t
        { t with
          control := .call callee (receiver :: args)
          frames := .leaveHook :: t.frames
          depth := t.depth + 1 }
  | function (f : Closure) (id : Nat) (args : List Value) (env : Environment)
      (hcontrol : t.control = .call (.function f id) args) :
      Turn limits t (t.awaiting (.leaveFunction f.name) (.block f.body env))
  | forwarded (id : Nat) (args : List Value) (callee : Value)
      (hcontrol : t.control = .call (.instance id) args) :
      Turn limits t (t.awaiting .leaveInstance (.call callee (.instance id :: args)))
  | resumed {u : Task} (o : Outcome) (f : Frame) (rest : List Frame)
      (hcontrol : t.control = .outcome o) (hframes : t.frames = f :: rest)
      (hplain : f.isLeaving = false) (h : Onward (f.mayCall) { t with frames := rest } u) :
      Turn limits t u
  | left (o o' : Outcome) (f : Frame) (rest : List Frame) (hcontrol : t.control = .outcome o)
      (hframes : t.frames = f :: rest) (hleaving : f.isLeaving = true) :
      Turn limits t
        (({ t with frames := rest }.withBooks (f.unwind t.books)).doing (.outcome o'))

theorem refusal_none {limits : Limits} {s' : Store} (h : t.refusal limits s = (none, s')) :
    t.depth < limits.maxDepth := by
  unfold refusal at h
  split at h
  · exact nomatch h
  · omega

theorem turn_call (limits : Limits) (t : Task) (s : Store) {callee : Value} {args : List Value}
    (hcontrol : t.control = .call callee args) : Turn limits t (t.call s callee args).1 := by
  generalize hr : t.call s callee args = r
  cases call_form hr with
  | arity | new | notCallable => exact .onward (.ended _)
  | function => exact .function _ _ _ _ hcontrol
  | @callBack b =>
      have hmutex : ∀ m id rest, b = .mutexOf m → args = .mutex id :: rest → t.AsksMutex := by
        rintro m id rest rfl rfl
        exact ⟨m, id, rest, hcontrol⟩
      rcases onward_callBack t s b args hmutex with hsame | hu
      · rw [hsame]
        exact .same
      · exact .onward hu
  | answered => exact .onward (.answered _)
  | host f name bound =>
      rcases onward_callHost t s f name bound args with hsame | hu
      · rw [hsame]
        exact .same
      · exact .onward hu
  | forwarded => exact .forwarded _ _ _ hcontrol

theorem turn_callHook (limits : Limits) (t : Task) (s : Store) (receiver : Value) (name : String)
    (args : List Value) : Turn limits t (t.callHook limits s receiver name args).1 := by
  generalize hr : t.callHook limits s receiver name args = r
  cases callHook_form hr with
  | tooDeep | missing => exact .onward (.ended _)
  | found hdepth => exact .hooked _ _ _ hdepth

/-- Every step of a thread has one of the forms. -/
theorem turn_step (limits : Limits) (t : Task) (s : Store) : Turn limits t (t.step limits s).1 := by
  generalize hr : t.step limits s = r
  cases step_form hr with
  | refused | calledOff | awakes | joinFailed => exact .onward (.ended _)
  | expr _ _ _ h => exact .entered _ _ (refusal_none h) (onward_beginExpr trivial _ _ _ _)
  | stmt _ _ _ h => exact .entered _ _ (refusal_none h) (onward_beginStmt _ _ _ _)
  | block _ _ _ h => exact .entered _ _ (refusal_none h) (onward_beginBlock _ _ _)
  | program _ _ _ h => exact .entered _ _ (refusal_none h) (onward_beginProgram _ _ _)
  | call _ _ hcontrol => exact turn_call limits t s hcontrol
  | hook => exact turn_callHook _ _ _ _ _ _
  | waits | ended => exact .same
  | joined => exact .onward (.answered _)
  | resumed o f rest hcontrol hframes =>
      cases hleaving : f.isLeaving with
      | true =>
          obtain ⟨o', ho'⟩ := resume_leaving { t with frames := rest } s o f hleaving
          rw [ho']
          exact .left o o' f rest hcontrol hframes hleaving
      | false => exact .resumed o f rest hcontrol hframes hleaving (onward_resume _ _ _ _ hleaving)

end Task

end Scriptlet
