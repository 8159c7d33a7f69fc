/-
What a step of a thread leaves of one mutex.  Only calls of its methods and the end of
an update of it change what is inside it, and only a call of its `update` makes an update
of it wait.
-/
import Scriptlet.Proofs.BindingSteps

namespace Scriptlet

def Store.KeepsMutex (m : Nat) (before after : Store) : Prop :=
  ∀ cell, before.mutexes[m]? = some cell → after.mutexes[m]? = some cell

namespace Store.KeepsMutex

variable {m : Nat} {before s s' : Store}

theorem refl (m : Nat) (s : Store) : KeepsMutex m s s := fun _ h => h

theorem of_mutexes (h : KeepsMutex m before s) (hsame : s'.mutexes = s.mutexes) :
    KeepsMutex m before s' := by
  intro cell hcell
  rw [hsame]
  exact h cell hcell

theorem of_standing (h : KeepsMutex m before s) (hsame : s'.standing = s.standing) :
    KeepsMutex m before s' := h.of_mutexes (mutexes_of_standing hsame)

/-- What is done to another mutex leaves this one. -/
theorem modify (h : KeepsMutex m before s) {id : Nat} (hne : id ≠ m)
    (change : MutexCell → MutexCell) :
    KeepsMutex m before { s with mutexes := s.mutexes.modify id change } := by
  intro cell hcell
  change (s.mutexes.modify id change)[m]? = some cell
  rw [Array.getElem?_modify, if_neg hne]
  exact h cell hcell

/-- A new mutex leaves those that there are. -/
theorem newMutex (h : KeepsMutex m before s) (v : Value) :
    KeepsMutex m before (s.newMutex v).2 := by
  intro cell hcell
  have hm := h cell hcell
  obtain ⟨hlt, -⟩ := Array.getElem?_eq_some_iff.mp hm
  change (s.mutexes.push ⟨v, false⟩)[m]? = some cell
  rwa [Array.getElem?_push_lt hlt, ← Array.getElem?_eq_getElem hlt]

end Store.KeepsMutex

/-- Whether frames lie on those in `base`, with no update of a mutex among those on
top. -/
def Clear (m : Nat) (base frames : List Frame) : Prop :=
  ∃ top, frames = top ++ base ∧ .updating m ∉ top

namespace Clear

variable {m : Nat} {base frames : List Frame}

theorem push (h : Clear m base frames) {f : Frame} (hf : f ≠ .updating m) :
    Clear m base (f :: frames) := by
  obtain ⟨top, rfl, htop⟩ := h
  refine ⟨f :: top, rfl, fun hmem => ?_⟩
  rcases List.mem_cons.mp hmem with hsame | hin
  · exact hf hsame.symm
  · exact htop hin

theorem of_notMem (h : .updating m ∉ frames) : Clear m [] frames :=
  ⟨frames, (List.append_nil frames).symm, h⟩

theorem notMem (h : Clear m base frames) (hbase : .updating m ∉ base) : .updating m ∉ frames := by
  obtain ⟨top, rfl, htop⟩ := h
  exact fun hmem => (List.mem_append.mp hmem).elim htop hbase

end Clear

namespace Task

variable {m : Nat} {base : List Frame} {before s : Store} {t : Task}

/-- Whether a thread, whose frames lie on those in `base`, has begun no update of a
mutex, and the mutex is as it was. -/
structure Spares (m : Nat) (base : List Frame) (before : Store) (r : Task × Store) : Prop where
  frames : Clear m base r.1.frames
  store : before.KeepsMutex m r.2

theorem Spares.answered {a : Answer} (hf : Clear m base t.frames) (hs : before.KeepsMutex m a.2) :
    Spares m base before (t.answered a) := by
  obtain ⟨answer, s'⟩ := a
  cases answer with
  | ok v => exact ⟨hf, hs⟩
  | error fault => exact ⟨hf, hs⟩

theorem clear_askTruth (hf : Clear m base t.frames) (v : Value) :
    Clear m base (t.askTruth v).frames := by
  unfold askTruth
  split
  · exact hf
  · exact hf.push (by simp)

theorem clear_askText (hf : Clear m base t.frames) (v : Value) :
    Clear m base (t.askText v).frames := hf.push (by simp)

theorem clear_askEqual (hf : Clear m base t.frames) (s : Store) (a b : Value) :
    Clear m base (t.askEqual s a b).frames := by
  unfold askEqual
  split
  · exact hf.push (by simp)
  · exact hf

theorem spares_printing (hf : Clear m base t.frames) (hs : before.KeepsMutex m s)
    (done : List Text) (values : List Value) :
    Spares m base before (t.printing s done values) := by
  fun_induction printing t s done values with
  | case1 done => exact .answered hf (hs.of_standing (Store.standing_printText _ _))
  | case2 done text _ rest ih => exact ih
  | case3 done v rest _ => exact ⟨clear_askText (hf.push (by simp)) v, hs⟩

theorem spares_listText (hf : Clear m base t.frames) (hs : before.KeepsMutex m s)
    (done : List Text) (values : List Value) :
    Spares m base before (t.listText s done values) := by
  cases values with
  | nil => exact .answered (a := s.giveText _) hf hs
  | cons v rest => exact ⟨clear_askText (hf.push (by simp)) v, hs⟩

theorem clear_comparePairs (hf : Clear m base t.frames) (s : Store)
    (pairs : List (Value × Value)) : Clear m base (t.comparePairs s pairs).frames := by
  cases pairs with
  | nil => exact hf
  | cons pair rest => exact clear_askEqual (hf.push (by simp)) s pair.1 pair.2

theorem clear_seek (hf : Clear m base t.frames) (s : Store) (target : Value) (index : Nat)
    (onlyWhether : Bool) (values : List Value) :
    Clear m base (t.seek s target index onlyWhether values).frames := by
  cases values with
  | nil => exact hf
  | cons v rest => exact clear_askEqual (hf.push (by simp)) s v target

theorem clear_sleeping (hf : Clear m base t.frames) (s : Store) (ms : Float) :
    Clear m base (sleeping t s ms).frames := by
  unfold sleeping
  split <;> exact hf

/-- The methods of another mutex spare this one. -/
theorem spares_useMutex (hf : Clear m base t.frames) (hs : before.KeepsMutex m s) {id : Nat}
    (hne : id ≠ m) (method : MutexMethod) (cell : MutexCell) (arg : Option Value) :
    Spares m base before (t.useMutex s method id cell arg) := by
  cases method with
  | get => exact ⟨hf, hs⟩
  | set => exact ⟨hf, hs.modify hne _⟩
  | update =>
      have hother : Frame.updating id ≠ .updating m := fun heq => hne (Frame.updating.inj heq)
      exact ⟨(hf.push hother).push (by simp), hs.modify hne _⟩

theorem clear_joinThread (hf : Clear m base t.frames) (s : Store) (id : Nat) :
    Clear m base (t.joinThread s id).frames := by
  unfold joinThread
  split <;> exact hf

theorem spares_callBack (hf : Clear m base t.frames) (hs : before.KeepsMutex m s) {b : Builtin}
    {args : List Value} (hother : ∀ method rest, b = .mutexOf method → args ≠ .mutex m :: rest) :
    Spares m base before (t.callBack s b args) := by
  generalize hr : t.callBack s b args = r
  cases callBack_form hr with
  | print => exact spares_printing hf hs _ _
  | freshText v | someText v => exact ⟨clear_askText (hf.push (by simp)) v, hs⟩
  | text => exact .answered hf hs
  | length | spawned | decided | locked | noMutex | joinPool => exact ⟨hf, hs⟩
  | sleep => exact ⟨clear_sleeping hf _ _, hs⟩
  | restless => exact .answered hf hs
  | assertTruth v => exact ⟨clear_askTruth (hf.push (by simp)) v, hs⟩
  | assertEqual x y => exact ⟨clear_askEqual (hf.push (by simp)) s x y, hs⟩
  | seek => exact ⟨clear_seek hf _ _ _ _ _, hs⟩
  | listText => exact spares_listText hf hs _ _
  | comparePairs => exact ⟨clear_comparePairs hf _ _, hs⟩
  | optionEqual x y => exact ⟨clear_askEqual hf s x y, hs⟩
  | @useMutex id cell method rest _ _ =>
      have hne : id ≠ m := by
        rintro rfl
        exact hother method rest rfl rfl
      exact spares_useMutex hf hs hne _ _ _
  | joinThread => exact ⟨clear_joinThread hf _ _, hs⟩
  | refused => exact .answered hf (hs.of_standing (Store.standing_refuseReceiver _ _ _))

theorem spares_callHost (hf : Clear m base t.frames) (hs : before.KeepsMutex m s)
    (f : HostFunction) (name : String) (bound : Bool) (args : List Value) :
    Spares m base before (t.callHost s f name bound args) := by
  generalize hr : t.callHost s f name bound args = r
  cases callHost_form hr with
  | failing | endless => exact ⟨hf, hs⟩
  | having hcall | refused _ hcall =>
      exact ⟨hf, hs.of_standing (HostFunction.standing_call hcall)⟩

theorem keepsMutex_answer (hs : before.KeepsMutex m s) (b : Builtin) (args : List Value) :
    before.KeepsMutex m (b.answer s args).2 := by
  by_cases hb : b = .mutex
  · subst hb
    obtain _ | ⟨v, _ | ⟨w, rest⟩⟩ := args
    · exact hs.of_standing (Store.standing_refuseReceiver s _ _)
    · exact hs.newMutex v
    · exact hs.of_standing (Store.standing_refuseReceiver s _ _)
  · exact hs.of_standing (b.standing_answer s hb args)

theorem keepsMutex_instantiate (hs : before.KeepsMutex m s) (c : ClassDef) (classId : Nat)
    (args : List Value) (env : Environment) :
    before.KeepsMutex m (instantiate s c classId args env).2 := by
  have hmethods : before.KeepsMutex m (methodClosures s c env [] c.methods).2 :=
    hs.of_standing (standing_methodClosures c env c.methods s [])
  exact hmethods

/-- Whether a thread is about to call a method of a mutex. -/
def Uses (m : Nat) (t : Task) : Prop :=
  ∃ method rest, t.control = .call (.builtin (.mutexOf method)) (.mutex m :: rest)

theorem spares_call (hf : Clear m base t.frames) (hs : before.KeepsMutex m s) {callee : Value}
    {args : List Value}
    (hother : ∀ method rest, callee = .builtin (.mutexOf method) → args ≠ .mutex m :: rest) :
    Spares m base before (t.call s callee args) := by
  generalize hr : t.call s callee args = r
  cases call_form hr with
  | arity | notCallable => exact ⟨hf, hs⟩
  | function => exact ⟨hf.push (by simp), hs⟩
  | callBack =>
      exact spares_callBack hf hs fun method rest hb => hother method rest (congrArg _ hb)
  | answered => exact .answered hf (keepsMutex_answer hs _ _)
  | host => exact spares_callHost hf hs _ _ _ _
  | new => exact ⟨hf, keepsMutex_instantiate hs _ _ _ _⟩
  | forwarded => exact ⟨hf.push (by simp), hs⟩

theorem spares_callHook (hf : Clear m base t.frames) (hs : before.KeepsMutex m s)
    (limits : Limits) (receiver : Value) (name : String) (args : List Value) :
    Spares m base before (t.callHook limits s receiver name args) := by
  have hmember := Store.standing_member s receiver name
  generalize hr : t.callHook limits s receiver name args = r
  cases callHook_form hr with
  | tooDeep => exact ⟨hf, hs⟩
  | missing h =>
      rw [h] at hmember
      exact ⟨hf, hs.of_standing hmember⟩
  | found _ h =>
      rw [h] at hmember
      exact ⟨hf.push (by simp), hs.of_standing hmember⟩

theorem spares_gathered (hf : Clear m base t.frames) (hs : before.KeepsMutex m s)
    (values : List Value) (purpose : Purpose) :
    Spares m base before (t.gathered s values purpose) := by
  cases purpose with
  | list => exact .answered (a := s.giveList _) hf hs
  | call callee site => exact ⟨hf.push (by simp), hs⟩
  | method member receiver site =>
      simp only [gathered]
      split <;> exact ⟨hf.push (by simp), hs⟩

theorem spares_gather (hf : Clear m base t.frames) (hs : before.KeepsMutex m s) (purpose : Purpose)
    (env : Environment) (done : List Value) (rest : List Expr) :
    Spares m base before (t.gather s purpose env done rest) := by
  cases rest with
  | nil => exact spares_gathered hf hs _ _
  | cons e rest => exact ⟨hf.push (by simp), hs⟩

theorem clear_chooseFrom (hf : Clear m base t.frames) (env : Environment) (otherwise : Option Block)
    (branches : List Branch) : Clear m base (t.chooseFrom env otherwise branches).frames := by
  cases branches with
  | nil => cases otherwise <;> exact hf
  | cons branch rest =>
      cases branch
      exact hf.push (by simp)

theorem spares_beginExpr (hf : Clear m base t.frames) (hs : before.KeepsMutex m s)
    (env : Environment) (e : Expr) : Spares m base before (t.beginExpr s env e) := by
  cases e with
  | name i =>
      simp only [beginExpr]
      split <;> exact ⟨hf, hs⟩
  | int p lexeme n => exact .answered (a := s.giveInt n) hf hs
  | float p lexeme x => exact .answered (a := s.giveFloat x) hf hs
  | str p text => exact .answered (a := s.giveText text) hf hs
  | bool p b => exact ⟨hf, hs⟩
  | null p => exact ⟨hf, hs⟩
  | list p items => exact spares_gather hf hs _ _ _ _
  | unary p op e => exact ⟨hf.push (by simp), hs⟩
  | binary p op left right => cases op <;> exact ⟨hf.push (by simp), hs⟩
  | call p callee args => exact ⟨hf.push (by simp), hs⟩
  | member p object field => exact ⟨hf.push (by simp), hs⟩
  | method p object field args => exact ⟨hf.push (by simp), hs⟩
  | index p object subscript => exact ⟨hf.push (by simp), hs⟩
  | lambda p params body => exact ⟨hf, hs⟩

theorem spares_beginStmt (hf : Clear m base t.frames) (hs : before.KeepsMutex m s)
    (env : Environment) (stmt : Stmt) : Spares m base before (t.beginStmt s env stmt) := by
  cases stmt with
  | expr p q e => exact ⟨hf, hs⟩
  | assign p target e => exact ⟨hf.push (by simp), hs⟩
  | store p q object subscript e => exact ⟨hf.push (by simp), hs⟩
  | choose p branches otherwise => exact ⟨clear_chooseFrom hf _ _ _, hs⟩
  | repeatWhile p condition body => exact ⟨hf.push (by simp), hs⟩
  | forEach p item source body => exact ⟨hf.push (by simp), hs⟩
  | declare f => exact ⟨hf, hs⟩
  | classDef p ident fields methods => exact ⟨hf, hs⟩
  | giveBack p value =>
      cases value with
      | none => exact ⟨hf, hs⟩
      | some e => exact ⟨hf.push (by simp), hs⟩
  | leave p => exact ⟨hf, hs⟩
  | skip p => exact ⟨hf, hs⟩

theorem clear_beginBlock (hf : Clear m base t.frames) (env : Environment) (statements : List Stmt) :
    Clear m base (t.beginBlock env statements).frames := by
  cases statements with
  | nil => exact hf
  | cons first rest => exact hf.push (by simp)

theorem clear_beginProgram (hf : Clear m base t.frames) (env : Environment)
    (statements : List Stmt) : Clear m base (t.beginProgram env statements).frames := by
  cases statements with
  | nil => exact hf
  | cons first rest => exact hf.push (by simp)

theorem spares_applyUnary (hf : Clear m base t.frames) (hs : before.KeepsMutex m s)
    (op : UnaryOp) (v : Value) : Spares m base before (t.applyUnary s op v) := by
  have hmember := Store.standing_member s v op.hook
  unfold applyUnary
  split <;> rename_i heq <;> rw [heq] at hmember <;> exact ⟨hf, hs.of_standing hmember⟩

theorem spares_applyBinary (hf : Clear m base t.frames) (hs : before.KeepsMutex m s)
    (op : BinaryOp) (left right : Value) :
    Spares m base before (t.applyBinary s op left right) := by
  unfold applyBinary
  split
  · exact ⟨clear_askEqual hf _ _ _, hs⟩
  · exact ⟨clear_askEqual (hf.push (by simp)) _ _ _, hs⟩
  · have hmember := Store.standing_member s left op.number.hook
    split <;> rename_i heq <;> rw [heq] at hmember
    · exact ⟨hf, hs.of_standing hmember⟩
    · split <;> exact ⟨hf, hs.of_standing hmember⟩

theorem spares_useMember (hf : Clear m base t.frames) (hs : before.KeepsMutex m s)
    (object : Value) (field : Ident) (env : Environment) (args : Option (List Expr)) :
    Spares m base before (t.useMember s object field env args) := by
  have hmember := Store.standing_member s object field.name
  cases args with
  | none => exact .answered hf (hs.of_standing hmember)
  | some args =>
      simp only [useMember]
      split <;> rename_i heq <;> rw [heq] at hmember
      · exact ⟨hf, hs.of_standing hmember⟩
      · exact spares_gather hf (hs.of_standing hmember) _ _ _ _

theorem keepsMutex_located (hs : before.KeepsMutex m s) (f : Failure) (p : Position) :
    before.KeepsMutex m (located s f p).2 := by
  unfold located
  split
  · exact hs
  · dsimp only
    split <;> exact hs

theorem spares_exited (hf : Clear m base t.frames) (hs : before.KeepsMutex m s)
    (position : Option Position) (outer : Option Environment) (o : Outcome) :
    Spares m base before (t.exited s position outer o) := by
  unfold exited
  dsimp only
  split
  · exact ⟨hf, keepsMutex_located hs _ _⟩
  · exact ⟨hf, hs⟩

/-- With a value, a frame that is no update of the mutex spares it. -/
theorem spares_value {v : Value} {f : Frame} {r : Task × Store} (h : ValueForm t s v f r)
    (hf : Clear m base t.frames) (hs : before.KeepsMutex m s) (hother : f ≠ .updating m) :
    Spares m base before r := by
  cases h with
  | passes | null | bool | fails | giveBack | settled | binding | branch | secondTerm
  | indexSubscript => exact ⟨hf, hs⟩
  | text => exact .answered (a := s.giveText _) hf hs
  | found => exact .answered hf hs
  | next | storeValue | storeObject | storeSubscript | leftOperand | indexObject | whileTruth
  | whileBody | forSource | forIterator | forBody | forNext => exact ⟨hf.push (by simp), hs⟩
  | branchCondition | whileCondition | firstTerm =>
      exact ⟨clear_askTruth (hf.push (by simp)) v, hs⟩
  | choose => exact ⟨clear_chooseFrom hf _ _ _, hs⟩
  | items | callee => exact spares_gather hf hs _ _ _ _
  | operand op => exact spares_applyUnary hf hs op v
  | rightOperand op left => exact spares_applyBinary hf hs op left v
  | receiver => exact spares_useMember hf hs _ _ _ _
  | printing => exact spares_printing hf hs _ _
  | listText => exact spares_listText hf hs _ _
  | pairs => exact ⟨clear_comparePairs hf _ _, hs⟩
  | seek => exact ⟨clear_seek hf _ _ _ _ _, hs⟩
  | updating id => exact ⟨hf, hs.modify (fun heq => hother (congrArg _ heq)) _⟩
  | assertLeft | assertRight => exact ⟨clear_askText (hf.push (by simp)) _, hs⟩

/-- Whatever its outcome, a frame that is no update of the mutex spares it. -/
theorem spares_resume (hf : Clear m base t.frames) (hs : before.KeepsMutex m s) (o : Outcome)
    {f : Frame} (hother : f ≠ .updating m) : Spares m base before (t.resume s o f) := by
  generalize hr : t.resume s o f = r
  cases resume_form hr with
  | exited => exact spares_exited hf hs _ _ _
  | returned => cases o <;> exact ⟨hf, hs⟩
  | leftHook | leftFunction | leftInstance | programReturned | programFailed | programEnds
  | leftWhile | leftFor | skips => exact ⟨hf, hs⟩
  | programNext | againWhile | againFor => exact ⟨hf.push (by simp), hs⟩
  | value _ _ h => exact spares_value h hf hs hother
  | unlocks id => exact ⟨hf, hs.modify (fun heq => hother (congrArg _ heq)) _⟩

/-- A step that neither calls a method of the mutex nor ends an update of it spares it.
The outcome that the frames in `base` wait for, if there are any, is not given to them. -/
theorem spares_step (hf : Clear m base t.frames) (huses : ¬ t.Uses m)
    (hgoing : ∀ o, t.control = .outcome o → t.frames = base → base = []) (limits : Limits)
    (s : Store) : Spares m base s (t.step limits s) := by
  have hentered : ∀ position env, Clear m base (t.entered position env).frames :=
    fun _ _ => hf.push (by simp)
  have hbegun : ∀ {fault : Option Fault} {s' : Store}, t.refusal limits s = (fault, s') →
      s.KeepsMutex m s' := by
    intro fault s' heq
    have hsame := standing_refusal limits t s
    rw [heq] at hsame
    exact (Store.KeepsMutex.refl m s).of_standing hsame
  generalize hr : t.step limits s = r
  cases step_form hr with
  | refused _ h => exact ⟨hf, hbegun h⟩
  | expr _ _ _ h => exact spares_beginExpr (hentered _ _) (hbegun h) _ _
  | stmt _ _ _ h => exact spares_beginStmt (hentered _ _) (hbegun h) _ _
  | block _ _ _ h => exact ⟨clear_beginBlock (hentered _ _) _ _, hbegun h⟩
  | program _ _ _ h => exact ⟨clear_beginProgram (hentered _ _) _ _, hbegun h⟩
  | call callee args hcontrol =>
      refine spares_call hf (.refl m s) ?_
      rintro method rest rfl rfl
      exact huses ⟨method, rest, hcontrol⟩
  | hook => exact spares_callHook hf (.refl m s) _ _ _ _
  | waits | ended | calledOff | awakes | joinFailed => exact ⟨hf, .refl m s⟩
  | joined => exact .answered (a := s.giveList _) hf (.refl m s)
  | resumed o f rest hcontrol hframes =>
      obtain ⟨top, hstack, htop⟩ := hf
      cases top with
      | nil =>
          obtain rfl := hgoing o hcontrol hstack
          exact nomatch hframes.symm.trans hstack
      | cons g top =>
          obtain ⟨rfl, rfl⟩ := List.cons.inj (hframes.symm.trans hstack)
          have hother : f ≠ .updating m := by
            rintro rfl
            exact htop List.mem_cons_self
          exact spares_resume ⟨top, rfl, fun hmem => htop (List.mem_cons_of_mem f hmem)⟩
            (.refl m s) o hother

end Task

end Scriptlet
