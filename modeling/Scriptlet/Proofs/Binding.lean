/-
Where a thread may bind names, and that no step of it binds a name anywhere
else: the frames that wait, and what the thread is about to do, say in which
scopes names are yet to be bound.
-/
import Scriptlet.Machine.Step
import Scriptlet.Proofs.CallForms
import Scriptlet.Proofs.Settled

namespace Scriptlet

/-- Where names can be bound: among the global ones, or in a frame. -/
inductive Place where
  | globals
  | frame (n : Nat)
deriving DecidableEq, Repr

/-- Where an environment binds names: in its innermost frame, or globally if it
has no frame. -/
def Environment.innermost : Environment → Place
  | [] => .globals
  | frame :: _ => .frame frame

/-- Whether a thread with a number is yet to be started. -/
def Store.Waiting (s : Store) (id : Nat) : Prop :=
  ∃ callee file, s.threads[id]? = some (.waits callee file)

/-- Whether a store has all bindings and all instances of an earlier one as they
were, but for bindings in places where some may have been made.  No thread is
forgotten, and none that was started is to be started again. -/
structure Store.KeepsBindings (may : Place → Prop) (before after : Store) : Prop where
  globals : ¬ may .globals → after.scopes.globals = before.scopes.globals
  frames : ∀ (i : Nat) (b : Bindings Value), ¬ may (.frame i) →
    before.scopes.frames[i]? = some b → after.scopes.frames[i]? = some b
  instances : ∀ (i : Nat) (x : Instance), before.instances[i]? = some x →
    after.instances[i]? = some x
  frames_le : before.scopes.frames.size ≤ after.scopes.frames.size
  threads_le : before.threads.size ≤ after.threads.size
  waiting : ∀ id, id < before.threads.size → after.Waiting id → before.Waiting id

namespace Store.KeepsBindings

variable {may : Place → Prop} {before s s' : Store}

theorem refl (may : Place → Prop) (s : Store) : KeepsBindings may s s :=
  ⟨fun _ => rfl, fun _ _ _ h => h, fun _ _ h => h, Nat.le_refl _, Nat.le_refl _, fun _ _ h => h⟩

theorem trans (h : KeepsBindings may before s) (h' : KeepsBindings may s s') :
    KeepsBindings may before s' :=
  ⟨fun hnot => (h'.globals hnot).trans (h.globals hnot),
    fun i b hnot hb => h'.frames i b hnot (h.frames i b hnot hb),
    fun i x hx => h'.instances i x (h.instances i x hx),
    Nat.le_trans h.frames_le h'.frames_le, Nat.le_trans h.threads_le h'.threads_le,
    fun id hlt hid => h.waiting id hlt (h'.waiting id (Nat.lt_of_lt_of_le hlt h.threads_le) hid)⟩

theorem of_settled (h : KeepsBindings may before s) (hsame : s'.settled = s.settled) :
    KeepsBindings may before s' := by
  simp only [settled, Prod.mk.injEq] at hsame
  obtain ⟨hscopes, hinstances, hthreads⟩ := hsame
  obtain ⟨hglobals, hframes, hinst, hframesLe, hthreadsLe, hwaiting⟩ := h
  refine ⟨?_, ?_, ?_, ?_, ?_, ?_⟩
  · rwa [hscopes]
  · rwa [hscopes]
  · rwa [hinstances]
  · rwa [hscopes]
  · rwa [hthreads]
  · simpa only [Waiting, hthreads] using hwaiting

/-- Only where names may be bound matters, and among frames only those that
there were. -/
theorem mono {may' : Place → Prop} (h : KeepsBindings may before s)
    (hglobals : may .globals → may' .globals)
    (hframes : ∀ i, i < before.scopes.frames.size → may (.frame i) → may' (.frame i)) :
    KeepsBindings may' before s := by
  refine ⟨fun hnot => h.globals (mt hglobals hnot), ?_, h.instances, h.frames_le, h.threads_le,
    h.waiting⟩
  intro i b hnot hb
  obtain ⟨hi, -⟩ := Array.getElem?_eq_some_iff.mp hb
  exact h.frames i b (mt (hframes i hi) hnot) hb

/-- A name is bound where it may be. -/
theorem bind (h : KeepsBindings may before s) {env : Environment} (henv : may env.innermost)
    (name : String) (v : Value) :
    KeepsBindings may before { s with scopes := s.scopes.set env name v } := by
  refine h.trans ?_
  cases env with
  | nil =>
      exact ⟨fun hnot => absurd henv hnot, fun _ _ _ hb => hb, fun _ _ hx => hx, Nat.le_refl _,
        Nat.le_refl _, fun _ _ hid => hid⟩
  | cons frame outer =>
      refine ⟨fun _ => rfl, ?_, fun _ _ hx => hx, ?_, Nat.le_refl _, fun _ _ hid => hid⟩
      · intro i b hnot hb
        have hne : frame ≠ i := by
          rintro rfl
          exact hnot henv
        simpa [Scopes.set, Array.getElem?_modify, hne] using hb
      · simp [Scopes.set]

/-- A new frame leaves those that there are. -/
theorem extend (h : KeepsBindings may before s) (env : Environment) (frame : Bindings Value) :
    KeepsBindings may before { s with scopes := (s.scopes.extend env frame).2 } := by
  refine h.trans ⟨fun _ => rfl, ?_, fun _ _ hx => hx, ?_, Nat.le_refl _, fun _ _ hid => hid⟩
  · intro i b _ hb
    obtain ⟨hi, -⟩ := Array.getElem?_eq_some_iff.mp hb
    change (s.scopes.frames.push frame)[i]? = some b
    rwa [Array.getElem?_push_lt hi, ← Array.getElem?_eq_getElem hi]
  · simp [Scopes.extend]

/-- A new instance leaves those that there are. -/
theorem newInstance (h : KeepsBindings may before s) (i : Instance) :
    KeepsBindings may before (s.newInstance i).2 := by
  refine h.trans ⟨fun _ => rfl, fun _ _ _ hb => hb, ?_, Nat.le_refl _, Nat.le_refl _,
    fun _ _ hid => hid⟩
  intro j x hx
  obtain ⟨hj, -⟩ := Array.getElem?_eq_some_iff.mp hx
  change (s.instances.push i)[j]? = some x
  rwa [Array.getElem?_push_lt hj, ← Array.getElem?_eq_getElem hj]

theorem nextFresh (h : KeepsBindings may before s) :
    KeepsBindings may before { s with fresh := s.fresh + 1 } := h.of_settled rfl

theorem newThread (h : KeepsBindings may before s) (callee : Value) (file : String) :
    KeepsBindings may before (s.newThread callee file).2 := by
  refine h.trans
    ⟨fun _ => rfl, fun _ _ _ hb => hb, fun _ _ hx => hx, Nat.le_refl _, ?_, ?_⟩
  · simp [Store.newThread]
  · rintro id hlt ⟨callee', file', hid⟩
    refine ⟨callee', file', ?_⟩
    change (s.threads.push _)[id]? = _ at hid
    rwa [Array.getElem?_push_lt hlt, ← Array.getElem?_eq_getElem hlt] at hid

/-- A thread that has ended leaves everything else as it was. -/
theorem endThread (h : KeepsBindings may before s) (id : Nat) (r : Except Failure Value) :
    KeepsBindings may before (s.setThread id (.ended r)) := by
  refine h.trans
    ⟨fun _ => rfl, fun _ _ _ hb => hb, fun _ _ hx => hx, Nat.le_refl _, ?_, ?_⟩
  · simp [Store.setThread]
  · rintro i hlt ⟨callee, file, hi⟩
    refine ⟨callee, file, ?_⟩
    simp only [Store.setThread, Array.getElem?_modify] at hi
    split at hi
    · obtain ⟨cell, -, hcell⟩ := Option.map_eq_some_iff.mp hi
      exact nomatch hcell
    · exact hi

end Store.KeepsBindings

/-- The scope in which names may be bound when a frame goes on, if there is
one. -/
def Frame.binds? : Frame → Option Environment
  | .block _ env | .program _ env | .bind _ env
  | .branchCondition _ _ _ env | .branchTruth _ _ _ env
  | .whileCondition _ _ env | .whileTruth _ _ env | .whileBody _ _ env
  | .forSource _ _ env | .forIterator _ _ env | .forNext _ _ _ env | .forBody _ _ _ env => some env
  | _ => none

/-- The scope in which names may be bound by what a thread is about to do, if
there is one: that of a statement. -/
def Control.binds? : Control → Option Environment
  | .stmt _ env | .block _ env | .program _ env => some env
  | _ => none

/-- Whether a scope, if there is one, binds names only where that may be. -/
def Within (may : Place → Prop) (scope : Option Environment) : Prop :=
  ∀ env, scope = some env → may env.innermost

theorem Within.nowhere {may : Place → Prop} : Within may none := nofun

theorem Within.scope {may : Place → Prop} {env : Environment} (h : may env.innermost) :
    Within may (some env) := fun _ heq => Option.some.inj heq ▸ h

/-- Whether frames lie on those in `base`, and bind names only where that may
be. -/
def Stacked (may : Place → Prop) (base frames : List Frame) : Prop :=
  ∃ top, frames = top ++ base ∧ ∀ f ∈ top, Within may f.binds?

theorem Stacked.push {may : Place → Prop} {base frames : List Frame} {f : Frame}
    (h : Stacked may base frames) (hf : Within may f.binds?) : Stacked may base (f :: frames) := by
  obtain ⟨top, rfl, htop⟩ := h
  exact ⟨f :: top, rfl, List.forall_mem_cons.mpr ⟨hf, htop⟩⟩

namespace Task

variable {may : Place → Prop} {base : List Frame} {before : Store}

/-- Whether a thread, whose frames lie on those in `base`, binds names only
where that may be. -/
structure Binds (may : Place → Prop) (base : List Frame) (t : Task) : Prop where
  frames : Stacked may base t.frames
  control : Within may t.control.binds?

/-- Whether a thread binds names only where that may be, and the store has been
left so. -/
structure Leads (may : Place → Prop) (base : List Frame) (before : Store) (r : Task × Store) :
    Prop where
  task : r.1.Binds may base
  store : before.KeepsBindings may r.2

theorem Binds.doing {t : Task} {c : Control} (hf : Stacked may base t.frames)
    (hc : Within may c.binds?) : (t.doing c).Binds may base := ⟨hf, hc⟩

theorem Binds.ended {t : Task} {o : Outcome} (hf : Stacked may base t.frames) :
    (t.doing (.outcome o)).Binds may base := ⟨hf, .nowhere⟩

theorem Binds.awaiting {t : Task} {f : Frame} {c : Control} (hf : Stacked may base t.frames)
    (hframe : Within may f.binds?) (hc : Within may c.binds?) :
    (t.awaiting f c).Binds may base := ⟨hf.push hframe, hc⟩

variable {t : Task} {s : Store}

theorem Leads.answered {a : Answer} (hf : Stacked may base t.frames)
    (hs : before.KeepsBindings may s) (ha : a.2.settled = s.settled) :
    Leads may base before (t.answered a) := by
  obtain ⟨answer, s'⟩ := a
  cases answer with
  | ok v => exact ⟨.ended hf, hs.of_settled ha⟩
  | error fault => exact ⟨.ended hf, hs.of_settled ha⟩

theorem binds_askTruth (hf : Stacked may base t.frames) (v : Value) :
    (t.askTruth v).Binds may base := by
  unfold askTruth
  split
  · exact .ended hf
  · exact .awaiting hf .nowhere .nowhere

theorem binds_askText (hf : Stacked may base t.frames) (v : Value) :
    (t.askText v).Binds may base := .awaiting hf .nowhere .nowhere

theorem binds_askEqual (hf : Stacked may base t.frames) (s : Store) (a b : Value) :
    (t.askEqual s a b).Binds may base := by
  unfold askEqual
  split
  · exact .awaiting hf .nowhere .nowhere
  · exact .ended hf

theorem binds_applying (hf : Stacked may base t.frames) (s : Store) (callee : Value)
    (args : List Value) (site : Position) :
    (t.applying s callee args site).Binds may base := ⟨hf.push .nowhere, .nowhere⟩

theorem leads_printing (hf : Stacked may base t.frames) (hs : before.KeepsBindings may s)
    (done : List Text) (values : List Value) :
    Leads may base before (t.printing s done values) := by
  fun_induction printing t s done values with
  | case1 done => exact .answered hf hs (Store.settled_of_standing (Store.standing_printText _ _))
  | case2 done text _ rest ih => exact ih
  | case3 done v rest _ => exact ⟨binds_askText (hf.push .nowhere) v, hs⟩

theorem leads_listText (hf : Stacked may base t.frames) (hs : before.KeepsBindings may s)
    (done : List Text) (values : List Value) :
    Leads may base before (t.listText s done values) := by
  cases values with
  | nil => exact .answered (a := s.giveText _) hf hs rfl
  | cons v rest => exact ⟨binds_askText (hf.push .nowhere) v, hs⟩

theorem binds_comparePairs (hf : Stacked may base t.frames) (s : Store)
    (pairs : List (Value × Value)) : (t.comparePairs s pairs).Binds may base := by
  cases pairs with
  | nil => exact .ended hf
  | cons pair rest => exact binds_askEqual (hf.push .nowhere) s pair.1 pair.2

theorem binds_seek (hf : Stacked may base t.frames) (s : Store) (target : Value) (index : Nat)
    (onlyWhether : Bool) (values : List Value) :
    (t.seek s target index onlyWhether values).Binds may base := by
  cases values with
  | nil => exact .ended hf
  | cons v rest => exact binds_askEqual (hf.push .nowhere) s v target

theorem binds_sleeping (hf : Stacked may base t.frames) (s : Store) (ms : Float) :
    (sleeping t s ms).Binds may base := by
  unfold sleeping
  split
  · exact .ended hf
  · exact .doing hf .nowhere

theorem leads_useMutex (hf : Stacked may base t.frames) (hs : before.KeepsBindings may s)
    (m : MutexMethod) (id : Nat) (cell : MutexCell) (arg : Option Value) :
    Leads may base before (t.useMutex s m id cell arg) := by
  cases m with
  | get => exact ⟨.ended hf, hs⟩
  | set => exact ⟨.ended hf, hs.of_settled rfl⟩
  | update => exact ⟨binds_applying (hf.push .nowhere) _ _ _ _, hs.of_settled rfl⟩

theorem binds_joinThread (ht : t.Binds may base) (s : Store) (id : Nat) :
    (t.joinThread s id).Binds may base := by
  unfold joinThread
  split
  · exact .ended ht.frames
  · exact .ended ht.frames
  · exact ht

theorem leads_callBack (ht : t.Binds may base) (hs : before.KeepsBindings may s) (b : Builtin)
    (args : List Value) : Leads may base before (t.callBack s b args) := by
  have hf := ht.frames
  generalize hr : t.callBack s b args = r
  cases callBack_form hr with
  | print => exact leads_printing hf hs _ _
  | freshText v | someText v => exact ⟨binds_askText (hf.push .nowhere) v, hs⟩
  | text => exact .answered hf hs rfl
  | length | joinPool => exact ⟨.doing hf .nowhere, hs⟩
  | spawned => exact ⟨.ended hf, (hs.newThread _ _).of_settled rfl⟩
  | sleep => exact ⟨binds_sleeping hf _ _, hs⟩
  | restless => exact .answered hf hs rfl
  | assertTruth v => exact ⟨binds_askTruth (hf.push .nowhere) v, hs⟩
  | assertEqual x y => exact ⟨binds_askEqual (hf.push .nowhere) s x y, hs⟩
  | seek => exact ⟨binds_seek hf _ _ _ _ _, hs⟩
  | listText => exact leads_listText hf hs _ _
  | comparePairs => exact ⟨binds_comparePairs hf _ _, hs⟩
  | decided | noMutex => exact ⟨.ended hf, hs⟩
  | optionEqual x y => exact ⟨binds_askEqual hf s x y, hs⟩
  | locked => exact ⟨ht, hs⟩
  | useMutex => exact leads_useMutex hf hs _ _ _ _
  | joinThread => exact ⟨binds_joinThread ht _ _, hs⟩
  | refused => exact .answered hf hs (Store.settled_refuseReceiver _ _ _)

theorem standing_methodClosures (c : ClassDef) (env : Environment) (methods : List Func) :
    ∀ (s : Store) (done : List (String × Value)),
      (methodClosures s c env done methods).2.standing = s.standing := by
  induction methods with
  | nil => intro s done; rfl
  | cons f rest ih => intro s done; exact ih _ _

theorem keepsBindings_instantiate (hs : before.KeepsBindings may s) (c : ClassDef) (classId : Nat)
    (args : List Value) (env : Environment) :
    before.KeepsBindings may (instantiate s c classId args env).2 :=
  (hs.of_settled (Store.settled_of_standing
    (standing_methodClosures c env c.methods s []))).newInstance _

theorem leads_callHost (ht : t.Binds may base) (hs : before.KeepsBindings may s)
    (f : HostFunction) (name : String) (bound : Bool) (args : List Value) :
    Leads may base before (t.callHost s f name bound args) := by
  have hf := ht.frames
  generalize hr : t.callHost s f name bound args = r
  cases callHost_form hr with
  | failing => exact ⟨.ended hf, hs⟩
  | endless => exact ⟨ht, hs⟩
  | having hcall | refused _ hcall =>
      exact ⟨.ended hf, hs.of_settled (HostFunction.settled_call hcall)⟩

/-- A call binds names in a new frame only. -/
theorem leads_call (ht : t.Binds may base) (hs : before.KeepsBindings may s)
    (hnew : ∀ i, before.scopes.frames.size ≤ i → may (.frame i)) (callee : Value)
    (args : List Value) : Leads may base before (t.call s callee args) := by
  have hf := ht.frames
  generalize hr : t.call s callee args = r
  cases call_form hr with
  | arity | notCallable => exact ⟨.ended hf, hs⟩
  | function =>
      exact ⟨.awaiting hf .nowhere (.scope (hnew _ hs.frames_le)), hs.extend _ _⟩
  | callBack => exact leads_callBack ht hs _ _
  | answered => exact .answered hf hs (Builtin.settled_answer _ _ _)
  | host => exact leads_callHost ht hs _ _ _ _
  | new => exact ⟨.ended hf, keepsBindings_instantiate hs _ _ _ _⟩
  | forwarded => exact ⟨.awaiting hf .nowhere .nowhere, hs⟩

theorem leads_callHook (hf : Stacked may base t.frames) (hs : before.KeepsBindings may s)
    (limits : Limits) (receiver : Value) (name : String) (args : List Value) :
    Leads may base before (t.callHook limits s receiver name args) := by
  have hmember := Store.settled_member s receiver name
  generalize hr : t.callHook limits s receiver name args = r
  cases callHook_form hr with
  | tooDeep => exact ⟨.ended hf, hs⟩
  | missing h =>
      rw [h] at hmember
      exact ⟨.ended hf, hs.of_settled hmember⟩
  | found _ h =>
      rw [h] at hmember
      exact ⟨⟨hf.push .nowhere, .nowhere⟩, hs.of_settled hmember⟩

end Task

end Scriptlet
