/-
What a thread holds: values made of instances that there are.  Each step keeps
it so, never takes back a step counted, and leaves a mutex locked only while its
update is going on, as long as no thread is spawned.
-/
import Scriptlet.Proofs.Holding
import Scriptlet.Proofs.BindingSteps

namespace Scriptlet

/-- Whether the value of an outcome is made of the first `n` instances. -/
def Outcome.Below (n : Nat) : Outcome → Prop
  | .value v | .returned v => v.Below n
  | _ => True

/-- Whether the values that a thread is about to use are made of the first `n`
instances, and no thread is waited for. -/
def Control.Below (n : Nat) : Control → Prop
  | .call callee args => callee.Below n ∧ ∀ v ∈ args, v.Below n
  | .hook receiver _ args => receiver.Below n ∧ ∀ v ∈ args, v.Below n
  | .outcome o => o.Below n
  | .joining ids => ids = []
  | _ => True

/-- Whether the values that a purpose holds are made of the first `n`
instances. -/
def Purpose.Below (n : Nat) : Purpose → Prop
  | .list => True
  | .call callee _ => callee.Below n
  | .method member receiver _ => member.Below n ∧ receiver.Below n

/-- Whether the values that a frame holds are made of the first `n`
instances. -/
def Frame.Below (n : Nat) : Frame → Prop
  | .storeObject _ v _ | .forNext v _ _ _ | .forBody v _ _ _ | .rightOperand _ v
  | .firstTruth _ v _ _ | .indexSubscript v | .check _ v | .assertLeft v _ => v.Below n
  | .storeSubscript a b | .assertEqual a b _ => a.Below n ∧ b.Below n
  | .items purpose _ done _ => purpose.Below n ∧ ∀ v ∈ done, v.Below n
  | .printing _ rest | .listText _ rest => ∀ v ∈ rest, v.Below n
  | .pairs rest => ∀ pair ∈ rest, pair.1.Below n ∧ pair.2.Below n
  | .seeking target _ _ rest => target.Below n ∧ ∀ v ∈ rest, v.Below n
  | _ => True

section

variable {n m : Nat}

theorem forall_below_mono {values : List Value} (h : ∀ v ∈ values, v.Below n) (hle : n ≤ m) :
    ∀ v ∈ values, v.Below m := fun v hv => (h v hv).mono hle

theorem Purpose.Below.mono {purpose : Purpose} (h : purpose.Below n) (hle : n ≤ m) :
    purpose.Below m := by
  cases purpose with
  | list => trivial
  | call callee site => exact Value.Below.mono h hle
  | method member receiver site => exact ⟨h.1.mono hle, h.2.mono hle⟩

theorem Frame.Below.mono {f : Frame} (h : f.Below n) (hle : n ≤ m) : f.Below m := by
  cases f with
  | storeObject _ v _ | forNext v _ _ _ | forBody v _ _ _ | rightOperand _ v | firstTruth _ v _ _
  | indexSubscript v | check _ v | assertLeft v _ => exact Value.Below.mono h hle
  | storeSubscript a b | assertEqual a b _ => exact ⟨h.1.mono hle, h.2.mono hle⟩
  | items purpose env done rest => exact ⟨h.1.mono hle, forall_below_mono h.2 hle⟩
  | printing done rest | listText done rest => exact forall_below_mono h hle
  | pairs rest => exact fun pair hmem => ⟨(h pair hmem).1.mono hle, (h pair hmem).2.mono hle⟩
  | seeking target index onlyWhether rest => exact ⟨h.1.mono hle, forall_below_mono h.2 hle⟩
  | _ => trivial

end

namespace Task

variable {least : Nat} {t : Task} {s s' : Store}

/-- Whether what a thread holds is made of instances that there are, mutexes are
locked only while an update is going on in it, and at least so many steps have
been counted. -/
structure Stands (least : Nat) (t : Task) (s : Store) : Prop where
  frames : ∀ f ∈ t.frames, f.Below s.instances.size
  store : s.Holds
  locks : ∀ id, s.Locked id → Frame.updating id ∈ t.frames
  steps : least ≤ s.steps

/-- The same with what the thread is about to do. -/
structure Sound (least : Nat) (r : Task × Store) : Prop where
  stands : r.1.Stands least r.2
  control : r.1.control.Below r.2.instances.size

namespace Stands

theorem push (h : t.Stands least s) {f : Frame} (hf : f.Below s.instances.size) :
    (t.pushed f).Stands least s :=
  ⟨List.forall_mem_cons.mpr ⟨hf, h.frames⟩, h.store,
    fun id hid => List.mem_cons_of_mem f (h.locks id hid), h.steps⟩

/-- Changes of a store that keep names, instances, lists, mutexes and pools, and
count no step, do not matter. -/
theorem same (h : t.Stands least s) (hscopes : s'.scopes = s.scopes)
    (hinstances : s'.instances = s.instances) (hobjects : s'.objects = s.objects) :
    t.Stands least s' := by
  refine ⟨?_, ⟨?_, ?_, ?_⟩, ?_, ?_⟩
  · rw [hinstances]
    exact h.frames
  · rw [hscopes, hinstances]
    exact h.store.scopes
  · rw [hinstances]
    exact h.store.objects.of_objects hobjects
  · rw [hinstances]
    exact h.store.fields
  · exact fun id hid =>
      h.locks id (Store.locked_of_mutexes (Store.mutexes_of_objects hobjects) hid)
  · rw [Store.steps_of_objects hobjects]
    exact h.steps

theorem withScopes (h : t.Stands least s) {scopes : Scopes Value}
    (hscopes : scopes.Below s.instances.size) : t.Stands least { s with scopes := scopes } :=
  ⟨h.frames, ⟨hscopes, ⟨h.store.objects.lists, h.store.objects.mutexes, h.store.objects.pools⟩,
    h.store.fields⟩, h.locks, h.steps⟩

theorem ended (h : t.Stands least s) {o : Outcome} (ho : o.Below s.instances.size) :
    Sound least (t.doing (.outcome o), s) := ⟨⟨h.frames, h.store, h.locks, h.steps⟩, ho⟩

theorem doing (h : t.Stands least s) {c : Control} (hc : c.Below s.instances.size) :
    Sound least (t.doing c, s) := ⟨⟨h.frames, h.store, h.locks, h.steps⟩, hc⟩

theorem awaiting (h : t.Stands least s) {f : Frame} {c : Control}
    (hf : f.Below s.instances.size) (hc : c.Below s.instances.size) :
    Sound least (t.awaiting f c, s) := by
  have hpushed := h.push hf
  exact ⟨⟨hpushed.frames, hpushed.store, hpushed.locks, hpushed.steps⟩, hc⟩

theorem answered (h : t.Stands least s) {a : Answer} (ha : Store.Answers s.instances.size s a)
    (hsettled : a.2.settled = s.settled) : Sound least (t.answered a) := by
  simp only [Store.settled, Prod.mk.injEq] at hsettled
  obtain ⟨hscopes, hinstances, -⟩ := hsettled
  have hafter : t.Stands least a.2 := by
    refine ⟨?_, ⟨?_, ?_, ?_⟩, fun id hid => h.locks id (ha.locks id hid), ?_⟩
    · rw [hinstances]
      exact h.frames
    · rw [hscopes, hinstances]
      exact h.store.scopes
    · rw [hinstances]
      exact ha.objects
    · rw [hinstances]
      exact h.store.fields
    · rw [ha.steps]
      exact h.steps
  obtain ⟨answer, s'⟩ := a
  cases answer with
  | ok v =>
      apply hafter.ended
      change v.Below s'.instances.size
      rw [hinstances]
      exact ha.value v rfl
  | error fault => exact hafter.ended trivial

theorem applying (h : t.Stands least s) {callee : Value} {args : List Value}
    (hcallee : callee.Below s.instances.size) (hargs : ∀ v ∈ args, v.Below s.instances.size)
    (site : Position) (s' : Store) : Sound least (t.applying s' callee args site, s) := by
  have hpushed := h.push (f := .leaveCall) trivial
  exact ⟨⟨hpushed.frames, hpushed.store, hpushed.locks, hpushed.steps⟩, hcallee, hargs⟩

end Stands

section

variable (h : t.Stands least s)
include h

theorem sound_askTruth {v : Value} (hv : v.Below s.instances.size) :
    Sound least (t.askTruth v, s) := by
  unfold askTruth
  split
  · exact h.ended trivial
  · exact h.awaiting hv ⟨hv, List.forall_mem_nil _⟩

theorem sound_askText {v : Value} (hv : v.Below s.instances.size) :
    Sound least (t.askText v, s) := h.awaiting hv ⟨hv, List.forall_mem_nil _⟩

theorem sound_askEqual {a b : Value} (ha : a.Below s.instances.size)
    (hb : b.Below s.instances.size) (s' : Store) : Sound least (t.askEqual s' a b, s) := by
  unfold askEqual
  split
  · exact h.awaiting ha ⟨ha, List.forall_mem_singleton.mpr hb⟩
  · exact h.ended trivial

theorem sound_printing (done : List Text) {values : List Value}
    (hvalues : ∀ v ∈ values, v.Below s.instances.size) :
    Sound least (t.printing s done values) := by
  induction values generalizing done with
  | nil =>
      exact h.answered (Store.answers_printText h.store.objects _)
        (Store.settled_of_standing (Store.standing_printText _ _))
  | cons v rest ih =>
      obtain ⟨hv, hrest⟩ := List.forall_mem_cons.mp hvalues
      cases v with
      | str text id => exact ih _ hrest
      | _ => exact sound_askText (h.push (f := .printing done rest) hrest) hv

theorem sound_listText (done : List Text) {values : List Value}
    (hvalues : ∀ v ∈ values, v.Below s.instances.size) :
    Sound least (t.listText s done values) := by
  cases values with
  | nil => exact h.answered (a := s.giveText _) (.ok h.store.objects rfl trivial) rfl
  | cons v rest =>
      obtain ⟨hv, hrest⟩ := List.forall_mem_cons.mp hvalues
      exact sound_askText (h.push (f := .listText done rest) hrest) hv

theorem sound_comparePairs {pairs : List (Value × Value)}
    (hpairs : ∀ pair ∈ pairs, pair.1.Below s.instances.size ∧ pair.2.Below s.instances.size) :
    Sound least (t.comparePairs s pairs, s) := by
  cases pairs with
  | nil => exact h.ended trivial
  | cons pair rest =>
      obtain ⟨⟨ha, hb⟩, hrest⟩ := List.forall_mem_cons.mp hpairs
      exact sound_askEqual (h.push (f := .pairs rest) hrest) ha hb s

theorem sound_seek {target : Value} (htarget : target.Below s.instances.size) (index : Nat)
    (onlyWhether : Bool) {values : List Value} (hvalues : ∀ v ∈ values, v.Below s.instances.size) :
    Sound least (t.seek s target index onlyWhether values, s) := by
  cases values with
  | nil =>
      apply h.ended
      cases onlyWhether <;> trivial
  | cons v rest =>
      obtain ⟨hv, hrest⟩ := List.forall_mem_cons.mp hvalues
      exact sound_askEqual (h.push (f := .seeking target index onlyWhether rest) ⟨htarget, hrest⟩)
        hv htarget s

theorem sound_sleeping (s' : Store) (ms : Float) : Sound least (t.sleeping s' ms, s) := by
  unfold sleeping
  split
  · exact h.ended trivial
  · exact h.doing trivial

end

/-- After one of the mutexes was changed it is locked if the change leaves it
so, and the others as they were. -/
theorem locked_modify {id i : Nat} {change : MutexCell → MutexCell}
    (h : { s with mutexes := s.mutexes.modify id change }.Locked i) :
    (id = i ∧ ∃ c ∈ s.mutexes[i]?, (change c).locked = true) ∨ id ≠ i ∧ s.Locked i := by
  obtain ⟨cell, hcell, hlocked⟩ := h
  change (s.mutexes.modify id change)[i]? = some cell at hcell
  rw [Array.getElem?_modify] at hcell
  split at hcell <;> rename_i hid
  · obtain ⟨c, hc, rfl⟩ := Option.map_eq_some_iff.mp hcell
    exact .inl ⟨hid, c, hc, hlocked⟩
  · exact .inr ⟨hid, cell, hcell, hlocked⟩

theorem Stands.withMutex (h : t.Stands least s) (id : Nat) {change : MutexCell → MutexCell}
    (hvalue : ∀ c ∈ s.mutexes, (change c).value.Below s.instances.size)
    (hlocks : ∀ i, { s with mutexes := s.mutexes.modify id change }.Locked i →
      Frame.updating i ∈ t.frames) :
    t.Stands least { s with mutexes := s.mutexes.modify id change } :=
  ⟨h.frames, ⟨h.store.scopes, ⟨h.store.objects.lists,
    forall_mem_modify h.store.objects.mutexes id hvalue, h.store.objects.pools⟩,
    h.store.fields⟩, hlocks, h.steps⟩

theorem sound_useMutex (h : t.Stands least s) (m : MutexMethod) {id : Nat} {cell : MutexCell}
    (hcell : s.mutexes[id]? = some cell) {arg : Option Value}
    (harg : ∀ v, arg = some v → v.Below s.instances.size) :
    Sound least (t.useMutex s m id cell arg) := by
  have hheld : cell.value.Below s.instances.size :=
    h.store.objects.mutexes cell (Array.mem_of_getElem? hcell)
  have hv : (arg.getD .null).Below s.instances.size := by
    cases arg with
    | none => trivial
    | some v => exact harg v rfl
  cases m with
  | get => exact h.ended hheld
  | set =>
      refine (h.withMutex id (fun _ _ => hv) ?_).ended trivial
      intro i hi
      rcases locked_modify hi with ⟨-, c, hc, hlocked⟩ | ⟨-, hlocked⟩
      · exact h.locks i ⟨c, hc, hlocked⟩
      · exact h.locks i hlocked
  | update =>
      have hpushed : (t.pushed (.updating id)).Stands least s := h.push trivial
      have hlocked : (t.pushed (.updating id)).Stands least
          { s with mutexes := s.mutexes.modify id fun c => { c with locked := true } } := by
        refine hpushed.withMutex id (fun c hc => h.store.objects.mutexes c hc) ?_
        intro i hi
        rcases locked_modify hi with ⟨rfl, -⟩ | ⟨-, hold⟩
        · exact List.mem_cons_self
        · exact hpushed.locks i hold
      exact hlocked.applying hv (List.forall_mem_singleton.mpr hheld) _ _

/-- The pairs of elements to compare are made of what the lists hold. -/
theorem listPairs_below {n a b : Nat} (hs : s.Objects n) {pairs : List (Value × Value)}
    (hpairs : listPairs s a b = .inr pairs) :
    ∀ pair ∈ pairs, pair.1.Below n ∧ pair.2.Below n := by
  unfold listPairs at hpairs
  dsimp only at hpairs
  split at hpairs
  · exact nomatch hpairs
  · split at hpairs
    · exact nomatch hpairs
    · obtain rfl := Sum.inr.inj hpairs
      intro pair hpair
      obtain ⟨hleft, hright⟩ := List.of_mem_zip (a := pair.1) (b := pair.2) hpair
      exact ⟨hs.listItems a _ (Array.mem_toList_iff.mp hleft),
        hs.listItems b _ (Array.mem_toList_iff.mp hright)⟩

/-- An operation that calls back holds what it was given, as long as no thread
is spawned. -/
theorem sound_callBack (h : t.Stands least s) {b : Builtin} {args : List Value}
    (hargs : ∀ v ∈ args, v.Below s.instances.size) (hcontrol : t.control.Below s.instances.size)
    (hthreads : (t.callBack s b args).2.threads.size = 0) :
    Sound least (t.callBack s b args) := by
  have hlist : ∀ id, ∀ v ∈ (s.listItems id).toList, v.Below s.instances.size :=
    fun id v hv => h.store.objects.listItems id v (Array.mem_toList_iff.mp hv)
  generalize hr : t.callBack s b args = r at hthreads ⊢
  cases callBack_form hr with
  | print => exact sound_printing h _ hargs
  | freshText => exact sound_askText (h.push (f := .freshText) trivial) (hargs _ (by simp))
  | someText v id =>
      have hv : v.Below s.instances.size := hargs (.some v id) (by simp)
      exact sound_askText (h.push (f := .someText) trivial) hv
  | text => exact h.answered (a := s.giveText _) (.ok h.store.objects rfl trivial) rfl
  | length => exact h.doing ⟨hargs _ (by simp), List.forall_mem_nil _⟩
  | spawned => simp [Store.newThread] at hthreads
  | sleep => exact sound_sleeping h _ _
  | restless => exact h.answered (a := s.refuseType _ _ _) (.error h.store.objects rfl) rfl
  | assertTruth => exact sound_askTruth (h.push (f := .assertTruth) trivial) (hargs _ (by simp))
  | assertEqual x y wanted =>
      have hx := hargs x (by simp)
      have hy := hargs y (by simp)
      exact sound_askEqual (h.push (f := .assertEqual x y wanted) ⟨hx, hy⟩) hx hy s
  | seek => exact sound_seek h (hargs _ (by simp)) _ _ (hlist _)
  | listText => exact sound_listText h _ (hlist _)
  | comparePairs hpairs => exact sound_comparePairs h (listPairs_below h.store.objects hpairs)
  | decided | noMutex => exact h.ended trivial
  | optionEqual x y i j =>
      have hx : x.Below s.instances.size := hargs (.some x i) (by simp)
      have hy : y.Below s.instances.size := hargs (.some y j) (by simp)
      exact sound_askEqual h hx hy s
  | locked => exact ⟨h, hcontrol⟩
  | useMutex m rest hcell =>
      refine sound_useMutex h m hcell ?_
      intro v hv
      exact hargs v (List.mem_cons_of_mem _ (List.mem_of_mem_head? hv))
  | joinThread id =>
      have hthread : (Value.thread id).Below s.instances.size := hargs _ (by simp)
      exact hthread.elim
  | joinPool id =>
      refine h.doing ?_
      rw [h.store.objects.pool_empty id]
      rfl
  | refused =>
      exact h.answered (Store.answers_refuseReceiver h.store.objects _ _)
        (Store.settled_refuseReceiver _ _ _)

/-- The methods of an instance are new functions. -/
theorem methodClosures_below (c : ClassDef) (env : Environment) (methods : List Func) {n : Nat} :
    ∀ (s : Store) (before : List (String × Value)), (∀ entry ∈ before, entry.2.Below n) →
      (∀ entry ∈ (methodClosures s c env before methods).1, entry.2.Below n) ∧
        (methodClosures s c env before methods).2.objects = s.objects := by
  induction methods with
  | nil =>
      intro s before hbefore
      exact ⟨fun entry hmem => hbefore entry (List.mem_reverse.mp hmem), rfl⟩
  | cons f rest ih =>
      intro s before hbefore
      exact ih _ _ (List.forall_mem_cons.mpr ⟨trivial, hbefore⟩)

theorem zip_below {n : Nat} (names : List String) {values : List Value}
    (hvalues : ∀ v ∈ values, v.Below n) : ∀ entry ∈ names.zip values, entry.2.Below n := by
  intro entry hentry
  obtain ⟨-, hvalue⟩ := List.of_mem_zip (a := entry.1) (b := entry.2) hentry
  exact hvalues _ hvalue

/-- A new instance holds what was made before it. -/
theorem Stands.newInstance (h : t.Stands least s) (c : ClassDef) (classId : Nat)
    {fields : Bindings Value} (hfields : fields.Below s.instances.size) :
    Sound least (t.having (s.newInstance ⟨c, classId, fields⟩).1,
      (s.newInstance ⟨c, classId, fields⟩).2) := by
  have hsize : (s.newInstance ⟨c, classId, fields⟩).2.instances.size = s.instances.size + 1 :=
    Array.size_push _
  have hle : s.instances.size ≤ (s.newInstance ⟨c, classId, fields⟩).2.instances.size := by
    omega
  have hobjects := h.store.objects
  refine ⟨⟨?_, ⟨h.store.scopes.mono hle, ⟨?_, ?_, hobjects.pools⟩, ?_⟩, h.locks, h.steps⟩, ?_⟩
  · exact fun f hf => (h.frames f hf).mono hle
  · exact fun items hitems v hv => (hobjects.lists items hitems v hv).mono hle
  · exact fun cell hcell => (hobjects.mutexes cell hcell).mono hle
  · intro i x hx
    change (s.instances.push ⟨c, classId, fields⟩)[i]? = some x at hx
    rw [Array.getElem?_push] at hx
    split at hx <;> rename_i hi
    · obtain rfl := Option.some.inj hx
      rw [hi]
      exact hfields
    · exact h.store.fields i x hx
  · exact Nat.lt_of_lt_of_eq (Nat.lt_succ_self _) hsize.symm

theorem sound_instantiate (h : t.Stands least s) (c : ClassDef) (classId : Nat)
    {args : List Value} (hargs : ∀ v ∈ args, v.Below s.instances.size) (env : Environment) :
    Sound least (t.having (instantiate s c classId args env).1,
      (instantiate s c classId args env).2) := by
  obtain ⟨hmethods, hobjects⟩ :=
    methodClosures_below (n := s.instances.size) c env c.methods s [] (List.forall_mem_nil _)
  have hsettled := Store.settled_of_standing (standing_methodClosures c env c.methods s [])
  simp only [Store.settled, Prod.mk.injEq] at hsettled
  obtain ⟨hscopes, hinstances, -⟩ := hsettled
  refine (h.same hscopes hinstances hobjects).newInstance c classId ?_
  rw [hinstances]
  exact (Bindings.below_empty.setAll (zip_below c.fields hargs)).setAll hmethods

/-- A call holds what it was given, as long as no thread is spawned. -/
theorem sound_call (h : t.Stands least s) {callee : Value} {args : List Value}
    (hcallee : callee.Below s.instances.size) (hargs : ∀ v ∈ args, v.Below s.instances.size)
    (hcontrol : t.control.Below s.instances.size)
    (hthreads : (t.call s callee args).2.threads.size = 0) :
    Sound least (t.call s callee args) := by
  generalize hr : t.call s callee args = r at hthreads ⊢
  cases call_form hr with
  | arity | notCallable => exact h.ended trivial
  | @function f =>
      have hframe := Bindings.below_empty.setAll (zip_below f.params hargs)
      exact (h.withScopes (h.store.scopes.extend f.env hframe)).awaiting trivial trivial
  | callBack => exact sound_callBack h hargs hcontrol hthreads
  | @answered b =>
      exact h.answered (b.answers_answer h.store.objects hargs) (b.settled_answer s args)
  | host => exact hcallee.elim
  | @new c _ id => exact sound_instantiate h c id hargs _
  | forwarded _ hfield =>
      have hf := (h.store.field? hfield).mono (Nat.le_of_lt hcallee)
      exact h.awaiting trivial ⟨hf, List.forall_mem_cons.mpr ⟨hcallee, hargs⟩⟩

theorem sound_callHook (h : t.Stands least s) (limits : Limits) {receiver : Value}
    (hreceiver : receiver.Below s.instances.size) (name : String) {args : List Value}
    (hargs : ∀ v ∈ args, v.Below s.instances.size) :
    Sound least (t.callHook limits s receiver name args) := by
  obtain ⟨hsame, hfound⟩ := h.store.member hreceiver name
  generalize hr : t.callHook limits s receiver name args = r
  cases callHook_form hr with
  | tooDeep => exact h.ended trivial
  | missing hmember =>
      rw [hmember] at hsame
      obtain rfl := hsame
      exact h.ended trivial
  | found _ hmember =>
      rw [hmember] at hsame hfound
      obtain rfl := hsame
      have hpushed := h.push (f := .leaveHook) trivial
      exact ⟨⟨hpushed.frames, hpushed.store, hpushed.locks, hpushed.steps⟩, hfound _ rfl,
        List.forall_mem_cons.mpr ⟨hreceiver, hargs⟩⟩

theorem sound_gathered (h : t.Stands least s) {values : List Value}
    (hvalues : ∀ v ∈ values, v.Below s.instances.size) {purpose : Purpose}
    (hpurpose : purpose.Below s.instances.size) : Sound least (t.gathered s values purpose) := by
  cases purpose with
  | list =>
      refine h.answered (a := s.giveList values.toArray) ?_ rfl
      exact Store.answers_giveList h.store.objects
        fun v hv => hvalues v (List.mem_toArray.mp hv)
  | call callee site => exact h.applying hpurpose hvalues _ _
  | method member receiver site =>
      obtain ⟨hmember, hreceiver⟩ := hpurpose
      simp only [gathered]
      split
      · exact h.applying hmember hvalues _ _
      · exact h.applying hmember (List.forall_mem_cons.mpr ⟨hreceiver, hvalues⟩) _ _

theorem sound_gather (h : t.Stands least s) {purpose : Purpose}
    (hpurpose : purpose.Below s.instances.size) (env : Environment) {done : List Value}
    (hdone : ∀ v ∈ done, v.Below s.instances.size) (rest : List Expr) :
    Sound least (t.gather s purpose env done rest) := by
  cases rest with
  | nil => exact sound_gathered h (fun v hv => hdone v (List.mem_reverse.mp hv)) hpurpose
  | cons e rest => exact h.awaiting (f := .items purpose env done rest) ⟨hpurpose, hdone⟩ trivial

theorem sound_chooseFrom (h : t.Stands least s) (env : Environment) (otherwise : Option Block)
    (branches : List Branch) : Sound least (t.chooseFrom env otherwise branches, s) := by
  cases branches with
  | nil =>
      cases otherwise with
      | none => exact h.ended trivial
      | some body => exact h.doing trivial
  | cons branch rest =>
      cases branch
      exact h.awaiting trivial trivial

theorem sound_binding (h : t.Stands least s) (env : Environment) (name : String) {v : Value}
    (hv : v.Below s.instances.size) : Sound least (t.binding s env name v) :=
  (h.withScopes (h.store.scopes.set env hv)).ended trivial

theorem sound_beginExpr (h : t.Stands least s) (env : Environment) (e : Expr) :
    Sound least (t.beginExpr s env e) := by
  cases e with
  | name i =>
      simp only [beginExpr]
      split <;> rename_i hfound
      · exact h.ended (h.store.scopes.get? hfound)
      · exact h.ended trivial
  | int p lexeme n => exact h.answered (a := s.giveInt n) (.ok h.store.objects rfl trivial) rfl
  | float p lexeme x => exact h.answered (a := s.giveFloat x) (.ok h.store.objects rfl trivial) rfl
  | str p text => exact h.answered (a := s.giveText text) (.ok h.store.objects rfl trivial) rfl
  | bool p b => exact h.ended trivial
  | null p => exact h.ended trivial
  | list p items =>
      have hlist : Purpose.list.Below s.instances.size := trivial
      exact sound_gather h hlist _ (List.forall_mem_nil _) _
  | unary p op e => exact h.awaiting trivial trivial
  | binary p op left right => cases op <;> exact h.awaiting trivial trivial
  | call p callee args => exact h.awaiting trivial trivial
  | member p object field => exact h.awaiting trivial trivial
  | method p object field args => exact h.awaiting trivial trivial
  | index p object subscript => exact h.awaiting trivial trivial
  | lambda p params body =>
      exact (h.same rfl rfl rfl : t.Stands least { s with fresh := s.fresh + 1 }).ended trivial

theorem sound_beginStmt (h : t.Stands least s) (env : Environment) (stmt : Stmt) :
    Sound least (t.beginStmt s env stmt) := by
  have hfresh : t.Stands least { s with fresh := s.fresh + 1 } := h.same rfl rfl rfl
  cases stmt with
  | expr p q e => exact h.doing trivial
  | assign p target e => exact h.awaiting trivial trivial
  | store p q object subscript e => exact h.awaiting trivial trivial
  | choose p branches otherwise => exact sound_chooseFrom h _ _ _
  | repeatWhile p condition body => exact h.awaiting trivial trivial
  | forEach p item source body => exact h.awaiting trivial trivial
  | declare f => exact sound_binding hfresh env f.ident.name trivial
  | classDef p ident fields methods => exact sound_binding hfresh env ident.name trivial
  | giveBack p value =>
      cases value with
      | none => exact h.ended trivial
      | some e => exact h.awaiting trivial trivial
  | leave p => exact h.ended trivial
  | skip p => exact h.ended trivial

theorem sound_beginBlock (h : t.Stands least s) (env : Environment) (statements : List Stmt) :
    Sound least (t.beginBlock env statements, s) := by
  cases statements with
  | nil => exact h.ended trivial
  | cons first rest => exact h.awaiting trivial trivial

theorem sound_beginProgram (h : t.Stands least s) (env : Environment) (statements : List Stmt) :
    Sound least (t.beginProgram env statements, s) := by
  cases statements with
  | nil => exact h.ended trivial
  | cons first rest => exact h.awaiting trivial trivial

section

variable (h : t.Stands least s)
include h

theorem sound_applyUnary (op : UnaryOp) {v : Value} (hv : v.Below s.instances.size) :
    Sound least (t.applyUnary s op v) := by
  obtain ⟨hsame, -⟩ := h.store.member hv op.hook
  unfold applyUnary
  split <;> rename_i heq <;> rw [heq] at hsame <;> obtain rfl := hsame
  · exact h.ended trivial
  · exact h.doing ⟨hv, List.forall_mem_nil _⟩

theorem sound_applyBinary (op : BinaryOp) {left right : Value}
    (hleft : left.Below s.instances.size) (hright : right.Below s.instances.size) :
    Sound least (t.applyBinary s op left right) := by
  unfold applyBinary
  split
  · exact sound_askEqual h hleft hright s
  · exact sound_askEqual (h.push (f := .negated) trivial) hleft hright s
  · obtain ⟨hsame, hfound⟩ := h.store.member hleft op.number.hook
    split <;> rename_i heq <;> rw [heq] at hsame hfound <;> obtain rfl := hsame
    · refine h.doing ⟨hfound _ rfl, ?_⟩
      exact List.forall_mem_cons.mpr ⟨hleft, List.forall_mem_singleton.mpr hright⟩
    · split <;> exact h.ended trivial

theorem sound_useMember {object : Value} (hobject : object.Below s.instances.size) (field : Ident)
    (env : Environment) (args : Option (List Expr)) :
    Sound least (t.useMember s object field env args) := by
  obtain ⟨hsame, hfound⟩ := h.store.member hobject field.name
  cases args with
  | none =>
      refine h.answered (a := s.member object field.name) ⟨hfound, ?_, ?_, ?_⟩ ?_
      · rw [hsame]
        exact h.store.objects
      · rw [hsame]
      · rw [hsame]
        exact fun _ hid => hid
      · rw [hsame]
  | some args =>
      simp only [useMember]
      split <;> rename_i heq <;> rw [heq] at hsame hfound <;> obtain rfl := hsame
      · exact h.ended trivial
      · rename_i f _
        have hpurpose : (Purpose.method f object field.position).Below _ :=
          ⟨hfound _ rfl, hobject⟩
        exact sound_gather h hpurpose env (List.forall_mem_nil _) args

theorem sound_askNext {iterator : Value} (hiterator : iterator.Below s.instances.size)
    (item : String) (body : Block) (env : Environment) :
    Sound least (t.askNext iterator item body env, s) :=
  h.awaiting (f := .forNext iterator item body env) hiterator ⟨hiterator, List.forall_mem_nil _⟩

/-- With a value, a frame goes on with values that it, or the store, holds. -/
theorem sound_value {v : Value} {f : Frame} {r : Task × Store} (hform : ValueForm t s v f r)
    (hv : v.Below s.instances.size) (hf : f.Below s.instances.size)
    (hplain : ∀ id, f ≠ .updating id) : Sound least r := by
  cases hform with
  | passes => exact h.ended hv
  | null | bool | fails => exact h.ended trivial
  | text => exact h.answered (a := s.giveText _) (.ok h.store.objects rfl trivial) rfl
  | next | whileTruth | whileBody => exact h.awaiting trivial trivial
  | binding name env => exact sound_binding h env name hv
  | storeValue object subscript env =>
      exact h.awaiting (f := .storeObject subscript v env) hv trivial
  | storeObject subscript value env =>
      exact h.awaiting (f := .storeSubscript v value) ⟨hv, hf⟩ trivial
  | storeSubscript object value =>
      obtain ⟨hobject, hvalue⟩ := hf
      refine h.awaiting (f := .stored) trivial ⟨hobject, ?_⟩
      exact List.forall_mem_cons.mpr ⟨hv, List.forall_mem_singleton.mpr hvalue⟩
  | branchCondition body rest otherwise env =>
      exact sound_askTruth (h.push (f := .branchTruth body rest otherwise env) trivial) hv
  | branch | secondTerm => exact h.doing trivial
  | choose => exact sound_chooseFrom h _ _ _
  | whileCondition condition body env =>
      exact sound_askTruth (h.push (f := .whileTruth condition body env) trivial) hv
  | forSource => exact h.awaiting trivial ⟨hv, List.forall_mem_nil _⟩
  | forIterator => exact sound_askNext h hv _ _ _
  | @forNext inner id iterator item body env hsome =>
      have hinner : inner.Below s.instances.size := by
        subst hsome
        exact hv
      exact (h.withScopes (h.store.scopes.set env hinner)).awaiting
        (f := .forBody iterator item body env) hf trivial
  | forBody => exact sound_askNext h hf _ _ _
  | giveBack => exact h.ended hv
  | items purpose env done rest =>
      exact sound_gather h hf.1 env (List.forall_mem_cons.mpr ⟨hv, hf.2⟩) rest
  | operand op => exact sound_applyUnary h op hv
  | leftOperand op right env => exact h.awaiting (f := .rightOperand op v) hv trivial
  | rightOperand op left => exact sound_applyBinary h op hf hv
  | firstTerm op right env =>
      exact sound_askTruth (h.push (f := .firstTruth op v right env) hv) hv
  | settled => exact h.ended hf
  | callee args site env =>
      have hpurpose : (Purpose.call v site).Below s.instances.size := hv
      exact sound_gather h hpurpose env (List.forall_mem_nil _) args
  | receiver => exact sound_useMember h hv _ _ _
  | indexObject subscript env => exact h.awaiting (f := .indexSubscript v) hv trivial
  | indexSubscript object => exact h.doing ⟨hf, List.forall_mem_singleton.mpr hv⟩
  | printing => exact sound_printing h _ hf
  | listText => exact sound_listText h _ hf
  | pairs => exact sound_comparePairs h hf
  | found =>
      refine h.answered (a := (s.newInt _).2.giveSome (s.newInt _).1) ?_ rfl
      exact Store.answers_giveSome h.store.objects rfl trivial
  | seek => exact sound_seek h hf.1 _ _ hf.2
  | updating id => exact absurd rfl (hplain id)
  | assertLeft left right wanted =>
      exact sound_askText (h.push (f := .assertLeft right wanted) hf.2) hf.1
  | assertRight left right wanted =>
      exact sound_askText (h.push (f := .assertRight left wanted) trivial) hf

theorem sound_exited (position : Option Position) (outer : Option Environment) {o : Outcome}
    (ho : o.Below s.instances.size) : Sound least (t.exited s position outer o) := by
  have hbooks : ∀ (s' : Store), t.Stands least s' →
      { t with scope := outer, depth := t.depth - 1 }.Stands least s' :=
    fun s' hs => ⟨hs.frames, hs.store, hs.locks, hs.steps⟩
  unfold exited
  dsimp only
  split
  · rename_i f p
    have hlocated : t.Stands least (located s f p).2 := by
      unfold located
      split
      · exact h
      · dsimp only
        split <;> exact h.same rfl rfl rfl
    exact (hbooks _ hlocated).ended trivial
  · exact (hbooks s h).ended ho

theorem sound_returned {o : Outcome} (ho : o.Below s.instances.size) :
    Sound least (t.returned o, s) := by
  have hbooks : { t with calls := t.calls.tail }.Stands least s :=
    ⟨h.frames, h.store, h.locks, h.steps⟩
  cases o with
  | failed f => exact hbooks.ended trivial
  | value v | returned v | left | skipped => exact hbooks.ended ho

theorem sound_resume {o : Outcome} (ho : o.Below s.instances.size) {f : Frame}
    (hf : f.Below s.instances.size) (hplain : ∀ id, f ≠ .updating id) :
    Sound least (t.resume s o f) := by
  generalize hr : t.resume s o f = r
  cases resume_form hr with
  | exited => exact sound_exited h _ _ ho
  | leftHook =>
      have hbooks : { t with depth := t.depth - 1 }.Stands least s :=
        ⟨h.frames, h.store, h.locks, h.steps⟩
      exact hbooks.ended ho
  | returned => exact sound_returned h ho
  | leftFunction =>
      refine h.ended ?_
      cases o <;> first | exact ho | trivial
  | leftInstance | programReturned | programEnds | skips => exact h.ended ho
  | programFailed | leftWhile | leftFor => exact h.ended trivial
  | programNext | againWhile => exact h.awaiting trivial trivial
  | value v _ hform => exact sound_value h hform ho hf hplain
  | againFor => exact sound_askNext h hf _ _ _
  | unlocks id => exact absurd rfl (hplain id)

end

/-- The end of an update leaves its mutex unlocked. -/
theorem sound_resume_updating {rest : List Frame} {id : Nat}
    (h : { t with frames := .updating id :: rest }.Stands least s) {o : Outcome}
    (ho : o.Below s.instances.size) :
    Sound least ({ t with frames := rest }.resume s o (.updating id)) := by
  have hafter : ∀ v : Option Value, (∀ x, v = some x → x.Below s.instances.size) →
      { t with frames := rest }.Stands least (unlocked s id v) := by
    intro v hv
    have hlocks : ∀ i, (unlocked s id v).Locked i → Frame.updating i ∈ rest := by
      intro i hi
      rcases locked_modify hi with ⟨-, c, -, hlocked⟩ | ⟨hne, hlocked⟩
      · exact nomatch hlocked
      · rcases List.mem_cons.mp (h.locks i hlocked) with heq | hmem
        · exact absurd (Frame.updating.inj heq).symm hne
        · exact hmem
    have hobjects := h.store.objects
    have hmutexes : ∀ cell ∈ s.mutexes.modify id fun c =>
        { c with value := v.getD c.value, locked := false }, cell.value.Below s.instances.size := by
      refine forall_mem_modify hobjects.mutexes id ?_
      intro c hc
      cases v with
      | none => exact hobjects.mutexes c hc
      | some x => exact hv x rfl
    exact ⟨fun f hf => h.frames f (List.mem_cons_of_mem _ hf),
      ⟨h.store.scopes, ⟨hobjects.lists, hmutexes, hobjects.pools⟩, h.store.fields⟩, hlocks, h.steps⟩
  cases o with
  | value v => exact (hafter (some v) fun x hx => Option.some.inj hx ▸ ho).ended ho
  | returned v => exact (hafter none nofun).ended ho
  | left | skipped | failed f => exact (hafter none nofun).ended trivial

theorem Sound.mono {more : Nat} {r : Task × Store} (h : Sound more r) (hle : least ≤ more) :
    Sound least r :=
  ⟨⟨h.stands.frames, h.stands.store, h.stands.locks, Nat.le_trans hle h.stands.steps⟩, h.control⟩

theorem Stands.counted (h : t.Stands least s) :
    t.Stands (s.steps + 1) { s with steps := s.steps + 1 } := by
  have hobjects := h.store.objects
  exact ⟨h.frames, ⟨h.store.scopes, ⟨hobjects.lists, hobjects.mutexes, hobjects.pools⟩,
    h.store.fields⟩, h.locks, Nat.le_refl _⟩

/-- A node is refused, or its step is counted and does not go beyond the
limit. -/
theorem refusal_cases (limits : Limits) (t : Task) (s : Store) :
    (∃ fault, t.refusal limits s = (some fault, s) ∨
      t.refusal limits s = (some fault, { s with steps := s.steps + 1 })) ∨
    t.refusal limits s = (none, { s with steps := s.steps + 1 }) ∧
      (0 < limits.maxSteps → s.steps < limits.maxSteps) := by
  unfold refusal
  split
  · exact .inl ⟨_, .inl rfl⟩
  · dsimp only
    split <;> rename_i hsteps
    · exact .inl ⟨_, .inr rfl⟩
    · cases hcalled : s.outside.calledOff with
      | some reason => exact .inl ⟨.cancelled reason, .inr rfl⟩
      | none =>
          refine .inr ⟨rfl, ?_⟩
          intro hpos
          simp only [hpos, decide_true, Bool.true_and, decide_eq_true_eq] at hsteps
          omega

theorem Stands.entered (h : t.Stands least s) (position : Option Position) (env : Environment) :
    (t.entered position env).Stands least s :=
  ⟨List.forall_mem_cons.mpr ⟨trivial, h.frames⟩, h.store,
    fun id hid => List.mem_cons_of_mem _ (h.locks id hid), h.steps⟩

/-- A node that is refused fails, and one that is not has its step counted. -/
theorem sound_node (h : t.Stands least s) (limits : Limits) (hnode : t.control.isNode = true) :
    (∃ fault, (t.step limits s).1 = t.failing fault ∧ (t.refusal limits s).1 = some fault ∧
      Sound least (t.step limits s)) ∨
    (t.refusal limits s).1 = none ∧ (0 < limits.maxSteps → s.steps < limits.maxSteps) ∧
      Sound (s.steps + 1) (t.step limits s) := by
  have hcounted := h.counted
  have hmore : t.Stands least { s with steps := s.steps + 1 } :=
    ⟨h.frames, hcounted.store, h.locks, Nat.le_succ_of_le h.steps⟩
  rcases refusal_cases limits t s with ⟨fault, hrefusal⟩ | ⟨hrefusal, hsteps⟩
  · refine .inl ⟨fault, ?_⟩
    cases hcontrol : t.control with
    | expr e env | stmt st env | block b env | program statements env =>
        rcases hrefusal with hrefusal | hrefusal <;> simp only [step, hcontrol, hrefusal]
        · exact ⟨trivial, trivial, h.ended trivial⟩
        · exact ⟨trivial, trivial, hmore.ended trivial⟩
    | _ =>
        rw [hcontrol] at hnode
        cases hnode
  · refine .inr ⟨by rw [hrefusal], hsteps, ?_⟩
    cases hcontrol : t.control with
    | expr e env =>
        simp only [step, hcontrol, hrefusal]
        exact sound_beginExpr (hcounted.entered _ _) env e
    | stmt st env =>
        simp only [step, hcontrol, hrefusal]
        exact sound_beginStmt (hcounted.entered _ _) env st
    | block b env =>
        simp only [step, hcontrol, hrefusal]
        exact sound_beginBlock (hcounted.entered _ _) env b.statements
    | program statements env =>
        simp only [step, hcontrol, hrefusal]
        exact sound_beginProgram (hcounted.entered _ _) env statements
    | _ =>
        rw [hcontrol] at hnode
        cases hnode

theorem step_resume (limits : Limits) (s : Store) {o : Outcome} {f : Frame} {rest : List Frame}
    (hcontrol : t.control = .outcome o) (hframes : t.frames = f :: rest) :
    t.step limits s = { t with frames := rest }.resume s o f := by
  obtain ⟨control, frames, scope, depth, calls, file⟩ := t
  obtain rfl : control = .outcome o := hcontrol
  obtain rfl : frames = f :: rest := hframes
  rfl

/-- Each step keeps what a thread holds, as long as no thread is spawned. -/
theorem sound_step (h : Sound least (t, s)) (limits : Limits)
    (hthreads : (t.step limits s).2.threads.size = 0) : Sound least (t.step limits s) := by
  obtain ⟨hstands, hcontrol⟩ := h
  cases hc : t.control with
  | expr e env | stmt st env | block b env | program statements env =>
      rcases sound_node hstands limits (by rw [hc]; rfl) with ⟨_, -, -, hsound⟩ | ⟨-, -, hsound⟩
      · exact hsound
      · exact hsound.mono (Nat.le_succ_of_le hstands.steps)
  | call callee args =>
      have hbelow : (Control.call callee args).Below s.instances.size := hc ▸ hcontrol
      simp only [step, hc] at hthreads ⊢
      exact sound_call hstands hbelow.1 hbelow.2 hcontrol hthreads
  | hook receiver name args =>
      have hbelow : (Control.hook receiver name args).Below s.instances.size := hc ▸ hcontrol
      simp only [step, hc]
      exact sound_callHook hstands limits hbelow.1 name hbelow.2
  | asleep time =>
      simp only [step, hc, sleepOn]
      split
      · exact hstands.ended trivial
      · split
        · exact ⟨hstands, hcontrol⟩
        · exact hstands.ended trivial
  | joining ids =>
      -- Only a thread that was started can be joined, and there is none.
      have hids : ids = [] := by
        have hbelow : (Control.joining ids).Below s.instances.size := hc ▸ hcontrol
        exact hbelow
      simp only [step, hc, hids, joinAll, joined?]
      refine hstands.answered (a := s.giveList #[]) ?_ rfl
      exact Store.answers_giveList hstands.store.objects
        fun v hv => absurd hv (Array.not_mem_empty v)
  | outcome o =>
      have ho : o.Below s.instances.size := by
        have hbelow : (Control.outcome o).Below s.instances.size := hc ▸ hcontrol
        exact hbelow
      cases hframes : t.frames with
      | nil =>
          simp only [step, hc, hframes]
          exact ⟨hstands, hcontrol⟩
      | cons f rest =>
          rw [step_resume limits s hc hframes]
          obtain ⟨hf, hrest⟩ := List.forall_mem_cons.mp (hframes ▸ hstands.frames)
          by_cases hupdating : ∃ id, f = .updating id
          · obtain ⟨id, rfl⟩ := hupdating
            have hwhole : { t with frames := .updating id :: rest }.Stands least s := by
              rw [← hframes]
              exact hstands
            exact sound_resume_updating hwhole ho
          · have hplain : ∀ id, f ≠ .updating id := fun id heq => hupdating ⟨id, heq⟩
            have hlocks : ∀ id, s.Locked id → Frame.updating id ∈ rest := by
              intro id hid
              have hmem := hstands.locks id hid
              rw [hframes] at hmem
              rcases List.mem_cons.mp hmem with heq | hmem
              · exact absurd heq.symm (hplain id)
              · exact hmem
            have hbelow : { t with frames := rest }.Stands least s :=
              ⟨hrest, hstands.store, hlocks, hstands.steps⟩
            exact sound_resume hbelow ho hf hplain

end Task

end Scriptlet
