/-
What reports of threads agree on.  A failure that names a thread has the cause
and the calls of the one that thread left behind, and every thread that fails
leaves calls behind; so it stays along every run.
-/
import Scriptlet.Proofs.SignalSteps
import Scriptlet.Proofs.WorldSteps

namespace Scriptlet

namespace Store

variable {s s' : Store}

/-- Whether every failure that a thread left behind has calls. -/
def Traced (s : Store) : Prop :=
  ∀ (id : Nat) (f : Failure), s.gists[id]? = some (.ended (.error f)) → f.trace ≠ []

theorem Grows.get? (h : s.Grows s') {id : Nat} {cell : ThreadCell}
    (hcell : s.gists[id]? = some cell) :
    s'.gists[id]? = some cell := by
  rcases h with hsame | ⟨callee, file, hpush⟩
  · rw [hsame, hcell]
  · obtain ⟨hlt, -⟩ := Array.getElem?_eq_some_iff.mp hcell
    rw [hpush, Array.getElem?_push_lt hlt, ← Array.getElem?_eq_getElem hlt, hcell]

theorem Grows.traced (h : s.Grows s') (hs : s.Traced) : s'.Traced := by
  intro id f hf
  rcases h with hsame | ⟨callee, file, hpush⟩
  · exact hs id f (hsame ▸ hf)
  · rw [hpush, Array.getElem?_push] at hf
    split at hf
    · exact nomatch hf
    · exact hs id f hf

theorem gists_setThread (s : Store) (id : Nat) (cell : ThreadCell) :
    (s.setThread id cell).gists = s.gists.modify id fun _ => cell.gist := by
  change Array.map ThreadCell.gist (s.threads.modify id fun _ => cell) =
    (s.threads.map ThreadCell.gist).modify id fun _ => cell.gist
  exact (modify_map (fun _ => by rfl) s.threads id).symm

end Store

namespace Task

variable {limits : Limits} {t : Task} {s s' : Store}

/-- Whether a failure of a thread that names a thread is known to be left behind
by that. -/
def Told (s : Store) (t : Task) : Prop :=
  ∀ f id, t.control = .outcome (.failed f) → f.thread = some id → Tells s id f

theorem Tells.grows {id : Nat} {f : Failure} (h : Tells s id f) (hgrows : s.Grows s') :
    Tells s' id f :=
  tells_iff.mpr (hgrows.get? (tells_iff.mp h))

theorem Told.grows (h : t.Told s) (hgrows : s.Grows s') : t.Told s' :=
  fun f id hcontrol hid => (h f id hcontrol hid).grows hgrows

theorem Tells.trace_ne {id : Nat} {f : Failure} (h : Tells s id f) (hs : s.Traced) : f.trace ≠ [] :=
  hs id ⟨f.fault, .nowhere, f.trace, none⟩ (tells_iff.mp h)

theorem Yields.told {allowed τ : Set Signal} {r : Task × Store} (h : Yields allowed τ t s r) :
    r.1.Told r.2 :=
  fun f id hcontrol hid => (h.reports f id hcontrol hid).grows h.grows

theorem told_of_outcome {o : Outcome} (hcontrol : t.control = .outcome o)
    (h : ∀ f id, o = .failed f → f.thread = some id → Tells s id f) : t.Told s :=
  fun f id hf hid => h f id (Control.outcome.inj (hcontrol.symm.trans hf)) hid

/-- A report that is given its place keeps its cause and its calls, also where
the thread that left it behind keeps it. -/
theorem located_told (f : Failure) (p : Position)
    (h : ∀ id, f.thread = some id → Tells s id f) :
    (∀ id, (located s f p).1.thread = some id → Tells s id (located s f p).1) ∧
      (located s f p).2.gists = s.gists := by
  obtain ⟨fault, position, trace, thread⟩ := f
  unfold located
  split
  · exact ⟨h, rfl⟩
  · rename_i hunknown
    simp only [Failure.locate, if_neg hunknown]
    cases thread with
    | none => exact ⟨(by simp), rfl⟩
    | some id =>
        refine ⟨fun n hn => ?_, ?_⟩
        · obtain rfl := Option.some.inj hn
          exact tells_iff.mpr (tells_iff.mp (h id rfl))
        · have hcell := tells_iff.mp (h id rfl)
          rw [Store.gists_setThread]
          apply Array.ext_getElem?
          intro j
          rw [Array.getElem?_modify]
          split
          · rename_i hj
            subst hj
            rw [hcell]
            rfl
          · rfl

/-- A frame that is taken off keeps what reports agree on. -/
theorem told_resume (hs : s.Traced) {o : Outcome} {f : Frame} {r : Task × Store}
    (h : OutcomeForm t s o f r)
    (ho : ∀ f id, o = .failed f → f.thread = some id → Tells s id f) :
    r.1.Told r.2 ∧ s.Grows r.2 := by
  have hended : ∀ (u : Task) {o' : Outcome} {s' : Store}, s'.gists = s.gists →
      (∀ f id, o' = .failed f → f.thread = some id → Tells s id f) →
      (u.doing (.outcome o')).Told s' ∧ s.Grows s' := by
    intro u o' s' hgists ho'
    refine ⟨?_, .inl hgists⟩
    have htold : (u.doing (.outcome o')).Told s := told_of_outcome rfl ho'
    exact htold.grows (.inl hgists)
  have hsame : ∀ u : Task, (u.doing (.outcome o)).Told s ∧ s.Grows s := fun u => hended u rfl ho
  have hgoing : ∀ {u : Task}, (∀ o, u.control ≠ .outcome o) → u.Told s ∧ s.Grows s :=
    fun hu => ⟨fun f _ hcontrol _ => absurd hcontrol (hu (.failed f)), .inl rfl⟩
  -- A frame changes a failure only by its place or its trace, and both are settled for one that a
  -- thread left.
  cases h with
  | exited _ position outer =>
      cases o with
      | failed g =>
          cases position with
          | none => exact hsame _
          | some p =>
              obtain ⟨htold, hgists⟩ := located_told g p fun id hid => ho g id rfl hid
              refine hended _ hgists fun f id hf hid => ?_
              obtain rfl := Outcome.failed.inj hf
              exact htold id hid
      | _ => exact hsame _
  | leftHook | leftInstance | programFailed | programEnds | skips => exact hsame _
  | returned =>
      cases o with
      | failed g =>
          refine hended _ rfl fun f id hf hid => ?_
          obtain rfl := Outcome.failed.inj hf
          have hthread : (g.withTrace t.calls).thread = g.thread := by
            unfold Failure.withTrace
            split <;> rfl
          rw [hthread] at hid
          have htells := ho g id rfl hid
          have hkept : g.withTrace t.calls = g := by
            rw [Failure.withTrace,
              if_neg (fun hnil => htells.trace_ne hs (List.isEmpty_iff.mp hnil))]
          rw [hkept]
          exact htells
      | _ => exact hsame _
  | leftFunction =>
      refine hended _ rfl fun f id hf hid => ?_
      cases o with
      | failed g => exact ho f id hf hid
      | left | skipped =>
          obtain rfl := Outcome.failed.inj hf
          exact nomatch hid
      | _ => exact nomatch hf
  | programReturned | leftWhile | leftFor => exact hended _ rfl (by simp)
  | programNext | againWhile | againFor => exact hgoing fun _ => Control.noConfusion
  | value v hplain h =>
      have hyields : Yields Set.univ (f.passed ∅) t s r := yields_value h
      exact ⟨hyields.told, hyields.grows⟩
  | unlocks => exact hended _ rfl ho

/-- Every step of a thread keeps what reports agree on. -/
theorem told_step (limits : Limits) (hs : s.Traced) (ht : t.Told s) :
    (t.step limits s).1.Told (t.step limits s).2 ∧ s.Grows (t.step limits s).2 := by
  by_cases houtcome : ∃ o, t.control = .outcome o
  · obtain ⟨o, hcontrol⟩ := houtcome
    cases hframes : t.frames with
    | nil =>
        have hsame : t.step limits s = (t, s) := by simp only [step, hcontrol, hframes]
        rw [hsame]
        exact ⟨ht, .inl rfl⟩
    | cons f rest =>
        rw [step_resume limits s hcontrol hframes]
        exact told_resume hs (resume_form rfl) fun g id hg hid => ht g id (hg ▸ hcontrol) hid
  · rcases yields_step limits t s (fun o ho => houtcome ⟨o, ho⟩)
      (fun _ _ _ _ => Set.subset_univ _) with hsame | hyields
    · rw [hsame]
      exact ⟨ht, .inl rfl⟩
    · exact ⟨hyields.told, hyields.grows⟩

/-- Whether a thread started with a call is still in it, or left calls behind if
it failed. -/
def Called (t : Task) : Prop :=
  (∃ site, t.ComesBackTo [.leaveCall] ⟨none, 0, [site]⟩) ∨
    t.frames = [] ∧ ∃ o, t.control = .outcome o ∧ ∀ f, o = .failed f → f.trace ≠ []

theorem called_applying (file : String) (s : Store) (callee : Value) :
    ((idle file).applying s callee [] .nowhere).Called :=
  .inl ⟨_, [], rfl, rfl⟩

theorem withTrace_ne (f : Failure) (site : CallSite) (calls : List CallSite) :
    (f.withTrace (site :: calls)).trace ≠ [] := by
  unfold Failure.withTrace
  split
  · exact List.cons_ne_nil _ _
  · rename_i hne
    exact fun hnil => hne (List.isEmpty_iff.mpr hnil)

theorem Called.step (h : t.Called) (limits : Limits) (s : Store) : (t.step limits s).1.Called := by
  rcases h with ⟨site, hback⟩ | ⟨hframes, o, hcontrol, htrace⟩
  · by_cases hended : t.EndedAt [.leaveCall]
    · obtain ⟨hframes, o, hcontrol⟩ := hended
      have hbooks := hback.books_eq ⟨hframes, o, hcontrol⟩
      have hcalls : t.calls = [site] := congrArg Books.calls hbooks
      rw [step_resume limits s hcontrol hframes]
      refine .inr ?_
      cases o with
      | failed f =>
          refine ⟨rfl, _, rfl, fun g hg => ?_⟩
          obtain rfl := Outcome.failed.inj hg
          dsimp only
          rw [hcalls]
          exact withTrace_ne f site []
      | _ => exact ⟨rfl, _, rfl, (by simp)⟩
    · exact .inl ⟨site, hback.turn hended (turn_step limits t s)⟩
  · refine .inr ?_
    have hsame : t.step limits s = (t, s) := by simp only [Task.step, hcontrol, hframes]
    rw [hsame]
    exact ⟨hframes, o, hcontrol, htrace⟩

end Task

namespace World

/-- Whether the threads of a run have numbers of their own, are known to run,
and their reports agree with what is known. -/
structure Honest (w : World) : Prop where
  distinct : (w.threads.map Prod.fst).Nodup
  running : ∀ entry ∈ w.threads, w.store.gists[entry.1]? = some .runs
  told : ∀ t ∈ w.tasks, t.Told w.store
  traced : w.store.Traced
  called : ∀ entry ∈ w.threads, entry.2.Called

variable {limits : Limits} {w : World}

/-- Saying something of a thread that left no failure behind leaves alone what
reports agree on. -/
theorem tells_setThread {s : Store} {n : Nat} {cell old : ThreadCell} {id : Nat} {f : Failure}
    (h : Task.Tells s id f) (hold : s.gists[n]? = some old)
    (hne : ∀ f, old ≠ .ended (.error f)) : Task.Tells (s.setThread n cell) id f := by
  rw [Task.tells_iff] at h ⊢
  have hdifferent : n ≠ id := by
    rintro rfl
    exact hne _ (Option.some.inj (hold.symm.trans h))
  rw [Store.gists_setThread, Array.getElem?_modify, if_neg hdifferent, h]

theorem traced_setThread {s : Store} (hs : s.Traced) (n : Nat) {cell : ThreadCell}
    (hcell : ∀ f, cell.gist = .ended (.error f) → f.trace ≠ []) : (s.setThread n cell).Traced := by
  intro id f hf
  rw [Store.gists_setThread, Array.getElem?_modify] at hf
  split at hf
  · obtain ⟨old, -, hnew⟩ := Option.map_eq_some_iff.mp hf
    exact hcell f hnew
  · exact hs id f hf

theorem running_setThread {s : Store} {n id : Nat} (cell : ThreadCell) (hne : n ≠ id)
    (h : s.gists[id]? = some .runs) : (s.setThread n cell).gists[id]? = some .runs := by
  rw [Store.gists_setThread, Array.getElem?_modify, if_neg hne, h]

theorem gists_of_thread {s : Store} {id : Nat} {cell : ThreadCell}
    (h : s.threads[id]? = some cell) :
    s.gists[id]? = some cell.gist := by
  simp [Store.gists, h]

/-- A thread that starts is one that waited, and so none of those going on. -/
theorem Honest.starts (h : w.Honest) {id : Nat} {callee : Value} {file : String}
    (hcell : w.store.threads[id]? = some (.waits callee file)) :
    Honest { w with
      store := w.store.setThread id .runs
      threads := (id, (Task.idle file).applying w.store callee [] .nowhere) :: w.threads } := by
  have hwaits : w.store.gists[id]? = some (.waits callee file) := gists_of_thread hcell
  have hnew : ∀ entry ∈ w.threads, id ≠ entry.1 := by
    intro entry hmem heq
    have hruns := h.running entry hmem
    rw [← heq, hwaits] at hruns
    cases hruns
  have htold : ∀ t ∈ w.tasks, t.Told (w.store.setThread id .runs) :=
    fun t ht f n hf hn => tells_setThread (h.told t ht f n hf hn) hwaits (by simp)
  refine ⟨?_, ?_, forall_tasks (htold _ (List.mem_cons_self ..)) ?_, ?_, ?_⟩
  · refine List.nodup_cons.mpr ⟨fun hmem => ?_, h.distinct⟩
    obtain ⟨entry, hentry, heq⟩ := List.mem_map.mp hmem
    exact hnew entry hentry heq.symm
  · refine List.forall_mem_cons.mpr ⟨?_, fun entry hmem =>
      running_setThread _ (hnew entry hmem) (h.running entry hmem)⟩
    rw [Store.gists_setThread, Array.getElem?_modify, if_pos rfl, hwaits]
    rfl
  · exact List.forall_mem_cons.mpr ⟨fun _ _ => Control.noConfusion, fun entry hmem =>
      htold _ (mem_tasks hmem)⟩
  · exact traced_setThread h.traced _ fun _ hgist => by cases hgist
  · exact List.forall_mem_cons.mpr ⟨Task.called_applying file w.store callee, h.called⟩

/-- A thread that is gone leaves a failure behind with calls. -/
theorem Honest.ends (h : w.Honest) {before rest : List (Nat × Task)} {id : Nat} {t : Task}
    (hthreads : w.threads = before ++ (id, t) :: rest) {o : Outcome}
    (hresult : t.result? = some o) :
    Honest { w with
      store := w.store.setThread id (.ended (resultOf o))
      threads := before ++ rest } := by
  obtain ⟨hcontrol, hframes⟩ := Task.result?_eq_some_iff.mp hresult
  have hmem : (id, t) ∈ w.threads := by
    rw [hthreads]
    exact List.mem_append_right _ (List.mem_cons_self ..)
  have hruns := h.running _ hmem
  have hsub : ∀ entry ∈ before ++ rest, entry ∈ w.threads := by
    intro entry hentry
    rw [hthreads]
    rcases List.mem_append.mp hentry with hbefore | hrest
    · exact List.mem_append_left _ hbefore
    · exact List.mem_append_right _ (List.mem_cons_of_mem _ hrest)
  have hdistinct := h.distinct
  rw [hthreads, List.map_append, List.map_cons, List.perm_middle.nodup_iff, List.nodup_cons,
    ← List.map_append] at hdistinct
  have hother : ∀ entry ∈ before ++ rest, id ≠ entry.1 := by
    intro entry hentry heq
    exact hdistinct.1 (List.mem_map.mpr ⟨entry, hentry, heq.symm⟩)
  have htold : ∀ t ∈ w.tasks, t.Told (w.store.setThread id (.ended (resultOf o))) :=
    fun t ht f n hf hn => tells_setThread (h.told t ht f n hf hn) hruns (by simp)
  refine ⟨hdistinct.2, ?_, forall_tasks (htold _ (List.mem_cons_self ..)) ?_, ?_, ?_⟩
  · exact fun entry hentry =>
      running_setThread _ (hother entry hentry) (h.running entry (hsub entry hentry))
  · exact fun entry hentry => htold _ (mem_tasks (hsub entry hentry))
  · refine traced_setThread h.traced _ fun f hf => ?_
    cases o with
    | failed g =>
        obtain rfl := Except.error.inj (ThreadCell.ended.inj hf)
        rcases h.called _ hmem with ⟨site, top, htop, -⟩ | ⟨-, o', ho', htrace⟩
        · exact absurd (hframes.symm.trans htop) (by simp)
        · exact htrace g (Control.outcome.inj (ho'.symm.trans hcontrol))
    | _ => exact nomatch hf
  · exact fun entry hentry => h.called entry (hsub entry hentry)

theorem Honest.within (h : w.Honest) (o : Outside) : (w.within o).Honest :=
  ⟨h.distinct, h.running, h.told, h.traced, h.called⟩

/-- Whichever thread goes on, what reports agree on stays. -/
theorem Honest.act (h : w.Honest) (limits : Limits) (actor : Option Nat) :
    (w.act limits actor).Honest := by
  have hgrown : ∀ {s : Store}, w.store.Grows s → ∀ t ∈ w.tasks, t.Told s :=
    fun hgrows t ht => (h.told t ht).grows hgrows
  have hprogress := progress_act limits w actor
  generalize w.act limits actor = v at hprogress ⊢
  cases hprogress with
  | starts id callee file hcell => exact h.starts hcell
  | ends before id t rest hthreads o hresult => exact h.ends hthreads hresult
  | thread before id t rest hthreads hgoing =>
      have hmem : (id, t) ∈ w.threads := by
        rw [hthreads]
        exact List.mem_append_right _ (List.mem_cons_self ..)
      obtain ⟨htold, hgrows⟩ := Task.told_step limits h.traced (h.told t (mem_tasks hmem))
      have hall : ∀ {I : Nat × Task → Prop}, (∀ entry ∈ w.threads, I entry) →
          I (id, (t.step limits w.store).1) →
          ∀ entry ∈ before ++ (id, (t.step limits w.store).1) :: rest, I entry := by
        intro I hI hnew
        rw [hthreads] at hI
        obtain ⟨hbefore, hlater⟩ := List.forall_mem_append.mp hI
        exact List.forall_mem_append.mpr
          ⟨hbefore, List.forall_mem_cons.mpr ⟨hnew, (List.forall_mem_cons.mp hlater).2⟩⟩
      refine ⟨?_, ?_, forall_tasks (hgrown hgrows _ (List.mem_cons_self ..)) ?_,
        hgrows.traced h.traced, ?_⟩
      · have hdistinct := h.distinct
        rw [hthreads] at hdistinct
        simpa using hdistinct
      · exact hall (fun entry hentry => hgrows.get? (h.running entry hentry))
          (hgrows.get? (h.running (id, t) hmem))
      · exact hall (fun entry hentry => hgrown hgrows _ (mem_tasks hentry)) htold
      · exact hall h.called ((h.called _ hmem).step limits w.store)
  | idle => exact h
  | main =>
      obtain ⟨htold, hgrows⟩ := Task.told_step limits h.traced (h.told _ (List.mem_cons_self ..))
      exact ⟨h.distinct, fun entry hentry => hgrows.get? (h.running entry hentry),
        forall_tasks htold fun entry hentry => hgrown hgrows _ (mem_tasks hentry),
        hgrows.traced h.traced, h.called⟩

/-- Every event keeps what reports agree on. -/
theorem Honest.move (h : w.Honest) (limits : Limits) (e : Event) : (w.move limits e).Honest :=
  (h.within e.outside).act limits e.actor

end World

end Scriptlet
