/-
What an event does to a run, said once: a thread starts, ends or goes on, the
main thread goes on, or there is nothing but the new surroundings.  What is kept
along every run, in whatever order its threads go on, follows from these forms.
-/
import Scriptlet.Proofs.Moments

namespace Scriptlet

namespace World

theorem mem_tasks {v : World} {entry : Nat × Task} (h : entry ∈ v.threads) : entry.2 ∈ v.tasks :=
  List.mem_cons_of_mem _ (List.mem_map_of_mem h)

theorem forall_tasks {v : World} {I : Task → Prop} (hmain : I v.main)
    (hthreads : ∀ entry ∈ v.threads, I entry.2) : ∀ t ∈ v.tasks, I t := by
  refine List.forall_mem_cons.mpr ⟨hmain, fun t ht => ?_⟩
  obtain ⟨entry, hmem, rfl⟩ := List.mem_map.mp ht
  exact hthreads entry hmem

/-- The forms of what becomes of a world in which a thread may go on. -/
inductive Progress (limits : Limits) (w : World) : World → Prop where
  | starts (id : Nat) (callee : Value) (file : String)
      (hcell : w.store.threads[id]? = some (.waits callee file)) :
      Progress limits w
        { w with
          store := w.store.setThread id .runs
          threads := (id, (Task.idle file).applying w.store callee [] .nowhere) :: w.threads }
  | ends (before : List (Nat × Task)) (id : Nat) (t : Task) (rest : List (Nat × Task))
      (hthreads : w.threads = before ++ (id, t) :: rest) (o : Outcome)
      (hresult : t.result? = some o) :
      Progress limits w
        { w with
          store := w.store.setThread id (.ended (resultOf o))
          threads := before ++ rest }
  | thread (before : List (Nat × Task)) (id : Nat) (t : Task) (rest : List (Nat × Task))
      (hthreads : w.threads = before ++ (id, t) :: rest) (hgoing : t.result? = none) :
      Progress limits w
        { w with
          store := (t.step limits w.store).2
          threads := before ++ (id, (t.step limits w.store).1) :: rest }
  | idle : Progress limits w w
  | main :
      Progress limits w
        { w with
          main := (w.main.step limits w.store).1
          store := (w.main.step limits w.store).2 }

/-- What becomes of threads of which one may go on. -/
theorem advance_cases (limits : Limits) (id : Nat) (s : Store) (threads : List (Nat × Task)) :
    (threads.lookup id = none ∧ advance limits id s threads = (threads, s)) ∨
    (∃ before t rest o, threads = before ++ (id, t) :: rest ∧ threads.lookup id = some t ∧
      t.result? = some o ∧
      advance limits id s threads = (before ++ rest, s.setThread id (.ended (resultOf o)))) ∨
    ∃ before t rest, threads = before ++ (id, t) :: rest ∧ threads.lookup id = some t ∧
      t.result? = none ∧
      advance limits id s threads =
        (before ++ (id, (t.step limits s).1) :: rest, (t.step limits s).2) := by
  induction threads with
  | nil => exact .inl ⟨rfl, rfl⟩
  | cons entry rest ih =>
      obtain ⟨n, t⟩ := entry
      by_cases hid : n = id
      · subst hid
        have hfound : List.lookup n ((n, t) :: rest) = some t := List.lookup_cons_self
        cases hresult : t.result? with
        | some o =>
            refine .inr (.inl ⟨[], t, rest, o, rfl, hfound, hresult, ?_⟩)
            simp [advance, hresult]
        | none =>
            refine .inr (.inr ⟨[], t, rest, rfl, hfound, hresult, ?_⟩)
            simp [advance, hresult]
      · have hlater : advance limits id s ((n, t) :: rest) =
            ((n, t) :: (advance limits id s rest).1, (advance limits id s rest).2) := by
          rw [advance, if_neg hid]
        have hbehind : List.lookup id ((n, t) :: rest) = rest.lookup id := by
          rw [List.lookup_cons, beq_eq_false_iff_ne.mpr (Ne.symm hid)]
        rw [hlater, hbehind]
        rcases ih with ⟨hnone, heq⟩ | ⟨before, u, back, o, rfl, hfound, ho, heq⟩ |
          ⟨before, u, back, rfl, hfound, hu, heq⟩
        · exact .inl ⟨hnone, by rw [heq]⟩
        · exact .inr (.inl ⟨(n, t) :: before, u, back, o, rfl, hfound, ho, by rw [heq]; rfl⟩)
        · exact .inr (.inr ⟨(n, t) :: before, u, back, rfl, hfound, hu, by rw [heq]; rfl⟩)

/-- Whatever thread may go on, what becomes of a world has one of the forms. -/
theorem progress_act (limits : Limits) (w : World) (actor : Option Nat) :
    Progress limits w (w.act limits actor) := by
  obtain ⟨s, main, threads, age⟩ := w
  cases actor with
  | none => exact .main
  | some id =>
      unfold act
      dsimp only
      split <;> rename_i hcell
      · exact .starts id _ _ hcell
      · rcases advance_cases limits id s threads with ⟨-, heq⟩ |
          ⟨before, t, rest, o, hthreads, -, ho, heq⟩ | ⟨before, t, rest, hthreads, -, hgoing, heq⟩
        · rw [heq]
          exact .idle
        · rw [heq]
          exact .ends before id t rest hthreads o ho
        · rw [heq]
          exact .thread before id t rest hthreads hgoing

variable {terms : Terms} {w : World}

/-- What each step keeps until the main thread has a result holds then. -/
theorem finish_keeps {I : World → Prop}
    (hstep : ∀ w : World, w.main.result? = none → I w → I (w.step terms)) (hw : I w)
    {horizon : Nat} {o : Outcome} {v : World} (h : w.finish terms horizon = some (o, v)) : I v := by
  induction horizon generalizing w with
  | zero => exact nomatch h
  | succ horizon ih =>
      cases hresult : w.main.result? with
      | none =>
          rw [finish_succ hresult] at h
          exact ih (hstep w hresult hw) h
      | some o' =>
          rw [finish_result hresult] at h
          obtain ⟨-, rfl⟩ := Prod.mk.inj (Option.some.inj h)
          exact hw

end World

end Scriptlet
