/-
The frame property of evaluation: while no other thread runs, evaluating
anything leaves all existing bindings as they are, but for those that a
statement makes in its own innermost frame.
-/
import Scriptlet.Proofs.BindingSteps
import Scriptlet.Proofs.Moments

namespace Scriptlet

/-- Whether a name may be bound in a place that exists already when something
is evaluated: a statement binds names where its scope does, and nothing else
binds any. -/
def Control.MayBind (c : Control) (p : Place) : Prop :=
  c.binds?.map Environment.innermost = some p

namespace World

/-- Whether there is no thread but the main one, neither going on nor waiting
to be started. -/
def Alone (w : World) : Prop := w.threads = [] ∧ ∀ id, ¬ w.store.Waiting id

/-- Whether the main thread has the outcome that the frames in `base` wait
for. -/
def Ended (base : List Frame) (w : World) : Prop :=
  w.main.frames = base ∧ ∃ o, w.main.control = .outcome o

/-- The worlds that evaluating what the main thread of `w` is about to do leads
through, while no other thread is there and the surroundings change as they
like: the last is the one with the outcome that the frames of `w` wait for. -/
inductive Evaluates (limits : Limits) (w : World) : World → Prop where
  | begins : Evaluates limits w w
  | goesOn {v : World} (e : Event) : Evaluates limits w v → v.Alone →
      ¬ v.Ended w.main.frames → Evaluates limits w (v.move limits e)

variable {limits : Limits} {terms : Terms} {w : World}

theorem alone_of_unspawned (h : w.threads = []) (hnone : w.store.threads.size = 0) : w.Alone := by
  refine ⟨h, ?_⟩
  rintro id ⟨callee, file, hid⟩
  obtain ⟨hlt, -⟩ := Array.getElem?_eq_some_iff.mp hid
  omega

/-- Where there is no other thread, only the main one goes on. -/
theorem move_alone (h : w.Alone) (limits : Limits) (e : Event) :
    w.move limits e =
      if e.actor = none then
        { w.within e.outside with
          main := (w.main.step limits (w.within e.outside).store).1
          store := (w.main.step limits (w.within e.outside).store).2 }
      else w.within e.outside := by
  obtain ⟨s, main, threads, age⟩ := w
  obtain ⟨hthreads, hwaiting⟩ := h
  obtain rfl : threads = [] := hthreads
  obtain ⟨actor, o⟩ := e
  cases actor with
  | none => rfl
  | some id =>
      simp only [move, act, within, reduceCtorEq, if_false]
      split
      · rename_i callee file hcell
        exact absurd ⟨callee, file, hcell⟩ (hwaiting id)
      · rfl

theorem keepsBindings_advance (limits : Limits) (id : Nat) (s : Store)
    (threads : List (Nat × Task)) :
    s.KeepsBindings (fun _ => True) (advance limits id s threads).2 := by
  induction threads with
  | nil => exact .refl _ s
  | cons entry rest ih =>
      obtain ⟨n, t⟩ := entry
      unfold advance
      split
      · split
        · exact (Store.KeepsBindings.refl _ s).endThread _ _
        · exact Task.keepsBindings_step limits t s
      · exact ih

theorem threads_le_move (limits : Limits) (w : World) (e : Event) :
    w.store.threads.size ≤ (w.move limits e).store.threads.size := by
  obtain ⟨actor, o⟩ := e
  cases actor with
  | none => exact (Task.keepsBindings_step limits w.main (w.within o).store).threads_le
  | some id =>
      simp only [move, act]
      split
      · simp [within, Store.setThread]
      · exact (keepsBindings_advance limits id (w.within o).store w.threads).threads_le

theorem threads_le_finish {horizon : Nat} {v : World} {o : Outcome}
    (h : w.finish terms horizon = some (o, v)) :
    w.store.threads.size ≤ v.store.threads.size := by
  induction horizon generalizing w with
  | zero => exact nomatch h
  | succ horizon ih =>
      cases hresult : w.main.result? with
      | none =>
          rw [finish_succ hresult] at h
          exact Nat.le_trans (threads_le_move _ w _) (ih h)
      | some o' =>
          rw [finish_result hresult] at h
          obtain ⟨-, rfl⟩ := Prod.mk.inj (Option.some.inj h)
          exact Nat.le_refl _

/-- There is still no other thread where none was spawned. -/
theorem Alone.move (h : w.Alone) {e : Event}
    (hsize : (w.move limits e).store.threads.size ≤ w.store.threads.size) :
    (w.move limits e).Alone := by
  rw [move_alone h] at hsize ⊢
  split
  · rename_i hactor
    rw [if_pos hactor] at hsize
    refine ⟨h.1, ?_⟩
    intro id hid
    have hlt : id < w.store.threads.size := by
      obtain ⟨callee, file, hcell⟩ := hid
      obtain ⟨hlt, -⟩ := Array.getElem?_eq_some_iff.mp hcell
      exact Nat.lt_of_lt_of_le hlt hsize
    have hkept := Task.keepsBindings_step limits w.main (w.within e.outside).store
    exact h.2 id (hkept.waiting id hlt hid)
  · exact h

/-- What holds at each world of an evaluation: names are yet to be bound only
where the evaluation may bind them, or in frames that are new since it began. -/
theorem Evaluates.leads {v : World} (h : w.Evaluates limits v) :
    Task.Leads
      (fun p => w.main.control.MayBind p ∨
        ∃ i, p = .frame i ∧ w.store.scopes.frames.size ≤ i)
      w.main.frames w.store (v.main, v.store) := by
  induction h with
  | begins =>
      refine ⟨⟨⟨[], rfl, List.forall_mem_nil _⟩, ?_⟩, .refl _ _⟩
      intro env henv
      refine .inl ?_
      rw [Control.MayBind, henv]
      rfl
  | @goesOn v e _ halone hgoing ih =>
      obtain ⟨htask, hstore⟩ := ih
      have hwithin : w.store.KeepsBindings _ (v.within e.outside).store := hstore.of_settled rfl
      rw [move_alone halone]
      split
      · refine Task.leads_step htask hwithin (fun i hi => .inr ⟨i, rfl, hi⟩) ?_ limits
        intro o ho hframes
        exact hgoing ⟨hframes, o, ho⟩
      · exact ⟨htask, hwithin⟩

/-- Evaluating anything leaves all bindings as they were, but for those in the
place where a statement binds names. -/
theorem Evaluates.keepsBindings {v : World} (h : w.Evaluates limits v) :
    w.store.KeepsBindings w.main.control.MayBind v.store := by
  refine h.leads.store.mono ?_ ?_
  · rintro (hmay | ⟨i, hi, -⟩)
    · exact hmay
    · exact nomatch hi
  · rintro i hi (hmay | ⟨j, hj, hle⟩)
    · exact hmay
    · obtain rfl := Place.frame.inj hj
      omega

/-- A run to the result of the main thread that ends with no more threads than
there were is an evaluation with no other thread. -/
theorem Evaluates.finish {horizon : Nat} {v u : World} {o : Outcome}
    (h : w.Evaluates terms.toLimits v) (hframes : w.main.frames = []) (hv : v.Alone)
    (hfinish : v.finish terms horizon = some (o, u))
    (hthreads : u.store.threads.size ≤ v.store.threads.size) :
    w.Evaluates terms.toLimits u := by
  induction horizon generalizing v with
  | zero => exact nomatch hfinish
  | succ horizon ih =>
      cases hresult : v.main.result? with
      | none =>
          rw [finish_succ hresult] at hfinish
          have hgoing : ¬ v.Ended w.main.frames := by
            rw [hframes]
            exact (Task.result?_eq_none_iff _).mp hresult
          have hup := threads_le_move terms.toLimits v (terms.feed v)
          have hdown := threads_le_finish hfinish
          exact ih (h.goesOn _ hv hgoing) (hv.move (Nat.le_trans hdown hthreads)) hfinish
            (Nat.le_trans hthreads hup)
      | some o' =>
          rw [finish_result hresult] at hfinish
          obtain ⟨-, rfl⟩ := Prod.mk.inj (Option.some.inj hfinish)
          exact h

/-- Evaluating an expression, or calling something, leaves the bindings of all
frames that there were, the global names and the insides of all instances as
they were.  Evaluating a statement, a block or a program does so too but for
the innermost frame of its scope, or the global names if the scope has no frame.
It is so at every world that the evaluation leads through, and so at its end,
whatever the outcome. -/
theorem evaluation_keeps_bindings {v : World} (h : w.Evaluates limits v) :
    (∀ e env, w.main.control = .expr e env → w.store.KeepsBindings (fun _ => False) v.store) ∧
    (∀ s env, w.main.control = .stmt s env →
      w.store.KeepsBindings (fun p => p = env.innermost) v.store) ∧
    (∀ b env, w.main.control = .block b env →
      w.store.KeepsBindings (fun p => p = env.innermost) v.store) ∧
    (∀ statements env, w.main.control = .program statements env →
      w.store.KeepsBindings (fun p => p = env.innermost) v.store) ∧
    (∀ callee args, w.main.control = .call callee args →
      w.store.KeepsBindings (fun _ => False) v.store) ∧
    (∀ receiver name args, w.main.control = .hook receiver name args →
      w.store.KeepsBindings (fun _ => False) v.store) := by
  have hkept := h.keepsBindings
  have hnowhere : w.main.control.binds? = none →
      w.store.KeepsBindings (fun _ => False) v.store := by
    intro hnone
    have hnot : ∀ p, ¬ w.main.control.MayBind p := by
      intro p hmay
      rw [Control.MayBind, hnone] at hmay
      exact nomatch hmay
    exact hkept.mono (hnot _) fun i _ => hnot (.frame i)
  have hscope : ∀ env, w.main.control.binds? = some env →
      w.store.KeepsBindings (fun p => p = env.innermost) v.store := by
    intro env hsome
    have honly : ∀ p, w.main.control.MayBind p → p = env.innermost := by
      intro p hmay
      rw [Control.MayBind, hsome] at hmay
      exact (Option.some.inj hmay).symm
    exact hkept.mono (honly _) fun i _ => honly (.frame i)
  refine ⟨?_, ?_, ?_, ?_, ?_, ?_⟩
  · intro e env hc
    exact hnowhere (by rw [hc]; rfl)
  · intro s env hc
    exact hscope env (by rw [hc]; rfl)
  · intro b env hc
    exact hscope env (by rw [hc]; rfl)
  · intro statements env hc
    exact hscope env (by rw [hc]; rfl)
  · intro callee args hc
    exact hnowhere (by rw [hc]; rfl)
  · intro receiver name args hc
    exact hnowhere (by rw [hc]; rfl)

/-- A world about to call a function that assigns to a variable of the frame it
was made in. -/
def capturing : World :=
  let assigning : Block :=
    .mk .nowhere [.assign .nowhere ⟨"x", .nowhere⟩ (.null .nowhere)]
  let frame : Bindings Value :=
    ⟨[("x", .bool true), ("f", .function ⟨"f", [], assigning, [0]⟩ 0)]⟩
  let store : Store :=
    { Store.bare with scopes := ⟨.empty, #[frame]⟩ }
  (ofStore store "").doing (.expr (.call .nowhere (.name ⟨"f", .nowhere⟩) []) [0])

theorem evaluation_keeps_bindings_capturing :
    ∃ v, capturing.Evaluates ⟨100, 0⟩ v ∧ v.Ended [] ∧
      v.store.scopes.get? "x" [1, 0] = some .null ∧
      v.store.scopes.get? "x" [0] = some (.bool true) ∧
      capturing.store.KeepsBindings (fun _ => False) v.store := by
  have hrun : ∃ o v, capturing.finish (.bare ⟨100, 0⟩) 20 = some (o, v) ∧
      v.store.threads.size = 0 ∧ v.Ended [] ∧
      v.store.scopes.get? "x" [1, 0] = some .null := by
    refine ⟨_, _, rfl, rfl, ⟨rfl, _, rfl⟩, rfl⟩
  obtain ⟨o, v, hfinish, hthreads, hended, hx⟩ := hrun
  have hev : capturing.Evaluates ⟨100, 0⟩ v :=
    Evaluates.begins.finish rfl (alone_of_unspawned rfl rfl) hfinish (Nat.le_of_eq hthreads)
  obtain ⟨hexpr, -⟩ := evaluation_keeps_bindings hev
  have hkept := hexpr _ _ rfl
  refine ⟨v, hev, hended, hx, ?_, hkept⟩
  have hframe := hkept.frames 0 _ not_false rfl
  simp only [Scopes.get?, hframe]
  rfl

end World

end Scriptlet
