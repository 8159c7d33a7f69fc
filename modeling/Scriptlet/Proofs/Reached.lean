/-
The worlds that evaluations begin in: a fresh one, and what evaluations make of
such.  Reports of threads agree in them, and the main thread is at rest.  A session
is in such a world after any requests.
-/
import Scriptlet.Proofs.Bookkeeping
import Scriptlet.Proofs.Reports

namespace Scriptlet

namespace World

variable {terms : Terms} {horizon : Nat} {w : World}

theorem Honest.turned (h : w.Honest) {t : Task} (ht : t.Told w.store) :
    ({ w with main := t } : World).Honest := by
  refine ⟨h.distinct, h.running, forall_tasks ht ?_, h.traced, h.called⟩
  exact fun entry hmem => h.told entry.2 (mem_tasks hmem)

theorem Honest.doing (h : w.Honest) {c : Control} (hc : ∀ o, c ≠ .outcome o) : (w.doing c).Honest :=
  h.turned fun f _ hcontrol _ => absurd hcontrol (hc (.failed f))

theorem Honest.inFile (h : w.Honest) (file : String) : (w.inFile file).Honest :=
  h.turned fun f id hcontrol hid => h.told w.main List.mem_cons_self f id hcontrol hid

theorem honest_fresh (file : String) : (ofStore .initial file).Honest := by
  have hempty : ∀ {P : Nat × Task → Prop}, ∀ entry ∈ (ofStore .initial file).threads, P entry :=
    fun _ h => absurd h List.not_mem_nil
  refine ⟨List.nodup_nil, hempty, forall_tasks (fun _ _ h => by cases h) hempty, ?_, hempty⟩
  intro id f hf
  have hnone : Store.initial.gists = #[] := Array.map_empty
  rw [ofStore, hnone] at hf
  cases hf

theorem finish_honest (hw : w.Honest) {o : Outcome} {v : World}
    (h : w.finish terms horizon = some (o, v)) : v.Honest :=
  finish_keeps (fun _ _ hw => hw.move terms.toLimits _) hw h

theorem runFrom_honest {done : List Value} {statements : List Stmt} {e : Ending} (hw : w.Honest)
    (h : w.runFrom terms horizon done statements = some e) : e.world.Honest := by
  induction statements generalizing w done with
  | nil =>
      obtain rfl := Option.some.inj h
      exact hw
  | cons s rest ih =>
      cases heval : w.evalStmt terms horizon s with
      | none =>
          rw [runFrom, heval] at h
          cases h
      | some r =>
          obtain ⟨o, v⟩ := r
          have hbegun : (w.doing (.stmt s [])).Honest := hw.doing fun _ => Control.noConfusion
          have hv : v.Honest := finish_honest hbegun heval
          rw [runFrom, heval] at h
          cases o with
          | value x => exact ih hv h
          | returned x | failed f | left | skipped =>
              obtain rfl := Option.some.inj h
              exact hv

/-- The worlds that evaluations begin in: a fresh one, and those that come of such by
evaluations.  In between other threads may go on, and the host may do to the store what it likes
except to what is known of threads. -/
inductive Reached : World → Prop where
  | fresh (file : String) : Reached (ofStore .initial file)
  | inFile {w : World} (h : Reached w) (file : String) : Reached (w.inFile file)
  | meanwhile {w : World} (h : Reached w) (s : Store) (hthreads : s.threads = w.store.threads) :
      Reached { w with store := s }
  | moved {w : World} (h : Reached w) (limits : Limits) (id : Nat) (o : Outside) :
      Reached (w.move limits ⟨some id, o⟩)
  | ran {w : World} {terms : Terms} {horizon : Nat} {p : Program} {e : Ending} (h : Reached w)
      (hrun : w.run terms horizon p = some e) : Reached e.world
  | evaluated {w v : World} {terms : Terms} {horizon : Nat} {p : Program} {o : Outcome}
      (h : Reached w) (heval : w.eval terms horizon p = some (o, v)) : Reached v
  | evaluatedExpr {w v : World} {terms : Terms} {horizon : Nat} {e : Expr} {o : Outcome}
      (h : Reached w) (heval : w.evalExpr terms horizon e = some (o, v)) : Reached v
  | applied {w v : World} {terms : Terms} {horizon : Nat} {callee : Value} {args : List Value}
      {o : Outcome} (h : Reached w) (happly : w.apply terms horizon callee args = some (o, v)) :
      Reached v

theorem Reached.honest (h : w.Reached) : w.Honest := by
  induction h with
  | fresh file => exact honest_fresh file
  | inFile _ file ih => exact ih.inFile file
  | @meanwhile w _ s hthreads ih =>
      have hgists : s.gists = w.store.gists := Store.gists_eq hthreads
      refine ⟨ih.distinct, ?_, ?_, ?_, ih.called⟩
      · intro entry hmem
        rw [hgists]
        exact ih.running entry hmem
      · exact fun t ht => (ih.told t ht).grows (.inl hgists)
      · exact Store.Grows.traced (.inl hgists) ih.traced
  | moved _ limits id o ih => exact ih.move limits _
  | @ran w terms horizon p e _ hrun ih =>
      have hopened : (w.opened p).Honest := by
        rw [opened_eq]
        exact ih.inFile _
      exact runFrom_honest hopened hrun
  | @evaluated w v terms horizon p o _ heval ih =>
      have hbegun : (w.doing (.program p.statements [])).Honest := ih.doing (by simp)
      exact finish_honest hbegun heval
  | @evaluatedExpr w v terms horizon e o _ heval ih =>
      have hbegun : (w.doing (.expr e [])).Honest := ih.doing (by simp)
      exact finish_honest hbegun heval
  | @applied w v terms horizon callee args o _ happly ih =>
      have hcalls : (w.main.applying w.store callee args .nowhere).Told w.store :=
        fun _ _ => Control.noConfusion
      exact finish_honest (ih.turned hcalls) happly

theorem Reached.atRest (h : w.Reached) : w.main.AtRest := by
  induction h with
  | fresh file => exact ⟨rfl, rfl⟩
  | inFile _ file ih => exact ih
  | meanwhile _ s hthreads ih => exact ih
  | @moved w _ limits id o ih =>
      rw [main_move_of_some]
      exact ih
  | @ran w terms horizon p e _ hrun ih =>
      have hopened : (w.opened p).main.AtRest := by
        rw [opened_eq]
        exact ih
      exact runFrom_atRest hopened hrun
  | @evaluated w v terms horizon p o _ heval ih =>
      have hback : (w.doing (.program p.statements [])).main.ComesBackTo [] ⟨none, 0, []⟩ :=
        ih.comesBackTo
      exact finish_atRest hback heval
  | @evaluatedExpr w v terms horizon e o _ heval ih =>
      have hback : (w.doing (.expr e [])).main.ComesBackTo [] ⟨none, 0, []⟩ := ih.comesBackTo
      exact finish_atRest hback heval
  | @applied w v terms horizon callee args o _ happly ih =>
      exact finish_atRest (ih.comesBackTo.applying w.store callee args .nowhere) happly

end World

namespace Session

variable {horizon : Nat} {s v : Session}

/-- The sessions that a host comes to by requests, met or not.  In between other threads may go
on, and the host may change the terms, how its files are read, and the store but for what is known
of threads. -/
inductive Reached : Session → Prop where
  | start (terms : Terms) (source : String → Except Text Text) : Reached (start terms source)
  | served {s v : Session} {horizon : Nat} {r : Request} {reply : Reply} (h : Reached s)
      (hserve : s.serve horizon r = some (reply, v)) : Reached v
  | meanwhile {s : Session} (h : Reached s) (store : Store)
      (hthreads : store.threads = s.store.threads) (terms : Terms)
      (source : String → Except Text Text) :
      Reached ⟨{ s.world with store := store }, terms, source⟩
  | moved {s : Session} (h : Reached s) (limits : Limits) (id : Nat) (o : Outside) :
      Reached { s with world := s.world.move limits ⟨some id, o⟩ }

theorem run_reached {code : Text} {file : String} {result : Except SessionFault (List Value)}
    (hs : s.world.Reached) (h : s.run horizon code file = some (result, v)) : v.world.Reached := by
  unfold run at h
  split at h
  · obtain ⟨-, rfl⟩ := Prod.mk.inj (Option.some.inj h)
    exact hs
  · obtain ⟨e, hrun, hv⟩ := Option.map_eq_some_iff.mp h
    have hworld : v.world = e.world := by
      dsimp only at hv
      split at hv <;> obtain ⟨-, rfl⟩ := Prod.mk.inj hv <;> rfl
    rw [hworld]
    exact (hs.inFile file).ran hrun

theorem threads_toValue (store : Store) (h : HostValue) :
    (Marshal.toValue store h).2.threads = store.threads :=
  Store.threads_of_settled (Store.settled_of_standing (Marshal.standing_toValue store h))

theorem threads_imported (store : Store) (n : Nat) (before : List Value) (args : List HostValue) :
    (imported store n before args).2.threads = store.threads := by
  induction args generalizing store n before with
  | nil => rfl
  | cons h rest ih =>
      have hthreads := threads_toValue store h
      rw [imported]
      split <;> rename_i heq <;> rw [heq] at hthreads
      · exact (ih _ _ _).trans hthreads
      · exact hthreads

theorem set_reached (hs : s.world.Reached) (name : String) (value : HostValue) :
    (s.set name value).2.world.Reached := by
  have hthreads := threads_toValue s.store value
  unfold set
  split <;> rename_i heq <;> rw [heq] at hthreads
  · exact hs.meanwhile _ hthreads
  · exact hs.meanwhile _ hthreads

theorem serve_reached {r : Request} {reply : Reply} (hs : s.world.Reached)
    (h : s.serve horizon r = some (reply, v)) : v.world.Reached := by
  cases r with
  | eval code =>
      obtain ⟨result, hrun⟩ := eval_run h
      exact run_reached hs hrun
  | evalExpression code =>
      simp only [serve, evalExpression] at h
      split at h
      · obtain ⟨-, rfl⟩ := Prod.mk.inj (Option.some.inj h)
        exact hs
      · obtain ⟨⟨o, u⟩, heval, hv⟩ := Option.bind_eq_some_iff.mp h
        rw [finished_world hv]
        exact (hs.inFile exprLabel).evaluatedExpr heval
  | call name args =>
      simp only [serve, call] at h
      split at h
      · obtain ⟨-, rfl⟩ := Prod.mk.inj (Option.some.inj h)
        exact hs
      · have hthreads := threads_imported s.store 0 [] args
        split at h <;> rename_i heq <;> rw [heq] at hthreads
        · obtain ⟨-, rfl⟩ := Prod.mk.inj (Option.some.inj h)
          exact hs.meanwhile _ hthreads
        · obtain ⟨⟨o, u⟩, happly, hv⟩ := Option.bind_eq_some_iff.mp h
          rw [finished_world hv]
          exact (hs.meanwhile _ hthreads).applied happly
  | set name value =>
      have hv : (s.set name value).2 = v := congrArg Prod.snd (Option.some.inj h)
      rw [← hv]
      exact set_reached hs name value
  | bind name value =>
      have hv : (s.bind name value).2 = v := congrArg Prod.snd (Option.some.inj h)
      rw [← hv]
      unfold bind
      split
      · exact hs.meanwhile _ rfl
      · exact set_reached hs name _
  | get name =>
      obtain ⟨_, -, hv⟩ := Option.map_eq_some_iff.mp h
      obtain rfl := (Prod.mk.inj hv).2
      exact hs
  | load path =>
      simp only [serve, load] at h
      split at h
      · obtain ⟨-, rfl⟩ := Prod.mk.inj (Option.some.inj h)
        exact hs
      · obtain ⟨⟨result, u⟩, hrun, hv⟩ := Option.map_eq_some_iff.mp h
        have hsame : v = u := by
          cases result <;> exact (Prod.mk.inj hv).2.symm
        rw [hsame]
        exact run_reached hs hrun

theorem Reached.world (h : s.Reached) : s.world.Reached := by
  induction h with
  | start terms source => exact .fresh Job.noFile
  | served _ hserve ih => exact serve_reached ih hserve
  | meanwhile _ store hthreads terms source ih => exact ih.meanwhile store hthreads
  | moved _ limits id o ih => exact ih.moved limits id o

end Session

end Scriptlet
