/-
Looser limits change nothing in a run that stays within its own: as long as no
limit is exceeded each step is the same, and a failure, once there, passes all
frames up to the end of the run.
-/
import Scriptlet.Proofs.Evaluation

namespace Scriptlet

def Fault.isLimit : Fault → Bool
  | .tooDeep | .stepLimit _ => true
  | _ => false

/-- Whether limits leave all the room that others do: nodes and hooks may nest
as deep, and there is no bound on the nodes evaluated, or one that is not less. -/
structure Limits.LooserThan (looser limits : Limits) : Prop where
  depth : limits.maxDepth ≤ looser.maxDepth
  steps : looser.maxSteps = 0 ∨ 0 < limits.maxSteps ∧ limits.maxSteps ≤ looser.maxSteps

namespace Terms

/-- The terms with other limits: what happens next in each world is the same. -/
def under (terms : Terms) (limits : Limits) : Terms := { limits with feed := terms.feed }

/-- Whether the main thread goes on again and again. -/
def Fair (terms : Terms) : Prop :=
  ∀ w : World, ∃ n, (terms.feed (w.after terms n)).actor = none

end Terms

namespace Task

def HasFailed (fault : Fault) (t : Task) : Prop :=
  ∃ f : Failure, t.control = .outcome (.failed f) ∧ f.fault = fault

variable {limits looser : Limits} {t : Task} {s : Store} {fault : Fault}

theorem located_failed (s : Store) (f : Failure) (p : Position) :
    (located s f p).1.fault = f.fault ∧ (located s f p).2.threads.size = s.threads.size := by
  have hlocate : (f.locate p).fault = f.fault := by
    unfold Failure.locate
    split <;> rfl
  unfold located
  split
  · exact ⟨rfl, rfl⟩
  · dsimp only
    split
    · exact ⟨hlocate, by simp [Store.setThread]⟩
    · exact ⟨hlocate, rfl⟩

/-- Each frame lets a failure pass with its cause, and starts no thread. -/
theorem resume_failed (t : Task) (s : Store) (f : Failure) (frame : Frame) :
    (t.resume s (.failed f) frame).1.HasFailed f.fault ∧
      (t.resume s (.failed f) frame).1.frames = t.frames ∧
      (t.resume s (.failed f) frame).2.threads.size = s.threads.size := by
  cases frame with
  | leaveNode position outer =>
      simp only [resume, exited]
      cases position with
      | none => exact ⟨⟨f, rfl, rfl⟩, rfl, rfl⟩
      | some p =>
          obtain ⟨hfault, hthreads⟩ := located_failed s f p
          exact ⟨⟨_, rfl, hfault⟩, rfl, hthreads⟩
  | leaveCall =>
      refine ⟨⟨_, rfl, ?_⟩, rfl, rfl⟩
      unfold Failure.withTrace
      split <;> rfl
  | _ => exact ⟨⟨f, rfl, rfl⟩, rfl, rfl⟩

theorem step_failed (limits : Limits) (s : Store) {frame : Frame} {rest : List Frame}
    (hfailed : t.HasFailed fault) (hframes : t.frames = frame :: rest) :
    (t.step limits s).1.HasFailed fault ∧ (t.step limits s).1.frames = rest ∧
      (t.step limits s).2.threads.size = s.threads.size := by
  obtain ⟨f, hcontrol, rfl⟩ := hfailed
  simp only [step, hcontrol, hframes]
  exact resume_failed _ _ _ _

theorem hasFailed_failing (t : Task) (fault : Fault) : (t.failing fault).HasFailed fault :=
  ⟨_, rfl, rfl⟩

theorem refusal_looser (h : looser.LooserThan limits) (t : Task) (s : Store) :
    (∃ fault s', t.refusal limits s = (some fault, s') ∧ fault.isLimit) ∨
      t.refusal looser s = t.refusal limits s := by
  by_cases hdeep : limits.maxDepth < t.depth + 1
  · exact .inl ⟨.tooDeep, s, if_pos hdeep, rfl⟩
  · have hlooser : ¬ looser.maxDepth < t.depth + 1 := by
      have hle := h.depth
      omega
    by_cases hsteps : 0 < limits.maxSteps ∧ limits.maxSteps < s.steps + 1
    · refine .inl ⟨.stepLimit limits.maxSteps, { s with steps := s.steps + 1 }, ?_, rfl⟩
      simp [refusal, hdeep, hsteps.1, hsteps.2]
    · have hmore : ¬ (0 < looser.maxSteps ∧ looser.maxSteps < s.steps + 1) := by
        rcases h.steps with hnone | ⟨hpos, hle⟩ <;> omega
      refine .inr ?_
      simp only [refusal, hdeep, hlooser, if_false, Bool.and_eq_true, decide_eq_true_eq, hsteps,
        hmore]

theorem callHook_looser (h : looser.LooserThan limits) (t : Task) (s : Store) (receiver : Value)
    (name : String) (args : List Value) :
    (t.callHook limits s receiver name args).1.HasFailed .tooDeep ∨
      t.callHook looser s receiver name args = t.callHook limits s receiver name args := by
  by_cases hdeep : limits.maxDepth < t.depth + 1
  · refine .inl ?_
    rw [callHook, if_pos hdeep]
    exact hasFailed_failing t _
  · have hlooser : ¬ looser.maxDepth < t.depth + 1 := by
      have hle := h.depth
      omega
    exact .inr (by simp only [callHook, hdeep, hlooser, if_false])

/-- A step is the same under looser limits, unless a limit is exceeded. -/
theorem step_looser (h : looser.LooserThan limits) (t : Task) (s : Store) :
    (∃ fault, fault.isLimit ∧ (t.step limits s).1.HasFailed fault) ∨
      t.step looser s = t.step limits s := by
  cases hcontrol : t.control with
  | expr e env | stmt st env | block b env | program statements env =>
      rcases refusal_looser h t s with ⟨fault, s', hrefusal, hlimit⟩ | hsame
      · refine .inl ⟨fault, hlimit, ?_⟩
        simp only [step, hcontrol, hrefusal]
        exact hasFailed_failing t fault
      · exact .inr (by simp only [step, hcontrol, hsame])
  | hook receiver name args =>
      rcases callHook_looser h t s receiver name args with hfailed | hsame
      · refine .inl ⟨.tooDeep, rfl, ?_⟩
        simpa only [step, hcontrol] using hfailed
      · exact .inr (by simp only [step, hcontrol, hsame])
  | call callee args | asleep time | joining ids | outcome o =>
      exact .inr (by simp only [step, hcontrol])

end Task

namespace World

variable {terms : Terms} {limits looser : Limits} {horizon : Nat} {w v u : World} {o : Outcome}
variable {fault : Fault}

/-- A run to the result of the main thread in which no thread was spawned leaves
it alone. -/
theorem Alone.finish (hw : w.Alone) (h : w.finish terms horizon = some (o, u))
    (hthreads : u.store.threads.size ≤ w.store.threads.size) : u.Alone := by
  induction horizon generalizing w with
  | zero => exact nomatch h
  | succ horizon ih =>
      cases hresult : w.main.result? with
      | some o' =>
          rw [finish_result hresult] at h
          obtain ⟨-, rfl⟩ := Prod.mk.inj (Option.some.inj h)
          exact hw
      | none =>
          rw [finish_succ hresult] at h
          have hup := threads_le_move terms.toLimits w (terms.feed w)
          have hdown := threads_le_finish h
          exact ih (hw.move (Nat.le_trans hdown hthreads)) h (Nat.le_trans hthreads hup)

/-- A failure of the main thread stays where the main thread does not go on, and
passes one frame where it does. -/
theorem move_hasFailed (limits : Limits) (hw : w.Alone) (hfailed : w.main.HasFailed fault)
    {frame : Frame} {rest : List Frame} (hframes : w.main.frames = frame :: rest) (e : Event) :
    (w.move limits e).Alone ∧ (w.move limits e).main.HasFailed fault ∧
      (w.move limits e).main.frames = if e.actor = none then rest else frame :: rest := by
  obtain ⟨hmain, hrest, hthreads⟩ :=
    Task.step_failed limits (w.within e.outside).store hfailed hframes
  have hmove := move_alone hw limits e
  split <;> rename_i hactor
  · rw [if_pos hactor] at hmove
    refine ⟨hw.move ?_, ?_, ?_⟩
    · rw [hmove]
      exact Nat.le_of_eq hthreads
    · rw [hmove]
      exact hmain
    · rw [hmove]
      exact hrest
  · rw [if_neg hactor] at hmove
    rw [hmove]
    exact ⟨hw, hfailed, hframes⟩

/-- A run that has failed has that failure for its result, if it ends. -/
theorem HasFailed.outcome (hw : w.Alone) (hfailed : w.main.HasFailed fault)
    (h : w.finish terms horizon = some (o, u)) : ∃ f, o = .failed f ∧ f.fault = fault := by
  induction horizon generalizing w with
  | zero => exact nomatch h
  | succ horizon ih =>
      cases hresult : w.main.result? with
      | some o' =>
          rw [finish_result hresult] at h
          obtain ⟨rfl, -⟩ := Prod.mk.inj (Option.some.inj h)
          obtain ⟨f, hcontrol, hfault⟩ := hfailed
          obtain ⟨houtcome, -⟩ := Task.result?_eq_some_iff.mp hresult
          rw [hcontrol] at houtcome
          exact ⟨f, (Control.outcome.inj houtcome).symm, hfault⟩
      | none =>
          rw [finish_succ hresult] at h
          cases hframes : w.main.frames with
          | nil =>
              obtain ⟨f, hcontrol, -⟩ := hfailed
              exact absurd ⟨hframes, _, hcontrol⟩ ((Task.result?_eq_none_iff _).mp hresult)
          | cons frame rest =>
              obtain ⟨halone, hstill, -⟩ :=
                move_hasFailed terms.toLimits hw hfailed hframes (terms.feed w)
              exact ih halone hstill h

/-- A run that has failed ends, if the main thread goes on again and again. -/
theorem finish_hasFailed (hfair : terms.Fair) (hw : w.Alone) (hfailed : w.main.HasFailed fault) :
    ∃ horizon f u, f.fault = fault ∧ w.finish terms horizon = some (.failed f, u) := by
  suffices hends : ∃ horizon r, w.finish terms horizon = some r by
    obtain ⟨horizon, ⟨o, u⟩, hfinish⟩ := hends
    obtain ⟨f, rfl, hfault⟩ := HasFailed.outcome hw hfailed hfinish
    exact ⟨horizon, f, u, hfault, hfinish⟩
  generalize hframes : w.main.frames = frames
  induction frames generalizing w with
  | nil =>
      obtain ⟨f, hcontrol, -⟩ := hfailed
      exact ⟨1, _, finish_result (Task.result?_eq_some_iff.mpr ⟨hcontrol, hframes⟩)⟩
  | cons frame rest ihFrames =>
      obtain ⟨n, hn⟩ := hfair w
      -- The frames stay until the main thread goes on, which it does after `n` events.
      induction n generalizing w with
      | zero =>
          obtain ⟨halone, hstill, hrest⟩ :=
            move_hasFailed terms.toLimits hw hfailed hframes (terms.feed w)
          rw [if_pos (show (terms.feed w).actor = none from hn)] at hrest
          obtain ⟨horizon, r, hfinish⟩ := ihFrames halone hstill hrest
          exact ⟨horizon + 1, r, (finish_succ (going hframes)).trans hfinish⟩
      | succ n ih =>
          obtain ⟨halone, hstill, hrest⟩ :=
            move_hasFailed terms.toLimits hw hfailed hframes (terms.feed w)
          have hlater : ∃ horizon r, (w.step terms).finish terms horizon = some r := by
            split at hrest
            · exact ihFrames halone hstill hrest
            · exact ih halone hstill hrest hn
          obtain ⟨horizon, r, hfinish⟩ := hlater
          exact ⟨horizon + 1, r, (finish_succ (going hframes)).trans hfinish⟩
where
  going {w : World} {frame : Frame} {rest : List Frame} (hframes : w.main.frames = frame :: rest) :
      w.main.result? = none := by
    rw [Task.result?_eq_none_iff]
    rintro ⟨hnil, -⟩
    exact nomatch hframes.symm.trans hnil

variable {done : List Value} {rest statements : List Stmt} {e : Ending} {before : List World}

/-- A failure is never lost: if it is there at a moment of a run without other
threads, it is that with which the run ends. -/
theorem RunsThrough.failure (h : w.RunsThrough terms statements (v :: before) rest)
    (hv : v.Alone) (hfailed : v.main.HasFailed fault)
    (hrun : w.runFrom terms horizon [] statements = some e) :
    ∃ f, e.failure = some f ∧ f.fault = fault := by
  obtain ⟨done, s, hresumed⟩ := h.resumed hrun
  rw [World.resumeFrom] at hresumed
  cases hfinish : v.finish terms horizon with
  | none =>
      rw [hfinish] at hresumed
      cases hresumed
  | some r =>
      obtain ⟨o, u⟩ := r
      obtain ⟨f, rfl, hfault⟩ := HasFailed.outcome hv hfailed hfinish
      rw [hfinish] at hresumed
      obtain rfl := Option.some.inj hresumed
      exact ⟨f, rfl, hfault⟩

/-- Once there is a failure, the run ends if the main thread goes on again and
again. -/
theorem RunsThrough.fails (hfair : terms.Fair)
    (h : w.RunsThrough terms statements (v :: before) rest) (hv : v.Alone)
    (hfailed : v.main.HasFailed fault) :
    ∃ horizon e, w.runFrom terms horizon [] statements = some e := by
  obtain ⟨done, s, hrest⟩ := h.resumeFrom
  obtain ⟨horizon, f, u, -, hfinish⟩ := finish_hasFailed hfair hv hfailed
  obtain ⟨later, hrun⟩ :=
    hrest horizon ⟨done.reverse, some f, u⟩ (by rw [World.resumeFrom, hfinish])
  exact ⟨later, _, hrun⟩

/-- An event has the same consequences under looser limits, unless a limit is
exceeded. -/
theorem move_looser (h : looser.LooserThan limits) (hw : w.Alone) (e : Event) :
    (∃ fault, fault.isLimit ∧ (w.move limits e).main.HasFailed fault) ∨
      w.move looser e = w.move limits e := by
  rw [move_alone hw, move_alone hw]
  split
  · rcases Task.step_looser h w.main (w.within e.outside).store with hfailed | hsame
    · exact .inl hfailed
    · exact .inr (by rw [hsame])
  · exact .inr rfl

/-- A run to the result of the main thread is the same under looser limits,
unless its result is that a limit was exceeded. -/
theorem finish_looser (h : looser.LooserThan terms.toLimits) (hw : w.Alone)
    (hfinish : w.finish terms horizon = some (o, u))
    (hthreads : u.store.threads.size ≤ w.store.threads.size)
    (hwithin : ∀ f, o = .failed f → f.fault.isLimit = false) :
    w.finish (terms.under looser) horizon = some (o, u) := by
  induction horizon generalizing w with
  | zero => exact nomatch hfinish
  | succ horizon ih =>
      cases hresult : w.main.result? with
      | some o' =>
          rw [finish_result hresult] at hfinish ⊢
          exact hfinish
      | none =>
          rw [finish_succ hresult] at hfinish ⊢
          have hup := threads_le_move terms.toLimits w (terms.feed w)
          have hdown := threads_le_finish hfinish
          have halone : (w.step terms).Alone := hw.move (Nat.le_trans hdown hthreads)
          have hsame : w.step (terms.under looser) = w.step terms := by
            rcases move_looser h hw (terms.feed w) with ⟨fault, hlimit, hfailed⟩ | hsame
            · obtain ⟨f, houtcome, hfault⟩ := HasFailed.outcome halone hfailed hfinish
              have hnot := hwithin f houtcome
              rw [hfault, hlimit] at hnot
              exact nomatch hnot
            · exact hsame
          rw [hsame]
          exact ih halone hfinish (Nat.le_trans hthreads hup)

theorem threads_le_runFrom (h : w.runFrom terms horizon done statements = some e) :
    w.store.threads.size ≤ e.world.store.threads.size := by
  induction statements generalizing w done with
  | nil =>
      obtain rfl := Option.some.inj h
      exact Nat.le_refl _
  | cons s rest ih =>
      rw [runFrom_cons, World.resumeFrom] at h
      cases hfinish : (w.doing (.stmt s [])).finish terms horizon with
      | none =>
          rw [hfinish] at h
          cases h
      | some r =>
          obtain ⟨o, u⟩ := r
          have hle := threads_le_finish hfinish
          rw [hfinish] at h
          cases o with
          | value x => exact Nat.le_trans hle (ih h)
          | returned x | left | skipped | failed f =>
              obtain rfl := Option.some.inj h
              exact hle

theorem runFrom_looser (h : looser.LooserThan terms.toLimits) (hw : w.Alone)
    (hrun : w.runFrom terms horizon done statements = some e)
    (hthreads : e.world.store.threads.size ≤ w.store.threads.size)
    (hwithin : ∀ f, e.failure = some f → f.fault.isLimit = false) :
    w.runFrom (terms.under looser) horizon done statements = some e := by
  induction statements generalizing w done with
  | nil => exact hrun
  | cons s rest ih =>
      rw [runFrom_cons, World.resumeFrom] at hrun ⊢
      cases hfinish : (w.doing (.stmt s [])).finish terms horizon with
      | none =>
          rw [hfinish] at hrun
          cases hrun
      | some r =>
          obtain ⟨o, u⟩ := r
          have hle : w.store.threads.size ≤ u.store.threads.size :=
            threads_le_finish (w := w.doing (.stmt s [])) hfinish
          have hdoing : (w.doing (.stmt s [])).Alone := hw
          rw [hfinish] at hrun
          have hsame : u.store.threads.size ≤ w.store.threads.size →
              (∀ f, o = .failed f → f.fault.isLimit = false) →
              (w.doing (.stmt s [])).finish (terms.under looser) horizon = some (o, u) :=
            finish_looser h hdoing hfinish
          cases o with
          | value x =>
              have hrest := threads_le_runFrom hrun
              have hsize : u.store.threads.size ≤ w.store.threads.size := by omega
              have hvalue : ∀ f, Outcome.value x = .failed f → f.fault.isLimit = false := by
                rintro f ⟨⟩
              rw [hsame hsize hvalue]
              exact ih (hdoing.finish hfinish hsize) hrun (by omega)
          | returned x | left | skipped =>
              obtain rfl := Option.some.inj hrun
              rw [hsame hthreads]
              rintro f ⟨⟩
          | failed f =>
              obtain rfl := Option.some.inj hrun
              rw [hsame hthreads]
              rintro f' hf'
              obtain rfl := Outcome.failed.inj hf'
              exact hwithin f rfl

/-- Limits are monotone.  A run in which no thread is spawned, and which ends
with anything but that a limit was exceeded, ends in the very same way under
looser limits if the surroundings do the same: with the same values and failure,
and in the same world.  If on the other hand a failure is there at some moment of
a run without other threads, as it is once a limit was exceeded, then the run
ends with no other, and it does end if the main thread goes on again and again. -/
theorem run_looser (terms : Terms) (looser : Limits) {p : Program} (hw : w.Alone) :
    (∀ horizon e, looser.LooserThan terms.toLimits → w.run terms horizon p = some e →
      e.world.store.threads.size = w.store.threads.size →
      (∀ f, e.failure = some f → f.fault.isLimit = false) →
      w.run (terms.under looser) horizon p = some e) ∧
    (∀ v f, w.Moment terms p v → v.Alone → v.main.control = .outcome (.failed f) →
      (∀ horizon e, w.run terms horizon p = some e →
        ∃ f', e.failure = some f' ∧ f'.fault = f.fault) ∧
      (terms.Fair → ∃ horizon e, w.run terms horizon p = some e)) := by
  have hopened : (w.opened p).Alone ∧
      (w.opened p).store.threads.size = w.store.threads.size := by
    unfold opened
    split <;> exact ⟨hw, rfl⟩
  constructor
  · intro horizon e hlooser hrun hthreads hwithin
    rw [run_eq] at hrun ⊢
    exact runFrom_looser hlooser hopened.1 hrun (by omega) hwithin
  · rintro v f ⟨before, rest, hthrough⟩ hv hcontrol
    have hfailed : v.main.HasFailed f.fault := ⟨f, hcontrol, rfl⟩
    exact ⟨fun _ _ hrun => hthrough.failure hv hfailed hrun,
      fun hfair => hthrough.fails hfair hv hfailed⟩

/-- A program of one number, which is two nodes deep. -/
def counting : Program := ⟨"", [.expr .nowhere "1" (.int .nowhere "1" 1)]⟩

/-- With the numbers that limits are asked for with, more is not always looser:
no bound on the number of nodes is asked for with 0. -/
theorem run_not_looser_of_le :
    ¬ ∀ (depth depth' steps steps' : Int) (feed : World → Event) (w : World) (p : Program)
        (horizon : Nat) (e : Ending),
      depth ≤ depth' → steps' = 0 ∨ steps ≤ steps' → w.Alone →
      w.run { Limits.ofNumbers depth steps with feed } horizon p = some e → e.failure = none →
      e.world.store.threads.size = w.store.threads.size →
      w.run { Limits.ofNumbers depth' steps' with feed } horizon p = some e := by
  intro h
  have hrun : ∃ e, (ofStore default "").run (.bare (.ofNumbers 10 0)) 10 counting = some e ∧
      e.failure = none ∧ e.world.store.threads.size = 0 := ⟨_, rfl, rfl, rfl⟩
  have hbounded : ∃ e f, (ofStore default "").run (.bare (.ofNumbers 10 1)) 10 counting = some e ∧
      e.failure = some f := ⟨_, _, rfl, rfl⟩
  obtain ⟨e, hend, hnone, hthreads⟩ := hrun
  obtain ⟨e', f, hend', hfailed⟩ := hbounded
  have hsame := h 10 10 0 1 (fun _ => ⟨none, .bare⟩) (ofStore default "") counting 10 e
    (Int.le_refl _) (.inr (by decide)) (alone_of_unspawned rfl rfl) hend hnone hthreads
  obtain rfl := Option.some.inj (hend'.symm.trans hsame)
  rw [hnone] at hfailed
  exact nomatch hfailed

theorem run_looser_counting :
    (∃ e, (ofStore default "").run (.bare ⟨2, 2⟩) 10 counting = some e ∧
      (ofStore default "").run (.bare ⟨3, 0⟩) 10 counting = some e) ∧
    (∃ horizon e f, (ofStore default "").run (.bare ⟨1, 0⟩) horizon counting = some e ∧
      e.failure = some f ∧ f.fault = .tooDeep) := by
  have halone : (ofStore default "").Alone := alone_of_unspawned rfl rfl
  constructor
  · have hrun : ∃ e, (ofStore default "").run (.bare ⟨2, 2⟩) 10 counting = some e ∧
        e.failure = none ∧ e.world.store.threads.size = 0 := ⟨_, rfl, rfl, rfl⟩
    obtain ⟨e, hend, hnone, hthreads⟩ := hrun
    have hlooser : Limits.LooserThan ⟨3, 0⟩ ⟨2, 2⟩ := ⟨by decide, .inl rfl⟩
    refine ⟨e, hend, (run_looser (.bare ⟨2, 2⟩) _ halone).1 10 e hlooser hend hthreads ?_⟩
    intro f hf
    rw [hnone] at hf
    exact nomatch hf
  · have hmoment : ∃ v rest f, (ofStore default "").momentAt (.bare ⟨1, 0⟩) counting.statements 2 =
        some (v, rest) ∧ v.Alone ∧ v.main.control = .outcome (.failed f) ∧ f.fault = .tooDeep :=
      ⟨_, _, _, rfl, alone_of_unspawned rfl rfl, rfl, rfl⟩
    obtain ⟨v, rest, f, hv, hvalone, hcontrol, hfault⟩ := hmoment
    have hmoment : (ofStore default "").Moment (.bare ⟨1, 0⟩) counting v :=
      moment_iff.mpr ⟨2, rest, hv⟩
    obtain ⟨-, hfailing⟩ := run_looser (.bare ⟨1, 0⟩) ⟨1, 0⟩ (p := counting) halone
    obtain ⟨hsame, hends⟩ := hfailing v f hmoment hvalone hcontrol
    obtain ⟨horizon, e, hrun⟩ := hends fun _ => ⟨0, rfl⟩
    obtain ⟨f', hfailure, hfault'⟩ := hsame horizon e hrun
    exact ⟨horizon, e, f', hrun, hfailure, hfault'.trans hfault⟩

end World

end Scriptlet
