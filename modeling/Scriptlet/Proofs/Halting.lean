/-
When the main thread, alone, comes to its result: all that it does without
evaluating a node ends, since hooks nest only so deep, an instance passes its
calls on to what was made before it, and a mutex is updated with a call that
updates none.
-/
import Scriptlet.Proofs.CallDepth
import Scriptlet.Proofs.HoldingSteps
import Scriptlet.Proofs.WithinLimits

namespace Scriptlet

def Frame.passes : Frame → Bool
  | .leaveNode _ _ | .leaveHook | .leaveCall | .leaveFunction _ | .leaveInstance
  | .program _ _ | .whileBody _ _ _ | .forBody _ _ _ _ => false
  | _ => true

/-- Whether a frame makes an outcome of each value. -/
def Frame.ends : Frame → Bool
  | .bind _ _ | .stored | .giveBack | .negated | .check _ _ | .freshText | .someText
  | .updating _ | .assertTruth | .assertRight _ _ => true
  | _ => false

theorem Frame.passes_of_ends {f : Frame} (hends : f.ends = true) : f.passes = true := by
  cases f <;> first | rfl | exact nomatch hends

def Control.mutex? : Control → Option Nat
  | .call (.builtin (.mutexOf _)) (.mutex id :: _) => some id
  | _ => none

/-- Whether a thread is about to call a method of a mutex while an update of it
is going on in the thread. -/
def Task.Reenters (t : Task) : Prop :=
  ∃ mutex ∈ t.control.mutex?, Frame.updating mutex ∈ t.frames

instance : DecidablePred Task.Reenters := fun t =>
  inferInstanceAs (Decidable (∃ mutex ∈ t.control.mutex?, Frame.updating mutex ∈ t.frames))

theorem Task.Reenters.of_call {t : Task} {m : MutexMethod} {id : Nat} {rest : List Value}
    (hcontrol : t.control = .call (.builtin (.mutexOf m)) (.mutex id :: rest))
    (hupdating : Frame.updating id ∈ t.frames) : t.Reenters :=
  ⟨id, by rw [hcontrol]; rfl, hupdating⟩

/-- Whether the main thread goes on again and again, and one that sleeps does so
once its time has come. -/
structure Terms.Lively (terms : Terms) : Prop where
  fair : terms.Fair
  wakes : ∀ (w : World) (time : Nat), w.main.control = .asleep time →
    ∃ n, (terms.feed (w.after terms n)).actor = none ∧
      time ≤ (terms.feed (w.after terms n)).outside.elapsed

namespace World

/-- What holds at every moment of a run in which no thread is spawned and no
method of a mutex called inside an update of it. -/
structure Safe (limits : Limits) (v : World) : Prop where
  threads : v.threads = []
  unspawned : v.store.threads.size = 0
  sound : Task.Sound 0 (v.main, v.store)
  nests : v.main.Nests limits
  free : ¬ v.main.Reenters

/-- Whether the main thread comes to its result. -/
def Halts (terms : Terms) (v : World) : Prop :=
  ∃ horizon o u, v.finish terms horizon = some (o, u)

/-- How many more nodes may be evaluated. -/
def remaining (limits : Limits) (v : World) : Nat := limits.maxSteps - v.store.steps

variable {terms : Terms} {limits : Limits} {v : World}

theorem Safe.alone (h : v.Safe limits) : v.Alone := alone_of_unspawned h.threads h.unspawned

theorem Safe.within (h : v.Safe limits) (o : Outside) : (v.within o).Safe limits :=
  ⟨h.threads, h.unspawned, ⟨h.sound.stands.same rfl rfl rfl, h.sound.control⟩, h.nests, h.free⟩

/-- After an event the main thread is still alone and holds what it should, and no
step counted is taken back, as long as no thread is spawned. -/
theorem Safe.next (h : v.Safe limits) (e : Event)
    (hthreads : (v.move limits e).store.threads.size = 0) :
    (v.move limits e).Alone ∧
      Task.Sound v.store.steps ((v.move limits e).main, (v.move limits e).store) := by
  refine ⟨h.alone.move (by omega), ?_⟩
  have hstands : v.main.Stands v.store.steps (v.within e.outside).store :=
    ⟨h.sound.stands.frames, (h.within e.outside).sound.stands.store, h.sound.stands.locks,
      Nat.le_refl _⟩
  rw [move_alone h.alone] at hthreads ⊢
  split <;> rename_i hactor
  · rw [if_pos hactor] at hthreads
    exact Task.sound_step ⟨hstands, h.sound.control⟩ limits hthreads
  · exact ⟨hstands, h.sound.control⟩

theorem Halts.of_step (hgoing : v.main.result? = none) (h : (v.step terms).Halts terms) :
    v.Halts terms := by
  obtain ⟨horizon, o, u, hfinish⟩ := h
  exact ⟨horizon + 1, o, u, (finish_succ hgoing).trans hfinish⟩

theorem Halts.of_hasFailed (hfair : terms.Fair) (h : v.Alone) {fault : Fault}
    (hfailed : v.main.HasFailed fault) : v.Halts terms := by
  obtain ⟨horizon, f, u, -, hfinish⟩ := finish_hasFailed hfair h hfailed
  exact ⟨horizon, .failed f, u, hfinish⟩

end World

/-- Whether all worlds of some kind are safe, and each leads to one of them. -/
structure Steady (terms : Terms) (M : World → Prop) : Prop where
  step : ∀ v, M v → v.main.result? = none → M (v.step terms)
  safe : ∀ v, M v → v.Safe terms.toLimits

namespace Steady

open World

variable {terms : Terms} {M : World → Prop} {v : World} (hM : Steady terms M)
include hM

/-- No step counted is taken back. -/
theorem steps_le (hv : M v) (hgoing : v.main.result? = none) :
    v.store.steps ≤ (v.step terms).store.steps := by
  have hthreads := (hM.safe _ (hM.step v hv hgoing)).unspawned
  obtain ⟨-, hsound⟩ := (hM.safe v hv).next (terms.feed v) hthreads
  exact hsound.stands.steps

/-- What the next world of a steady kind is: the main thread has gone on, or only
the surroundings are others. -/
theorem step_eq (hv : M v) :
    v.step terms =
      if (terms.feed v).actor = none then
        { v.within (terms.feed v).outside with
          main := (v.main.step terms.toLimits (v.within (terms.feed v).outside).store).1
          store := (v.main.step terms.toLimits (v.within (terms.feed v).outside).store).2 }
      else v.within (terms.feed v).outside :=
  move_alone (hM.safe v hv).alone _ _

end Steady

/-- Whether, besides, the main thread goes on again and again. -/
structure Driven (terms : Terms) (M : World → Prop) : Prop extends Steady terms M where
  lively : terms.Lively

/-- It is enough to look at the moment when the main thread goes on: by induction
on the number of events before that. -/
theorem Driven.halts_of_turn {terms : Terms} {M : World → Prop} {v : World} (hM : Driven terms M)
    (hv : M v) (hgoing : v.main.result? = none)
    (h : ∀ u, M u → u.main = v.main → u.store.steps = v.store.steps →
      (terms.feed u).actor = none → (u.step terms).Halts terms) : v.Halts terms := by
  obtain ⟨n, hn⟩ := hM.lively.fair v
  induction n generalizing v with
  | zero => exact .of_step hgoing (h v hv rfl rfl hn)
  | succ n ih =>
      apply World.Halts.of_step hgoing
      by_cases hactor : (terms.feed v).actor = none
      · exact h v hv rfl rfl hactor
      · have hstep := hM.step_eq hv
        rw [if_neg hactor] at hstep
        have hnext := hM.step v hv hgoing
        rw [World.after, hstep] at hn
        rw [hstep] at hnext ⊢
        exact ih hnext hgoing h hn

namespace Task

/-- Whether a thread comes to its result where it is the main thread of a world
of some kind with at most `n` nodes left to be evaluated. -/
def Halts (terms : Terms) (M : World → Prop) (n : Nat) (t : Task) : Prop :=
  ∀ v, M v → v.remaining terms.toLimits ≤ n → v.main = t → v.Halts terms

/-- Whether a thread comes to its result once these frames have an outcome. -/
def Continues (terms : Terms) (M : World → Prop) (n : Nat) (frames : List Frame) : Prop :=
  ∀ (t : Task) (o : Outcome), t.frames = frames → t.control = .outcome o → t.Halts terms M n

open World

variable {terms : Terms} {M : World → Prop} {n : Nat} {t : Task}

section

variable (hM : Driven terms M)
include hM

/-- A thread halts if it does so after its next step. -/
theorem halts_of_step (hgoing : t.result? = none)
    (h : ∀ v : World, v.Safe terms.toLimits → v.main = t →
      ((t.step terms.toLimits v.store).1).Halts terms M n) : t.Halts terms M n := by
  rintro v hv hle rfl
  apply hM.halts_of_turn hv hgoing
  intro u hu hmain hsteps hactor
  have hstep := hM.step_eq hu
  rw [if_pos hactor] at hstep
  have hnext := h _ ((hM.safe u hu).within (terms.feed u).outside) hmain
  have hgoing' : u.main.result? = none := hmain.symm ▸ hgoing
  refine hnext (u.step terms) (hM.step u hu hgoing') ?_ ?_
  · have hmore := hM.steps_le hu hgoing'
    unfold remaining at hle ⊢
    omega
  · rw [hstep, ← hmain]

omit hM in
/-- With nothing that waits for the outcome the thread has its result. -/
theorem continues_nil : Continues terms M n [] := by
  rintro t o hframes hcontrol v - - rfl
  exact ⟨1, o, v, finish_result (result?_eq_some_iff.mpr ⟨hcontrol, hframes⟩)⟩

/-- A frame that goes on to something that halts lets the frames under it be
continued. -/
theorem continues_of_resume {f : Frame} {rest : List Frame}
    (h : ∀ (t : Task) (s : Store) (o : Outcome), t.frames = rest →
      ((t.resume s o f).1).Halts terms M n) : Continues terms M n (f :: rest) := by
  intro t o hframes hcontrol
  have hgoing : t.result? = none := by
    rw [result?, hcontrol, hframes]
  apply halts_of_step hM hgoing
  intro v _ _
  rw [step_resume terms.toLimits v.store hcontrol hframes]
  exact h _ _ _ rfl

/-- One that sleeps has an outcome when it goes on after its time has come. -/
theorem asleep_step {v : World} (hv : M v) {time : Nat} (hcontrol : v.main.control = .asleep time) :
    (∃ o, (v.step terms).main = v.main.doing (.outcome o)) ∨
      (v.step terms).main = v.main ∧
        ¬ ((terms.feed v).actor = none ∧ time ≤ (terms.feed v).outside.elapsed) := by
  have hstep := hM.step_eq hv
  split at hstep <;> rename_i hactor <;> rw [hstep]
  · simp only [step, hcontrol]
    unfold sleepOn
    split
    · exact .inl ⟨_, rfl⟩
    · split <;> rename_i helapsed
      · exact .inr ⟨rfl, fun hawake => absurd hawake.2 (Nat.not_le_of_lt helapsed)⟩
      · exact .inl ⟨_, rfl⟩
  · exact .inr ⟨rfl, fun hawake => hactor hawake.1⟩

/-- A sleep ends: by induction on the number of events before its time has come. -/
theorem halts_asleep (h : Continues terms M n t.frames) {time : Nat}
    (hcontrol : t.control = .asleep time) : t.Halts terms M n := by
  rintro v hv hle rfl
  obtain ⟨m, hactor, htime⟩ := hM.lively.wakes v time hcontrol
  have hleft : ∀ u, M u → u.main.result? = none → u.remaining terms.toLimits ≤ n →
      (u.step terms).remaining terms.toLimits ≤ n := by
    intro u hu hgoing hle
    have hmore := hM.steps_le hu hgoing
    unfold remaining at hle ⊢
    omega
  induction m generalizing v with
  | zero =>
      have hgoing : v.main.result? = none := by rw [result?, hcontrol]
      rcases asleep_step hM hv hcontrol with ⟨o, ho⟩ | ⟨-, hnot⟩
      · have hended := h (v.main.doing (.outcome o)) o rfl rfl
        exact .of_step hgoing (hended _ (hM.step v hv hgoing) (hleft v hv hgoing hle) ho)
      · exact absurd ⟨hactor, htime⟩ hnot
  | succ m ih =>
      have hgoing : v.main.result? = none := by rw [result?, hcontrol]
      have hnext := hM.step v hv hgoing
      apply Halts.of_step hgoing
      rcases asleep_step hM hv hcontrol with ⟨o, ho⟩ | ⟨hsame, -⟩
      · exact h (v.main.doing (.outcome o)) o rfl rfl _ hnext (hleft v hv hgoing hle) ho
      · exact ih (v.step terms) hnext (hleft v hv hgoing hle) (hsame ▸ h) (hsame ▸ hcontrol)
          hactor htime

/-- Nothing is waited for where no thread is there. -/
theorem halts_joining (h : Continues terms M n t.frames) {ids : List Nat}
    (hcontrol : t.control = .joining ids) : t.Halts terms M n := by
  have hgoing : t.result? = none := by rw [result?, hcontrol]
  apply halts_of_step hM hgoing
  rintro v hsafe rfl
  have hids : ids = [] := by
    have hbelow := hsafe.sound.control
    rw [hcontrol] at hbelow
    exact hbelow
  simp only [step, hcontrol, hids, joinAll, joined?]
  exact h _ _ rfl rfl

omit hM in
theorem answered_ends (t : Task) (a : Answer) : ∃ o, (t.answered a).1 = t.doing (.outcome o) := by
  obtain ⟨answer, s⟩ := a
  cases answer with
  | ok v => exact ⟨_, rfl⟩
  | error fault => exact ⟨_, rfl⟩

omit hM in
theorem resumeValue_ends {f : Frame} (hends : f.ends = true) (t : Task) (s : Store) (v : Value) :
    ∃ o, (t.resumeValue s v f).1 = t.doing (.outcome o) := by
  generalize hr : t.resumeValue s v f = r
  cases resumeValue_form hr with
  | passes | null | bool | fails | binding | giveBack | updating => exact ⟨_, rfl⟩
  | text => exact answered_ends _ _
  | _ => cases hends

omit hM in
theorem resume_passes {f : Frame} (hpasses : f.passes = true) (t : Task) (s : Store)
    (o : Outcome) :
    (∃ v, o = .value v ∧ t.resume s o f = t.resumeValue s v f) ∨
      (t.resume s o f).1 = t.doing (.outcome o) := by
  cases o with
  | value v =>
      refine .inl ⟨v, rfl, ?_⟩
      cases f <;> first | rfl | exact nomatch hpasses
  | returned v | left | skipped | failed g =>
      refine .inr ?_
      cases f <;> first | rfl | exact nomatch hpasses

/-- A frame that lets other outcomes pass has to be looked at with values
only. -/
theorem continues_of_value {f : Frame} {rest : List Frame} (hpasses : f.passes = true)
    (hrest : Continues terms M n rest)
    (h : ∀ (t : Task) (s : Store) (v : Value), t.frames = rest →
      ((t.resumeValue s v f).1).Halts terms M n) : Continues terms M n (f :: rest) := by
  apply continues_of_resume hM
  intro t s o hframes
  rcases resume_passes hpasses t s o with ⟨v, -, hvalue⟩ | hother
  · rw [hvalue]
    exact h t s v hframes
  · rw [hother]
    exact hrest _ o hframes rfl

/-- What was entered is left with an outcome. -/
theorem continues_leaving {f : Frame} {rest : List Frame} (hleaving : f.isLeaving = true)
    (hrest : Continues terms M n rest) : Continues terms M n (f :: rest) := by
  apply continues_of_resume hM
  intro t s o hframes
  obtain ⟨o', ho'⟩ := resume_leaving t s o f hleaving
  rw [ho']
  exact hrest _ o' hframes rfl

/-- A frame that makes an outcome of each value lets the frames under it be
continued. -/
theorem continues_ending {f : Frame} {rest : List Frame} (hends : f.ends = true)
    (hrest : Continues terms M n rest) : Continues terms M n (f :: rest) := by
  apply continues_of_value hM (Frame.passes_of_ends hends) hrest
  intro t s v hframes
  obtain ⟨o, ho⟩ := resumeValue_ends hends t s v
  rw [ho]
  exact hrest _ o hframes rfl

end

/-- Whether a thread with these frames can be continued, and at most `k` more
levels of the depth are left to it. -/
structure Ready (terms : Terms) (M : World → Prop) (n k : Nat) (frames : List Frame) : Prop where
  continues : Continues terms M n frames
  level : terms.maxDepth ≤ charges frames + k

/-- Whether a thread that is about to call a hook comes to its result if it can
be continued. -/
def Asks (terms : Terms) (M : World → Prop) (n k : Nat) : Prop :=
  ∀ (t : Task) (receiver : Value) (name : String) (args : List Value),
    Ready terms M n k t.frames → t.control = .hook receiver name args → t.Halts terms M n

/-- The same of a thread that is about to make a call with arguments of some
kind. -/
def Calls (terms : Terms) (M : World → Prop) (n k : Nat) (kind : List Value → Prop) : Prop :=
  ∀ (t : Task) (callee : Value) (args : List Value),
    Ready terms M n k t.frames → kind args → t.control = .call callee args → t.Halts terms M n

/-- Arguments with which no mutex can be updated: there is one at most, or an
instance leads them. -/
def Few (args : List Value) : Prop := args.length ≤ 1 ∨ ∃ id rest, args = .instance id :: rest

section

variable {k : Nat} (hM : Driven terms M)

namespace Ready

/-- A frame on top leaves no more levels of the depth. -/
theorem push {frames : List Frame} (h : Ready terms M n k frames) {f : Frame}
    (hf : Continues terms M n (f :: frames)) : Ready terms M n k (f :: frames) := by
  refine ⟨hf, ?_⟩
  have hlevel := h.level
  rw [charges_cons]
  omega

variable (h : Ready terms M n k t.frames)
include h

theorem ended (o : Outcome) : (t.doing (.outcome o)).Halts terms M n :=
  h.continues _ o rfl rfl

theorem answered (a : Answer) : ((t.answered a).1).Halts terms M n := by
  obtain ⟨o, ho⟩ := answered_ends t a
  rw [ho]
  exact h.ended o

end Ready

include hM

/-- A frame that is looked at with values only may be put on top if what each
value leads to halts. -/
theorem Ready.behind {frames : List Frame} (h : Ready terms M n k frames) {f : Frame}
    (hpasses : f.passes = true)
    (hvalue : ∀ (t : Task) (s : Store) (v : Value), Ready terms M n k t.frames →
      ((t.resumeValue s v f).1).Halts terms M n) : Ready terms M n k (f :: frames) := by
  apply h.push
  apply continues_of_value hM hpasses h.continues
  intro t s v hframes
  exact hvalue t s v (hframes ▸ h)

theorem Ready.ending {frames : List Frame} (h : Ready terms M n k frames) {f : Frame}
    (hends : f.ends = true) : Ready terms M n k (f :: frames) :=
  h.push (continues_ending hM hends h.continues)

theorem Ready.leaving {frames : List Frame} (h : Ready terms M n k frames) {f : Frame}
    (hleaving : f.isLeaving = true) : Ready terms M n k (f :: frames) :=
  h.push (continues_leaving hM hleaving h.continues)

variable (hasks : Asks terms M n k) (h : Ready terms M n k t.frames)
include hasks h

theorem halts_asking (hook : HookCheck) (subject receiver : Value) (name : String)
    (args : List Value) :
    (t.awaiting (.check hook subject) (.hook receiver name args)).Halts terms M n :=
  hasks _ receiver name args (h.ending hM (f := .check hook subject) rfl) rfl

theorem halts_askTruth (v : Value) : (t.askTruth v).Halts terms M n := by
  unfold askTruth
  split
  · exact h.ended _
  · exact halts_asking hM hasks h _ _ _ _ _

theorem halts_askText (v : Value) : (t.askText v).Halts terms M n :=
  halts_asking hM hasks h _ _ _ _ _

theorem halts_askEqual (s : Store) (a b : Value) : (t.askEqual s a b).Halts terms M n := by
  unfold askEqual
  split
  · exact halts_asking hM hasks h _ _ _ _ _
  · exact h.ended _

/-- Values are printed one after the other, each text is asked for once. -/
theorem halts_printing (s : Store) (done : List Text) (values : List Value) :
    ((t.printing s done values).1).Halts terms M n := by
  induction values generalizing t s done with
  | nil => exact h.answered _
  | cons v rest ih =>
      have hpushed : Ready terms M n k (.printing done rest :: t.frames) := by
        apply h.behind hM rfl
        intro u s v hu
        simp only [resumeValue]
        split <;> exact ih hu _ _
      cases v with
      | str text id => exact ih h _ _
      | _ => exact halts_askText hM hasks (t := t.pushed (.printing done rest)) hpushed _

theorem halts_listText (s : Store) (done : List Text) (values : List Value) :
    ((t.listText s done values).1).Halts terms M n := by
  induction values generalizing t s done with
  | nil => exact h.answered _
  | cons v rest ih =>
      have hpushed : Ready terms M n k (.listText done rest :: t.frames) := by
        apply h.behind hM rfl
        intro u s v hu
        simp only [resumeValue]
        split <;> exact ih hu _ _
      exact halts_askText hM hasks (t := t.pushed (.listText done rest)) hpushed v

theorem halts_comparePairs (s : Store) (pairs : List (Value × Value)) :
    (t.comparePairs s pairs).Halts terms M n := by
  induction pairs generalizing t s with
  | nil => exact h.ended _
  | cons pair rest ih =>
      have hpushed : Ready terms M n k (.pairs rest :: t.frames) := by
        apply h.behind hM rfl
        intro u s v hu
        simp only [resumeValue]
        split
        · exact ih hu _
        · exact hu.ended _
      exact halts_askEqual hM hasks (t := t.pushed (.pairs rest)) hpushed s pair.1 pair.2

theorem halts_seek (s : Store) (target : Value) (index : Nat) (onlyWhether : Bool)
    (values : List Value) : (t.seek s target index onlyWhether values).Halts terms M n := by
  induction values generalizing t s index with
  | nil => exact h.ended _
  | cons v rest ih =>
      have hpushed : Ready terms M n k (.seeking target index onlyWhether rest :: t.frames) := by
        apply h.behind hM rfl
        intro u s v hu
        simp only [resumeValue]
        split
        · split
          · exact hu.ended _
          · exact hu.answered _
        · exact ih hu _ _
      exact halts_askEqual hM hasks (t := t.pushed (.seeking target index onlyWhether rest))
        hpushed s v target

theorem halts_assertLeft (s : Store) (v right : Value) (wanted : Bool) :
    ((t.resumeValue s v (.assertLeft right wanted)).1).Halts terms M n := by
  simp only [resumeValue]
  split
  · exact halts_askText hM hasks (h.ending hM (f := .assertRight _ wanted) rfl) right
  · exact h.ended _

theorem halts_assertEqual (s : Store) (v left right : Value) (wanted : Bool) :
    ((t.resumeValue s v (.assertEqual left right wanted)).1).Halts terms M n := by
  simp only [resumeValue]
  split
  · split
    · exact h.ended _
    · have hpushed : Ready terms M n k (.assertLeft right wanted :: t.frames) := by
        apply h.behind hM rfl
        exact fun u s v hu => halts_assertLeft hM hasks hu s v right wanted
      exact halts_askText hM hasks (t := t.pushed (.assertLeft right wanted)) hpushed left
  · exact h.ended _

theorem halts_asserting (s : Store) (left right : Value) (wanted : Bool) :
    ((t.pushed (.assertEqual left right wanted)).askEqual s left right).Halts terms M n := by
  have hpushed : Ready terms M n k (.assertEqual left right wanted :: t.frames) := by
    apply h.behind hM rfl
    exact fun u s v hu => halts_assertEqual hM hasks hu s v left right wanted
  exact halts_askEqual hM hasks (t := t.pushed (.assertEqual left right wanted)) hpushed s
    left right

omit hasks in
theorem halts_sleeping (s : Store) (ms : Float) : (t.sleeping s ms).Halts terms M n := by
  unfold sleeping
  split
  · exact h.ended _
  · exact halts_asleep hM h.continues rfl

omit hasks in
/-- A mutex is updated by a call with its value alone. -/
theorem halts_useMutex (s : Store) (m : MutexMethod) (id : Nat) (cell : MutexCell)
    (arg : Option Value) (hupdate : m = .update → Calls terms M n k Few) :
    ((t.useMutex s m id cell arg).1).Halts terms M n := by
  cases m with
  | get => exact h.ended _
  | set => exact h.ended _
  | update =>
      have hpushed := (h.ending hM (f := .updating id) rfl).leaving hM (f := .leaveCall) rfl
      exact hupdate rfl _ (arg.getD .null) [cell.value] hpushed (.inl (Nat.le_refl 1)) rfl

end

/-- How many instances a call may at most be passed on to, one after the other. -/
def rank : Value → Nat
  | .instance id => id + 1
  | _ => 0

theorem rank_le_of_below {id : Nat} {f : Value} (h : f.Below id) : rank f ≤ id := by
  cases f with
  | «instance» j => exact Nat.succ_le_of_lt h
  | _ => exact Nat.zero_le _

section

variable {k : Nat} (hM : Driven terms M) (hasks : Asks terms M n k)
include hM hasks

/-- An operation that calls back comes to its end: no mutex is locked that it
uses, and there are no threads to wait for. -/
theorem halts_callBack {v : World} (hsafe : v.Safe terms.toLimits) {b : Builtin}
    {args : List Value} (hcontrol : v.main.control = .call (.builtin b) args)
    (h : Ready terms M n k v.main.frames)
    (hupdate : ∀ id rest, b = .mutexOf .update → args = .mutex id :: rest →
      Calls terms M n k Few) :
    ((v.main.callBack v.store b args).1).Halts terms M n := by
  have hargs : ∀ x ∈ args, x.Below v.store.instances.size := by
    have hbelow := hsafe.sound.control
    rw [hcontrol] at hbelow
    exact hbelow.2
  generalize hr : v.main.callBack v.store b args = r
  cases callBack_form hr with
  | print => exact halts_printing hM hasks h _ _ _
  | freshText => exact halts_askText hM hasks (h.ending hM (f := .freshText) rfl) _
  | someText => exact halts_askText hM hasks (h.ending hM (f := .someText) rfl) _
  | text | restless | refused => exact h.answered _
  | length => exact hasks _ _ _ _ h rfl
  | spawned | decided | noMutex => exact h.ended _
  | sleep => exact halts_sleeping hM h _ _
  | assertTruth => exact halts_askTruth hM hasks (h.ending hM (f := .assertTruth) rfl) _
  | assertEqual => exact halts_asserting hM hasks h _ _ _ _
  | seek => exact halts_seek hM hasks h _ _ _ _ _
  | listText => exact halts_listText hM hasks h _ _ _
  | comparePairs => exact halts_comparePairs hM hasks h _ _
  | optionEqual => exact halts_askEqual hM hasks h _ _ _
  | @locked id cell _ _ hcell hlocked =>
      have hlock := hsafe.sound.stands.locks id ⟨cell, hcell, hlocked⟩
      exact absurd (.of_call hcontrol hlock) hsafe.free
  | @useMutex id _ m rest =>
      exact halts_useMutex hM h _ _ _ _ _ fun hm => hupdate id rest (by rw [hm]) rfl
  | joinThread id =>
      have hthread : (Value.thread id).Below v.store.instances.size := hargs _ (by simp)
      exact hthread.elim
  | joinPool => exact halts_joining hM h.continues rfl

end

end Task

end Scriptlet
