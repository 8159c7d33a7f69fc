/-
Threads that update one mutex, with their steps in any order.  Updates are noted as the
lock is taken and as it is given back; each works on what the one before it left, so that
none is lost.
-/
import Scriptlet.Proofs.Locking
import Scriptlet.Proofs.WorldSteps

namespace Scriptlet

def Outcome.value? : Outcome → Option Value
  | .value v => some v
  | _ => none

/-- How an update of a mutex ended: the outcome of the call that it made, what the thread
had then, the frames that waited for that, and what stood in the mutex. -/
structure UpdateEnd where
  outcome : Outcome
  answer : Control
  waiting : List Frame
  stored : Option Value

/-- An update of a mutex: the thread that asked for it, what it was to be updated with,
what stood in it as the lock was taken, what the thread went on with, the frames that wait
for the update, and how it ended, once it has. -/
structure Update where
  thread : Option Nat
  callee : Value
  read : Value
  inside : Control
  waiting : List Frame
  ending : Option UpdateEnd

namespace Update

/-- The value that an update is to leave in its mutex, unless it failed. -/
def result? (u : Update) : Option Value := u.ending.bind fun e => e.outcome.value?

def leave (x : Value) (us : List Update) : Value := us.foldr (fun u y => u.result?.getD y) x

/-- Notes how the latest update that a thread has not ended did end. -/
def endLast (who : Option Nat) (e : UpdateEnd) : List Update → List Update
  | [] => []
  | u :: us =>
    if u.thread = who ∧ u.ending.isNone then { u with ending := some e } :: us
    else u :: endLast who e us

/-- Whether an update that found a value called what it was to call with just that, and
answered and left in the mutex what came of it, or left the value if that was none. -/
structure Faithful (u : Update) (found : Value) : Prop where
  read : u.read = found
  inside : u.inside = .call u.callee [found]
  ending : ∃ e, u.ending = some e ∧ e.answer = .outcome e.outcome ∧ e.waiting = u.waiting ∧
    e.stored = some (e.outcome.value?.getD found)

/-- Whether of some updates, the latest first, each found what those before it left in a
mutex in which a value stood, and was faithful to that. -/
def Chained (x : Value) : List Update → Prop
  | [] => True
  | u :: us => u.Faithful (leave x us) ∧ Chained x us

/-- Where what updates came to is what a function of the value found gives, they left in
the mutex what the function makes of the value, in the order of the updates. -/
theorem Chained.leave_eq {x : Value} {us : List Update} (h : Chained x us)
    {maps : Value → Value → Option Value} (hmaps : ∀ u ∈ us, u.result? = maps u.callee u.read) :
    leave x us = us.foldr (fun u y => (maps u.callee y).getD y) x := by
  induction us with
  | nil => rfl
  | cons u us ih =>
      obtain ⟨hu, hus⟩ := h
      obtain ⟨hfirst, hrest⟩ := List.forall_mem_cons.mp hmaps
      have hbefore := ih hus hrest
      calc
        leave x (u :: us) = (maps u.callee u.read).getD (leave x us) :=
          congrArg (fun r => r.getD (leave x us)) hfirst
        _ = (maps u.callee (leave x us)).getD (leave x us) := by rw [hu.read]
        _ = (u :: us).foldr (fun u y => (maps u.callee y).getD y) x := by rw [hbefore]; rfl

end Update

namespace Task

def asksUpdate? (m : Nat) (t : Task) : Option Value :=
  match t.control with
  | .call (.builtin (.mutexOf .update)) [.mutex id, f] => if id = m then some f else none
  | _ => none

/-- The outcome with which a thread is about to end an update of a mutex. -/
def endsUpdate? (m : Nat) (t : Task) : Option Outcome :=
  match t.control, t.frames with
  | .outcome o, .updating id :: _ => if id = m then some o else none
  | _, _ => none

/-- Whether a thread is about to set a mutex. -/
def sets (m : Nat) (t : Task) : Bool :=
  match t.control with
  | .call (.builtin (.mutexOf .set)) (.mutex id :: _) => id == m
  | _ => false

variable {m : Nat} {t : Task} {s : Store} {o : Outcome}

theorem asksUpdate?_self {f : Value}
    (hcontrol : t.control = .call (.builtin (.mutexOf .update)) [.mutex m, f]) :
    t.asksUpdate? m = some f := by
  rw [asksUpdate?, hcontrol]
  exact if_pos rfl

theorem asksUpdate?_of_not_uses (h : ¬ t.Uses m) : t.asksUpdate? m = none := by
  unfold asksUpdate?
  split
  · rename_i id f hcontrol
    refine if_neg ?_
    rintro rfl
    exact h ⟨.update, [f], hcontrol⟩
  · rfl

theorem endsUpdate?_self {rest : List Frame} (hcontrol : t.control = .outcome o)
    (hframes : t.frames = .updating m :: rest) : t.endsUpdate? m = some o := by
  rw [endsUpdate?, hcontrol, hframes]
  exact if_pos rfl

theorem endsUpdate?_eq_some (h : t.endsUpdate? m = some o) :
    t.control = .outcome o ∧ ∃ rest, t.frames = .updating m :: rest := by
  unfold endsUpdate? at h
  split at h
  · rename_i o' id rest hcontrol hframes
    split at h
    · rename_i hid
      obtain rfl := Option.some.inj h
      rw [hid] at hframes
      exact ⟨hcontrol, rest, hframes⟩
    · cases h
  · cases h

/-- What a mutex is asked with as many arguments as it takes waits for the lock, or is done. -/
theorem step_mutex {method : MutexMethod} {rest : List Value} {cell : MutexCell}
    (hcontrol : t.control = .call (.builtin (.mutexOf method)) (.mutex m :: rest))
    (harity : (Builtin.mutexOf method).arity = some (rest.length + 1))
    (hcell : s.mutexes[m]? = some cell) (limits : Limits) :
    t.step limits s = if cell.locked then (t, s) else t.useMutex s method m cell rest.head? := by
  have htakes : ¬(Builtin.mutexOf method).arity.any
      (fun n => n != (Value.mutex m :: rest).length) := by
    rw [harity, Option.any_some, List.length_cons, bne_self_eq_false]
    exact Bool.false_ne_true
  have hback : t.callBack s (.mutexOf method) (.mutex m :: rest) =
      if cell.locked then (t, s) else t.useMutex s method m cell rest.head? := by
    simp only [callBack, hcell]
  rw [step, hcontrol]
  exact (if_neg htakes).trans ((if_pos rfl).trans hback)

/-- An update that finds the lock free takes it, and calls with what stands in the
mutex. -/
theorem step_update {f v : Value}
    (hcontrol : t.control = .call (.builtin (.mutexOf .update)) [.mutex m, f])
    (hcell : s.mutexes[m]? = some ⟨v, false⟩) (limits : Limits) :
    t.step limits s =
      ((t.pushed (.updating m)).applying s f [v] .nowhere,
        { s with mutexes := s.mutexes.modify m fun c => { c with locked := true } }) :=
  step_mutex hcontrol rfl hcell limits

/-- The end of an update gives the lock back and stores the value that there is. -/
theorem step_endUpdate {rest : List Frame} (hcontrol : t.control = .outcome o)
    (hframes : t.frames = .updating m :: rest) (limits : Limits) (s : Store) :
    t.step limits s =
      ({ t with frames := rest }.doing (.outcome o), unlocked s m o.value?) := by
  rw [step, hcontrol]
  simp only [hframes]
  cases o <;> rfl

/-- A thread that uses a mutex without setting it finds the lock free and updates it, or
leaves all as it is. -/
theorem uses_cases (huses : t.Uses m) (hsets : t.sets m = false) {cell : MutexCell}
    (hcell : s.mutexes[m]? = some cell) (limits : Limits) :
    (∃ f, t.control = .call (.builtin (.mutexOf .update)) [.mutex m, f] ∧ cell.locked = false) ∨
      ((t.asksUpdate? m = none ∨ cell.locked = true) ∧
        (t.step limits s).1.frames = t.frames ∧ (t.step limits s).2 = s) := by
  obtain ⟨method, rest, hcontrol⟩ := huses
  have hrefused (hrest : (Builtin.mutexOf method).arity ≠ some (rest.length + 1)) :
      t.step limits s = (t.failing (.arity (Builtin.mutexOf method).name
        ((Builtin.mutexOf method).arity.getD 0) (rest.length + 1)), s) := by
    rw [step, hcontrol]
    refine if_pos ?_
    cases method <;> simpa [Builtin.arity, MutexMethod.arity] using hrest
  cases method with
  | set =>
      rw [sets, hcontrol] at hsets
      exact absurd hsets (ne_true_of_eq_false · (beq_self_eq_true m))
  | get =>
      have hasks : t.asksUpdate? m = none := by rw [asksUpdate?, hcontrol]
      refine .inr ⟨.inl hasks, ?_⟩
      cases rest with
      | nil =>
          rw [step_mutex hcontrol rfl hcell]
          split <;> exact ⟨rfl, rfl⟩
      | cons a rest =>
          rw [hrefused (by simp [Builtin.arity, MutexMethod.arity])]
          exact ⟨rfl, rfl⟩
  | update =>
      rcases rest with _ | ⟨f, _ | ⟨b, rest⟩⟩
      · refine .inr ⟨.inl (by rw [asksUpdate?, hcontrol]), ?_⟩
        rw [hrefused (by simp [Builtin.arity, MutexMethod.arity])]
        exact ⟨rfl, rfl⟩
      · cases hlocked : cell.locked with
        | false => exact .inl ⟨f, hcontrol, rfl⟩
        | true =>
            refine .inr ⟨.inr rfl, ?_⟩
            rw [step_mutex hcontrol rfl hcell, if_pos hlocked]
            exact ⟨rfl, rfl⟩
      · refine .inr ⟨.inl (by rw [asksUpdate?, hcontrol]), ?_⟩
        rw [hrefused (by simp [Builtin.arity, MutexMethod.arity])]
        exact ⟨rfl, rfl⟩

/-- What a step does to a mutex that it does not set: it begins an update of it, ends one,
or spares it. -/
theorem step_forms {cell : MutexCell} (hcell : s.mutexes[m]? = some cell)
    (hsets : t.sets m = false) (limits : Limits) :
    (∃ f, t.control = .call (.builtin (.mutexOf .update)) [.mutex m, f] ∧ cell.locked = false) ∨
    (∃ o rest, t.control = .outcome o ∧ t.frames = .updating m :: rest) ∨
    ((t.asksUpdate? m = none ∨ cell.locked = true) ∧ t.endsUpdate? m = none ∧
      ∀ base, (∀ f rest, base = f :: rest → f = .updating m) → Clear m base t.frames →
        Spares m base s (t.step limits s)) := by
  by_cases huses : t.Uses m
  · rcases uses_cases huses hsets hcell limits with hupdates | ⟨hasks, hframes, hstore⟩
    · exact .inl hupdates
    · refine .inr (.inr ⟨hasks, ?_, fun base _ hf => ⟨?_, ?_⟩⟩)
      · obtain ⟨method, rest, hcontrol⟩ := huses
        rw [endsUpdate?, hcontrol]
      · rwa [hframes]
      · rw [hstore]
        exact .refl m s
  · cases hends : t.endsUpdate? m with
    | some o =>
        obtain ⟨hcontrol, rest, hframes⟩ := endsUpdate?_eq_some hends
        exact .inr (.inl ⟨o, rest, hcontrol, hframes⟩)
    | none =>
        refine .inr (.inr ⟨.inl (asksUpdate?_of_not_uses huses), rfl, fun base hbase hf => ?_⟩)
        refine spares_step hf huses ?_ limits s
        intro o hcontrol hframes
        cases base with
        | nil => rfl
        | cons f rest =>
            obtain rfl := hbase f rest rfl
            rw [endsUpdate?_self hcontrol hframes] at hends
            cases hends

/-- The updates of a mutex, the latest first, once a thread has gone on. -/
def noted (limits : Limits) (m : Nat) (who : Option Nat) (t : Task) (s : Store)
    (us : List Update) : List Update :=
  let (t', s') := t.step limits s
  match t.asksUpdate? m, s.mutexes[m]?, t.endsUpdate? m with
  | some f, some ⟨v, false⟩, _ => ⟨who, f, v, t'.control, t.frames, none⟩ :: us
  | _, _, some o => Update.endLast who ⟨o, t'.control, t'.frames, s'.mutexes[m]?.map (·.value)⟩ us
  | _, _, _ => us

/-- A step that begins no update and ends none adds nothing. -/
theorem noted_eq_self {cell : MutexCell} (hcell : s.mutexes[m]? = some cell)
    (hasks : t.asksUpdate? m = none ∨ cell.locked = true) (hends : t.endsUpdate? m = none)
    (limits : Limits) (who : Option Nat) (us : List Update) :
    noted limits m who t s us = us := by
  obtain ⟨v, locked⟩ := cell
  rw [noted, hends, hcell]
  rcases hasks with hnone | hlocked
  · rw [hnone]
  · obtain rfl : locked = true := hlocked
    cases t.asksUpdate? m <;> rfl

end Task

namespace World

/-- The threads of a world with their numbers; the main one has none. -/
def actors (w : World) : List (Option Nat × Task) :=
  (none, w.main) :: w.threads.map fun entry => (some entry.1, entry.2)

/-- What goes on where the thread with a number, or else the main thread, may: none where
the thread only starts or ends, or is not there. -/
def going? (w : World) : Option Nat → Option Task
  | none => some w.main
  | some id =>
    match w.store.threads[id]? with
    | some (.waits _ _) => none
    | _ => (w.threads.lookup id).filter fun t => t.result?.isNone

/-- The updates of a mutex, the latest first, after an event. -/
def noted (limits : Limits) (m : Nat) (w : World) (e : Event) (us : List Update) : List Update :=
  match w.going? e.actor with
  | some t => t.noted limits m e.actor (w.within e.outside).store us
  | none => us

/-- The worlds that events lead to, whatever these are and whichever threads they let go on, if
none sets the mutex, with the updates of the mutex so far, the latest first. -/
inductive Interleaved (limits : Limits) (m : Nat) (w : World) : List Update → World → Prop where
  | begins : Interleaved limits m w [] w
  | goesOn {us : List Update} {v : World} (h : Interleaved limits m w us v) (e : Event)
      (hsets : ∀ t, v.going? e.actor = some t → t.sets m = false) :
      Interleaved limits m w (v.noted limits m e us) (v.move limits e)

def updaters (m : Nat) (as : List (Option Nat × Task)) : Nat :=
  as.countP fun a => decide (.updating m ∈ a.2.frames)

variable {m : Nat}

theorem updaters_eq_zero_iff {as : List (Option Nat × Task)} :
    updaters m as = 0 ↔ ∀ a ∈ as, .updating m ∉ a.2.frames := by
  simp [updaters, List.countP_eq_zero]

theorem updaters_insert (m : Nat) (front back : List (Option Nat × Task)) (a : Option Nat × Task) :
    updaters m (front ++ a :: back) =
      updaters m (front ++ back) + if .updating m ∈ a.2.frames then 1 else 0 := by
  simp only [updaters, List.countP_append, List.countP_cons, decide_eq_true_eq]
  omega

theorem updaters_insert_clear {front back : List (Option Nat × Task)} {a : Option Nat × Task}
    (h : .updating m ∉ a.2.frames) :
    updaters m (front ++ a :: back) = updaters m (front ++ back) := by
  rw [updaters_insert, if_neg h, Nat.add_zero]

theorem updaters_insert_updating {front back : List (Option Nat × Task)} {a : Option Nat × Task}
    (h : .updating m ∈ a.2.frames) :
    updaters m (front ++ a :: back) = updaters m (front ++ back) + 1 := by
  rw [updaters_insert, if_pos h]

/-- Where a thread goes on, the others are as they were. -/
structure Advances (limits : Limits) (w : World) (who : Option Nat) (t : Task) (v : World) :
    Prop where
  store : v.store = (t.step limits w.store).2
  actors : ∃ front back, w.actors = front ++ (who, t) :: back ∧
    v.actors = front ++ (who, (t.step limits w.store).1) :: back

/-- Where no thread goes on, every mutex and every update of it is left alone. -/
structure Passes (m : Nat) (w v : World) : Prop where
  mutexes : v.store.mutexes = w.store.mutexes
  updaters : updaters m v.actors = updaters m w.actors
  actors : ∀ a ∈ v.actors, .updating m ∈ a.2.frames → a ∈ w.actors

theorem Passes.refl (m : Nat) (w : World) : Passes m w w := ⟨rfl, rfl, fun _ ha _ => ha⟩

theorem passes_starting (m : Nat) (w : World) (id : Nat) (callee : Value) (file : String) :
    Passes m w { w with
      store := w.store.setThread id .runs
      threads := (id, (Task.idle file).applying w.store callee [] .nowhere) :: w.threads } := by
  have hclear : .updating m ∉ ((Task.idle file).applying w.store callee [] .nowhere).frames := by
    simp [Task.applying, Task.idle]
  have hsame : updaters m ([(none, w.main)] ++
      (some id, (Task.idle file).applying w.store callee [] .nowhere) ::
        w.threads.map fun entry => (some entry.1, entry.2)) = updaters m w.actors :=
    updaters_insert_clear hclear
  refine ⟨rfl, hsame, fun a ha hupdating => ?_⟩
  rcases List.mem_cons.mp ha with rfl | hrest
  · exact List.mem_cons_self
  · rcases List.mem_cons.mp hrest with rfl | hold
    · exact absurd hupdating hclear
    · exact List.mem_cons_of_mem _ hold

theorem passes_ending {m : Nat} {w : World} {before rest : List (Nat × Task)} {id : Nat}
    {t : Task} (hthreads : w.threads = before ++ (id, t) :: rest) {o : Outcome}
    (hresult : t.result? = some o) (cell : ThreadCell) :
    Passes m w { w with store := w.store.setThread id cell, threads := before ++ rest } := by
  have hclear : .updating m ∉ t.frames := by
    rw [(Task.result?_eq_some_iff.mp hresult).2]
    exact List.not_mem_nil
  have hactors : w.actors = ((none, w.main) :: before.map fun entry => (some entry.1, entry.2)) ++
      (some id, t) :: rest.map fun entry => (some entry.1, entry.2) := by
    simp [actors, hthreads]
  have hleft : actors { w with store := w.store.setThread id cell, threads := before ++ rest } =
      ((none, w.main) :: before.map fun entry => (some entry.1, entry.2)) ++
        rest.map fun entry => (some entry.1, entry.2) := by
    simp [actors]
  refine ⟨rfl, ?_, fun a ha _ => ?_⟩
  · rw [hactors, hleft]
    exact (updaters_insert_clear hclear).symm
  · rw [hleft] at ha
    rw [hactors]
    rcases List.mem_append.mp ha with hfront | hback
    · exact List.mem_append_left _ hfront
    · exact List.mem_append_right _ (List.mem_cons_of_mem _ hback)

/-- What becomes of a world in which a thread may go on: the thread does, or every mutex is
left alone. -/
theorem act_cases (limits : Limits) (m : Nat) (w : World) (actor : Option Nat) :
    (∃ t, w.going? actor = some t ∧ w.Advances limits actor t (w.act limits actor)) ∨
      w.going? actor = none ∧ w.Passes m (w.act limits actor) := by
  obtain ⟨s, main, threads, age⟩ := w
  cases actor with
  | none => exact .inl ⟨main, rfl, rfl, [], _, rfl, rfl⟩
  | some id =>
      by_cases hwaits : ∃ callee file, s.threads[id]? = some (.waits callee file)
      · obtain ⟨callee, file, hcell⟩ := hwaits
        refine .inr ⟨by simp only [going?, hcell], ?_⟩
        simp only [act, hcell]
        exact passes_starting m ⟨s, main, threads, age⟩ id callee file
      · have hact : act limits ⟨s, main, threads, age⟩ (some id) =
            ⟨(advance limits id s threads).2, main, (advance limits id s threads).1, age⟩ := by
          unfold act
          dsimp only
          split
          · exact absurd ⟨_, _, ‹_›⟩ hwaits
          · rfl
        have hgoes : going? ⟨s, main, threads, age⟩ (some id) =
            (threads.lookup id).filter fun t => t.result?.isNone := by
          unfold going?
          dsimp only
          split
          · exact absurd ⟨_, _, ‹_›⟩ hwaits
          · rfl
        rw [hact, hgoes]
        rcases advance_cases limits id s threads with ⟨hnone, heq⟩ |
          ⟨before, t, rest, o, hthreads, hfound, ho, heq⟩ |
          ⟨before, t, rest, hthreads, hfound, hgoing, heq⟩
        · rw [heq, hnone]
          exact .inr ⟨rfl, .refl m _⟩
        · rw [heq, hfound]
          refine .inr ⟨?_, passes_ending (w := ⟨s, main, threads, age⟩) hthreads ho _⟩
          rw [Option.filter_some, ho]
          rfl
        · rw [heq, hfound]
          refine .inl ⟨t, ?_, rfl, (none, main) :: before.map fun entry => (some entry.1, entry.2),
            rest.map fun entry => (some entry.1, entry.2), ?_, ?_⟩
          · rw [Option.filter_some, hgoing]
            rfl
          · simp [actors, hthreads]
          · simp [actors]

/-- What holds of a mutex and the updates of it, the latest first: while the lock is free
they have all ended, and while it is held just one thread updates the mutex, which is the
one of the latest, and that has not ended. -/
inductive Guarded (m : Nat) (x : Value) (w : World) : List Update → Prop where
  | free {us : List Update} (hcell : w.store.mutexes[m]? = some ⟨Update.leave x us, false⟩)
      (hchain : Update.Chained x us) (hnone : updaters m w.actors = 0) : Guarded m x w us
  | held {u : Update} {us : List Update}
      (hcell : w.store.mutexes[m]? = some ⟨Update.leave x us, true⟩) (hchain : Update.Chained x us)
      (hread : u.read = Update.leave x us) (hinside : u.inside = .call u.callee [Update.leave x us])
      (hending : u.ending = none) (hwaiting : .updating m ∉ u.waiting)
      (hone : updaters m w.actors = 1)
      (hholder : ∀ a ∈ w.actors, .updating m ∈ a.2.frames →
        a.1 = u.thread ∧ Clear m (.updating m :: u.waiting) a.2.frames) :
      Guarded m x w (u :: us)

variable {limits : Limits} {w v v' : World} {us : List Update} {x : Value}

theorem mem_insert {α : Type} {front back : List α} {a b : α} :
    a ∈ front ++ b :: back ↔ a = b ∨ a ∈ front ++ back := by
  simp only [List.mem_append, List.mem_cons]
  exact or_left_comm

/-- Where the lock is free, a thread that goes on takes it, or leaves it. -/
theorem Guarded.taken {who : Option Nat} {t : Task}
    (hcell : v.store.mutexes[m]? = some ⟨Update.leave x us, false⟩) (hchain : Update.Chained x us)
    (hnone : updaters m v.actors = 0) (hmove : v.Advances limits who t v')
    (hsets : t.sets m = false) : Guarded m x v' (t.noted limits m who v.store us) := by
  obtain ⟨hstore, front, back, hactors, hactors'⟩ := hmove
  have hmem : (who, t) ∈ v.actors := by
    rw [hactors]
    exact mem_insert.mpr (.inl rfl)
  have hclear : .updating m ∉ t.frames := updaters_eq_zero_iff.mp hnone (who, t) hmem
  rw [hactors, updaters_insert_clear hclear] at hnone
  rcases t.step_forms hcell hsets limits with ⟨f, hcontrol, -⟩ | ⟨o, rest, -, hframes⟩ |
    ⟨hasks, hends, hspares⟩
  · have hstep := Task.step_update hcontrol hcell limits
    have hnoted : t.noted limits m who v.store us =
        ⟨who, f, Update.leave x us, .call f [Update.leave x us], t.frames, none⟩ :: us := by
      rw [Task.noted, Task.asksUpdate?_self hcontrol, hcell, hstep]
      rfl
    have hupdating : .updating m ∈ (t.step limits v.store).1.frames := by
      rw [hstep]
      exact List.mem_cons_of_mem _ List.mem_cons_self
    rw [hnoted]
    refine .held ?_ hchain rfl rfl rfl hclear ?_ ?_
    · rw [hstore, hstep]
      simp [Array.getElem?_modify, hcell]
    · rw [hactors', updaters_insert_updating hupdating, hnone]
    · intro a ha hin
      rw [hactors'] at ha
      rcases mem_insert.mp ha with rfl | hother
      · rw [hstep]
        exact ⟨rfl, [.leaveCall], rfl, by simp⟩
      · exact absurd hin (updaters_eq_zero_iff.mp hnone a hother)
  · refine absurd ?_ hclear
    rw [hframes]
    exact List.mem_cons_self
  · obtain ⟨hf, hkeeps⟩ := hspares [] nofun (.of_notMem hclear)
    rw [Task.noted_eq_self hcell hasks hends]
    refine .free ?_ hchain ?_
    · rw [hstore]
      exact hkeeps _ hcell
    · rw [hactors', updaters_insert_clear (hf.notMem List.not_mem_nil), hnone]

/-- While the lock is held, the latest update has not ended and just one thread updates. -/
theorem Guarded.of_locked {u : Update} {value : Value} (h : Guarded m x v (u :: us))
    (hlocked : v.store.mutexes[m]? = some ⟨value, true⟩) :
    v.store.mutexes[m]? = some ⟨Update.leave x us, true⟩ ∧ Update.Chained x us ∧
      u.read = Update.leave x us ∧ u.inside = .call u.callee [Update.leave x us] ∧
      u.ending = none ∧ .updating m ∉ u.waiting ∧ updaters m v.actors = 1 ∧
      ∀ a ∈ v.actors, .updating m ∈ a.2.frames →
        a.1 = u.thread ∧ Clear m (.updating m :: u.waiting) a.2.frames := by
  cases h with
  | free hcell _ _ => cases hcell.symm.trans hlocked
  | held hcell hchain hread hinside hending hwaiting hone hholder =>
      exact ⟨hcell, hchain, hread, hinside, hending, hwaiting, hone, hholder⟩

/-- The thread that holds the lock gives it back with the outcome of the call that it made. -/
theorem Guarded.given_back {who : Option Nat} {t : Task} {u : Update} {o : Outcome}
    {rest : List Frame} {value : Value} (h : Guarded m x v (u :: us))
    (hlocked : v.store.mutexes[m]? = some ⟨value, true⟩) (hmove : v.Advances limits who t v')
    (hcontrol : t.control = .outcome o) (hframes : t.frames = .updating m :: rest) :
    Guarded m x v' (t.noted limits m who v.store (u :: us)) := by
  obtain ⟨hcell, hchain, hread, hinside, hending, hwaiting, hone, hholder⟩ := h.of_locked hlocked
  obtain ⟨hstore, front, back, hactors, hactors'⟩ := hmove
  have hmem : (who, t) ∈ v.actors := by
    rw [hactors]
    exact mem_insert.mpr (.inl rfl)
  have hupdating : .updating m ∈ t.frames := by
    rw [hframes]
    exact List.mem_cons_self
  obtain ⟨hwho, top, hon, htop⟩ := hholder (who, t) hmem hupdating
  -- it is the frame of this update that is innermost, so what waits is what waited then
  obtain rfl : rest = u.waiting := by
    change t.frames = top ++ .updating m :: u.waiting at hon
    rw [hframes] at hon
    cases top with
    | nil => exact (List.cons.inj hon).2
    | cons f top =>
        obtain ⟨rfl, -⟩ := List.cons.inj hon
        exact absurd List.mem_cons_self htop
  have hstep := Task.step_endUpdate hcontrol hframes limits v.store
  have hstored : (Task.unlocked v.store m o.value?).mutexes[m]? =
      some ⟨o.value?.getD (Update.leave x us), false⟩ := by
    simp [Task.unlocked, Array.getElem?_modify, hcell]
  have hnoted : t.noted limits m who v.store (u :: us) =
      { u with ending := some ⟨o, .outcome o, u.waiting,
        some (o.value?.getD (Update.leave x us))⟩ } :: us := by
    have hasks : t.asksUpdate? m = none := by rw [Task.asksUpdate?, hcontrol]
    have hlast : u.thread = who ∧ u.ending.isNone := ⟨hwho.symm, by rw [hending]; rfl⟩
    rw [Task.noted, hasks, Task.endsUpdate?_self hcontrol hframes, hstep]
    simp only [Update.endLast, if_pos hlast, hstored]
    rfl
  rw [hactors, updaters_insert_updating hupdating] at hone
  rw [hnoted]
  refine .free ?_ ⟨⟨hread, hinside, _, rfl, rfl, rfl, rfl⟩, hchain⟩ ?_
  · rw [hstore, hstep]
    exact hstored
  · have hfree : .updating m ∉ (t.step limits v.store).1.frames := by
      rw [hstep]
      exact hwaiting
    rw [hactors', updaters_insert_clear hfree]
    omega

/-- While a thread goes on otherwise, the lock stays with the one that holds it. -/
theorem Guarded.kept {who : Option Nat} {t : Task} {u : Update} {value : Value}
    (h : Guarded m x v (u :: us)) (hlocked : v.store.mutexes[m]? = some ⟨value, true⟩)
    (hmove : v.Advances limits who t v')
    (hspares : ∀ base : List Frame, (∀ f rest, base = f :: rest → f = .updating m) →
      Clear m base t.frames → Task.Spares m base v.store (t.step limits v.store)) :
    Guarded m x v' (u :: us) := by
  obtain ⟨hcell, hchain, hread, hinside, hending, hwaiting, hone, hholder⟩ := h.of_locked hlocked
  obtain ⟨hstore, front, back, hactors, hactors'⟩ := hmove
  have hmem : (who, t) ∈ v.actors := by
    rw [hactors]
    exact mem_insert.mpr (.inl rfl)
  rw [hactors] at hone
  by_cases hupdating : .updating m ∈ t.frames
  · -- inside the call that the holder makes
    obtain ⟨hwho, hon⟩ := hholder (who, t) hmem hupdating
    have hbase : ∀ f rest, .updating m :: u.waiting = f :: rest → f = .updating m :=
      fun f rest heq => (List.cons.inj heq).1.symm
    obtain ⟨hf, hkeeps⟩ := hspares _ hbase hon
    have hstill : .updating m ∈ (t.step limits v.store).1.frames := by
      obtain ⟨top, heq, -⟩ := hf
      rw [heq]
      exact List.mem_append_right _ List.mem_cons_self
    rw [updaters_insert_updating hupdating] at hone
    refine .held ?_ hchain hread hinside hending hwaiting ?_ ?_
    · rw [hstore]
      exact hkeeps _ hcell
    · rw [hactors', updaters_insert_updating hstill, hone]
    · intro a ha hin
      rw [hactors'] at ha
      rcases mem_insert.mp ha with rfl | hother
      · exact ⟨hwho, hf⟩
      · have hnone : updaters m (front ++ back) = 0 := by omega
        exact absurd hin (updaters_eq_zero_iff.mp hnone a hother)
  · obtain ⟨hf, hkeeps⟩ := hspares [] nofun (.of_notMem hupdating)
    have hstill := hf.notMem List.not_mem_nil
    rw [updaters_insert_clear hupdating] at hone
    refine .held ?_ hchain hread hinside hending hwaiting ?_ ?_
    · rw [hstore]
      exact hkeeps _ hcell
    · rw [hactors', updaters_insert_clear hstill, hone]
    · intro a ha hin
      rw [hactors'] at ha
      rcases mem_insert.mp ha with rfl | hother
      · exact absurd hin hstill
      · refine hholder a ?_ hin
        rw [hactors]
        exact mem_insert.mpr (.inr hother)

/-- A thread that goes on takes the lock where it is free, gives it back where it holds it,
or leaves it. -/
theorem Guarded.advances {who : Option Nat} {t : Task} (h : Guarded m x v us)
    (hmove : v.Advances limits who t v') (hsets : t.sets m = false) :
    Guarded m x v' (t.noted limits m who v.store us) := by
  have hguarded := h
  cases h with
  | free hcell hchain hnone => exact .taken hcell hchain hnone hmove hsets
  | held hcell =>
      rcases t.step_forms hcell hsets limits with ⟨f, -, hlocked⟩ | ⟨o, rest, hcontrol, hframes⟩ |
        ⟨hasks, hends, hspares⟩
      · cases hlocked
      · exact hguarded.given_back hcell hmove hcontrol hframes
      · rw [Task.noted_eq_self hcell hasks hends]
        exact hguarded.kept hcell hmove hspares

theorem Guarded.passes (h : Guarded m x v us) (hpasses : v.Passes m v') :
    Guarded m x v' us := by
  obtain ⟨hmutexes, hupdaters, hmem⟩ := hpasses
  cases h with
  | free hcell hchain hnone =>
      refine .free ?_ hchain (hupdaters.trans hnone)
      rwa [hmutexes]
  | held hcell hchain hread hinside hending hwaiting hone hholder =>
      refine .held ?_ hchain hread hinside hending hwaiting (hupdaters.trans hone) ?_
      · rwa [hmutexes]
      · exact fun a ha hin => hholder a (hmem a ha hin) hin

/-- An event keeps a mutex guarded, whichever thread it lets go on. -/
theorem Guarded.move (h : Guarded m x v us) (e : Event)
    (hsets : ∀ t, v.going? e.actor = some t → t.sets m = false) :
    Guarded m x (v.move limits e) (v.noted limits m e us) := by
  have hwithin : Guarded m x (v.within e.outside) us := h.passes ⟨rfl, rfl, fun _ ha _ => ha⟩
  have hsame : (v.within e.outside).going? e.actor = v.going? e.actor := rfl
  rcases act_cases limits m (v.within e.outside) e.actor with ⟨t, hgoing, hadvances⟩ |
    ⟨hnone, hpasses⟩
  · rw [hsame] at hgoing
    rw [noted, hgoing]
    exact hwithin.advances hadvances (hsets t hgoing)
  · rw [hsame] at hnone
    rw [noted, hnone]
    exact hwithin.passes hpasses

theorem mem_tasks_of_actor {a : Option Nat × Task} (ha : a ∈ w.actors) : a.2 ∈ w.tasks := by
  rcases List.mem_cons.mp ha with rfl | hthread
  · exact List.mem_cons_self
  · obtain ⟨entry, hentry, rfl⟩ := List.mem_map.mp hthread
    exact mem_tasks hentry

/-- From a mutex that is free on, every interleaving keeps it guarded. -/
theorem Interleaved.guarded (h : w.Interleaved limits m us v)
    (hcell : w.store.mutexes[m]? = some ⟨x, false⟩)
    (hidle : ∀ t ∈ w.tasks, .updating m ∉ t.frames) : Guarded m x v us := by
  induction h with
  | begins =>
      refine .free hcell trivial (updaters_eq_zero_iff.mpr fun a ha => ?_)
      exact hidle a.2 (mem_tasks_of_actor ha)
  | goesOn h e hsets ih => exact ih.move e hsets

/-- Whatever the order in which threads go on, no update of a mutex is lost: when all are
done, what stands in the mutex is what its updates left there, one after the other in the
order in which they took the lock.  Each called what it was to call once, with what the
one before had left, answered with what came of that and stored it, and one that failed
left the mutex as it was. -/
theorem updates_in_lock_order (hrun : w.Interleaved limits m us v)
    (hcell : w.store.mutexes[m]? = some ⟨x, false⟩)
    (hidle : ∀ t ∈ w.tasks, .updating m ∉ t.frames) (hdone : ∀ t ∈ v.tasks, t.result?.isSome) :
    v.store.mutexes[m]? = some ⟨Update.leave x us, false⟩ ∧ Update.Chained x us ∧
      ∀ maps : Value → Value → Option Value,
        (∀ u ∈ us, u.result? = maps u.callee u.read) →
        v.store.mutexes[m]? = some ⟨us.foldr (fun u y => (maps u.callee y).getD y) x, false⟩ := by
  have hfinished : updaters m v.actors = 0 := by
    refine updaters_eq_zero_iff.mpr fun a ha => ?_
    obtain ⟨o, ho⟩ := Option.isSome_iff_exists.mp (hdone a.2 (mem_tasks_of_actor ha))
    rw [(Task.result?_eq_some_iff.mp ho).2]
    exact List.not_mem_nil
  cases hrun.guarded hcell hidle with
  | free hcell hchain hnone =>
      refine ⟨hcell, hchain, fun maps hmaps => ?_⟩
      rw [← hchain.leave_eq hmaps]
      exact hcell
  | held hcell hchain hread hinside hending hwaiting hone hholder =>
      rw [hfinished] at hone
      cases hone

/-- What may come next, where it can be computed that it sets no mutex. -/
theorem Interleaved.event (h : w.Interleaved limits m us v) (e : Event)
    (hsets : (v.going? e.actor).all (fun t => !t.sets m) = true) :
    w.Interleaved limits m (v.noted limits m e us) (v.move limits e) :=
  h.goesOn e fun t ht => by
    rw [ht] at hsets
    exact Bool.not_eq_true' _ ▸ hsets

/-- A world in which the main thread and another are about to update one mutex, the other
with what cannot be called. -/
def contended : World where
  store := { Store.bare with mutexes := #[⟨.bool true, false⟩], threads := #[.runs] }
  main := (Task.idle "").doing (.call (.builtin (.mutexOf .update)) [.mutex 0, .builtin .someOf])
  threads := [(0, (Task.idle "").doing (.call (.builtin (.mutexOf .update)) [.mutex 0, .null]))]
  age := 0

/-- While the other thread holds the lock the main one waits, and then it finds what stood in the
mutex, since the other update failed. -/
theorem updates_in_lock_order_failing :
    contended.store.mutexes[0]? = some ⟨.bool true, false⟩ ∧
      (∀ t ∈ contended.tasks, .updating 0 ∉ t.frames) ∧
      ∃ us v, contended.Interleaved ⟨100, 0⟩ 0 us v ∧ (∀ t ∈ v.tasks, t.result?.isSome) ∧
        us.map Update.result? = [some (.some (.bool true) 0), none] ∧
        v.store.mutexes[0]? = some ⟨.some (.bool true) 0, false⟩ := by
  have hcell : contended.store.mutexes[0]? = some ⟨.bool true, false⟩ := rfl
  have hidle : ∀ t ∈ contended.tasks, .updating 0 ∉ t.frames := by
    simp [tasks, contended, Task.doing, Task.idle]
  refine ⟨hcell, hidle, ?_⟩
  let other : Event := ⟨some 0, .bare⟩
  let own : Event := ⟨none, .bare⟩
  have hbegun : contended.Interleaved ⟨100, 0⟩ 0 [] contended := .begins
  have hasked := hbegun.event other (by decide +kernel)
  have hwaited := hasked.event own (by decide +kernel)
  have hrefused := hwaited.event other (by decide +kernel)
  have hfailed := hrefused.event other (by decide +kernel)
  have hgiven := hfailed.event other (by decide +kernel)
  have htaken := hgiven.event own (by decide +kernel)
  have hanswered := htaken.event own (by decide +kernel)
  have hleft := hanswered.event own (by decide +kernel)
  have hstored := hleft.event own (by decide +kernel)
  obtain ⟨us, v, hrun, hdone, hresults, hleave⟩ : ∃ us v, contended.Interleaved ⟨100, 0⟩ 0 us v ∧
      (∀ t ∈ v.tasks, t.result?.isSome) ∧
      us.map Update.result? = [some (.some (.bool true) 0), none] ∧
      Update.leave (.bool true) us = .some (.bool true) 0 :=
    ⟨_, _, hstored, by decide +kernel, rfl, rfl⟩
  have hcell' := (updates_in_lock_order hrun hcell hidle hdone).1
  rw [hleave] at hcell'
  exact ⟨us, v, hrun, hdone, hresults, hcell'⟩

end World

end Scriptlet
