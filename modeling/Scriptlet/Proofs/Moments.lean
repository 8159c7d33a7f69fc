/-
The moments of a run: the worlds that running the statements of a program leads
through, one step after the other.  What each step of a thread keeps holds of
all threads at every moment.
-/
import Scriptlet.Machine.World

namespace Scriptlet

namespace Task

/-- Whether a thread has the outcome that the frames in `base` wait for. -/
def EndedAt (base : List Frame) (t : Task) : Prop :=
  t.frames = base ∧ ∃ o, t.control = .outcome o

theorem result?_eq_none_iff (t : Task) : t.result? = none ↔ ¬ t.EndedAt [] := by
  obtain ⟨control, frames, scope, depth, calls, file⟩ := t
  cases control <;> cases frames <;> simp [result?, EndedAt]

theorem result?_eq_some_iff {t : Task} {o : Outcome} :
    t.result? = some o ↔ t.control = .outcome o ∧ t.frames = [] := by
  obtain ⟨control, frames, scope, depth, calls, file⟩ := t
  cases control <;> cases frames <;> simp [result?]

end Task

def Terms.bare (limits : Limits) : Terms := { limits with feed := fun _ => ⟨none, .bare⟩ }

/-- Terms on which what happens next goes by the number of events that there were. -/
def Terms.following (limits : Limits) (events : Nat → Event) : Terms :=
  { limits with feed := fun w => events w.age }

namespace World

variable {limits : Limits} {terms : Terms} {horizon : Nat} {w v : World} {o : Outcome}

/-- All threads of a world that are going on. -/
def tasks (w : World) : List Task := w.main :: w.threads.map Prod.snd

theorem age_move (limits : Limits) (w : World) (e : Event) : (w.move limits e).age = w.age + 1 := by
  obtain ⟨actor, o⟩ := e
  cases actor with
  | none => rfl
  | some id =>
      simp only [move, act]
      split <;> rfl

def after (terms : Terms) : Nat → World → World
  | 0, w => w
  | n + 1, w => after terms n (w.step terms)

theorem main_move_of_some (limits : Limits) (w : World) (id : Nat) (o : Outside) :
    (w.move limits ⟨some id, o⟩).main = w.main := by
  simp only [move, act]
  split <;> rfl

/-- The main thread goes on by its own steps only. -/
theorem main_move (limits : Limits) (w : World) (e : Event) :
    (w.move limits e).main = w.main ∨ ∃ s, (w.move limits e).main = (w.main.step limits s).1 := by
  obtain ⟨actor, o⟩ := e
  cases actor with
  | none => exact .inr ⟨_, rfl⟩
  | some id => exact .inl (main_move_of_some limits w id o)

/-- The other threads that go on after one of them did are those from before,
each as it was or a step further. -/
theorem advance_tasks {I : Task → Prop} (hstep : ∀ t s, I t → I (t.step limits s).1) {id : Nat}
    {s : Store} {threads : List (Nat × Task)} (hthreads : ∀ entry ∈ threads, I entry.2) :
    ∀ entry ∈ (advance limits id s threads).1, I entry.2 := by
  induction threads with
  | nil => exact List.forall_mem_nil _
  | cons entry rest ih =>
      obtain ⟨n, t⟩ := entry
      obtain ⟨ht, hrest⟩ := List.forall_mem_cons.mp hthreads
      unfold advance
      split
      · split
        · exact hrest
        · exact List.forall_mem_cons.mpr ⟨hstep t s ht, hrest⟩
      · exact List.forall_mem_cons.mpr ⟨ht, ih hrest⟩

/-- What each step of a thread keeps, and what holds of a thread that starts,
every event keeps of all threads. -/
theorem tasks_move {I : Task → Prop} (hstep : ∀ t s, I t → I (t.step limits s).1)
    (hstart : ∀ file s callee, I ((Task.idle file).applying s callee [] .nowhere))
    (hw : ∀ t ∈ w.tasks, I t) (e : Event) : ∀ t ∈ (w.move limits e).tasks, I t := by
  obtain ⟨hmain, hthreads⟩ := List.forall_mem_cons.mp hw
  have hentries : ∀ entry ∈ w.threads, I entry.2 :=
    fun entry hmem => hthreads entry.2 (List.mem_map_of_mem hmem)
  have hall : ∀ {v : World}, I v.main → (∀ entry ∈ v.threads, I entry.2) → ∀ t ∈ v.tasks, I t := by
    intro v hv hrest
    refine List.forall_mem_cons.mpr ⟨hv, ?_⟩
    intro t ht
    obtain ⟨entry, hmem, rfl⟩ := List.mem_map.mp ht
    exact hrest entry hmem
  obtain ⟨actor, o⟩ := e
  cases actor with
  | none => exact hall (hstep _ _ hmain) hentries
  | some id =>
      simp only [move, act]
      split
      · exact hall hmain (List.forall_mem_cons.mpr ⟨hstart _ _ _, hentries⟩)
      · exact hall hmain (advance_tasks hstep hentries)

theorem finish_succ (h : w.main.result? = none) :
    w.finish terms (horizon + 1) = (w.step terms).finish terms horizon := by
  rw [finish, h]

theorem finish_result (h : w.main.result? = some o) :
    w.finish terms (horizon + 1) = some (o, w) := by
  rw [finish, h]

theorem finish_ended (h : w.finish terms horizon = some (o, v)) :
    v.main.result? = some o := by
  induction horizon generalizing w with
  | zero => exact nomatch h
  | succ horizon ih =>
      cases hresult : w.main.result? with
      | none =>
          rw [finish_succ hresult] at h
          exact ih h
      | some o' =>
          rw [finish_result hresult] at h
          obtain ⟨rfl, rfl⟩ := Prod.mk.inj (Option.some.inj h)
          exact hresult

/-- A run that has ended is the same with a later horizon. -/
theorem finish_mono {later : Nat} (hle : horizon ≤ later)
    (h : w.finish terms horizon = some (o, v)) : w.finish terms later = some (o, v) := by
  induction horizon generalizing w later with
  | zero => exact nomatch h
  | succ horizon ih =>
      obtain ⟨later, rfl⟩ : ∃ n, later = n + 1 := ⟨later - 1, by omega⟩
      cases hresult : w.main.result? with
      | none =>
          rw [finish_succ hresult] at h ⊢
          exact ih (Nat.le_of_succ_le_succ hle) h
      | some o' =>
          rw [finish_result hresult] at h ⊢
          exact h

theorem runFrom_value {done : List Value} {s : Stmt} {rest : List Stmt} {x : Value}
    (h : w.evalStmt terms horizon s = some (.value x, v)) :
    w.runFrom terms horizon done (s :: rest) = v.runFrom terms horizon (x :: done) rest := by
  rw [runFrom, h]

/-- A run of statements that has ended is the same with a later horizon. -/
theorem runFrom_mono {done : List Value} {statements : List Stmt} {e : Ending} {later : Nat}
    (hle : horizon ≤ later) (h : w.runFrom terms horizon done statements = some e) :
    w.runFrom terms later done statements = some e := by
  induction statements generalizing w done with
  | nil => exact h
  | cons s rest ih =>
      cases heval : w.evalStmt terms horizon s with
      | none =>
          rw [runFrom, heval] at h
          exact nomatch h
      | some r =>
          obtain ⟨o, v⟩ := r
          have hlater : w.evalStmt terms later s = some (o, v) := finish_mono hle heval
          cases o with
          | value x =>
              rw [runFrom_value heval] at h
              rw [runFrom_value hlater]
              exact ih h
          | returned x | left | skipped | failed f =>
              rw [runFrom, heval] at h
              rw [runFrom, hlater]
              exact h

/-- Running statements in the world `w` leads through the worlds in `moments`,
the latest first, and `rest` are the statements to be run after the one that is
going on. -/
inductive RunsThrough (terms : Terms) (w : World) (statements : List Stmt) :
    List World → List Stmt → Prop where
  | first {s : Stmt} {rest : List Stmt} (hfirst : statements = s :: rest) :
      RunsThrough terms w statements [w.doing (.stmt s [])] rest
  | goesOn {v : World} {before : List World} {rest : List Stmt}
      (h : RunsThrough terms w statements (v :: before) rest) (hgoing : v.main.result? = none) :
      RunsThrough terms w statements (v.step terms :: v :: before) rest
  | next {v : World} {before : List World} {s : Stmt} {rest : List Stmt} {x : Value}
      (h : RunsThrough terms w statements (v :: before) (s :: rest))
      (hvalue : v.main.result? = some (.value x)) :
      RunsThrough terms w statements (v.doing (.stmt s []) :: v :: before) rest

/-- The moment after another, with the statements then left. -/
def next? (terms : Terms) (v : World) (rest : List Stmt) : Option (World × List Stmt) :=
  match v.main.result?, rest with
  | none, rest => some (v.step terms, rest)
  | some (.value _), s :: rest => some (v.doing (.stmt s []), rest)
  | _, _ => none

/-- The moment with a number, with the statements then left. -/
def momentAt (terms : Terms) (w : World) (statements : List Stmt) : Nat → Option (World × List Stmt)
  | 0 =>
    match statements with
    | [] => none
    | s :: rest => some (w.doing (.stmt s []), rest)
  | n + 1 => (momentAt terms w statements n).bind fun m => m.1.next? terms m.2

/-- The world in which the statements of a program are run. -/
def opened (w : World) (p : Program) : World := if p.file.isEmpty then w else w.inFile p.file

theorem opened_eq (w : World) (p : Program) : w.opened p = w.inFile (w.opened p).main.file := by
  unfold opened
  split <;> rfl

theorem run_eq (terms : Terms) (horizon : Nat) (w : World) (p : Program) :
    w.run terms horizon p = (w.opened p).runFrom terms horizon [] p.statements := rfl

/-- Whether a run of a program leads through a world. -/
def Moment (terms : Terms) (w : World) (p : Program) (v : World) : Prop :=
  ∃ before rest, (w.opened p).RunsThrough terms p.statements (v :: before) rest

variable {statements rest : List Stmt} {before moments : List World}

/-- The moments are those that can be computed one after the other. -/
theorem RunsThrough.momentAt (h : w.RunsThrough terms statements (v :: before) rest) :
    w.momentAt terms statements before.length = some (v, rest) := by
  generalize hmoments : v :: before = moments at h
  induction h generalizing v before with
  | first hfirst =>
      obtain ⟨rfl, rfl⟩ := List.cons.inj hmoments
      subst hfirst
      rfl
  | goesOn _ hgoing ih =>
      obtain ⟨rfl, rfl⟩ := List.cons.inj hmoments
      rw [List.length_cons, World.momentAt, ih rfl, Option.bind_some]
      simp only [next?, hgoing]
  | next _ hvalue ih =>
      obtain ⟨rfl, rfl⟩ := List.cons.inj hmoments
      rw [List.length_cons, World.momentAt, ih rfl, Option.bind_some]
      simp only [next?, hvalue]

theorem runsThrough_of_momentAt {n : Nat} (h : w.momentAt terms statements n = some (v, rest)) :
    ∃ before, w.RunsThrough terms statements (v :: before) rest := by
  induction n generalizing v rest with
  | zero =>
      cases statements with
      | nil => exact nomatch h
      | cons s rest' =>
          obtain ⟨rfl, rfl⟩ := Prod.mk.inj (Option.some.inj h)
          exact ⟨[], .first rfl⟩
  | succ n ih =>
      obtain ⟨⟨u, rest'⟩, hu, hnext⟩ := Option.bind_eq_some_iff.mp h
      obtain ⟨before, hthrough⟩ := ih hu
      dsimp only [next?] at hnext
      split at hnext <;> rename_i hresult
      · obtain ⟨rfl, rfl⟩ := Prod.mk.inj (Option.some.inj hnext)
        exact ⟨_, hthrough.goesOn hresult⟩
      · obtain ⟨rfl, rfl⟩ := Prod.mk.inj (Option.some.inj hnext)
        exact ⟨_, hthrough.next hresult⟩
      · exact nomatch hnext

theorem moment_iff {p : Program} :
    w.Moment terms p v ↔ ∃ n rest, (w.opened p).momentAt terms p.statements n = some (v, rest) := by
  constructor
  · rintro ⟨before, rest, h⟩
    exact ⟨_, rest, h.momentAt⟩
  · rintro ⟨n, rest, h⟩
    obtain ⟨before, hthrough⟩ := runsThrough_of_momentAt h
    exact ⟨before, rest, hthrough⟩

/-- A run goes on from a moment to the result of the main thread, by later moments. -/
theorem RunsThrough.later (h : w.RunsThrough terms statements (v :: before) rest) {u : World}
    (hfinish : v.finish terms horizon = some (o, u)) :
    ∃ before', w.RunsThrough terms statements (u :: before') rest ∧
      v :: before <:+ u :: before' := by
  induction horizon generalizing v before with
  | zero => exact nomatch hfinish
  | succ horizon ih =>
      cases hresult : v.main.result? with
      | none =>
          rw [finish_succ hresult] at hfinish
          obtain ⟨before', hu, hsuffix⟩ := ih (h.goesOn hresult) hfinish
          exact ⟨before', hu, (List.suffix_cons _ _).trans hsuffix⟩
      | some o' =>
          rw [finish_result hresult] at hfinish
          obtain ⟨-, rfl⟩ := Prod.mk.inj (Option.some.inj hfinish)
          exact ⟨before, h, List.suffix_refl _⟩

theorem RunsThrough.finish (h : w.RunsThrough terms statements (v :: before) rest) {u : World}
    (hfinish : v.finish terms horizon = some (o, u)) :
    ∃ before', w.RunsThrough terms statements (u :: before') rest := by
  obtain ⟨before', hu, -⟩ := h.later hfinish
  exact ⟨before', hu⟩

/-- What holds of all threads where a run begins, and is kept by their steps
and by turning to a statement, holds of all threads at every moment. -/
theorem RunsThrough.tasks {I : Task → Prop} (h : w.RunsThrough terms statements moments rest)
    (hstep : ∀ t s, I t → I (t.step terms.toLimits s).1)
    (hstart : ∀ file s callee, I ((Task.idle file).applying s callee [] .nowhere))
    (hdoing : ∀ t s, I t → I (t.doing (.stmt s []))) (hw : ∀ t ∈ w.tasks, I t) :
    ∀ v ∈ moments, ∀ t ∈ v.tasks, I t := by
  have hturn : ∀ (v : World) (s : Stmt), (∀ t ∈ v.tasks, I t) →
      ∀ t ∈ (v.doing (.stmt s [])).tasks, I t := by
    intro v s hv
    obtain ⟨hmain, hthreads⟩ := List.forall_mem_cons.mp hv
    exact List.forall_mem_cons.mpr ⟨hdoing _ s hmain, hthreads⟩
  induction h with
  | first _ =>
      intro v hv
      obtain rfl := List.mem_singleton.mp hv
      exact hturn w _ hw
  | goesOn _ _ ih =>
      have hv := ih _ List.mem_cons_self
      exact List.forall_mem_cons.mpr ⟨tasks_move hstep hstart hv _, ih⟩
  | next _ _ ih =>
      have hv := ih _ List.mem_cons_self
      exact List.forall_mem_cons.mpr ⟨hturn _ _ hv, ih⟩

/-- What becomes of the statements after one that is going on. -/
def resumeFrom (terms : Terms) (horizon : Nat) (w : World) (done : List Value) (s : Stmt)
    (rest : List Stmt) : Option Ending :=
  match w.finish terms horizon with
  | none => none
  | some (.value v, w) => runFrom terms horizon w (v :: done) rest
  | some (.returned v, w) => some ⟨(v :: done).reverse, none, w⟩
  | some (.failed f, w) => some ⟨done.reverse, some f, w⟩
  | some (.left, w) =>
    some ⟨done.reverse, some ((Failure.ofFault (.strayBreak none)).locate s.position), w⟩
  | some (.skipped, w) =>
    some ⟨done.reverse, some ((Failure.ofFault (.strayContinue none)).locate s.position), w⟩

variable {done : List Value} {s : Stmt} {e : Ending}

theorem runFrom_cons (terms : Terms) (horizon : Nat) (w : World) (done : List Value) (s : Stmt)
    (rest : List Stmt) :
    w.runFrom terms horizon done (s :: rest) =
      (w.doing (.stmt s [])).resumeFrom terms horizon done s rest := rfl

/-- Where the statement that is going on has the same result, the rest becomes
the same. -/
theorem resumeFrom_of_finish {later : Nat} (hle : horizon ≤ later)
    (hsame : ∀ r, v.finish terms horizon = some r → w.finish terms later = some r)
    (h : v.resumeFrom terms horizon done s rest = some e) :
    w.resumeFrom terms later done s rest = some e := by
  unfold resumeFrom at h ⊢
  cases hfinish : v.finish terms horizon with
  | none =>
      rw [hfinish] at h
      exact nomatch h
  | some r =>
      obtain ⟨o, u⟩ := r
      rw [hfinish] at h
      rw [hsame _ hfinish]
      cases o with
      | value x => exact runFrom_mono hle h
      | returned x | left | skipped | failed f => exact h

/-- What becomes of the statements from a moment on is what becomes of the
program. -/
theorem RunsThrough.resumeFrom (h : w.RunsThrough terms statements (v :: before) rest) :
    ∃ done s, ∀ horizon e, v.resumeFrom terms horizon done s rest = some e →
      ∃ later, w.runFrom terms later [] statements = some e := by
  generalize hmoments : v :: before = moments at h
  induction h generalizing v before with
  | @first s rest hfirst =>
      obtain ⟨rfl, -⟩ := List.cons.inj hmoments
      refine ⟨[], s, ?_⟩
      intro horizon e hresume
      refine ⟨horizon, ?_⟩
      rw [hfirst, runFrom_cons]
      exact hresume
  | @goesOn u before' rest _ hgoing ih =>
      obtain ⟨rfl, -⟩ := List.cons.inj hmoments
      obtain ⟨done, s, hearlier⟩ := ih rfl
      refine ⟨done, s, ?_⟩
      intro horizon e hresume
      apply hearlier (horizon + 1) e
      refine resumeFrom_of_finish (Nat.le_succ horizon) ?_ hresume
      intro r hfinish
      rw [finish_succ hgoing]
      exact hfinish
  | @next u before' s' rest x _ hvalue ih =>
      obtain ⟨rfl, -⟩ := List.cons.inj hmoments
      obtain ⟨done, s, hearlier⟩ := ih rfl
      refine ⟨x :: done, s', ?_⟩
      intro horizon e hresume
      apply hearlier (horizon + 1) e
      have hlater := resumeFrom_of_finish (Nat.le_succ horizon)
        (fun _ hfinish => finish_mono (Nat.le_succ horizon) hfinish) hresume
      rw [World.resumeFrom, finish_result hvalue]
      exact hlater

/-- What becomes of a program that ends is what becomes of the statements from
any of its moments on. -/
theorem RunsThrough.resumed (h : w.RunsThrough terms statements (v :: before) rest)
    (hrun : w.runFrom terms horizon [] statements = some e) :
    ∃ done s, v.resumeFrom terms horizon done s rest = some e := by
  generalize hmoments : v :: before = moments at h
  induction h generalizing v before with
  | @first s rest hfirst =>
      obtain ⟨rfl, -⟩ := List.cons.inj hmoments
      subst hfirst
      exact ⟨[], s, hrun⟩
  | @goesOn u before' rest _ hgoing ih =>
      obtain ⟨rfl, -⟩ := List.cons.inj hmoments
      obtain ⟨done, s, hearlier⟩ := ih rfl
      refine ⟨done, s, resumeFrom_of_finish (Nat.le_refl _) ?_ hearlier⟩
      intro r hfinish
      cases horizon with
      | zero => exact nomatch hfinish
      | succ horizon =>
          rw [finish_succ hgoing] at hfinish
          exact finish_mono (Nat.le_succ horizon) hfinish
  | @next u before' s' rest x _ hvalue ih =>
      obtain ⟨rfl, -⟩ := List.cons.inj hmoments
      obtain ⟨done, s, hearlier⟩ := ih rfl
      cases horizon with
      | zero => exact nomatch hearlier
      | succ horizon =>
          rw [World.resumeFrom, finish_result hvalue] at hearlier
          exact ⟨x :: done, s', hearlier⟩

end World

end Scriptlet
