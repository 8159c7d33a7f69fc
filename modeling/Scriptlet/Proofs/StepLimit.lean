/-
A limit on the number of nodes stops every program that spawns no thread and
uses no mutex inside an update of it: its run comes to an end, and no more nodes
are evaluated on the way.
-/
import Scriptlet.Proofs.HaltingSteps

namespace Scriptlet

namespace World

variable {terms : Terms} {w v : World} {p : Program}

/-- Whether what happens next is that the main thread evaluates a node, which is
not refused. -/
def entersNode (terms : Terms) (v : World) : Bool :=
  (terms.feed v).actor.isNone && v.main.control.isNode &&
    (v.main.refusal terms.toLimits (v.within (terms.feed v).outside).store).1.isNone

/-- Whether in the run of a program no thread is spawned, and no method of a
mutex called inside an update of it. -/
structure Quiet (terms : Terms) (w : World) (p : Program) : Prop where
  unspawned : ∀ v, w.Moment terms p v → v.store.threads.size = 0
  free : ∀ v, w.Moment terms p v → ¬ v.main.Reenters

theorem RunsThrough.moment {before : List World} {rest : List Stmt}
    (h : (w.opened p).RunsThrough terms p.statements (v :: before) rest) : w.Moment terms p v :=
  ⟨before, rest, h⟩

section

variable {file : String}

/-- Where a run begins nothing is held but built-in things. -/
theorem sound_opened (file : String) (p : Program) :
    ((ofStore .initial file).opened p).Alone ∧
      Task.Sound 0 (((ofStore .initial file).opened p).main,
        ((ofStore .initial file).opened p).store) := by
  have hstands : ∀ name : String, (Task.idle name).Stands 0 .initial :=
    fun name => ⟨List.forall_mem_nil _, Store.holds_initial, nofun, Nat.zero_le _⟩
  rw [opened_eq]
  exact ⟨alone_of_unspawned rfl rfl, hstands _, trivial⟩

variable (hquiet : (ofStore .initial file).Quiet terms p)
include hquiet

theorem Quiet.safe_of_sound (hmoment : (ofStore .initial file).Moment terms p v)
    (halone : v.Alone) (hsound : Task.Sound 0 (v.main, v.store)) : v.Safe terms.toLimits :=
  ⟨halone.1, hquiet.unspawned v hmoment, hsound, hmoment.nests v.main List.mem_cons_self,
    hquiet.free v hmoment⟩

/-- Every moment is safe: the first is, and each step and each turn to the next
statement keeps it. -/
theorem Quiet.safe (hmoment : (ofStore .initial file).Moment terms p v) :
    v.Safe terms.toLimits := by
  obtain ⟨before, rest, h⟩ := hmoment
  suffices hkept : v.Alone ∧ Task.Sound 0 (v.main, v.store) from
    hquiet.safe_of_sound h.moment hkept.1 hkept.2
  generalize hmoments : v :: before = moments at h
  induction h generalizing v before with
  | first hfirst =>
      obtain ⟨rfl, -⟩ := List.cons.inj hmoments
      obtain ⟨halone, hsound⟩ := sound_opened file p
      exact ⟨halone, hsound.stands.doing trivial⟩
  | goesOn h hgoing ih =>
      obtain ⟨rfl, -⟩ := List.cons.inj hmoments
      obtain ⟨halone, hsound⟩ := ih _ rfl
      have hsafe := hquiet.safe_of_sound h.moment halone hsound
      have hnext := hquiet.unspawned _ (h.goesOn hgoing).moment
      obtain ⟨hstill, hkept⟩ := hsafe.next _ hnext
      exact ⟨hstill, hkept.mono (Nat.zero_le _)⟩
  | next _ _ ih =>
      obtain ⟨rfl, -⟩ := List.cons.inj hmoments
      obtain ⟨halone, hsound⟩ := ih _ rfl
      exact ⟨halone, hsound.stands.doing trivial⟩

theorem Quiet.steady : Steady terms ((ofStore .initial file).Moment terms p) := by
  refine ⟨?_, fun v hmoment => hquiet.safe hmoment⟩
  rintro v ⟨before, rest, h⟩ hgoing
  exact (h.goesOn hgoing).moment

end

/-- Where every statement comes to its result, so does the run. -/
theorem RunsThrough.ends {statements rest : List Stmt} {before : List World}
    (hhalts : ∀ v before rest, w.RunsThrough terms statements (v :: before) rest → v.Halts terms)
    (h : w.RunsThrough terms statements (v :: before) rest) (done : List Value) (s : Stmt) :
    ∃ horizon e, v.resumeFrom terms horizon done s rest = some e := by
  induction rest generalizing v before done s with
  | nil =>
      obtain ⟨horizon, o, u, hfinish⟩ := hhalts _ _ _ h
      refine ⟨horizon, ?_⟩
      rw [World.resumeFrom, hfinish]
      cases o <;> exact ⟨_, rfl⟩
  | cons s' rest ih =>
      obtain ⟨horizon, o, u, hfinish⟩ := hhalts _ _ _ h
      cases o with
      | value x =>
          obtain ⟨before', hu⟩ := h.finish hfinish
          obtain ⟨later, e, hend⟩ := ih (hu.next (finish_ended hfinish)) (x :: done) s'
          rw [← runFrom_cons] at hend
          refine ⟨max horizon later, e, ?_⟩
          rw [World.resumeFrom, finish_mono (Nat.le_max_left _ _) hfinish]
          exact runFrom_mono (Nat.le_max_right _ _) hend
      | returned x | left | skipped | failed f =>
          refine ⟨horizon, ?_⟩
          rw [World.resumeFrom, hfinish]
          exact ⟨_, rfl⟩

theorem run_ends (hhalts : ∀ v, w.Moment terms p v → v.Halts terms) :
    ∃ horizon e, w.run terms horizon p = some e := by
  simp only [run_eq]
  have hthrough := fun v before rest
    (h : (w.opened p).RunsThrough terms p.statements (v :: before) rest) => hhalts v h.moment
  cases hstatements : p.statements with
  | nil => exact ⟨0, _, rfl⟩
  | cons s rest =>
      obtain ⟨horizon, e, hend⟩ := RunsThrough.ends hthrough (.first hstatements) [] s
      exact ⟨horizon, e, hend⟩

section

variable {M : World → Prop} (hM : Steady terms M) (hv : M v)
include hM hv

/-- A node that is evaluated is one of those that there may be, and is counted. -/
theorem counts_of_entersNode (henters : v.entersNode terms = true) :
    (0 < terms.maxSteps → v.store.steps < terms.maxSteps) ∧
      v.store.steps < (v.step terms).store.steps := by
  obtain ⟨hnode, hnone⟩ := Bool.and_eq_true_iff.mp henters
  obtain ⟨hactor, hnode⟩ := Bool.and_eq_true_iff.mp hnode
  rcases Task.counts_node hM hv (Option.isNone_iff_eq_none.mp hactor) hnode with
    ⟨fault, hrefusal, -⟩ | ⟨-, hcounts⟩
  · rw [hrefusal] at hnone
    exact nomatch hnone
  · exact hcounts

theorem steps_of_entersNode (hgoing : v.main.result? = none) :
    v.store.steps + (if v.entersNode terms then 1 else 0) ≤ (v.step terms).store.steps := by
  split <;> rename_i henters
  · exact (counts_of_entersNode hM hv henters).2
  · exact hM.steps_le hv hgoing

/-- As many nodes as there may be are not exceeded by one more. -/
theorem room_of_entersNode (hpos : 0 < terms.maxSteps) {count : Nat}
    (hcount : count ≤ v.store.steps) (hle : count ≤ terms.maxSteps) :
    count + (if v.entersNode terms then 1 else 0) ≤ terms.maxSteps := by
  split <;> rename_i henters
  · have hlt := (counts_of_entersNode hM hv henters).1 hpos
    omega
  · exact hle

end

/-- In a quiet run each node that is evaluated is counted, and never more than
there may be. -/
theorem RunsThrough.countP_entersNode {before : List World} {rest : List Stmt}
    (hM : Steady terms (w.Moment terms p)) (hpos : 0 < terms.maxSteps)
    (h : (w.opened p).RunsThrough terms p.statements (v :: before) rest) :
    before.countP (entersNode terms) ≤ v.store.steps ∧
      (v :: before).countP (entersNode terms) ≤ terms.maxSteps := by
  generalize hmoments : v :: before = moments at h
  induction h generalizing v before with
  | first hfirst =>
      obtain ⟨rfl, rfl⟩ := List.cons.inj hmoments
      have hmoment : w.Moment terms p _ := (RunsThrough.first hfirst).moment
      rw [List.countP_cons]
      exact ⟨Nat.zero_le _, room_of_entersNode hM hmoment hpos (Nat.zero_le _) (Nat.zero_le _)⟩
  | @goesOn u before' _ h hgoing ih =>
      obtain ⟨rfl, rfl⟩ := List.cons.inj hmoments
      obtain ⟨hcount, hle⟩ := ih rfl
      have hcounted : (u :: before').countP (entersNode terms) ≤ (u.step terms).store.steps := by
        have hsteps := steps_of_entersNode hM h.moment hgoing
        rw [List.countP_cons]
        omega
      refine ⟨hcounted, ?_⟩
      rw [List.countP_cons]
      exact room_of_entersNode hM (h.goesOn hgoing).moment hpos hcounted hle
  | @next u before' s _ x h hvalue ih =>
      obtain ⟨rfl, rfl⟩ := List.cons.inj hmoments
      obtain ⟨hcount, hle⟩ := ih rfl
      have hnot : ¬ u.entersNode terms = true := by
        obtain ⟨hcontrol, -⟩ := Task.result?_eq_some_iff.mp hvalue
        simp [entersNode, hcontrol, Control.isNode]
      have hcounted : (u :: before').countP (entersNode terms) ≤
          (u.doing (.stmt s [])).store.steps := by
        rw [List.countP_cons_of_neg hnot]
        exact hcount
      refine ⟨hcounted, ?_⟩
      rw [List.countP_cons]
      exact room_of_entersNode hM (h.next hvalue).moment hpos hcounted hle

/-- A limit on the number of nodes stops every program that spawns no thread and
calls no method of a mutex inside an update of it, with whatever limit on the
depth: its run comes to an end if the main thread goes on again and again, and
at no moment have more nodes been evaluated than the limit allows. -/
theorem run_stops {file : String} (hpos : 0 < terms.maxSteps)
    (hquiet : (ofStore .initial file).Quiet terms p) :
    (terms.Lively → ∃ horizon e, (ofStore .initial file).run terms horizon p = some e) ∧
    ∀ moments rest,
      ((ofStore .initial file).opened p).RunsThrough terms p.statements moments rest →
      moments.countP (entersNode terms) ≤ terms.maxSteps := by
  have hsteady := hquiet.steady
  refine ⟨fun hlively => run_ends fun v hmoment => Driven.halts ⟨hsteady, hlively⟩ hpos hmoment, ?_⟩
  intro moments rest h
  cases moments with
  | nil => exact Nat.zero_le _
  | cons v before =>
      obtain ⟨-, hle⟩ := h.countP_entersNode hsteady hpos
      exact hle

/-- The moments of a run that ends can be looked at one by one. -/
theorem quiet_of_momentAt {count : Nat}
    (hlast : (w.opened p).momentAt terms p.statements count = none)
    (hquiet : ∀ n < count, ∀ m ∈ (w.opened p).momentAt terms p.statements n,
      m.1.store.threads.size = 0 ∧ ¬ m.1.main.Reenters) : w.Quiet terms p := by
  have hlater : ∀ n, (w.opened p).momentAt terms p.statements (count + n) = none := by
    intro n
    induction n with
    | zero => exact hlast
    | succ n ih =>
        change ((w.opened p).momentAt terms p.statements (count + n)).bind _ = none
        rw [ih, Option.bind_none]
  have hall : ∀ v, w.Moment terms p v → v.store.threads.size = 0 ∧ ¬ v.main.Reenters := by
    intro v hmoment
    obtain ⟨n, rest, hv⟩ := moment_iff.mp hmoment
    have hlt : n < count := by
      apply Nat.lt_of_not_le
      intro hle
      have hnone := hlater (n - count)
      rw [Nat.add_sub_of_le hle, hv] at hnone
      exact nomatch hnone
    exact hquiet n hlt (v, rest) hv
  exact ⟨fun v hmoment => (hall v hmoment).1, fun v hmoment => (hall v hmoment).2⟩

/-- Terms on which only the main thread goes on, and each sleep is over at once. -/
def promptly (limits : Limits) : Terms :=
  { limits with
    feed := fun w =>
      match w.main.control with
      | .asleep time => ⟨none, { Outside.bare with elapsed := time }⟩
      | _ => ⟨none, .bare⟩ }

theorem promptly_lively (limits : Limits) : (promptly limits).Lively := by
  have halways : ∀ w : World, ((promptly limits).feed w).actor = none := by
    intro w
    simp only [promptly]
    split <;> rfl
  refine ⟨fun w => ⟨0, halways w⟩, fun w time hcontrol => ⟨0, halways w, ?_⟩⟩
  simp only [promptly, after, hcontrol]
  exact Nat.le_refl _

/-- A loop without end in which a mutex is updated with a function that gives
back what it is given. -/
def updating : Program :=
  let name (n : String) : Expr := .name ⟨n, .nowhere⟩
  let same : Expr := .lambda .nowhere [⟨⟨"x", .nowhere⟩, none⟩]
    ⟨.nowhere, [.giveBack .nowhere (some (name "x"))]⟩
  let update : Expr := .method .nowhere (name "m") ⟨"update", .nowhere⟩ [same]
  ⟨"", [.assign .nowhere ⟨"m", .nowhere⟩ (.call .nowhere (name "Mutex") [.null .nowhere]),
    .repeatWhile .nowhere (.bool .nowhere true) ⟨.nowhere, [.expr .nowhere "m" update]⟩]⟩

theorem run_stops_updating :
    (ofStore .initial "main").Quiet (promptly ⟨9, 20⟩) updating ∧
    (∃ horizon e, (ofStore .initial "main").run (promptly ⟨9, 20⟩) horizon updating = some e) ∧
    ∀ moments rest, ((ofStore .initial "main").opened updating).RunsThrough
      (promptly ⟨9, 20⟩) updating.statements moments rest →
      moments.countP (entersNode (promptly ⟨9, 20⟩)) ≤ 20 := by
  have hlast : (((ofStore .initial "main").opened updating).momentAt (promptly ⟨9, 20⟩)
      updating.statements 74).isNone := by
    decide +kernel
  have hquiet : (ofStore .initial "main").Quiet (promptly ⟨9, 20⟩) updating :=
    quiet_of_momentAt (Option.isNone_iff_eq_none.mp hlast) (by decide +kernel)
  obtain ⟨hends, hcount⟩ := run_stops (by decide) hquiet
  exact ⟨hquiet, hends (promptly_lively _), hcount⟩

end World

end Scriptlet
