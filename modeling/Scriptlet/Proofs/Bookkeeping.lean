/-
The books of a thread after an evaluation: whatever the outcome is, the scope,
the depth and the calls in traces are those from before.  A session is
therefore at rest after every request, met or not.
-/
import Scriptlet.Session
import Scriptlet.Proofs.Moments
import Scriptlet.Proofs.Turns

namespace Scriptlet

/-- The books once some frames, the innermost first, are left. -/
def unwound (top : List Frame) (b : Books) : Books := top.foldl (fun b f => f.unwind b) b

namespace Task

variable {limits : Limits} {base : List Frame} {b : Books} {t u : Task}

/-- Whether the frames of a thread lie on those in `base`, and its books are
those in `b` once it has left the frames above. -/
def ComesBackTo (base : List Frame) (b : Books) (t : Task) : Prop :=
  ∃ top, t.frames = top ++ base ∧ unwound top t.books = b

/-- How a thread goes on, up to the outcome that the frames in `base` wait for.
Each step finds a store of its own: between two of them other threads may have
done anything, and the run may have been called off. -/
inductive Proceeds (limits : Limits) (base : List Frame) (t : Task) : Task → Prop where
  | begins : Proceeds limits base t t
  | goesOn {u : Task} (s : Store) (h : Proceeds limits base t u) (hgoing : ¬ u.EndedAt base) :
      Proceeds limits base t (u.step limits s).1

theorem ComesBackTo.refl (t : Task) : t.ComesBackTo t.frames t.books := ⟨[], rfl, rfl⟩

/-- A frame on top that unwinds the books to those from before may be pushed. -/
theorem ComesBackTo.push {f : Frame} (h : t.ComesBackTo base b) (hframes : u.frames = f :: t.frames)
    (hunwind : f.unwind u.books = t.books) : u.ComesBackTo base b := by
  obtain ⟨top, htop, hbooks⟩ := h
  refine ⟨f :: top, ?_, ?_⟩
  · rw [hframes, htop, List.cons_append]
  · change unwound top (f.unwind u.books) = b
    rw [hunwind]
    exact hbooks

theorem ComesBackTo.applying (h : t.ComesBackTo base b) (s : Store) (callee : Value)
    (args : List Value) (site : Position) : (t.applying s callee args site).ComesBackTo base b :=
  h.push (f := .leaveCall) rfl rfl

/-- Plain frames do not touch the books, and a call that stands in traces is
noted together with the frame that takes it off. -/
theorem ComesBackTo.onward {here : Prop} (h : t.ComesBackTo base b) (hu : Onward here t u) :
    u.ComesBackTo base b := by
  induction hu with
  | doing t c _ => exact h
  | @pushed t u f hplain _ _ ih => exact ih (h.push rfl (Frame.unwind_of_not_isLeaving hplain _))
  | applying t s callee args site _ => exact h.applying s callee args site

/-- A frame above those in `base` is taken off. -/
theorem ComesBackTo.pop {f : Frame} {rest : List Frame} (h : t.ComesBackTo base b)
    (hframes : t.frames = f :: rest) (hne : t.frames ≠ base) :
    ∃ top, rest = top ++ base ∧ unwound top (f.unwind t.books) = b := by
  obtain ⟨top, htop, hbooks⟩ := h
  cases top with
  | nil => exact absurd htop hne
  | cons g top =>
      rw [hframes, List.cons_append] at htop
      obtain ⟨rfl, rfl⟩ := List.cons.inj htop
      exact ⟨top, rfl, hbooks⟩

/-- Each step keeps the books that a thread comes back to. -/
theorem ComesBackTo.turn (h : t.ComesBackTo base b) (hgoing : ¬ t.EndedAt base)
    (hu : Turn limits t u) : u.ComesBackTo base b := by
  have hne : ∀ o, t.control = .outcome o → t.frames ≠ base :=
    fun o hcontrol hframes => hgoing ⟨hframes, o, hcontrol⟩
  cases hu with
  | same => exact h
  | onward hu => exact h.onward hu
  | entered position env _ hu =>
      have hentered : (t.entered position env).ComesBackTo base b :=
        h.push (f := .leaveNode position t.scope) rfl rfl
      exact hentered.onward hu
  | hooked callee receiver args _ => exact h.push (f := .leaveHook) rfl rfl
  | function f id args env _ => exact h.push (f := .leaveFunction f.name) rfl rfl
  | forwarded id args callee _ => exact h.push (f := .leaveInstance) rfl rfl
  | resumed o f rest hcontrol hframes hplain hu =>
      obtain ⟨top, htop, hbooks⟩ := h.pop hframes (hne o hcontrol)
      rw [Frame.unwind_of_not_isLeaving hplain] at hbooks
      have hrest : ({ t with frames := rest } : Task).ComesBackTo base b := ⟨top, htop, hbooks⟩
      exact hrest.onward hu
  | left o o' f rest hcontrol hframes _ =>
      obtain ⟨top, htop, hbooks⟩ := h.pop hframes (hne o hcontrol)
      exact ⟨top, htop, hbooks⟩

/-- What a thread comes back to stays the same on its way. -/
theorem Proceeds.comesBackTo (h : t.Proceeds limits base u) (ht : t.ComesBackTo base b) :
    u.ComesBackTo base b := by
  induction h with
  | begins => exact ht
  | goesOn s _ hgoing ih => exact ih.turn hgoing (turn_step _ _ _)

theorem ComesBackTo.books_eq (h : t.ComesBackTo base b) (hended : t.EndedAt base) :
    t.books = b := by
  obtain ⟨top, hframes, hbooks⟩ := h
  have htop : top = [] := by
    rw [hended.1] at hframes
    exact List.self_eq_append_left.mp hframes
  rw [htop] at hbooks
  exact hbooks

/-- Whether nothing goes on in a thread, and nothing is left in its books. -/
def AtRest (t : Task) : Prop := t.frames = [] ∧ t.books = ⟨none, 0, []⟩

theorem AtRest.comesBackTo (h : t.AtRest) : t.ComesBackTo [] ⟨none, 0, []⟩ := ⟨[], h.1, h.2⟩

end Task

namespace World

variable {terms : Terms} {horizon : Nat} {w v : World} {o : Outcome}

/-- A run to the result of the main thread goes through steps of that thread. -/
theorem finish_proceeds {t : Task} (ht : t.Proceeds terms.toLimits [] w.main)
    (h : w.finish terms horizon = some (o, v)) : t.Proceeds terms.toLimits [] v.main := by
  induction horizon generalizing w with
  | zero => exact nomatch h
  | succ horizon ih =>
      cases hresult : w.main.result? with
      | some o' =>
          rw [finish_result hresult] at h
          obtain ⟨-, rfl⟩ := Prod.mk.inj (Option.some.inj h)
          exact ht
      | none =>
          have hgoing := (Task.result?_eq_none_iff _).mp hresult
          rw [finish_succ hresult] at h
          refine ih ?_ h
          have hmove := main_move terms.toLimits w (terms.feed w)
          rcases hmove with hmain | ⟨s, hmain⟩
          · exact hmain.symm ▸ ht
          · exact hmain.symm ▸ ht.goesOn s hgoing

/-- A run to the result of the main thread leaves that thread at rest if it is
to come to rest. -/
theorem finish_atRest (hw : w.main.ComesBackTo [] ⟨none, 0, []⟩)
    (h : w.finish terms horizon = some (o, v)) : v.main.AtRest := by
  have hresult := finish_ended h
  obtain ⟨hcontrol, hframes⟩ := Task.result?_eq_some_iff.mp hresult
  have hback := (finish_proceeds .begins h).comesBackTo hw
  exact ⟨hframes, hback.books_eq ⟨hframes, o, hcontrol⟩⟩

theorem runFrom_atRest {done : List Value} {statements : List Stmt} {e : Ending}
    (hw : w.main.AtRest) (h : w.runFrom terms horizon done statements = some e) :
    e.world.main.AtRest := by
  induction statements generalizing w done with
  | nil =>
      obtain rfl := Option.some.inj h
      exact hw
  | cons first rest ih =>
      unfold runFrom at h
      cases heval : w.evalStmt terms horizon first with
      | none =>
          rw [heval] at h
          cases h
      | some r =>
          obtain ⟨o, u⟩ := r
          have hu : u.main.AtRest :=
            finish_atRest (w := w.doing (.stmt first [])) hw.comesBackTo heval
          rw [heval] at h
          cases o with
          | value v => exact ih hu h
          | returned v | failed f | left | skipped =>
              obtain rfl := Option.some.inj h
              exact hu

end World

namespace Session

/-- What a host can ask of a session. -/
inductive Request where
  | eval (code : Text)
  | evalExpression (code : Text)
  | call (name : String) (args : List HostValue)
  | set (name : String) (value : HostValue)
  | bind (name : String) (value : HostValue)
  | get (name : String)
  | load (path : String)

/-- What a session answers to a request, and what becomes of it. -/
def serve (horizon : Nat) (s : Session) : Request → Option (Reply × Session)
  | .eval code => s.eval horizon code
  | .evalExpression code => s.evalExpression horizon code
  | .call name args => s.call horizon name args
  | .set name value => some (s.set name value)
  | .bind name value => some (s.bind name value)
  | .get name => (s.get name).map (·, s)
  | .load path => s.load horizon path

/-- What becomes of a session by requests, whether they are met or not.  In
between anything may become of it but of its main thread: other threads go on,
and the host makes objects, takes the output and sets other terms. -/
inductive Later (s : Session) : Session → Prop where
  | now : Later s s
  | served {u v : Session} {horizon : Nat} {r : Request} {reply : Reply} (h : Later s u)
      (hserve : u.serve horizon r = some (reply, v)) : Later s v
  | meanwhile {u v : Session} (h : Later s u) (hmain : v.world.main = u.world.main) : Later s v

variable {horizon : Nat} {s v : Session}

/-- What an evaluation at top level gives leaves the session in the world that the
evaluation left. -/
theorem finished_world {o : Outcome} {u : World} {reply : Reply}
    (h : s.finished (o, u) = some (reply, v)) : v.world = u := by
  cases o with
  | value x | returned x =>
      obtain ⟨_, -, hv⟩ := Option.map_eq_some_iff.mp h
      obtain ⟨-, rfl⟩ := Prod.mk.inj hv
      rfl
  | left | skipped | failed f =>
      obtain ⟨-, rfl⟩ := Prod.mk.inj (Option.some.inj h)
      rfl

theorem eval_run {code : Text} {reply : Reply} (h : s.eval horizon code = some (reply, v)) :
    ∃ result, s.run horizon code evalLabel = some (result, v) := by
  obtain ⟨⟨result, u⟩, hrun, hv⟩ := Option.bind_eq_some_iff.mp h
  refine ⟨result, ?_⟩
  rw [hrun]
  cases result with
  | error fault =>
      obtain ⟨-, rfl⟩ := Prod.mk.inj (Option.some.inj hv)
      rfl
  | ok values =>
      dsimp only at hv
      split at hv
      · obtain ⟨_, -, hv⟩ := Option.map_eq_some_iff.mp hv
        obtain ⟨-, rfl⟩ := Prod.mk.inj hv
        rfl
      · obtain ⟨-, rfl⟩ := Prod.mk.inj (Option.some.inj hv)
        rfl

theorem set_main (s : Session) (name : String) (value : HostValue) :
    (s.set name value).2.world.main = s.world.main := by
  unfold set
  split <;> rfl

theorem bind_main (s : Session) (name : String) (value : HostValue) :
    (s.bind name value).2.world.main = s.world.main := by
  unfold bind
  split
  · rfl
  · exact set_main _ _ _

theorem run_atRest {code : Text} {file : String} {result : Except SessionFault (List Value)}
    (hs : s.world.main.AtRest) (h : s.run horizon code file = some (result, v)) :
    v.world.main.AtRest := by
  unfold run at h
  split at h
  · obtain ⟨-, rfl⟩ := Prod.mk.inj (Option.some.inj h)
    exact hs
  · rename_i p _
    obtain ⟨e, hrun, hv⟩ := Option.map_eq_some_iff.mp h
    have hmain : v.world.main = e.world.main := by
      dsimp only at hv
      split at hv <;> obtain ⟨-, rfl⟩ := Prod.mk.inj hv <;> rfl
    rw [hmain]
    have hstart : ∀ w : World, w.main.AtRest → (w.inFile p.file).main.AtRest := fun _ hw => hw
    unfold World.run at hrun
    split at hrun
    · exact World.runFrom_atRest (w := s.world.inFile file) hs hrun
    · exact World.runFrom_atRest (hstart (s.world.inFile file) hs) hrun

/-- A request leaves a session at rest, whether it is met or not. -/
theorem serve_atRest {r : Request} {reply : Reply} (hs : s.world.main.AtRest)
    (h : s.serve horizon r = some (reply, v)) : v.world.main.AtRest := by
  cases r with
  | eval code =>
      obtain ⟨result, hrun⟩ := eval_run h
      exact run_atRest hs hrun
  | evalExpression code =>
      simp only [serve, evalExpression] at h
      split at h
      · obtain ⟨-, rfl⟩ := Prod.mk.inj (Option.some.inj h)
        exact hs
      · rename_i e _
        obtain ⟨⟨o, u⟩, hfinish, hv⟩ := Option.bind_eq_some_iff.mp h
        rw [finished_world hv]
        exact World.finish_atRest (w := (s.world.inFile exprLabel).doing (.expr e []))
          hs.comesBackTo hfinish
  | call name args =>
      simp only [serve, call] at h
      split at h
      · obtain ⟨-, rfl⟩ := Prod.mk.inj (Option.some.inj h)
        exact hs
      · split at h
        · obtain ⟨-, rfl⟩ := Prod.mk.inj (Option.some.inj h)
          exact hs
        · rename_i callee _ _ values store _
          obtain ⟨⟨o, u⟩, hfinish, hv⟩ := Option.bind_eq_some_iff.mp h
          have hback := hs.comesBackTo.applying store callee values .nowhere
          rw [finished_world hv]
          exact World.finish_atRest hback hfinish
  | set name value =>
      have hv : (s.set name value).2 = v := congrArg Prod.snd (Option.some.inj h)
      rw [← hv, set_main]
      exact hs
  | bind name value =>
      have hv : (s.bind name value).2 = v := congrArg Prod.snd (Option.some.inj h)
      rw [← hv, bind_main]
      exact hs
  | get name =>
      obtain ⟨_, -, hv⟩ := Option.map_eq_some_iff.mp h
      obtain rfl := (Prod.mk.inj hv).2
      exact hs
  | load path =>
      simp only [serve, load] at h
      split at h
      · obtain ⟨-, rfl⟩ := Prod.mk.inj (Option.some.inj h)
        exact hs
      · obtain ⟨⟨result, u⟩, hrun, hv⟩ := Option.map_eq_some_iff.mp h
        have hu : u.world.main.AtRest := run_atRest hs hrun
        have hsame : v = u := by
          cases result <;> exact (Prod.mk.inj hv).2.symm
        rw [hsame]
        exact hu

theorem Later.atRest (h : s.Later v) (hs : s.world.main.AtRest) : v.world.main.AtRest := by
  induction h with
  | now => exact hs
  | served _ hserve ih => exact serve_atRest ih hserve
  | meanwhile _ hmain ih =>
      rw [hmain]
      exact ih

/-- Evaluating a node, calling a hook or anything else that a thread is about to
do ends with the scope, the depth and the calls in traces from before, and so
does a call that stands in traces; it is so whatever the outcome is, whatever
frames wait for it, and whatever other threads do meanwhile, also where the run
is called off in the middle of it.  A session is therefore at rest after any
requests, also after those that were not met, in whatever order its threads go
on and whenever it is called off. -/
theorem evaluation_restores_books :
    (∀ (limits : Limits) (t u : Task), t.Proceeds limits t.frames u → u.EndedAt t.frames →
      u.books = t.books) ∧
    (∀ (limits : Limits) (t u : Task) (s : Store) (callee : Value) (args : List Value)
      (site : Position), (t.applying s callee args site).Proceeds limits t.frames u →
      u.EndedAt t.frames → u.books = t.books) ∧
    (∀ (terms : Terms) (source : String → Except Text Text) (s : Session),
      (start terms source).Later s → s.world.main.AtRest) := by
  refine ⟨?_, ?_, ?_⟩
  · intro limits t u hu hended
    exact (hu.comesBackTo (.refl t)).books_eq hended
  · intro limits t u s callee args site hu hended
    exact (hu.comesBackTo ((Task.ComesBackTo.refl t).applying s callee args site)).books_eq hended
  · intro terms source s hs
    exact hs.atRest ⟨rfl, rfl⟩

def negating : Task :=
  ⟨.expr (.unary .nowhere .negate (.name ⟨"x", .nowhere⟩)) [], [.stored], some [3], 7,
    [⟨"f", "main", .nowhere⟩], "main"⟩

/-- A store of a run that was called off. -/
def stopped : Store :=
  { Store.bare with outside := { Outside.bare with calledOff := some "stopped" } }

/-- The first run is called off inside the negation, the second calls what cannot be
called, and the third has no argument for a function. -/
theorem evaluation_restores_books_failing :
    (∃ u f, negating.Proceeds ⟨100, 0⟩ [.stored] u ∧ u.control = .outcome (.failed f) ∧
      f.fault = .cancelled "stopped" ∧ u.books = ⟨some [3], 7, [⟨"f", "main", .nowhere⟩]⟩) ∧
    (∃ u f, (negating.applying .bare .null [] .nowhere).Proceeds ⟨100, 0⟩ [.stored] u ∧
      u.control = .outcome (.failed f) ∧
      u.books = ⟨some [3], 7, [⟨"f", "main", .nowhere⟩]⟩) ∧
    (∃ f s, (start (.bare ⟨100, 0⟩) fun _ => .error "none").serve 5 (.call "len" []) =
        some (.error (.failed f), s) ∧
      s.world.main.AtRest) := by
  obtain ⟨hnode, hcall, hsession⟩ := evaluation_restores_books
  have hgoing : ∀ (top : List Frame) {t : Task}, t.frames = top ++ [.stored] → top ≠ [] →
      ¬ t.EndedAt [.stored] := by
    rintro top t hframes hne ⟨hended, -⟩
    exact hne (List.self_eq_append_left.mp (hended.symm.trans hframes))
  have hbegun : ¬ negating.EndedAt [.stored] := by
    rintro ⟨-, o, hcontrol⟩
    exact nomatch hcontrol
  have hstopped : negating.Proceeds ⟨100, 0⟩ [.stored]
      ((((negating.step ⟨100, 0⟩ .bare).1.step ⟨100, 0⟩ stopped).1.step ⟨100, 0⟩ stopped).1.step
        ⟨100, 0⟩ stopped).1 :=
    (((Task.Proceeds.begins.goesOn .bare hbegun).goesOn stopped
      (hgoing [_, _] rfl nofun)).goesOn stopped
        (hgoing [_, _] rfl nofun)).goesOn stopped (hgoing [_] rfl nofun)
  have hcalling : (negating.applying .bare .null [] .nowhere).Proceeds ⟨100, 0⟩ [.stored]
      (((negating.applying .bare .null [] .nowhere).step ⟨100, 0⟩ .bare).1.step
        ⟨100, 0⟩ .bare).1 :=
    (Task.Proceeds.begins.goesOn .bare (hgoing [_] rfl nofun)).goesOn .bare
      (hgoing [_] rfl nofun)
  have hserved : ∃ f s, (start (.bare ⟨100, 0⟩) fun _ => .error "none").serve 5 (.call "len" []) =
      some (.error (.failed f), s) := ⟨_, _, rfl⟩
  obtain ⟨f, s, hserve⟩ := hserved
  refine ⟨⟨_, _, hstopped, rfl, rfl, ?_⟩, ⟨_, _, hcalling, rfl, ?_⟩, ⟨f, s, hserve, ?_⟩⟩
  · exact hnode ⟨100, 0⟩ negating _ hstopped ⟨rfl, _, rfl⟩
  · exact hcall ⟨100, 0⟩ negating _ .bare .null [] .nowhere hcalling ⟨rfl, _, rfl⟩
  · exact hsession (.bare ⟨100, 0⟩) (fun _ => .error "none") s (.served .now hserve)

end Session

end Scriptlet
