/-
A program evaluated as one node.  Its statements are evaluated in step with those of
a run of the program, one node deeper, and the outcomes are the same.  Only a break
or continue that reaches the top level ends the run while the node passes over it.
-/
import Scriptlet.Proofs.LockStep

namespace Scriptlet

def Footing.statement (rest : List Stmt) : Footing :=
  ⟨[.program rest [], .leaveNode none none], 1, some []⟩

def Footing.outcome : Footing := ⟨[.leaveNode none none], 1, some []⟩

namespace Outcome

def ends : Outcome → Bool
  | .returned _ | .failed _ => true
  | .value _ | .left | .skipped => false

/-- What a program has where it ends with the outcome of a statement. -/
def taken : Outcome → Outcome
  | .returned v => .value v
  | o => o

def isStray : Outcome → Bool
  | .left | .skipped => true
  | .value _ | .returned _ | .failed _ => false

end Outcome

theorem Padded.twice {extra : Event} {es es' : List Event} (h : Padded (· = extra) es es') :
    Padded (· = extra) es (es' ++ [extra, extra]) := by
  have hall := (h.concat rfl).concat (rfl : extra = extra)
  rwa [List.append_assoc] at hall

/-- How the run of a program ends in a world, with the outcome of a statement. -/
structure Ending.By (e : Ending) (o : Outcome) (v : World) : Prop where
  world : e.world = v
  value : ∀ x, o.taken = .value x → e.failure = none ∧ e.results.getLast? = some x
  failed : ∀ a, o = .failed a → e.failure = some a
  stray : o.isStray = true → ∃ a, e.failure = some a ∧ a.kind = .controlFlow

/-- Whether a run of a program ended as the evaluation of it as one node did, but for
names of files: they left the same behind, with the last value, or null where there
is none, or with the same failure. -/
structure Ending.Matches (f : String → String) (e : Ending) (o : Outcome) (v : World) : Prop where
  world : e.world.Agrees f v
  value : e.failure = none → o = .value (e.results.getLast?.getD .null)
  failed : ∀ a, e.failure = some a → ∃ b, o = .failed b ∧ b.Agrees f a

theorem Ending.By.matches {f : String → String} {e : Ending} {o o' : Outcome} {v u d : World}
    (h : e.By o v) (hstray : o.isStray = false)
    (hsame : o'.recast (.ofFile f) = o.taken.recast (.ofFile f)) (hagrees : u.Agrees f d) :
    Ending.Matches f { e with world := u } o' d := by
  cases o with
  | value x | returned x =>
      obtain ⟨hnone, hlast⟩ := h.value x rfl
      have hvalue : o'.recast (.ofFile f) = .value (x.recast (.ofFile f)) := hsame
      rw [Value.recast_ofFile] at hvalue
      refine ⟨hagrees, fun _ => ?_, fun a ha => absurd (hnone.symm.trans ha) nofun⟩
      rw [Outcome.recast_ofFile_value hvalue, hlast, Option.getD_some, id]
  | failed a =>
      have hfailure := h.failed a rfl
      refine ⟨hagrees, fun hnone => absurd (hfailure.symm.trans hnone) nofun, fun b hb => ?_⟩
      obtain rfl := Option.some.inj (hfailure.symm.trans hb)
      exact Outcome.recast_ofFile_failed hsame
  | left | skipped => cases hstray

namespace World

variable {limits : Limits} {terms : Terms} {horizon : Nat} {u v w d d' : World} {p : Program}
  {s : Stmt} {statements rest : List Stmt} {o o' : Outcome} {e : Ending} {es es' : List Event}

theorem resumeFrom_finish {done : List Value}
    (h : v.resumeFrom terms horizon done s rest = some e) :
    ∃ o u, v.finish terms horizon = some (o, u) ∧ u.finish terms horizon = some (o, u) ∧
      u.resumeFrom terms horizon done s rest = some e := by
  cases hfinish : v.finish terms horizon with
  | none =>
      rw [resumeFrom, hfinish] at h
      cases h
  | some ended =>
      obtain ⟨o, u⟩ := ended
      have hended : u.finish terms horizon = some (o, u) := by
        cases horizon with
        | zero => cases hfinish
        | succ horizon => exact finish_result (finish_ended hfinish)
      refine ⟨o, u, rfl, hended, ?_⟩
      rw [resumeFrom, hfinish] at h
      rw [resumeFrom, hended]
      exact h

theorem ended_by {done : List Value} (hended : v.finish terms horizon = some (o, v))
    (hvalue : ∀ x, o = .value x → rest = [])
    (hresume : v.resumeFrom terms horizon done s rest = some e) : e.By o v := by
  have hkind : ∀ (fault : Fault) (q : Position),
      ((Failure.ofFault fault).locate q).kind = fault.kind := by
    intro fault q
    unfold Failure.locate
    split <;> rfl
  have hlast : ∀ x, ((x :: done).reverse).getLast? = some x := by
    intro x
    rw [List.reverse_cons, List.getLast?_concat]
  rw [resumeFrom, hended] at hresume
  cases o with
  | value x =>
      obtain rfl := hvalue x rfl
      obtain rfl := Option.some.inj hresume
      refine ⟨rfl, fun y hy => ⟨rfl, ?_⟩, fun _ => Outcome.noConfusion, fun h => by cases h⟩
      rw [← Outcome.value.inj hy]
      exact hlast x
  | returned x =>
      obtain rfl := Option.some.inj hresume
      refine ⟨rfl, fun y hy => ⟨rfl, ?_⟩, fun _ => Outcome.noConfusion, fun h => by cases h⟩
      rw [← Outcome.value.inj hy]
      exact hlast x
  | failed a =>
      obtain rfl := Option.some.inj hresume
      refine ⟨rfl, fun _ => Outcome.noConfusion, fun b hb => ?_, fun h => by cases h⟩
      rw [Outcome.failed.inj hb]
  | left | skipped =>
      obtain rfl := Option.some.inj hresume
      exact ⟨rfl, fun _ => Outcome.noConfusion, fun _ => Outcome.noConfusion,
        fun _ => ⟨_, rfl, hkind _ _⟩⟩

/-- Whether running statements leads by some events to a world, with the statements then left. -/
inductive RunsAlong (limits : Limits) (w : World) (statements : List Stmt) :
    List Event → World → List Stmt → Prop where
  | first {s : Stmt} {rest : List Stmt} (hfirst : statements = s :: rest) :
      RunsAlong limits w statements [] (w.doing (.stmt s [])) rest
  | goesOn {es : List Event} {v : World} {rest : List Stmt}
      (h : RunsAlong limits w statements es v rest) (hgoing : v.main.result? = none) (e : Event) :
      RunsAlong limits w statements (es ++ [e]) (v.move limits e) rest
  | next {es : List Event} {v : World} {s : Stmt} {rest : List Stmt} {x : Value}
      (h : RunsAlong limits w statements es v (s :: rest))
      (hvalue : v.main.result? = some (.value x)) :
      RunsAlong limits w statements es (v.doing (.stmt s [])) rest

theorem runsAlong_first (limits : Limits) (w : World) {statements rest : List Stmt} {s : Stmt}
    (hfirst : statements = s :: rest) :
    w.RunsAlong limits statements [] (w.doing (.stmt s [])) rest := .first hfirst

/-- Whether a run of a program ends so, with the last of some events. -/
def Ran (limits : Limits) (w : World) (p : Program) (es : List Event) (e : Ending) : Prop :=
  (∃ horizon, w.run (.along limits w.age es) horizon p = some e) ∧ e.world.age = w.age + es.length

namespace RunsAlong

theorem age (h : w.RunsAlong limits statements es v rest) : v.age = w.age + es.length := by
  induction h with
  | first _ => rfl
  | goesOn _ _ e ih =>
      rw [age_move, ih, List.length_append, List.length_singleton, Nat.add_assoc]
  | next _ _ ih => exact ih

theorem along (h : w.RunsAlong limits statements es v rest) (halong : v.Along limits es' u) :
    w.RunsAlong limits statements (es ++ es') u rest := by
  induction halong generalizing es with
  | here => rwa [List.append_nil]
  | @on v w e es' hgoing _ ih =>
      have hall := ih (h.goesOn hgoing e)
      rwa [List.append_assoc, List.singleton_append] at hall

/-- A run that meets the events, and maybe others then, leads through the world. -/
theorem runsThrough (h : w.RunsAlong limits statements es v rest) (more : List Event) :
    ∃ before, w.RunsThrough (.along limits w.age (es ++ more)) statements (v :: before) rest := by
  induction h generalizing more with
  | first hfirst => exact ⟨[], .first hfirst⟩
  | @goesOn es v rest h hgoing e ih =>
      obtain ⟨before, hv⟩ := ih (e :: more)
      have hfed : (Terms.along limits w.age (es ++ e :: more)).feed v = e := by
        simp [Terms.along, Terms.following, h.age]
      have hnext := hv.goesOn hgoing
      rw [step, hfed] at hnext
      refine ⟨v :: before, ?_⟩
      rw [List.append_assoc, List.singleton_append]
      exact hnext
  | next _ hvalue ih =>
      obtain ⟨before, hv⟩ := ih more
      exact ⟨_, hv.next hvalue⟩

/-- Where a statement ends a run, the run has ended. -/
theorem ran (h : (w.opened p).RunsAlong limits p.statements es v rest)
    (hresult : v.main.result? = some o) (hvalue : ∀ x, o = .value x → rest = []) :
    ∃ e, w.Ran limits p es e ∧ e.By o v := by
  have hage : (w.opened p).age = w.age := by rw [opened_eq]; rfl
  obtain ⟨before, hthrough⟩ := h.runsThrough []
  rw [List.append_nil, hage] at hthrough
  obtain ⟨done, s, hearlier⟩ := hthrough.resumeFrom
  have hends : ∃ e, v.resumeFrom (.along limits w.age es) 1 done s rest = some e := by
    rw [World.resumeFrom, finish_result hresult]
    cases o with
    | value x =>
        obtain rfl := hvalue x rfl
        exact ⟨_, rfl⟩
    | returned x | failed a | left | skipped => exact ⟨_, rfl⟩
  obtain ⟨e, hresume⟩ := hends
  have hby := ended_by (finish_result hresult) hvalue hresume
  obtain ⟨later, hrun⟩ := hearlier 1 e hresume
  refine ⟨e, ⟨⟨later, hrun⟩, ?_⟩, hby⟩
  rw [hby.world, h.age, hage]

/-- Where a run ends, a statement has ended it. -/
theorem comes_to_end {ω : Nat → Event} {done : List Value}
    (h : w.RunsAlong limits statements es v rest)
    (hresume : v.resumeFrom (.following limits ω) horizon done s rest = some e) :
    ∃ k u rest' o, w.RunsAlong limits statements (es ++ (List.range' v.age k).map ω) u rest' ∧
      u.main.result? = some o ∧ (∀ x, o = .value x → rest' = []) ∧ e.By o u := by
  induction rest generalizing v es done s with
  | nil =>
      obtain ⟨o, u, hfinish, hended, hresume⟩ := resumeFrom_finish hresume
      obtain ⟨k, -, hu, hresult⟩ := finish_following.mp hfinish
      exact ⟨k, u, [], o, h.along hu, hresult, fun _ _ => rfl,
        ended_by hended (fun _ _ => rfl) hresume⟩
  | cons s' rest ih =>
      obtain ⟨o, u, hfinish, hended, hresume⟩ := resumeFrom_finish hresume
      obtain ⟨k, -, hu, hresult⟩ := finish_following.mp hfinish
      by_cases hvalue : ∃ x, o = .value x
      · obtain ⟨x, rfl⟩ := hvalue
        rw [World.resumeFrom, hended] at hresume
        obtain ⟨k', u', rest', o', hall, hends⟩ := ih ((h.along hu).next hresult) hresume
        have hage : (u.doing (.stmt s' [])).age = v.age + k := by
          change u.age = _
          rw [hu.age, List.length_map, List.length_range']
        rw [hage, List.append_assoc, ← List.map_append, List.range'_append_1] at hall
        exact ⟨k + k', u', rest', o', hall, hends⟩
      · have hnone : ∀ x, o = .value x → s' :: rest = [] := fun x hx => absurd ⟨x, hx⟩ hvalue
        exact ⟨k, u, s' :: rest, o, h.along hu, hresult, hnone, ended_by hended hnone hresume⟩

end RunsAlong

theorem Ran.ended (h : w.Ran limits p es e) (hp : p.statements = s :: rest) :
    ∃ u rest' o, (w.opened p).RunsAlong limits p.statements es u rest' ∧
      u.main.result? = some o ∧ (∀ x, o = .value x → rest' = []) ∧ e.By o u := by
  obtain ⟨⟨horizon, hrun⟩, hage⟩ := h
  have hopened : (w.opened p).age = w.age := by rw [opened_eq]; rfl
  rw [run_eq, hp, runFrom_cons] at hrun
  obtain ⟨k, u, rest', o, hu, hresult, hvalue, hby⟩ :=
    (runsAlong_first limits (w.opened p) hp).comes_to_end hrun
  have hk : k = es.length := by
    have hlength := hu.age
    rw [← hby.world, hage, hopened, List.nil_append, List.length_map, List.length_range'] at hlength
    omega
  have hage' : ((w.opened p).doing (.stmt s [])).age = w.age := hopened
  rw [List.nil_append, hk, hage', fed_along] at hu
  exact ⟨u, rest', o, hu, hresult, hvalue, hby⟩

def asNode (w : World) (p : Program) : World := w.doing (.program p.statements [])

/-- The names of files in a run of a program, as they are where it is evaluated as one
node. -/
def filed (w : World) (p : Program) : String → String := renamed (w.opened p).main.file w.main.file

section

variable {t : Task} {enter : Event} (u : World) (hrest : t.AtRest) (file : String)
  (henter : enter.actor = none) (hon : enter.outside.calledOff = none)

include hrest henter hon

theorem move_program (hroom : ¬ (t.doing (.program statements [])).Exceeds limits u.store) :
    (u.led (t.doing (.program statements []))).move limits enter =
      { u.within enter.outside with
        main := (⟨.program statements [], [.leaveNode none none], some [], 1, [], t.file⟩ :
          Task).beginProgram [] statements
        store := { (u.within enter.outside).store with
          steps := (u.within enter.outside).store.steps + 1 } } := by
  have hroom : ¬ (t.doing (.program statements [])).Exceeds limits (u.within enter.outside).store :=
    hroom
  have hoff : (u.within enter.outside).store.outside.calledOff = none := hon
  refine move_main limits u _ henter ?_
  have hcontrol : (t.doing (.program statements [])).control = .program statements [] := rfl
  rw [Task.step, hcontrol]
  dsimp only
  rw [Task.refusal_of_room hroom, hoff, hrest.entered]
  rfl

/-- Within limits, the evaluation of a program begins in step with a run of it. -/
theorem above_first (hroom : ¬ (t.doing (.program (s :: rest) [])).Exceeds limits u.store) :
    Above (renamed file t.file) (.statement rest)
      (u.led ({ t with file := file }.doing (.stmt s [])))
      ((u.led (t.doing (.program (s :: rest) []))).move limits enter) := by
  have htop : [Frame.program rest []].map (Frame.recast (.ofFile (renamed file t.file)) none) =
      [.program rest []] := by
    rw [List.map_singleton, Frame.recast, stmts_recast_ofFile]
  rw [move_program u hrest henter hon hroom]
  exact above_entered (u.within enter.outside) hrest file none htop (.stmt s [])

theorem above_empty (hroom : ¬ (t.doing (.program [] [])).Exceeds limits u.store) :
    Above (renamed file t.file) .outcome
      (u.led ({ t with file := file }.doing (.outcome (.value .null))))
      ((u.led (t.doing (.program [] []))).move limits enter) := by
  rw [move_program u hrest henter hon hroom]
  exact above_entered (u.within enter.outside) hrest file none List.map_nil
    (.outcome (.value .null))

end

section

variable {f : String → String} {leave : Event}

/-- The node turns to the next statement. -/
theorem Above.turns (h : Above f (.statement (s :: rest)) v d) (limits : Limits)
    (hresult : v.main.result? = some o) (hgoes : o.ends = false) (he : leave.actor = none) :
    Above f (.statement rest) (v.doing (.stmt s [])) (d.move limits leave) := by
  obtain ⟨hcontrol, hframes⟩ := Task.result?_eq_some_iff.mp hresult
  refine h.goesOn he fun store => ?_
  obtain ⟨held, ⟨control, frames, scope, depth, calls, file⟩, threads, age⟩ := v
  obtain rfl : control = .outcome o := hcontrol
  obtain rfl : frames = [] := hframes
  have hsame : s.recast (.ofFile f) = s := s.recast_ofFile f
  cases o with
  | value x | left | skipped =>
      simp only [Task.recast, Task.doing, Control.recast, hsame]
      rfl
  | returned x | failed failure => cases hgoes

/-- The node is to have the outcome that a statement ends it with. -/
theorem Above.closes (h : Above f (.statement rest) v d) (limits : Limits)
    (hresult : v.main.result? = some o) (hends : rest = [] ∨ o.ends = true)
    (he : leave.actor = none) :
    Above f .outcome (v.doing (.outcome o.taken)) (d.move limits leave) := by
  obtain ⟨hcontrol, hframes⟩ := Task.result?_eq_some_iff.mp hresult
  refine h.goesOn he fun store => ?_
  obtain ⟨held, ⟨control, frames, scope, depth, calls, file⟩, threads, age⟩ := v
  obtain rfl : control = .outcome o := hcontrol
  obtain rfl : frames = [] := hframes
  cases o with
  | value x | left | skipped =>
      obtain rfl : rest = [] := by simpa [Outcome.ends] using hends
      rfl
  | returned x | failed failure => cases rest <;> rfl

/-- The node has its outcome by the main thread's next event. -/
theorem Above.ends (h : Above f .outcome v d) (limits : Limits)
    (hresult : v.main.result? = some o) (he : leave.actor = none) :
    ∃ o', d.Ends limits [leave] o' (d.move limits leave) ∧
      o'.recast (.ofFile f) = o.recast (.ofFile f) ∧ v.Agrees f (d.move limits leave) := by
  have hnode : Above f ⟨[.leaveNode none none], 1, some []⟩ v d := h
  obtain ⟨o', ho', hsame, hagrees⟩ := hnode.exits he hresult nofun
  exact ⟨o', ⟨.on (h.going (List.cons_ne_nil _ _)) (.here _), ho'⟩, hsame, hagrees⟩

/-- However the node ends that has its outcome, it has that, and other threads did the same. -/
theorem Above.ended (h : Above f .outcome v d) (hresult : v.main.result? = some o)
    (hroomy : d.Roomy limits es) (hends : d.Ends limits es o' d') :
    o'.recast (.ofFile f) = o.recast (.ofFile f) ∧ (v.meanwhile limits es).Agrees f d' := by
  have hgoing := h.going (List.cons_ne_nil _ _)
  obtain ⟨others, leave, after, rfl, hothers, hleave, hdone⟩ := hends.first_main hgoing
  have hturned := h.meanwhile hgoing hroomy.left hothers
  have hresult' : (v.meanwhile limits others).main.result? = some o := by
    rw [main_meanwhile]
    exact hresult
  obtain ⟨o₁, hfirst, hsame, hagrees⟩ := hturned.ends limits hresult' hleave
  obtain ⟨rfl, rfl⟩ := hdone.along.of_result hfirst.result
  obtain rfl := Option.some.inj (hfirst.result.symm.trans hdone.result)
  rw [meanwhile_append, meanwhile_cons_main limits _ hleave]
  exact ⟨hsame, hagrees⟩

end

/-- How a run of a program and the evaluation of it as one node stand by events of both, of which
some are the node's only: they evaluate a statement in step. -/
structure Abreast (limits : Limits) (extra : Event → Prop) (w : World) (p : Program)
    (es : List Event) (v : World) (rest : List Stmt) (es' : List Event) (d : World) : Prop where
  padded : Padded extra es es'
  run : (w.opened p).RunsAlong limits p.statements es v rest
  node : (w.asNode p).Along limits es' d
  above : Above (w.filed p) (.statement rest) v d
  evaluating : v.main.Evaluating limits

namespace Abreast

variable {extra : Event → Prop} {more others : List Event} {leave : Event}

theorem along (h : Abreast limits extra w p es v rest es' d)
    (hroomy : (w.asNode p).Roomy limits (es' ++ more)) (halong : v.Along limits more u) :
    ∃ d', Abreast limits extra w p (es ++ more) u rest (es' ++ more) d' := by
  obtain ⟨d', hd', habove, heval⟩ :=
    h.above.along (List.cons_ne_nil _ _) rfl h.evaluating (hroomy.later h.node) halong
  exact ⟨d', h.padded.append (.refl more), h.run.along halong, h.node.trans hd', habove, heval⟩

/-- After a statement with a value both turn to the next one. -/
theorem next {x : Value} (h : Abreast limits extra w p es v (s :: rest) es' d)
    (hvalue : v.main.result? = some (.value x)) (hothers : ∀ e ∈ others, e.actor ≠ none)
    (hroomy : (w.asNode p).Roomy limits (es' ++ others)) (hextra : extra leave)
    (hleave : leave.actor = none) :
    Abreast limits extra w p (es ++ others) ((v.meanwhile limits others).doing (.stmt s [])) rest
      (es' ++ others ++ [leave]) ((d.meanwhile limits others).move limits leave) := by
  have hgoing := h.above.going (List.cons_ne_nil _ _)
  have hturned := h.above.meanwhile hgoing (hroomy.later h.node) hothers
  have hvalue' : (v.meanwhile limits others).main.result? = some (.value x) := by
    rw [main_meanwhile]
    exact hvalue
  have hrun : (v.doing (.stmt s [])).Along limits others
      ((v.meanwhile limits others).doing (.stmt s [])) := by
    have hsame : (v.meanwhile limits others).doing (.stmt s []) =
        (v.meanwhile limits others).led (v.main.doing (.stmt s [])) := by
      rw [← main_meanwhile limits v others]
      rfl
    rw [hsame]
    exact along_doing limits hothers v _ (.stmt s []) nofun
  have hnode : (w.asNode p).Along limits (es' ++ others) (d.meanwhile limits others) :=
    h.node.trans (along_others limits hothers hgoing)
  have hgoing' : (d.meanwhile limits others).main.result? = none := by
    rw [main_meanwhile]
    exact hgoing
  refine ⟨(h.padded.append (.refl others)).concat hextra, (h.run.next hvalue).along hrun,
    hnode.concat hgoing' leave, hturned.turns limits hvalue' rfl hleave, ?_⟩
  have hrest : (v.meanwhile limits others).main.AtRest := by
    rw [main_meanwhile]
    exact h.evaluating.atRest hvalue
  exact hrest.evaluating rfl

end Abreast

theorem doing_opened (w : World) (p : Program) (c : Control) :
    (w.opened p).doing c = w.led ((w.opened p).main.doing c) := by
  rw [opened_eq]
  rfl

/-- A program begins abreast where the node was not called off. -/
theorem abreast_first (extra : Event → Prop) {others : List Event} {enter : Event}
    (hw : w.Reached) (hfirst : p.statements = s :: rest) (hothers : ∀ e ∈ others, e.actor ≠ none)
    (henter : enter.actor = none) (hon : enter.outside.calledOff = none) (hextra : extra enter)
    (hroomy : (w.asNode p).Roomy limits (others ++ [enter])) :
    ∃ d, Abreast limits extra w p others
      ((w.meanwhile limits others).led ((w.opened p).main.doing (.stmt s []))) rest
      (others ++ [enter]) d := by
  have hrest : (w.opened p).main.AtRest := by
    rw [opened_eq]
    exact hw.atRest
  have hnode := along_doing limits hothers w w.main (.program p.statements []) nofun
  have hrun := along_doing limits hothers w (w.opened p).main (.stmt s []) nofun
  have hroom : ¬ (w.main.doing (.program (s :: rest) [])).Exceeds limits
      (w.meanwhile limits others).store := by
    rw [← hfirst]
    exact (hroomy.later hnode).here _ List.mem_cons_self
  have habove := above_first (w.meanwhile limits others) hw.atRest (w.opened p).main.file henter hon
    hroom
  rw [← hfirst] at habove
  have hopened : (w.opened p).main = { w.main with file := (w.opened p).main.file } :=
    congrArg World.main (opened_eq w p)
  rw [← hopened] at habove
  rw [← doing_opened] at hrun
  have hcomes := (runsAlong_first limits (w.opened p) hfirst).along hrun
  exact ⟨_, (Padded.refl others).concat hextra, hcomes, hnode.concat rfl enter, habove,
    hrest.evaluating rfl⟩

/-- What a run comes to by some events, so does the node by these and one more for itself
where it begins and after each statement. -/
theorem RunsAlong.abreast {extra : Event} (hw : w.Reached) (hextra : extra.actor = none)
    (hon : extra.outside.calledOff = none)
    (h : (w.opened p).RunsAlong limits p.statements es v rest) :
    ∃ es', Padded (· = extra) es es' ∧ ((w.asNode p).Roomy limits es' →
      ∃ d, Abreast limits (· = extra) w p es v rest es' d) := by
  induction h with
  | first hfirst =>
      refine ⟨[extra], (Padded.refl []).concat rfl, fun hroomy => ?_⟩
      rw [doing_opened]
      have hnone : ∀ e ∈ ([] : List Event), e.actor ≠ none := List.forall_mem_nil _
      exact abreast_first (· = extra) hw hfirst hnone hextra hon rfl hroomy
  | goesOn h hgoing e ih =>
      obtain ⟨es', hpadded, hto⟩ := ih
      refine ⟨es' ++ [e], hpadded.append (.refl [e]), fun hroomy => ?_⟩
      obtain ⟨d, hd⟩ := hto hroomy.left
      exact hd.along hroomy (.on hgoing (.here _))
  | next h hvalue ih =>
      obtain ⟨es', hpadded, hto⟩ := ih
      refine ⟨es' ++ [extra], hpadded.concat rfl, fun hroomy => ?_⟩
      obtain ⟨d, hd⟩ := hto hroomy.left
      have hnone : ∀ e ∈ ([] : List Event), e.actor ≠ none := List.forall_mem_nil _
      have hnext := hd.next hvalue hnone (by rw [List.append_nil]; exact hroomy.left) rfl hextra
      rw [List.append_nil, List.append_nil] at hnext
      exact ⟨_, hnext⟩

/-- Where a statement ends the program, two more events of the node end that. -/
theorem Abreast.finishes {extra : Event} (h : Abreast limits (· = extra) w p es v rest es' d)
    (hresult : v.main.result? = some o) (hends : rest = [] ∨ o.ends = true)
    (hextra : extra.actor = none) :
    ∃ o' d', (w.asNode p).Ends limits (es' ++ [extra, extra]) o' d' ∧
      o'.recast (.ofFile (w.filed p)) = o.taken.recast (.ofFile (w.filed p)) ∧
      v.Agrees (w.filed p) d' := by
  have hcloses := h.above.closes limits hresult hends hextra
  have htaken : (v.doing (.outcome o.taken)).main.result? = some o.taken :=
    Task.result?_eq_some_iff.mpr ⟨rfl, (Task.result?_eq_some_iff.mp hresult).2⟩
  obtain ⟨o', hleaves, hsame, hagrees⟩ := hcloses.ends limits htaken hextra
  have hnode := h.node.concat (h.above.going (List.cons_ne_nil _ _)) extra
  have hall := hleaves.after hnode
  rw [List.append_assoc] at hall
  exact ⟨o', _, hall, hsame, hagrees.store, hagrees.threads⟩

/-- What ends a statement ends the program where no statement is left, or else by itself. -/
theorem ends_of_not_stray {o : Outcome} (hvalue : ∀ x, o = .value x → rest = [])
    (hstray : o.isStray = false) : rest = [] ∨ o.ends = true := by
  cases o with
  | value x => exact .inl (hvalue x rfl)
  | returned x | failed a => exact .inr rfl
  | left | skipped => cases hstray

/-- Whether no break or continue reaches the top level with the last of some events. -/
def Stays (limits : Limits) (w : World) (p : Program) (es : List Event) : Prop :=
  ∀ v rest o, (w.opened p).RunsAlong limits p.statements es v rest →
    v.main.result? = some o → o.isStray = false

/-- Whether a run of a program ends in step with the evaluation of it as one node, by events of
which some are the node's only; at the end other threads may go on while the node is left. -/
def Meets (limits : Limits) (w : World) (p : Program) (es' : List Event) (o : Outcome) (d : World) :
    Prop :=
  ∃ es before after e, es' = before ++ after ∧ Padded (fun e => e.actor = none) es before ∧
    w.Ran limits p es e ∧ (w.Stays limits p es →
      Ending.Matches (w.filed p) { e with world := e.world.meanwhile limits after } o d)

section

variable {more : List Event}

/-- Where a statement ends the run, the node is left, unless that was a break or continue. -/
theorem Abreast.stops (h : Abreast limits (fun e => e.actor = none) w p es v rest es' d)
    (hresult : v.main.result? = some o') (hvalue : ∀ x, o' = .value x → rest = [])
    (hroomy : (w.asNode p).Roomy limits (es' ++ more)) (hends : d.Ends limits more o d') :
    w.Meets limits p (es' ++ more) o d' := by
  obtain ⟨e, hran, hby⟩ := h.run.ran hresult hvalue
  refine ⟨es, es', more, e, rfl, h.padded, hran, fun hstays => ?_⟩
  have hstray := hstays v rest o' h.run hresult
  have hstop := ends_of_not_stray hvalue hstray
  have hgoing := h.above.going (List.cons_ne_nil _ _)
  obtain ⟨others, leave, after, rfl, hothers, hleave, hdone⟩ := hends.first_main hgoing
  have hturned := h.above.meanwhile hgoing (hroomy.later h.node).left hothers
  have hresult' : (v.meanwhile limits others).main.result? = some o' := by
    rw [main_meanwhile]
    exact hresult
  have hcloses := hturned.closes limits hresult' hstop hleave
  have htaken : ((v.meanwhile limits others).doing (.outcome o'.taken)).main.result? =
      some o'.taken :=
    Task.result?_eq_some_iff.mpr ⟨rfl, (Task.result?_eq_some_iff.mp hresult').2⟩
  have hgoing' : (d.meanwhile limits others).main.result? = none := by
    rw [main_meanwhile]
    exact hgoing
  have hnode := (along_others limits hothers hgoing).concat hgoing' leave
  have hlater : ((d.meanwhile limits others).move limits leave).Roomy limits after := by
    have hafter := hroomy.later h.node
    rw [← List.singleton_append, ← List.append_assoc] at hafter
    exact hafter.later hnode
  obtain ⟨hsame, hagrees⟩ := hcloses.ended htaken hlater hdone
  have hworld : (v.meanwhile limits (others ++ leave :: after)).Agrees (w.filed p) d' := by
    rw [meanwhile_append, meanwhile_cons_main limits _ hleave]
    exact (agrees_meanwhile_led limits (v.meanwhile limits others) _ after).mp hagrees
  rw [hby.world]
  exact hby.matches hstray hsame hworld

theorem Abreast.meets (h : Abreast limits (fun e => e.actor = none) w p es v rest es' d)
    (hroomy : (w.asNode p).Roomy limits (es' ++ more)) (hends : d.Ends limits more o d') :
    w.Meets limits p (es' ++ more) o d' := by
  induction rest generalizing es v es' d more with
  | nil =>
      obtain ⟨first, later, u, o₁, d₁, rfl, hu, hd₁, habove, heval, hafter⟩ :=
        h.above.comes_to_result (List.cons_ne_nil _ _) rfl h.evaluating (hroomy.later h.node) hends
      rw [← List.append_assoc] at hroomy ⊢
      have habreast : Abreast limits (fun e => e.actor = none) w p (es ++ first) u [] (es' ++ first)
          d₁ :=
        ⟨h.padded.append (.refl first), h.run.along hu.along, h.node.trans hd₁, habove, heval⟩
      exact habreast.stops hu.result (fun _ _ => rfl) hroomy hafter
  | cons s rest ih =>
      obtain ⟨first, later, u, o₁, d₁, rfl, hu, hd₁, habove, heval, hafter⟩ :=
        h.above.comes_to_result (List.cons_ne_nil _ _) rfl h.evaluating (hroomy.later h.node) hends
      rw [← List.append_assoc] at hroomy ⊢
      have habreast : Abreast limits (fun e => e.actor = none) w p (es ++ first) u (s :: rest)
          (es' ++ first) d₁ :=
        ⟨h.padded.append (.refl first), h.run.along hu.along, h.node.trans hd₁, habove, heval⟩
      by_cases hvalue : ∃ x, o₁ = .value x
      · obtain ⟨x, rfl⟩ := hvalue
        have hgoing := habove.going (List.cons_ne_nil _ _)
        obtain ⟨others, turn, after, rfl, hothers, hturn, hdone⟩ := hafter.first_main hgoing
        have hsplit : es' ++ first ++ (others ++ turn :: after) =
            es' ++ first ++ others ++ [turn] ++ after := by simp
        rw [hsplit] at hroomy ⊢
        exact ih (habreast.next hu.result hothers hroomy.left.left hturn hturn) hroomy hdone
      · exact habreast.stops hu.result (fun x hx => absurd ⟨x, hx⟩ hvalue) hroomy hafter

/-- Called off when it is about to begin, a program fails for that in both. -/
theorem meets_refused {others : List Event} {enter : Event} (hw : w.Reached)
    (hfirst : p.statements = s :: rest) (hothers : ∀ e ∈ others, e.actor ≠ none)
    (henter : enter.actor = none) {reason : Text} (hoff : enter.outside.calledOff = some reason)
    (hroomy : (w.asNode p).Roomy limits (others ++ enter :: more))
    (hends : (w.asNode p).Ends limits (others ++ enter :: more) o d) :
    w.Meets limits p (others ++ enter :: more) o d := by
  have hnode := along_doing limits hothers w w.main (.program p.statements []) nofun
  have hrun := along_doing limits hothers w (w.opened p).main (.stmt s []) nofun
  have hroom : ¬ (w.main.doing (.program p.statements [])).Exceeds limits
      (w.meanwhile limits others).store := (hroomy.later hnode).here _ List.mem_cons_self
  have hroom' : ¬ ((w.opened p).main.doing (.stmt s [])).Exceeds limits
      (w.meanwhile limits others).store := by
    rw [opened_eq]
    exact hroom
  have hrest : (w.opened p).main.AtRest := by
    rw [opened_eq]
    exact hw.atRest
  have hentered := hnode.concat rfl enter
  rw [move_refused (w.meanwhile limits others) rfl henter hoff hroom] at hentered
  rw [← List.singleton_append, ← List.append_assoc] at hends ⊢
  obtain ⟨halong, hresult⟩ := hends.later hentered
  have hrefused := result?_refused (w.meanwhile limits others) hw.atRest enter.outside reason
  obtain ⟨rfl, rfl⟩ := halong.of_result hrefused
  obtain rfl := Option.some.inj (hresult.symm.trans hrefused)
  have hstopped := hrun.concat rfl enter
  rw [move_refused (w.meanwhile limits others) rfl henter hoff hroom', ← doing_opened] at hstopped
  have hthere := (runsAlong_first limits (w.opened p) hfirst).along hstopped
  have hresult' := result?_refused (w.meanwhile limits others) hrest enter.outside reason
  obtain ⟨e, hran, hby⟩ := hthere.ran hresult' fun _ => Outcome.noConfusion
  refine ⟨_, _, [], e, rfl, .refl _, hran, fun _ => ?_⟩
  rw [hby.world]
  exact hby.matches rfl rfl ⟨⟨rfl, rfl⟩, rfl⟩

end

/-- A program with no statements does nothing in both, unless the node was called off. -/
theorem empty_matches (hw : w.Reached) (hempty : p.statements = [])
    (hroomy : (w.asNode p).Roomy limits es)
    (hon : ∀ e ∈ es, e.actor = none → e.outside.calledOff = none)
    (hends : (w.asNode p).Ends limits es o d) :
    Ending.Matches (w.filed p) ⟨[], none, (w.opened p).meanwhile limits es⟩ o d := by
  obtain ⟨others, enter, after, rfl, hothers, henter, hdone⟩ := hends.first_main rfl
  have hnode := along_doing limits hothers w w.main (.program p.statements []) nofun
  have hroom : ¬ (w.main.doing (.program [] [])).Exceeds limits
      (w.meanwhile limits others).store := by
    rw [← hempty]
    exact (hroomy.later hnode).here _ List.mem_cons_self
  have habove := above_empty (w.meanwhile limits others) hw.atRest (w.opened p).main.file henter
    (hon enter (by simp) henter) hroom
  rw [← hempty] at habove
  have hled : (w.asNode p).meanwhile limits others =
      (w.meanwhile limits others).led (w.main.doing (.program p.statements [])) :=
    meanwhile_led limits w _ others
  rw [hled] at hdone
  have hlater : (((w.meanwhile limits others).led (w.main.doing (.program p.statements []))).move
      limits enter).Roomy limits after := by
    rw [← List.singleton_append, ← List.append_assoc] at hroomy
    exact hroomy.later (hnode.concat rfl enter)
  have hresult : ((w.meanwhile limits others).led ({ w.main with file := (w.opened p).main.file
      }.doing (.outcome (.value .null)))).main.result? = some (.value .null) :=
    Task.result?_eq_some_iff.mpr ⟨rfl, hw.atRest.1⟩
  obtain ⟨hsame, hagrees⟩ := habove.ended hresult hlater hdone
  refine ⟨?_, fun _ => Outcome.recast_ofFile_value hsame, nofun⟩
  rw [meanwhile_append, meanwhile_cons_main limits _ henter, opened_eq]
  have hworld := (agrees_meanwhile_led limits (w.meanwhile limits others) _ after).mp hagrees
  rw [← meanwhile_append] at hworld ⊢
  exact (agrees_meanwhile_led limits w _ (others ++ after)).mpr hworld

theorem age_opened (w : World) (p : Program) : (w.opened p).age = w.age := by
  rw [opened_eq]
  rfl

/-- A program with no statements runs by no event. -/
theorem Ran.empty (h : w.Ran limits p es e) (hempty : p.statements = []) :
    es = [] ∧ e = ⟨[], none, w.opened p⟩ := by
  obtain ⟨⟨horizon, hrun⟩, hage⟩ := h
  rw [run_eq, hempty] at hrun
  obtain rfl := Option.some.inj hrun
  have hlength : es.length = 0 := by
    change (w.opened p).age = _ at hage
    rw [age_opened] at hage
    omega
  exact ⟨List.length_eq_zero_iff.mp hlength, rfl⟩

/-- As one node a program with no statements is null, by one event to begin and one to leave. -/
theorem empty_ends {extra : Event} (hw : w.Reached) (hempty : p.statements = [])
    (hextra : extra.actor = none) (hon : extra.outside.calledOff = none)
    (hroomy : (w.asNode p).Roomy limits [extra, extra]) :
    ∃ o d, (w.asNode p).Ends limits [extra, extra] o d ∧
      Ending.Matches (w.filed p) ⟨[], none, w.opened p⟩ o d := by
  have hroom : ¬ (w.main.doing (.program [] [])).Exceeds limits w.store := by
    rw [← hempty]
    exact hroomy.here _ List.mem_cons_self
  have habove := above_empty w hw.atRest (w.opened p).main.file hextra hon hroom
  have hresult : (w.led ({ w.main with file := (w.opened p).main.file }.doing
      (.outcome (.value .null)))).main.result? = some (.value .null) :=
    Task.result?_eq_some_iff.mpr ⟨rfl, hw.atRest.1⟩
  obtain ⟨o, hends, hsame, hagrees⟩ := habove.ends limits hresult hextra
  rw [← hempty] at hends hagrees
  have hbegun : (w.asNode p).Along limits [extra] ((w.asNode p).move limits extra) :=
    .on rfl (.here _)
  refine ⟨o, _, hends.after hbegun, ?_, fun _ => Outcome.recast_ofFile_value hsame, nofun⟩
  rw [opened_eq]
  exact ⟨hagrees.store, hagrees.threads⟩

/-- Where a run ends the node does, by the same events and some of its own. -/
theorem Ran.node_ends {extra : Event} (h : w.Ran limits p es e) (hw : w.Reached)
    (hstays : w.Stays limits p es) (hextra : extra.actor = none)
    (hon : extra.outside.calledOff = none) :
    ∃ es', Padded (· = extra) es es' ∧ ((w.asNode p).Roomy limits es' →
      ∃ o v, (w.asNode p).Ends limits es' o v ∧ e.Matches (w.filed p) o v) := by
  cases hp : p.statements with
  | nil =>
      obtain ⟨rfl, rfl⟩ := h.empty hp
      exact ⟨[extra, extra], (Padded.refl []).twice, empty_ends hw hp hextra hon⟩
  | cons s rest =>
      obtain ⟨u, rest', o, hu, hresult, hvalue, hby⟩ := h.ended hp
      have hstray := hstays u rest' o hu hresult
      obtain ⟨es', hpadded, hto⟩ := hu.abreast hw hextra hon
      refine ⟨es' ++ [extra, extra], hpadded.twice, fun hroomy => ?_⟩
      obtain ⟨d, hd⟩ := hto hroomy.left
      have hstop := ends_of_not_stray hvalue hstray
      obtain ⟨o', d', hends, hsame, hagrees⟩ := hd.finishes hresult hstop hextra
      obtain rfl := hby.world
      exact ⟨o', d', hends, hby.matches hstray hsame hagrees⟩

/-- Where the node ends a run does, by the events that are not the node's only. -/
theorem Ends.run_ends (h : (w.asNode p).Ends limits es' o v) (hw : w.Reached)
    (hroomy : (w.asNode p).Roomy limits es') :
    ∃ es before after e, es' = before ++ after ∧ Padded (fun e => e.actor = none) es before ∧
      w.Ran limits p es e ∧ (w.Stays limits p es →
        (p.statements = [] → ∀ e ∈ es', e.actor = none → e.outside.calledOff = none) →
        Ending.Matches (w.filed p) { e with world := e.world.meanwhile limits after } o v) := by
  cases hp : p.statements with
  | nil =>
      refine ⟨[], [], es', ⟨[], none, w.opened p⟩, rfl, .nil, ⟨⟨0, ?_⟩, age_opened w p⟩,
        fun _ hon => ?_⟩
      · rw [run_eq, hp]
        rfl
      · exact empty_matches hw hp hroomy (hon rfl) h
  | cons s rest =>
      -- what happens before the main thread enters the node is the same for both
      obtain ⟨others, enter, more, rfl, hothers, henter, hdone⟩ := h.first_main rfl
      have hmeets : w.Meets limits p (others ++ enter :: more) o v := by
        cases hoff : enter.outside.calledOff with
        | some reason => exact meets_refused hw hp hothers henter hoff hroomy h
        | none =>
            rw [← List.singleton_append, ← List.append_assoc] at hroomy h ⊢
            obtain ⟨d, hd⟩ := abreast_first (fun e => e.actor = none) hw hp hothers henter hoff
              henter hroomy.left
            exact hd.meets hroomy (h.later hd.node)
      obtain ⟨es, before, after, e, hsplit, hpadded, hran, hmatches⟩ := hmeets
      exact ⟨es, before, after, e, hsplit, hpadded, hran, fun hstays _ => hmatches hstays⟩

/-- A break or continue of the last statement is what the node ends with. -/
theorem RunsAlong.stray_last {extra : Event}
    (h : (w.opened p).RunsAlong limits p.statements es v []) (hw : w.Reached)
    (hresult : v.main.result? = some o) (hstray : o.isStray = true) (hextra : extra.actor = none)
    (hon : extra.outside.calledOff = none) :
    ∃ es', Padded (· = extra) es es' ∧ ((w.asNode p).Roomy limits es' →
      ∃ d, (w.asNode p).Ends limits es' o d ∧ v.Agrees (w.filed p) d) := by
  obtain ⟨es', hpadded, hto⟩ := h.abreast hw hextra hon
  refine ⟨es' ++ [extra, extra], hpadded.twice, fun hroomy => ?_⟩
  obtain ⟨d, hd⟩ := hto hroomy.left
  obtain ⟨o', d', hends, hsame, hagrees⟩ := hd.finishes hresult (.inl rfl) hextra
  have hsignal : o' = o := by
    cases o with
    | left | skipped => cases o' <;> first | rfl | cases hsame
    | value x | returned x | failed a => cases hstray
  exact ⟨d', hsignal ▸ hends, hagrees⟩

/-- From a break or continue of another statement the node goes on to the next one. -/
theorem RunsAlong.stray_next {extra : Event} {next : Stmt} {further : List Stmt}
    (h : (w.opened p).RunsAlong limits p.statements es v (next :: further)) (hw : w.Reached)
    (hresult : v.main.result? = some o) (hstray : o.isStray = true) (hextra : extra.actor = none)
    (hon : extra.outside.calledOff = none) :
    ∃ es', Padded (· = extra) es es' ∧ ((w.asNode p).Roomy limits es' →
      ∃ d, (w.asNode p).Along limits es' d ∧ d.main.control = .stmt next [] ∧
        v.Agrees (w.filed p) d) := by
  obtain ⟨es', hpadded, hto⟩ := h.abreast hw hextra hon
  refine ⟨es' ++ [extra], hpadded.concat rfl, fun hroomy => ?_⟩
  obtain ⟨d, hd⟩ := hto hroomy.left
  have hgoes : o.ends = false := by
    cases o with
    | value x | left | skipped => rfl
    | returned x | failed a => cases hstray
  have hturns := hd.above.turns limits hresult hgoes hextra
  have hcontrol : (d.move limits extra).main.control.recast (.ofFile (w.filed p)) =
      .stmt next [] := by
    rw [← next.recast_ofFile (w.filed p)]
    exact congrArg (fun d => d.main.control) hturns
  have hgoing := hd.above.going (List.cons_ne_nil _ _)
  exact ⟨_, hd.node.concat hgoing extra, Control.recast_ofFile_stmt hcontrol,
    hturns.agrees.store, hturns.agrees.threads⟩

/-- A run of a program and the evaluation of it as one node agree, whatever was evaluated before
and whatever happens meanwhile, as long as the latter exceeds no limit.  What is one more event for
the node is where it begins, after each statement, and where it is left.  Both end or neither does,
and they end alike, unless a break or continue reaches the top level: that ends the run with a
failure, but the node goes on with the next statement, and at the end it has that for its outcome,
which is no failure.  A program with no statements must not have been called off. -/
theorem run_and_node_agree (p : Program) (hw : w.Reached) :
    (∀ extra : Event, extra.actor = none → extra.outside.calledOff = none →
      ∀ es e, w.Ran limits p es e → w.Stays limits p es →
        ∃ es', Padded (· = extra) es es' ∧ ((w.asNode p).Roomy limits es' →
          ∃ o v, (w.asNode p).Ends limits es' o v ∧ e.Matches (w.filed p) o v)) ∧
    (∀ es' o v, (w.asNode p).Ends limits es' o v → (w.asNode p).Roomy limits es' →
      ∃ es before after e, es' = before ++ after ∧ Padded (fun e => e.actor = none) es before ∧
        w.Ran limits p es e ∧ (w.Stays limits p es →
          (p.statements = [] → ∀ e ∈ es', e.actor = none → e.outside.calledOff = none) →
          Ending.Matches (w.filed p) { e with world := e.world.meanwhile limits after } o v)) ∧
    ∀ es v rest o, (w.opened p).RunsAlong limits p.statements es v rest →
      v.main.result? = some o → o.isStray = true →
      (∃ e a, w.Ran limits p es e ∧ e.world = v ∧ e.failure = some a ∧ a.kind = .controlFlow) ∧
      ∀ extra : Event, extra.actor = none → extra.outside.calledOff = none →
        ∃ es', Padded (· = extra) es es' ∧ ((w.asNode p).Roomy limits es' →
          (rest = [] → ∃ d, (w.asNode p).Ends limits es' o d ∧ v.Agrees (w.filed p) d) ∧
          ∀ s rest', rest = s :: rest' → ∃ d, (w.asNode p).Along limits es' d ∧
            d.main.control = .stmt s [] ∧ v.Agrees (w.filed p) d) := by
  refine ⟨fun extra hextra hon es e hran hstays => hran.node_ends hw hstays hextra hon,
    fun es' o v hends hroomy => hends.run_ends hw hroomy, ?_⟩
  intro es v rest o hv hresult hstray
  have hnone : ∀ x, o = .value x → rest = [] := by
    rintro x rfl
    cases hstray
  obtain ⟨e, hran, hby⟩ := hv.ran hresult hnone
  obtain ⟨a, hfailure, hkind⟩ := hby.stray hstray
  refine ⟨⟨e, a, hran, hby.world, hfailure, hkind⟩, fun extra hextra hon => ?_⟩
  cases rest with
  | nil =>
      obtain ⟨es', hpadded, hlast⟩ := hv.stray_last hw hresult hstray hextra hon
      exact ⟨es', hpadded, fun hroomy => ⟨fun _ => hlast hroomy, nofun⟩⟩
  | cons s rest =>
      obtain ⟨es', hpadded, hnext⟩ := hv.stray_next hw hresult hstray hextra hon
      refine ⟨es', hpadded, fun hroomy => ⟨nofun, fun s' rest' hrest => ?_⟩⟩
      obtain ⟨rfl, rfl⟩ := List.cons.inj hrest
      exact hnext hroomy

/-- A statement with a value. -/
def seven : Stmt := .expr .nowhere "7" (.int .nowhere "7" 7)

/-- A run of one statement goes by the events of that. -/
theorem RunsAlong.single (h : w.RunsAlong limits [s] es v rest) :
    rest = [] ∧ (w.doing (.stmt s [])).Along limits es v := by
  generalize hs : [s] = statements at h
  induction h with
  | first hfirst =>
      obtain ⟨rfl, rfl⟩ := List.cons.inj (hs.trans hfirst)
      exact ⟨rfl, .here _⟩
  | goesOn _ hgoing e ih =>
      exact ⟨ih.1, ih.2.concat hgoing e⟩
  | next _ _ ih => exact nomatch ih.1

/-- Where one event again and again ends a run, there is as much room by more of it. -/
theorem Roomy.again {k : Nat} {a : Event} (h : w.Roomy limits (List.replicate k a))
    (hends : w.Ends limits (List.replicate k a) o v) (m : Nat) :
    w.Roomy limits (List.replicate m a) := by
  rcases Nat.le_total m k with hle | hle
  · have hwhole : w.Roomy limits (List.replicate m a ++ List.replicate (k - m) a) := by
      rw [List.replicate_append_replicate, Nat.add_sub_cancel' hle]
      exact h
    exact hwhole.left
  · have hbeyond := h.beyond hends (List.replicate (m - k) a)
    rw [List.replicate_append_replicate, Nat.add_sub_cancel' hle] at hbeyond
    exact hbeyond

theorem Padded.eq_replicate {a : Event} {k : Nat}
    (h : Padded (· = a) (List.replicate k a) es) : es = List.replicate es.length a :=
  List.eq_replicate_iff.mpr ⟨rfl, h.all (fun _ => List.eq_of_mem_replicate) fun _ => id⟩

theorem run_and_node_agree_leaving :
    let w := ofStore .initial "main"
    let limits : Limits := ⟨100, 0⟩
    let a : Event := ⟨none, .bare⟩
    let plain : Program := ⟨"", [seven]⟩
    let stray : Program := ⟨"", [.leave .start, seven]⟩
    (∃ es e es' o v, w.Ran limits plain es e ∧ Padded (· = a) es es' ∧
      (w.asNode plain).Ends limits es' o v ∧ e.Matches (w.filed plain) o v) ∧
    (∃ es before e, Padded (fun e => e.actor = none) es before ∧ w.Ran limits stray es e) ∧
    (∃ es e b, w.Ran limits stray es e ∧ e.failure = some b ∧ b.kind = .controlFlow) ∧
    ∃ es' d, (w.asNode stray).Along limits es' d ∧ d.main.control = .stmt seven [] := by
  intro w limits a plain stray
  have hfresh : w.Reached := .fresh "main"
  have hends : ∀ (t : World) (k : Nat) (P : Outcome → Bool),
      (t.finish (.along limits t.age (List.replicate k a)) 100).any
        (fun r => P r.1 && r.2.age == t.age + k) = true →
      ∃ o v, t.Ends limits (List.replicate k a) o v ∧ P o = true := by
    intro t k P h
    obtain ⟨⟨o, v⟩, hfinish, hends⟩ := (Option.any_eq_true _ _).mp h
    obtain ⟨ho, hage⟩ := Bool.and_eq_true_iff.mp hends
    refine ⟨o, v, finish_along.mp ⟨⟨100, hfinish⟩, ?_⟩, ho⟩
    rw [List.length_replicate]
    exact eq_of_beq hage
  obtain ⟨o, v, hv, ho⟩ :=
    hends (w.doing (.stmt seven [])) 4 (fun o => !o.isStray) (by decide +kernel)
  obtain ⟨o₁, v₁, hplain, -⟩ := hends (w.asNode plain) 7 (fun _ => true) (by decide +kernel)
  obtain ⟨o₂, v₂, hleave, hleft⟩ :=
    hends (w.doing (.stmt (.leave .start) [])) 2 Outcome.isStray (by decide +kernel)
  obtain ⟨o₃, v₃, hstray, -⟩ := hends (w.asNode stray) 10 (fun _ => true) (by decide +kernel)
  have hroomy : (w.asNode plain).Roomy limits (List.replicate 7 a) := by decide +kernel
  have hroomy' : (w.asNode stray).Roomy limits (List.replicate 10 a) := by decide +kernel
  obtain ⟨hmatches, -, -⟩ := @run_and_node_agree limits w plain hfresh
  obtain ⟨-, hboth, hsignal⟩ := @run_and_node_agree limits w stray hfresh
  have hrun : (w.opened plain).RunsAlong limits plain.statements (List.replicate 4 a) v [] :=
    (RunsAlong.first rfl).along hv.along
  obtain ⟨e, hran, -⟩ := hrun.ran (p := plain) hv.result fun _ _ => rfl
  have hstays : w.Stays limits plain (List.replicate 4 a) := by
    intro u rest o' hu hresult
    obtain rfl := hv.along.unique hu.single.2
    obtain rfl := Option.some.inj (hresult.symm.trans hv.result)
    exact Bool.not_eq_true' _ ▸ ho
  obtain ⟨es', hpadded, hto⟩ := hmatches a rfl rfl _ e hran hstays
  obtain ⟨o', v', hended, hsame⟩ := hto (by
    rw [Padded.eq_replicate hpadded]
    exact hroomy.again hplain _)
  obtain ⟨es₁, before, -, e₁, -, hpadded₁, hran₁, -⟩ := hboth _ _ _ hstray hroomy'
  have hthere :
      (w.opened stray).RunsAlong limits stray.statements (List.replicate 2 a) v₂ [seven] :=
    (RunsAlong.first rfl).along hleave.along
  obtain ⟨⟨e₂, b, hran₂, -, hfailure, hkind⟩, hgoes⟩ := hsignal _ _ _ _ hthere hleave.result hleft
  obtain ⟨es₂, hpadded₂, hto₂⟩ := hgoes a rfl rfl
  obtain ⟨-, hnext⟩ := hto₂ (by
    rw [Padded.eq_replicate hpadded₂]
    exact hroomy'.again hstray _)
  obtain ⟨d, hd, hcontrol, -⟩ := hnext seven [] rfl
  exact ⟨⟨_, e, es', o', v', hran, hpadded, hended, hsame⟩, ⟨es₁, before, e₁, hpadded₁, hran₁⟩,
    ⟨_, e₂, b, hran₂, hfailure, hkind⟩, es₂, d, hd, hcontrol⟩

end World

end Scriptlet
