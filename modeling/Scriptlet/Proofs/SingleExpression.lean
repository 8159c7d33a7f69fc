/-
A source text that is a single expression.  Evaluated as such it goes in step with a
run of it as a program, which evaluates it one node deeper, inside a statement, where
both meet the same events; and all other texts are turned down before anything is
evaluated.
-/
import Scriptlet.Proofs.Characters
import Scriptlet.Proofs.LockStep
import Scriptlet.Proofs.SignalSteps
import Scriptlet.Proofs.Sited

namespace Scriptlet

def Footing.expression (q : Position) : Footing := ⟨[.leaveNode (some q) none], 1, some []⟩

/-- How the events of evaluating an expression and those of running it as a statement go
together: they are the same, but in the latter the main thread also enters the statement, before
the expression, and leaves it right after that.  Whoever calls off the one calls off the other:
when it is about to begin, which ends both, or once the expression was entered.  Between entering
the statement and the expression only the former could give the failure a place. -/
inductive Framed : List Event → List Event → Prop where
  | calledOff {before : List Event} {first : Event} (hbefore : ∀ e ∈ before, e.actor ≠ none)
      (hfirst : first.actor = none) (hoff : first.outside.calledOff ≠ none) :
      Framed (before ++ [first]) (before ++ [first])
  | goesOn {before between rest : List Event} {enter first last leave : Event}
      (hbefore : ∀ e ∈ before, e.actor ≠ none) (henter : enter.actor = none)
      (hstatement : enter.outside.calledOff = none) (hbetween : ∀ e ∈ between, e.actor ≠ none)
      (hfirst : first.actor = none) (hexpression : first.outside.calledOff = none)
      (hlast : last.actor = none) (hleave : leave.actor = none) :
      Framed (before ++ (between ++ first :: rest ++ [last]))
        (before ++ enter :: (between ++ first :: rest ++ [last] ++ [leave]))

namespace Task

variable {limits : Limits} {t : Task} {s : Store} {p : Position} {e : Expr}

/-- How far a thread has come that was at rest and has entered a node: it goes on inside, or it
has left that, and a failure has a place if the node has one. -/
inductive Stage (p : Position) (t : Task) : Prop where
  | inside {b : Books} (h : t.ComesBackTo [.leaveNode (some p) none] b)
  | left (o : Outcome) (hcontrol : t.control = .outcome o) (hframes : t.frames = [])
      (hplace : ∀ f, o = .failed f → p.isKnown = true → f.position.isKnown = true)

theorem located_known (s : Store) (f : Failure) (hp : p.isKnown = true) :
    (located s f p).1.position.isKnown = true := by
  by_cases hknown : f.position.isKnown = true
  · rw [located, if_pos hknown]
    exact hknown
  · have hlocate : (f.locate p).position.isKnown = true := by
      rw [Failure.locate, if_neg hknown]
      exact hp
    rw [located, if_neg hknown]
    dsimp only
    split <;> exact hlocate

/-- A thread that leaves a node gives a failure a place. -/
theorem stage_exited (t : Task) (s : Store) (p : Position) (outer : Option Environment)
    (o : Outcome) (hframes : t.frames = []) : (t.exited s (some p) outer o).1.Stage p := by
  cases o with
  | failed f =>
      refine .left _ rfl hframes ?_
      rintro g hg hp
      obtain rfl := Outcome.failed.inj hg
      exact located_known s f hp
  | value v | returned v => exact .left _ rfl hframes fun _ => Outcome.noConfusion
  | left | skipped => exact .left _ rfl hframes fun _ => Outcome.noConfusion

theorem Stage.step (h : t.Stage p) (hgoing : t.result? = none) (s : Store) :
    (t.step limits s).1.Stage p := by
  cases h with
  | inside hback =>
      by_cases hended : t.EndedAt [.leaveNode (some p) none]
      · obtain ⟨hframes, o, hcontrol⟩ := hended
        rw [step_resume limits s hcontrol hframes]
        exact stage_exited _ s p none o rfl
      · exact .inside (hback.turn hended (turn_step limits t s))
  | left o hcontrol hframes _ =>
      exact nomatch hgoing.symm.trans (result?_eq_some_iff.mpr ⟨hcontrol, hframes⟩)

/-- A thread at rest enters an expression within limits if it was not called off. -/
theorem stage_entered (hrest : t.AtRest) (env : Environment)
    (hroom : ¬ (t.doing (.expr e env)).Exceeds limits s) (hon : s.outside.calledOff = none) :
    ∃ b, ((t.doing (.expr e env)).step limits s).1.ComesBackTo
      [.leaveNode (some e.position) none] b := by
  have hrefusal : (t.doing (.expr e env)).refusal limits s =
      (none, { s with steps := s.steps + 1 }) := by
    rw [refusal_of_room hroom, hon]
    rfl
  have hcontrol : (t.doing (.expr e env)).control = .expr e env := rfl
  rw [step, hcontrol]
  dsimp only
  rw [hrefusal]
  have hentered : ((t.doing (.expr e env)).entered (some e.position) env).ComesBackTo
      [.leaveNode (some e.position) none] ⟨some env, 1, []⟩ := by
    rw [hrest.entered]
    exact ⟨[], rfl, rfl⟩
  exact ⟨_, hentered.onward (onward_beginExpr trivial _ _ _ _)⟩

end Task

namespace World

variable {limits : Limits} {u v w : World} {p q : Position} {word : String} {e : Expr}
  {o : Outcome} {es es' : List Event} {file : String} {t : Task}

theorem Along.stage (h : w.Along limits es v) (hw : w.main.Stage p) : v.main.Stage p := by
  induction h with
  | here => exact hw
  | on hgoing _ ih =>
      refine ih ?_
      rcases main_move limits _ _ with hmain | ⟨s, hmain⟩
      · rw [hmain]
        exact hw
      · rw [hmain]
        exact hw.step hgoing s

/-- Within limits, a statement that is an expression begins in step with that. -/
theorem above_expression (u : World) (hrest : t.AtRest) (file : String) {enter : Event}
    (henter : enter.actor = none) (hon : enter.outside.calledOff = none)
    (hroom : ¬ (t.doing (.stmt (.expr q word e) [])).Exceeds limits u.store) :
    Above (renamed file t.file) (.expression q) (u.led ({ t with file := file }.doing (.expr e [])))
      ((u.led (t.doing (.stmt (.expr q word e) []))).move limits enter) := by
  have hroom : ¬ (t.doing (.stmt (.expr q word e) [])).Exceeds limits
      (u.within enter.outside).store := hroom
  have hoff : (u.within enter.outside).store.outside.calledOff = none := hon
  have hstep : (t.doing (.stmt (.expr q word e) [])).step limits (u.within enter.outside).store =
      (⟨.expr e [], [.leaveNode (some q) none], some [], 1, [], t.file⟩,
        { (u.within enter.outside).store with
          steps := (u.within enter.outside).store.steps + 1 }) := by
    have hcontrol : (t.doing (.stmt (.expr q word e) [])).control = .stmt (.expr q word e) [] := rfl
    rw [Task.step, hcontrol]
    dsimp only
    rw [Task.refusal_of_room hroom, hoff, hrest.entered]
    rfl
  rw [move_main limits u _ henter hstep]
  exact above_entered (u.within enter.outside) hrest file (some q) List.map_nil (.expr e [])

section

variable (hrest : t.AtRest) (u : World) (file : String)

include hrest

/-- Called off when it is about to begin, the evaluation of an expression and a run of it are both
refused. -/
theorem refused_alike {first : Event} (hfirst : first.actor = none)
    (hoff : first.outside.calledOff ≠ none)
    (hroom : ¬ (t.doing (.stmt (.expr q word e) [])).Exceeds limits u.store) :
    ∃ f v v',
      (u.led ({ t with file := file }.doing (.expr e []))).Ends limits [first] (.failed f) v ∧
      (u.led (t.doing (.stmt (.expr q word e) []))).Ends limits [first] (.failed f) v' ∧
      v.Agrees (renamed file t.file) v' := by
  obtain ⟨reason, hreason⟩ := Option.ne_none_iff_exists'.mp hoff
  have hroom' : ¬ (({ t with file := file } : Task).doing (.expr e [])).Exceeds limits u.store :=
    hroom
  have hexpr := move_refused u rfl hfirst hreason hroom'
  have hstmt := move_refused u rfl hfirst hreason hroom
  have hended : ∀ {t : Task} {c : Control}, t.AtRest → (∀ o, c ≠ .outcome o) →
      (u.led (t.doing c)).move limits first = u.refused t first.outside reason →
      (u.led (t.doing c)).Ends limits [first]
        (.failed (Failure.ofFault (.cancelled reason))) (u.refused t first.outside reason) := by
    intro t c ht hc hmove
    refine ⟨.on ((Task.result?_eq_none_iff _).mpr fun ⟨_, o, ho⟩ => hc o ho) ?_,
      result?_refused u ht _ reason⟩
    rw [hmove]
    exact .here _
  exact ⟨_, _, _, hended hrest (fun _ => Control.noConfusion) hexpr,
    hended hrest (fun _ => Control.noConfusion) hstmt, ⟨rfl, rfl⟩, rfl⟩

/-- An expression that was entered and left with a failure has given that a place. -/
theorem expression_placed (hsited : e.Sited) {between rest : List Event} {first : Event}
    (hbetween : ∀ e ∈ between, e.actor ≠ none) (hexpression : first.outside.calledOff = none)
    (hfirst : first.actor = none)
    (hroom : ¬ (t.doing (.expr e [])).Exceeds limits (u.meanwhile limits between).store)
    {f : Failure}
    (h : (u.led (t.doing (.expr e []))).Ends limits (between ++ first :: rest) (.failed f) v) :
    f.position.isKnown = true := by
  have hothers := along_doing limits hbetween u t (.expr e []) nofun
  obtain ⟨halong, hresult⟩ := h.later hothers
  obtain ⟨hcontrol, hframes⟩ := Task.result?_eq_some_iff.mp hresult
  cases halong with
  | on hgoing halong =>
      obtain ⟨b, hinside⟩ := Task.stage_entered
        (s := ((u.meanwhile limits between).within first.outside).store) hrest [] hroom hexpression
      have hmove := move_main limits (u.meanwhile limits between) (t.doing (.expr e [])) hfirst rfl
      rw [hmove] at halong
      have hstage : v.main.Stage e.position := halong.stage (.inside hinside)
      cases hstage with
      | inside h =>
          obtain ⟨top, htop, -⟩ := h
          rw [hframes] at htop
          exact absurd htop.symm (List.append_ne_nil_of_right_ne_nil top (List.cons_ne_nil _ _))
      | left o hcontrol' _ hplace =>
          rw [hcontrol] at hcontrol'
          exact hplace f (Control.outcome.inj hcontrol').symm hsited

/-- What both come to once the statement is entered is the same. -/
theorem entered_alike (hsited : e.Sited) {between rest middle : List Event}
    {enter first last leave : Event} (hes : middle = between ++ first :: rest ++ [last])
    (henter : enter.actor = none) (hstatement : enter.outside.calledOff = none)
    (hbetween : ∀ e ∈ between, e.actor ≠ none) (hfirst : first.actor = none)
    (hexpression : first.outside.calledOff = none) (hlast : last.actor = none)
    (hleave : leave.actor = none)
    (hroomy : (u.led (t.doing (.stmt (.expr q word e) []))).Roomy limits
      (enter :: (middle ++ [leave]))) :
    (∀ o v, (u.led ({ t with file := file }.doing (.expr e []))).Ends limits middle o v →
      ∃ o' v', (u.led (t.doing (.stmt (.expr q word e) []))).Ends limits
          (enter :: (middle ++ [leave])) o' v' ∧
        o'.recast (.ofFile (renamed file t.file)) = o.recast (.ofFile (renamed file t.file)) ∧
        v.Agrees (renamed file t.file) v') ∧
    ∀ o' v', (u.led (t.doing (.stmt (.expr q word e) []))).Ends limits
        (enter :: (middle ++ [leave])) o' v' →
      ∃ o v, (u.led ({ t with file := file }.doing (.expr e []))).Ends limits middle o v ∧
        o'.recast (.ofFile (renamed file t.file)) = o.recast (.ofFile (renamed file t.file)) ∧
        v.Agrees (renamed file t.file) v' := by
  have hrest' : ({ t with file := file } : Task).AtRest := hrest
  have hbelow : (Footing.expression q).frames ≠ [] := List.cons_ne_nil _ _
  have habove := above_expression u hrest file henter hstatement (hroomy.here _ List.mem_cons_self)
  have hentered : (u.led (t.doing (.stmt (.expr q word e) []))).Along limits [enter]
      ((u.led (t.doing (.stmt (.expr q word e) []))).move limits enter) := .on rfl (.here _)
  have hinside : ((u.led (t.doing (.stmt (.expr q word e) []))).move limits enter).Roomy limits
      (middle ++ [leave]) := hroomy.next rfl
  have heval : (({ t with file := file } : Task).doing (.expr e [])).Evaluating limits :=
    hrest'.evaluating rfl
  have hothers := along_doing limits hbetween u { t with file := file } (.expr e []) nofun
  have hplaced : ∀ (rest : List Event) {o : Outcome} {v : World},
      (u.led ({ t with file := file }.doing (.expr e []))).Ends limits
        (between ++ first :: rest) o v →
      ∀ failure p, o = .failed failure → some q = some p → failure.position.isKnown = true := by
    rintro rest o v hends failure - rfl -
    have hroomy' := hinside.left
    rw [hes, List.append_assoc] at hroomy'
    obtain ⟨d, hd, hd', -⟩ := habove.along hbelow rfl heval hroomy'.left hothers
    refine expression_placed hrest' u hsited hbetween hexpression hfirst ?_ hends
    exact fun hexceeds => (hd'.room (hroomy'.later hd).here).1 (hexceeds.above _ 1)
  refine ⟨?_, ?_⟩
  · intro o v hends
    obtain ⟨d, hd, hd', -⟩ := habove.along hbelow rfl heval hinside.left hends.along
    obtain ⟨o', ho', hsame, hagrees⟩ := hd'.exits hleave hends.result
      (hplaced (rest ++ [last]) (by simpa [hes] using hends))
    exact ⟨o', _, ⟨.on rfl (hd.concat (hd'.going hbelow) leave), ho'⟩, hsame, hagrees⟩
  · intro o' v' hends
    have hlater : ((u.led (t.doing (.stmt (.expr q word e) []))).move limits enter).Ends limits
        (middle ++ [leave]) o' v' := hends.next
    obtain ⟨before, after, v, o, d, hsplit, hv, hd, hd', -, hafter⟩ :=
      habove.comes_to_result hbelow rfl heval hinside hlater
    have hgoing := hd'.going hbelow
    obtain ⟨others, main, after, rfl, hes', hmain, hdone⟩ := hafter.first_main hgoing
    rw [hsplit] at hinside
    have hturned := hd'.meanwhile hgoing (hinside.later hd).left hes'
    have hresult : (v.meanwhile limits others).main.result? = some o := by
      rw [main_meanwhile]
      exact hv.result
    have hexits : ∀ failure p, o = .failed failure → some q = some p →
        failure.position.isKnown = true := by
      obtain ⟨between', first', rest', rfl, hbetween', hfirst', -⟩ := hv.first_main rfl
      simp only [hes, List.append_assoc, List.cons_append] at hsplit
      obtain ⟨rfl, rfl⟩ := first_main_unique hbetween hbetween' hfirst hfirst' hsplit
      exact hplaced _ hv
    obtain ⟨o₁, ho₁, hsame, hagrees⟩ := hturned.exits hmain hresult hexits
    obtain ⟨rfl, rfl⟩ := hdone.along.of_result ho₁
    obtain rfl := Option.some.inj (hdone.result.symm.trans ho₁)
    -- the main thread leaves the statement right after the expression
    rw [← List.append_assoc] at hsplit
    obtain ⟨hmiddle, -⟩ := List.append_inj' hsplit rfl
    obtain rfl : others = [] := by
      rcases List.eq_nil_or_concat others with hnil | ⟨init, l, rfl⟩
      · exact hnil
      · rw [hes, List.concat_eq_append, ← List.append_assoc] at hmiddle
        obtain ⟨-, hlast'⟩ := List.append_inj' hmiddle rfl
        obtain rfl := List.head_eq_of_cons_eq hlast'
        exact absurd hlast (hes' last (by simp))
    rw [List.append_nil] at hmiddle
    rw [← hmiddle] at hv
    exact ⟨o, v, hv, hsame, hagrees⟩

/-- Where events go together, an expression and the statement that it is come to results alike, or
both to none. -/
theorem framed_alike (hsited : e.Sited) (hframed : Framed es es')
    (hroomy : (u.led (t.doing (.stmt (.expr q word e) []))).Roomy limits es') :
    (∀ o v, (u.led ({ t with file := file }.doing (.expr e []))).Ends limits es o v →
      ∃ o' v', (u.led (t.doing (.stmt (.expr q word e) []))).Ends limits es' o' v' ∧
        o'.recast (.ofFile (renamed file t.file)) = o.recast (.ofFile (renamed file t.file)) ∧
        v.Agrees (renamed file t.file) v') ∧
    ∀ o' v', (u.led (t.doing (.stmt (.expr q word e) []))).Ends limits es' o' v' →
      ∃ o v, (u.led ({ t with file := file }.doing (.expr e []))).Ends limits es o v ∧
        o'.recast (.ofFile (renamed file t.file)) = o.recast (.ofFile (renamed file t.file)) ∧
        v.Agrees (renamed file t.file) v' := by
  have hexpr : ∀ {before : List Event}, (∀ e ∈ before, e.actor ≠ none) →
      (u.led ({ t with file := file }.doing (.expr e []))).Along limits before
        ((u.meanwhile limits before).led ({ t with file := file }.doing (.expr e []))) :=
    fun hbefore => along_doing limits hbefore u { t with file := file } (.expr e []) nofun
  have hstmt : ∀ {before : List Event}, (∀ e ∈ before, e.actor ≠ none) →
      (u.led (t.doing (.stmt (.expr q word e) []))).Along limits before
        ((u.meanwhile limits before).led (t.doing (.stmt (.expr q word e) []))) :=
    fun hbefore => along_doing limits hbefore u t (.stmt (.expr q word e) []) nofun
  cases hframed with
  | @calledOff before first hbefore hfirst hoff =>
      obtain ⟨f, v, v', hv, hv', hagrees⟩ := refused_alike hrest (u.meanwhile limits before) file
        hfirst hoff ((hroomy.later (hstmt hbefore)).here _ List.mem_cons_self)
      refine ⟨?_, ?_⟩
      · intro o x hx
        obtain ⟨rfl, rfl⟩ := hv.unique (hx.later (hexpr hbefore))
        exact ⟨_, v', hv'.after (hstmt hbefore), rfl, hagrees⟩
      · intro o' x hx
        obtain ⟨rfl, rfl⟩ := hv'.unique (hx.later (hstmt hbefore))
        exact ⟨_, v, hv.after (hexpr hbefore), rfl, hagrees⟩
  | @goesOn before between rest enter first last leave hbefore henter hstatement hbetween hfirst
      hexpression hlast hleave =>
      obtain ⟨hto, hback⟩ := entered_alike hrest (u.meanwhile limits before) file hsited rfl henter
        hstatement hbetween hfirst hexpression hlast hleave (hroomy.later (hstmt hbefore))
      refine ⟨?_, ?_⟩
      · intro o v hv
        obtain ⟨o', v', hv', hsame, hagrees⟩ := hto o v (hv.later (hexpr hbefore))
        exact ⟨o', v', hv'.after (hstmt hbefore), hsame, hagrees⟩
      · intro o' v' hv'
        obtain ⟨o, v, hv, hsame, hagrees⟩ := hback o' v' (hv'.later (hstmt hbefore))
        exact ⟨o, v, hv.after (hexpr hbefore), hsame, hagrees⟩

/-- With the events of any evaluation of an expression others go together. -/
theorem framed_of_ends (hroomy : (u.led (t.doing (.expr e []))).Roomy limits es)
    (h : (u.led (t.doing (.expr e []))).Ends limits es o v) : ∃ es', Framed es es' := by
  obtain ⟨others, first, rest, rfl, hothers, hfirst, hrest'⟩ := h.first_main rfl
  have halong := along_doing limits hothers u t (.expr e []) nofun
  have hroom : ¬ (t.doing (.expr e [])).Exceeds limits (u.meanwhile limits others).store :=
    (hroomy.later halong).here _ List.mem_cons_self
  rw [meanwhile_led] at hrest'
  cases hoff : first.outside.calledOff with
  | some reason =>
      rw [move_refused (u.meanwhile limits others) rfl hfirst hoff hroom] at hrest'
      obtain ⟨rfl, -⟩ := hrest'.along.of_result (result?_refused _ hrest _ reason)
      exact ⟨_, .calledOff hothers hfirst (by rw [hoff]; exact Option.some_ne_none _)⟩
  | none =>
      obtain ⟨b, top, htop, -⟩ := Task.stage_entered
        (s := ((u.meanwhile limits others).within first.outside).store) hrest [] hroom hoff
      cases hstep : (t.doing (.expr e [])).step limits
        ((u.meanwhile limits others).within first.outside).store with | mk t' s' =>
      rw [hstep] at htop
      rw [move_main limits (u.meanwhile limits others) _ hfirst hstep] at hrest'
      rcases List.eq_nil_or_concat rest with rfl | ⟨init, last, rfl⟩
      · have hended := hrest'.along
        cases hended
        obtain ⟨-, hframes⟩ := Task.result?_eq_some_iff.mp hrest'.result
        rw [htop] at hframes
        exact absurd hframes (List.append_ne_nil_of_right_ne_nil top (List.cons_ne_nil _ _))
      · rw [List.concat_eq_append] at h hrest' ⊢
        have hlast : last.actor = none := hrest'.last_main
        have hgoes : Framed ([] ++ (others ++ first :: init ++ [last])) _ :=
          .goesOn (List.forall_mem_nil _) hfirst hoff hothers hfirst hoff hlast hfirst
        exact ⟨_, by simpa using hgoes⟩

end

/-- An expression ends with a value or a failure. -/
theorem expression_outcome (hframes : w.main.frames = [])
    (h : (w.doing (.expr e [])).Ends limits es o v) :
    (∃ x, o = .value x) ∨ ∃ a, o = .failed a := by
  obtain ⟨hcontrol, hended⟩ := Task.result?_eq_some_iff.mp h.result
  obtain ⟨⟨horizon, hfinish⟩, -⟩ := finish_along.mpr h
  have hbegun : (w.doing (.expr e [])).main.Gives Set.univ [] ∅ := by
    refine ⟨[], ?_, trivial, subset_rfl⟩
    rw [List.append_nil]
    exact hframes
  have hgives := (finish_proceeds .begins hfinish).gives hbegun
  exact Outcome.value_or_failed (hgives.outcome hcontrol hended)

end World

namespace Marshal

variable {s s' : Store}

theorem fromValues_of_lists {limit : Nat} {item : HostType}
    (h : ∀ x, fromValue s limit (some item) x = fromValue s' limit (some item) x) (n : Nat)
    (before : List HostValue) (items : List Value) :
    fromValues s limit item n before items = fromValues s' limit item n before items := by
  induction items generalizing n before with
  | nil => rw [fromValues, fromValues]
  | cons x rest ih =>
      rw [fromValues, fromValues, h]
      simp only [ih]

/-- What a value is to the host depends on the lists only. -/
theorem fromValue_of_lists (h : s.lists = s'.lists) (limit : Nat) (wanted : Option HostType)
    (x : Value) : fromValue s limit wanted x = fromValue s' limit wanted x := by
  induction limit generalizing wanted x with
  | zero => rw [fromValue, fromValue]
  | succ limit ih =>
      have hitems : ∀ item id, fromValues s limit item 0 [] (s.listItems id).toList =
          fromValues s' limit item 0 [] (s'.listItems id).toList := by
        intro item id
        rw [Store.listItems, h]
        exact fromValues_of_lists (ih (some item)) 0 [] _
      rw [fromValue, fromValue]
      simp only [hitems]

theorem ofValue_of_lists (h : s.lists = s'.lists) (x : Value) : ofValue s x = ofValue s' x := by
  rw [ofValue, ofValue, nestingLimit, nestingLimit, h]
  exact fromValue_of_lists h _ none x

end Marshal

namespace Session

variable {f : String → String} {horizon : Nat} {s : Session} {code : Text} {q : Position}
  {word : String} {e : Expr} {o : Outcome} {v : World} {es : List Event} {r : Reply × Session}

/-- A session that is to meet some events. -/
def along (s : Session) (es : List Event) : Session :=
  { s with terms := .along s.terms.toLimits s.world.age es }

/-- Whether a request has an answer, with the last of some events. -/
def Serves (s : Session) (es : List Event) (r : Request) (answer : Reply × Session) : Prop :=
  (∃ horizon, (s.along es).serve horizon r = some answer) ∧
    answer.2.world.age = s.world.age + es.length

/-- Whether two replies are the same but for names of files in reports. -/
inductive SameReply (f : String → String) : Reply → Reply → Prop where
  | given (h : HostValue) : SameReply f (.ok h) (.ok h)
  | failed {a b : Failure} (hagrees : a.Agrees f b) :
      SameReply f (.error (.failed a)) (.error (.failed b))
  | unmet (fault : SessionFault) : SameReply f (.error fault) (.error fault)

/-- Whether two requests had the same reply and left the same behind, but for names of files and
the number of steps. -/
structure Alike (f : String → String) (r r' : Reply × Session) : Prop where
  reply : SameReply f r.1 r'.1
  world : r.2.world.Agrees f r'.2.world
  limits : r.2.terms.toLimits = r'.2.terms.toLimits
  source : r.2.source = r'.2.source

theorem exported_agrees {s t : Session} (h : s.store.Agrees f t.store) (x : Value) :
    s.exported x = t.exported x := by
  have hlists := congrArg Store.lists h.objects
  dsimp only at hlists
  rw [exported, exported, Marshal.ofValue_of_lists hlists]

theorem finished_alike {o' : Outcome} {v' : World} (s : Session) (es es' : List Event)
    (ho : (∃ x, o = .value x) ∨ ∃ a, o = .failed a)
    (hsame : o'.recast (.ofFile f) = o.recast (.ofFile f)) (hagrees : v.Agrees f v') :
    Option.Rel (Alike f) ((s.along es).finished (o, v)) ((s.along es').finished (o', v')) := by
  rcases ho with ⟨x, rfl⟩ | ⟨a, rfl⟩
  · rw [Outcome.recast, Value.recast_ofFile] at hsame
    obtain rfl := Outcome.recast_ofFile_value hsame
    have hexported : exported { s.along es with world := v } x =
        exported { s.along es' with world := v' } x := exported_agrees hagrees.store x
    change Option.Rel (Alike f)
      ((exported { s.along es with world := v } x).map (·, { s.along es with world := v }))
      ((exported { s.along es' with world := v' } x).map (·, { s.along es' with world := v' }))
    rw [hexported]
    rcases exported { s.along es' with world := v' } x with _ | fault | h
    · exact .none
    · exact .some ⟨.unmet fault, hagrees, rfl, rfl⟩
    · exact .some ⟨.given h, hagrees, rfl, rfl⟩
  · obtain ⟨b, rfl, hb⟩ := Outcome.recast_ofFile_failed hsame
    exact .some ⟨.failed hb.symm, hagrees, rfl, rfl⟩

section

variable (hparse : Parser.parse code = ([.expr q word e], []))

include hparse

theorem evalExpression_eq (horizon : Nat) (s : Session) :
    s.evalExpression horizon code =
      (((s.world.inFile exprLabel).doing (.expr e [])).finish s.terms horizon).bind s.finished := by
  simp only [evalExpression, single, parsed, hparse]
  rfl

theorem eval_ends (h : s.eval horizon code = some r) :
    ∃ o, ((s.world.inFile evalLabel).doing (.stmt (.expr q word e) [])).finish s.terms horizon =
      some (o, r.2.world) := by
  obtain ⟨result, hrun⟩ := eval_run h
  simp only [run, parsed, hparse] at hrun
  obtain ⟨ending, hfrom, hending⟩ := Option.map_eq_some_iff.mp hrun
  have hworld : r.2.world = ending.world := by
    cases hfailure : ending.failure <;> rw [hfailure] at hending <;>
      exact congrArg (fun r => r.2.world) hending.symm
  rw [hworld]
  change World.runFrom s.terms horizon (s.world.inFile evalLabel) [] [.expr q word e] = _ at hfrom
  rw [World.runFrom, World.evalStmt] at hfrom
  cases hfinish : ((s.world.inFile evalLabel).doing (.stmt (.expr q word e) [])).finish s.terms
    horizon with
  | none =>
      rw [hfinish] at hfrom
      cases hfrom
  | some ended =>
      obtain ⟨o, v⟩ := ended
      rw [hfinish] at hfrom
      cases o <;> obtain rfl := Option.some.inj hfrom <;> exact ⟨_, rfl⟩

theorem eval_of_finish (ho : (∃ x, o = .value x) ∨ ∃ a, o = .failed a)
    (h : ((s.world.inFile evalLabel).doing (.stmt (.expr q word e) [])).finish s.terms horizon =
      some (o, v)) : s.eval horizon code = s.finished (o, v) := by
  have hrun : (s.world.inFile evalLabel).run s.terms horizon ⟨evalLabel, [.expr q word e]⟩ =
      ((s.world.inFile evalLabel).runFrom s.terms horizon [] [.expr q word e]) := rfl
  rw [World.runFrom, World.evalStmt, h] at hrun
  simp only [eval, run, parsed, hparse, hrun]
  rcases ho with ⟨x, rfl⟩ | ⟨a, rfl⟩
  · rfl
  · rfl

theorem serves_evalExpression : s.Serves es (.evalExpression code) r ↔
    ∃ o v, ((s.world.inFile exprLabel).doing (.expr e [])).Ends s.terms.toLimits es o v ∧
      (s.along es).finished (o, v) = some r := by
  have hrun : ∀ horizon, (s.along es).serve horizon (.evalExpression code) =
      (((s.world.inFile exprLabel).doing (.expr e [])).finish
        (.along s.terms.toLimits s.world.age es) horizon).bind (s.along es).finished :=
    fun horizon => evalExpression_eq hparse horizon (s.along es)
  constructor
  · rintro ⟨⟨horizon, h⟩, hage⟩
    rw [hrun] at h
    obtain ⟨⟨o, v⟩, hfinish, hr⟩ := Option.bind_eq_some_iff.mp h
    rw [finished_world hr] at hage
    exact ⟨o, v, World.finish_along.mp ⟨⟨horizon, hfinish⟩, hage⟩, hr⟩
  · rintro ⟨o, v, hends, hr⟩
    obtain ⟨⟨horizon, hfinish⟩, hage⟩ := World.finish_along.mpr hends
    refine ⟨⟨horizon, ?_⟩, ?_⟩
    · rw [hrun]
      exact Option.bind_eq_some_iff.mpr ⟨_, hfinish, hr⟩
    · rw [finished_world hr]
      exact hage

theorem serves_eval (h : s.Serves es (.eval code) r) :
    ∃ o, ((s.world.inFile evalLabel).doing (.stmt (.expr q word e) [])).Ends s.terms.toLimits es o
      r.2.world := by
  obtain ⟨⟨horizon, h⟩, hage⟩ := h
  obtain ⟨o, hfinish⟩ := eval_ends (s := s.along es) hparse h
  exact ⟨o, World.finish_along.mp ⟨⟨horizon, hfinish⟩, hage⟩⟩

theorem eval_served (ho : (∃ x, o = .value x) ∨ ∃ a, o = .failed a)
    (h : ((s.world.inFile evalLabel).doing (.stmt (.expr q word e) [])).Ends
      s.terms.toLimits es o v) :
    (∀ r, (s.along es).finished (o, v) = some r → s.Serves es (.eval code) r) ∧
      ∀ r, s.Serves es (.eval code) r → (s.along es).finished (o, v) = some r := by
  have heval : ∀ {horizon o v}, ((∃ x, o = .value x) ∨ ∃ a, o = .failed a) →
      ((s.world.inFile evalLabel).doing (.stmt (.expr q word e) [])).finish
        (.along s.terms.toLimits s.world.age es) horizon = some (o, v) →
      (s.along es).serve horizon (.eval code) = (s.along es).finished (o, v) :=
    fun ho h => eval_of_finish (s := s.along es) hparse ho h
  refine ⟨fun r hr => ?_, fun r hr => ?_⟩
  · obtain ⟨⟨horizon, hfinish⟩, hage⟩ := World.finish_along.mpr h
    refine ⟨⟨horizon, (heval ho hfinish).trans hr⟩, ?_⟩
    rw [finished_world hr]
    exact hage
  · obtain ⟨o', hends⟩ := serves_eval hparse hr
    obtain ⟨⟨horizon, hserve⟩, hage⟩ := hr
    obtain ⟨o₁, hfinish⟩ := eval_ends (s := s.along es) hparse hserve
    obtain ⟨rfl, hworld⟩ := h.unique (World.finish_along.mp ⟨⟨horizon, hfinish⟩, hage⟩)
    rw [hworld] at hfinish
    exact (heval ho hfinish).symm.trans hserve

end

/-- A text that is not a single expression is turned down. -/
theorem single_error (h : ∀ q word e, Parser.parse code ≠ ([.expr q word e], [])) :
    ∃ fault, single code = .error fault := by
  unfold single parsed
  rcases hparse : Parser.parse code with ⟨statements, ds⟩
  cases ds with
  | cons d ds => exact ⟨_, rfl⟩
  | nil =>
      rcases statements with _ | ⟨first, _ | ⟨second, rest⟩⟩
      · exact ⟨_, rfl⟩
      · cases first with
        | expr q word e => exact absurd hparse (h q word e)
        | _ => exact ⟨_, rfl⟩
      · exact ⟨.notSingle (first :: second :: rest).length, by cases first <;> rfl⟩

/-- Where an expression and the statement that it is come to results alike, so do both requests. -/
theorem served_alike (hparse : Parser.parse code = ([.expr q word e], [])) {es' : List Event}
    {o' : Outcome} {v' : World}
    (hframes : s.world.main.frames = [])
    (hends : ((s.world.inFile exprLabel).doing (.expr e [])).Ends s.terms.toLimits es o v)
    (hends' : ((s.world.inFile evalLabel).doing (.stmt (.expr q word e) [])).Ends
      s.terms.toLimits es' o' v')
    (hsame : o'.recast (.ofFile f) = o.recast (.ofFile f)) (hagrees : v.Agrees f v') :
    Option.Rel (Alike f) ((s.along es).finished (o, v)) ((s.along es').finished (o', v')) ∧
      ∀ r', s.Serves es' (.eval code) r' ↔ (s.along es').finished (o', v') = some r' := by
  have ho := World.expression_outcome (w := s.world.inFile exprLabel) hframes hends
  have ho' : (∃ x, o' = .value x) ∨ ∃ a, o' = .failed a := by
    rcases ho with ⟨x, rfl⟩ | ⟨a, rfl⟩
    · rw [Outcome.recast, Value.recast_ofFile] at hsame
      exact .inl ⟨x, Outcome.recast_ofFile_value hsame⟩
    · obtain ⟨b, hb, -⟩ := Outcome.recast_ofFile_failed hsame
      exact .inr ⟨b, hb⟩
  obtain ⟨hto, hback⟩ := eval_served hparse ho' hends'
  exact ⟨s.finished_alike es es' ho hsame hagrees, fun r' => ⟨hback r', hto r'⟩⟩

theorem exists_of_rel_left {α β : Type} {R : α → β → Prop} {a : Option α} {b : Option β} {x : α}
    (h : Option.Rel R a b) (ha : a = some x) : ∃ y, b = some y ∧ R x y := by
  subst ha
  cases h with
  | some hxy => exact ⟨_, rfl, hxy⟩

theorem exists_of_rel_right {α β : Type} {R : α → β → Prop} {a : Option α} {b : Option β} {y : β}
    (h : Option.Rel R a b) (hb : b = some y) : ∃ x, a = some x ∧ R x y := by
  subst hb
  cases h with
  | some hxy => exact ⟨_, rfl, hxy⟩

/-- A text that is read without a fault as a single expression is evaluated as such just as it is
run, as long as running it exceeds no limit.  Where the events of both go together, both requests
are served or neither is, with the same value or the same failure, and they leave the same behind;
only reports name the text differently.  Any other text is turned down, and nothing has happened. -/
theorem evalExpression_agrees :
    (∀ (s : Session) (code : Text) (q : Position) (word : String) (e : Expr), s.Reached →
      Parser.parse code = ([.expr q word e], []) →
      (∀ es es', Framed es es' →
        ((s.world.inFile evalLabel).doing (.stmt (.expr q word e) [])).Roomy s.terms.toLimits es' →
        (∀ r, s.Serves es (.evalExpression code) r →
          ∃ r', s.Serves es' (.eval code) r' ∧ Alike (renamed exprLabel evalLabel) r r') ∧
        ∀ r', s.Serves es' (.eval code) r' →
          ∃ r, s.Serves es (.evalExpression code) r ∧ Alike (renamed exprLabel evalLabel) r r') ∧
      ∀ es r, s.Serves es (.evalExpression code) r →
        ((s.world.inFile exprLabel).doing (.expr e [])).Roomy s.terms.toLimits es →
        ∃ es', Framed es es') ∧
    ∀ (s : Session) (code : Text) (horizon : Nat),
      (∀ q word e, Parser.parse code ≠ ([.expr q word e], [])) →
      ∃ fault, s.evalExpression horizon code = some (.error fault, s) := by
  refine ⟨?_, ?_⟩
  · intro s code q word e hs hparse
    have hrest : s.world.main.AtRest := hs.world.atRest
    have hsited : e.Sited := by
      have hstatements := Parser.parse_sited code
      rw [hparse] at hstatements
      exact hstatements _ List.mem_cons_self q word e rfl
    refine ⟨?_, ?_⟩
    · intro es es' hframed hroomy
      obtain ⟨hto, hback⟩ := World.framed_alike (t := { s.world.main with file := evalLabel })
        hrest s.world exprLabel hsited hframed hroomy
      refine ⟨?_, ?_⟩
      · intro r hserves
        obtain ⟨o, v, hends, hr⟩ := (serves_evalExpression hparse).mp hserves
        obtain ⟨o', v', hends', hsame, hagrees⟩ := hto o v hends
        obtain ⟨halike, heval⟩ := served_alike hparse hrest.1 hends hends' hsame hagrees
        obtain ⟨r', hr', halike⟩ := exists_of_rel_left halike hr
        exact ⟨r', (heval r').mpr hr', halike⟩
      · intro r' hserves
        obtain ⟨o', hends'⟩ := serves_eval hparse hserves
        obtain ⟨o, v, hends, hsame, hagrees⟩ := hback o' r'.2.world hends'
        obtain ⟨halike, heval⟩ := served_alike hparse hrest.1 hends hends' hsame hagrees
        obtain ⟨r, hr, halike⟩ := exists_of_rel_right halike ((heval r').mp hserves)
        exact ⟨r, (serves_evalExpression hparse).mpr ⟨o, v, hends, hr⟩, halike⟩
    · intro es r hserves hroomy
      obtain ⟨o, v, hends, -⟩ := (serves_evalExpression hparse).mp hserves
      exact World.framed_of_ends (t := { s.world.main with file := exprLabel }) hrest s.world
        hroomy hends
  · intro s code horizon h
    obtain ⟨fault, hfault⟩ := single_error h
    exact ⟨fault, by rw [evalExpression, hfault]⟩

set_option maxRecDepth 10000 in
theorem evalExpression_agrees_unknown :
    let s := start (.bare ⟨100, 0⟩) fun _ => .error "no files"
    let f := renamed exprLabel evalLabel
    let e : Event := ⟨none, .bare⟩
    (∃ r r', s.Serves [e, e] (.evalExpression (Text.ofString "x")) r ∧
      s.Serves [e, e, e, e] (.eval (Text.ofString "x")) r' ∧ Alike f r r') ∧
    (∃ r r', s.Serves [e, e, e, e] (.eval (Text.ofString "x")) r' ∧
      s.Serves [e, e] (.evalExpression (Text.ofString "x")) r ∧ Alike f r r') ∧
    (∃ es', Framed [e, e] es') ∧
    ∃ fault, s.evalExpression 20 (Text.ofString "x = 7") = some (.error fault, s) := by
  intro s f b
  obtain ⟨hsame, hrefused⟩ := evalExpression_agrees
  have hparse : Parser.parse (Text.ofString "x") =
      ([.expr ⟨1, 1⟩ "x" (.name ⟨"x", ⟨1, 1⟩⟩)], []) := by
    rw [Parser.parse, Lexer.tokens, Cursor.ofText, Text.chars_ofString]
    cbv
  have hassign : Parser.parse (Text.ofString "x = 7") =
      ([.assign ⟨1, 3⟩ ⟨"x", ⟨1, 1⟩⟩ (.int ⟨1, 5⟩ "7" 7)], []) := by
    rw [Parser.parse, Lexer.tokens, Cursor.ofText, Text.chars_ofString]
    cbv
  have hframed : Framed [b, b] [b, b, b, b] :=
    @Framed.goesOn [] [] [] b b b b (List.forall_mem_nil _) rfl rfl (List.forall_mem_nil _) rfl rfl
      rfl rfl
  have hroomy : ((s.world.inFile evalLabel).doing
      (.stmt (.expr ⟨1, 1⟩ "x" (.name ⟨"x", ⟨1, 1⟩⟩)) [])).Roomy s.terms.toLimits [b, b, b, b] := by
    decide +kernel
  have hroomy' : ((s.world.inFile exprLabel).doing (.expr (.name ⟨"x", ⟨1, 1⟩⟩) [])).Roomy
      s.terms.toLimits [b, b] := by
    decide +kernel
  have hends : ((((s.world.inFile exprLabel).doing (.expr (.name ⟨"x", ⟨1, 1⟩⟩) [])).finish
      (s.along [b, b]).terms 20).bind (s.along [b, b]).finished).map (fun r => r.2.world.age) =
      some 2 := by
    decide +kernel
  obtain ⟨r, hr, hage⟩ := Option.map_eq_some_iff.mp hends
  have hserves : s.Serves [b, b] (.evalExpression (Text.ofString "x")) r :=
    ⟨⟨20, (evalExpression_eq hparse 20 (s.along [b, b])).trans hr⟩, hage⟩
  obtain ⟨hboth, hframes⟩ := hsame s _ _ _ _ (.start _ _) hparse
  obtain ⟨hexpr, heval⟩ := hboth _ _ hframed hroomy
  obtain ⟨r', hrun, halike⟩ := hexpr r hserves
  obtain ⟨r'', hserves', halike'⟩ := heval r' hrun
  refine ⟨⟨r, r', hserves, hrun, halike⟩, ⟨r'', r', hrun, hserves', halike'⟩,
    hframes _ r hserves hroomy', ?_⟩
  refine hrefused s _ 20 fun q word e h => ?_
  rw [hassign] at h
  cases h

end Session

end Scriptlet
