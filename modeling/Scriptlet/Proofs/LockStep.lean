/-
Two runs of a node, one of which lies above frames that wait for it.  As long as
they meet the same events and no limit is exceeded the two go on in step: the one
above is as the other, with the frames below, one node deeper, and with one node
more counted.  Where the one has a result, the other is about to give it to the
frames below; what further events of the main thread then show of the surroundings
does not matter.
-/
import Scriptlet.Proofs.Events
import Scriptlet.Proofs.Reached
import Scriptlet.Proofs.Relabelled

namespace Scriptlet

namespace Task

variable {f : String → String} {limits : Limits} {t : Task} {s : Store}

theorem exceeds_recast (t : Task) (s : Store) :
    (t.recast (.ofFile f) .ground).Exceeds limits (s.recast ((Guise.ofFile f).veil 0)) ↔
      t.Exceeds limits s := by
  obtain ⟨control, frames, scope, depth, calls, file⟩ := t
  cases control <;> rfl

theorem exceeds_of_steps {s' : Store} (t : Task) (h : s.steps = s'.steps) :
    t.Exceeds limits s ↔ t.Exceeds limits s' := by
  unfold Exceeds
  rw [h]

/-- What is too much above no frames is so above others. -/
theorem Exceeds.above (h : t.Exceeds limits s) (below : Footing) (extra : Nat) :
    (t.recast (.ofFile f) below).Exceeds limits (s.recast ((Guise.ofFile f).veil extra)) := by
  obtain ⟨control, frames, scope, depth, calls, file⟩ := t
  have hnode : limits.maxDepth < depth + 1 ∨ 0 < limits.maxSteps ∧ limits.maxSteps < s.steps + 1 →
      limits.maxDepth < depth + below.depth + 1 ∨
        0 < limits.maxSteps ∧ limits.maxSteps < s.steps + extra + 1 := by
    omega
  cases control with
  | expr e env | stmt st env | block b env | program ss env => exact hnode h
  | hook receiver name args =>
      have hdeep : limits.maxDepth < depth + 1 := h
      have hdeeper : limits.maxDepth < depth + below.depth + 1 := by omega
      exact hdeeper
  | call callee args | asleep time | joining ids | outcome o => exact h

theorem AtRest.entered (h : t.AtRest) (c : Control) (position : Option Position)
    (env : Environment) :
    (t.doing c).entered position env =
      ⟨c, [.leaveNode position none], some env, 1, [], t.file⟩ := by
  obtain ⟨hframes, hbooks⟩ := h
  obtain ⟨control, frames, scope, depth, calls, own⟩ := t
  obtain rfl : frames = [] := hframes
  obtain ⟨rfl, rfl, rfl⟩ := Books.mk.inj hbooks
  rfl

/-- Within limits, a node is refused only if the run was called off. -/
theorem refusal_of_room (hroom : ¬ (limits.maxDepth < t.depth + 1 ∨
    0 < limits.maxSteps ∧ limits.maxSteps < s.steps + 1)) :
    t.refusal limits s =
      (s.outside.calledOff.map Fault.cancelled, { s with steps := s.steps + 1 }) := by
  obtain ⟨hdepth, hsteps⟩ := not_or.mp hroom
  simp only [refusal, if_neg hdepth, Bool.and_eq_true, decide_eq_true_eq, if_neg hsteps]

theorem step_refused {fault : Fault} {s' : Store} (hnode : t.control.isNode = true)
    (hrefusal : t.refusal limits s = (some fault, s')) :
    t.step limits s = (t.failing fault, s') := by
  cases hcontrol : t.control with
  | expr e env | stmt st env | block b env | program ss env =>
      rw [step, hcontrol]
      dsimp only
      rw [hrefusal]
  | _ =>
      rw [hcontrol] at hnode
      cases hnode

structure Evaluating (limits : Limits) (t : Task) : Prop where
  nests : t.Nests limits
  back : t.ComesBackTo [] ⟨none, 0, []⟩

/-- A thread at rest that is to do something that is no call. -/
theorem AtRest.evaluating (hrest : t.AtRest) {c : Control} (hcall : c.isCall = false) :
    (t.doing c).Evaluating limits := by
  have hback := hrest.comesBackTo
  obtain ⟨hframes, hbooks⟩ := hrest
  have hdepth : t.depth = 0 := congrArg Books.depth hbooks
  refine ⟨⟨?_, hdepth.le.trans (Nat.zero_le _), ?_, mayCall_of_not_isCall hcall⟩, hback⟩
  · exact hdepth.trans (congrArg charges hframes).symm
  · exact (congrArg Nested hframes).mpr trivial

theorem Evaluating.step (h : t.Evaluating limits) (hgoing : t.result? = none) (s : Store) :
    (t.step limits s).1.Evaluating limits := by
  have hturn := turn_step limits t s
  exact ⟨h.nests.turn hturn, h.back.turn ((result?_eq_none_iff _).mp hgoing) hturn⟩

theorem Evaluating.atRest (h : t.Evaluating limits) {o : Outcome} (hresult : t.result? = some o) :
    t.AtRest := by
  obtain ⟨hcontrol, hframes⟩ := result?_eq_some_iff.mp hresult
  exact ⟨hframes, h.back.books_eq ⟨hframes, o, hcontrol⟩⟩

end Task

namespace World

variable {limits : Limits} {f : String → String} {below : Footing} {w d v : World} {o : Outcome}
  {e : Event} {es : List Event}

/-- Whether two runs left the same behind: stores that agree, and other threads that are the
same but for names of files. -/
structure Agrees (f : String → String) (w w' : World) : Prop where
  store : w.store.Agrees f w'.store
  threads : w.threads.map (fun entry => (entry.1, entry.2.recast (.ofFile f) .ground)) =
    w'.threads.map fun entry => (entry.1, entry.2.recast (.ofFile f) .ground)

/-- What other threads do meanwhile is left behind whatever the main thread is. -/
theorem agrees_meanwhile_led (limits : Limits) (w : World) (t : Task) (es : List Event) :
    ((w.led t).meanwhile limits es).Agrees f d ↔ (w.meanwhile limits es).Agrees f d := by
  rw [meanwhile_led]
  exact ⟨fun h => ⟨h.store, h.threads⟩, fun h => ⟨h.store, h.threads⟩⟩

/-- Whether a run is as another one above some frames, but for names of files and whatever
the surroundings of either are like. -/
def Above (f : String → String) (below : Footing) (w d : World) : Prop :=
  (d.within .bare).recast (.ofFile f) .ground 0 = (w.within .bare).recast (.ofFile f) below 1

/-- A thread at rest that has entered a node, and some frames in it, stands above where
another one in some file has not. -/
theorem above_entered {t : Task} (u : World) (hrest : t.AtRest) (file : String)
    (position : Option Position) {top : List Frame}
    (htop : top.map (Frame.recast (.ofFile (renamed file t.file)) none) = top) (c : Control) :
    Above (renamed file t.file) ⟨top ++ [Frame.leaveNode position none], 1, some []⟩
      (u.led ({ t with file := file }.doing c))
      { u with
        main := ⟨c, top ++ [Frame.leaveNode position none], some [], 1, [], t.file⟩
        store := { u.store with steps := u.store.steps + 1 } } := by
  obtain ⟨hframes, hbooks⟩ := hrest
  obtain ⟨control, frames, scope, depth, calls, own⟩ := t
  obtain rfl : frames = [] := hframes
  obtain ⟨rfl, rfl, rfl⟩ := Books.mk.inj hbooks
  have hmain : (⟨c, top ++ [Frame.leaveNode position none], some [], 1, [], own⟩ : Task).recast
      (.ofFile (renamed file own)) .ground =
      (⟨c, [], none, 0, [], file⟩ : Task).recast (.ofFile (renamed file own))
        ⟨top ++ [Frame.leaveNode position none], 1, some []⟩ := by
    have hlabel : (Guise.ofFile (renamed file own)).file own =
        (Guise.ofFile (renamed file own)).file file :=
      (renamed_new file own).trans (renamed_old file own).symm
    have hplace : position.map (Guise.ofFile (renamed file own)).place = position :=
      Option.map_id'
    simp only [Task.recast, Footing.ground, List.map_append, htop, List.map_cons, List.map_nil,
      Frame.recast, hplace, hlabel, List.append_nil, List.nil_append]
    rfl
  unfold Above recast
  dsimp only [led, Task.doing, within]
  rw [hmain]
  rfl

def refused (u : World) (t : Task) (o : Outside) (reason : Text) : World :=
  let s := (u.within o).store
  { u.within o with
    main := t.failing (.cancelled reason)
    store := { s with steps := s.steps + 1 } }

/-- A node that was called off is refused. -/
theorem move_refused {t : Task} {c : Control} (u : World) (hnode : c.isNode = true)
    (he : e.actor = none) {reason : Text} (hoff : e.outside.calledOff = some reason)
    (hroom : ¬ (t.doing c).Exceeds limits u.store) :
    (u.led (t.doing c)).move limits e = u.refused t e.outside reason := by
  have hroom : ¬ (limits.maxDepth < (t.doing c).depth + 1 ∨
      0 < limits.maxSteps ∧ limits.maxSteps < (u.within e.outside).store.steps + 1) := by
    cases c with
    | expr _ _ | stmt _ _ | block _ _ | program _ _ => exact hroom
    | _ => cases hnode
  have hrefusal := Task.refusal_of_room hroom
  have hcalledOff : (u.within e.outside).store.outside.calledOff = some reason := hoff
  rw [hcalledOff] at hrefusal
  exact move_main limits u _ he (Task.step_refused hnode hrefusal)

theorem result?_refused (u : World) {t : Task} (hrest : t.AtRest) (o : Outside) (reason : Text) :
    (u.refused t o reason).main.result? = some (.failed (Failure.ofFault (.cancelled reason))) :=
  Task.result?_eq_some_iff.mpr ⟨rfl, hrest.1⟩

namespace Above

theorem within (h : Above f below w d) (o : Outside) :
    (d.within o).recast (.ofFile f) .ground 0 = (w.within o).recast (.ofFile f) below 1 :=
  within_alike h rfl

theorem main (h : Above f below w d) :
    d.main.recast (.ofFile f) .ground = w.main.recast (.ofFile f) below := congrArg World.main h

theorem steps (h : Above f below w d) : d.store.steps = w.store.steps + 1 :=
  congrArg (fun w => w.store.steps) h

theorem threads (h : Above f below w d) :
    d.threads.map (fun entry => (entry.1, entry.2.recast (.ofFile f) .ground)) =
      w.threads.map fun entry => (entry.1, entry.2.recast (.ofFile f) .ground) :=
  congrArg World.threads h

theorem agrees (h : Above f below w d) : w.Agrees f d := by
  have hstore : (w.within .bare).store.recast ((Guise.ofFile f).veil 1) =
      (d.within .bare).store.recast ((Guise.ofFile f).veil 0) := congrArg World.store h.symm
  have hagrees := Store.agrees_of_recast hstore
  exact ⟨⟨hagrees.objects, hagrees.threads⟩, h.threads.symm⟩

/-- What both share does not depend on the main threads. -/
theorem led (h : Above f below w d) {t t' : Task} {below' : Footing}
    (ht : t'.recast (.ofFile f) .ground = t.recast (.ofFile f) below') :
    Above f below' (w.led t) (d.led t') :=
  have hled : { (d.within .bare).recast (.ofFile f) .ground 0 with
        main := t'.recast (.ofFile f) .ground } =
      { (w.within .bare).recast (.ofFile f) below 1 with
        main := t.recast (.ofFile f) below' } := by
    rw [show (d.within .bare).recast (.ofFile f) .ground 0 = _ from h, ht]
  hled

theorem going (h : Above f below w d) (hbelow : below.frames ≠ []) : d.main.result? = none := by
  have hframes : d.main.frames.map (Frame.recast (.ofFile f) none) =
      w.main.frames.map (Frame.recast (.ofFile f) below.scope) ++ below.frames := by
    simpa [Task.recast, Footing.ground] using congrArg Task.frames h.main
  rw [Task.result?_eq_none_iff]
  rintro ⟨hnil, -⟩
  rw [hnil, List.map_nil] at hframes
  exact hbelow (List.append_eq_nil_iff.mp hframes.symm).2

theorem room (h : Above f below w d) (hd : ∀ t ∈ d.tasks, ¬ t.Exceeds limits d.store) :
    ¬ (w.main.recast (.ofFile f) below).Exceeds limits (w.store.recast ((Guise.ofFile f).veil 1)) ∧
      ∀ entry ∈ w.threads, ¬ (entry.2.recast (.ofFile f) .ground).Exceeds limits
        (w.store.recast ((Guise.ofFile f).veil 1)) := by
  have hsteps : (d.store.recast ((Guise.ofFile f).veil 0)).steps =
      (w.store.recast ((Guise.ofFile f).veil 1)).steps := h.steps
  refine ⟨?_, fun entry hmem => ?_⟩
  · rw [← Task.exceeds_of_steps _ hsteps, ← h.main, Task.exceeds_recast]
    exact hd d.main List.mem_cons_self
  · have hthere := List.mem_map_of_mem (f := fun entry : Nat × Task =>
      (entry.1, entry.2.recast (.ofFile f) .ground)) hmem
    rw [← h.threads] at hthere
    obtain ⟨entry', hmem', heq⟩ := List.mem_map.mp hthere
    have hsame : entry'.2.recast (.ofFile f) .ground = entry.2.recast (.ofFile f) .ground :=
      congrArg Prod.snd heq
    rw [← Task.exceeds_of_steps _ hsteps, ← hsame, Task.exceeds_recast]
    exact hd entry'.2 (mem_tasks hmem')

/-- Within limits, both runs go on in step where the main thread of the one may. -/
theorem move (h : Above f below w d) (hscope : below.scope.getD [] = [])
    (hgoing : below.frames = [] ∨ w.main.result? = none)
    (hdepth : below.depth = 0 ∨ charges w.main.frames ≤ w.main.depth)
    (hd : ∀ t ∈ d.tasks, ¬ t.Exceeds limits d.store) (e : Event) :
    Above f below (w.move limits e) (d.move limits e) := by
  obtain ⟨hmain, hthreads⟩ := h.room hd
  have hplaces : ∀ o : Outcome,
      Task.Places (.ofFile f) 1 (w.within e.outside).store o :=
    fun o failure _ q =>
      Task.located_recast_of_known 1 (w.within e.outside).store (fun _ => rfl) failure q
  have hbare : Outside.bare.recast (.ofFile f) = Outside.bare.recast (.ofFile f) := rfl
  refine within_alike (act_alike ⟨rfl, rfl⟩ ⟨rfl, hscope⟩ (fits_ofFile limits _)
    ⟨?_, fun entry hmem => ?_⟩ (h.within e.outside) e.actor) hbare
  · exact ⟨hgoing, .inr hmain, hdepth, fun _ _ _ _ => rfl, nofun, fun o _ => hplaces o,
      fun x _ => knows_ofFile _ x⟩
  · exact ⟨.inl rfl, .inr (hthreads entry hmem), .inl rfl, fun _ _ _ _ => rfl, nofun,
      fun o _ => hplaces o, fun x _ => knows_ofFile _ x⟩

/-- Other threads go on in step whatever the main threads do. -/
theorem move_other (h : Above f below w d) (hd : ∀ t ∈ d.tasks, ¬ t.Exceeds limits d.store)
    (he : e.actor ≠ none) : Above f below (w.move limits e) (d.move limits e) := by
  have hidle : Above f .ground (w.led (.idle "")) (d.led (.idle "")) := h.led rfl
  have hroom : ∀ t ∈ (d.led (.idle "")).tasks, ¬ t.Exceeds limits d.store :=
    List.forall_mem_cons.mpr ⟨not_false, fun t ht => hd t (List.mem_cons_of_mem _ ht)⟩
  have hmoved := hidle.move rfl (.inl rfl) (.inl rfl) hroom e
  rw [move_led limits w _ he, move_led limits d _ he] at hmoved
  have hback : Above f below (((w.move limits e).led (.idle "")).led w.main)
      (((d.move limits e).led (.idle "")).led d.main) := hmoved.led h.main
  have hsame : ∀ u : World, ((u.move limits e).led (.idle "")).led u.main = u.move limits e := by
    intro u
    rw [← main_move_other limits u he]
    rfl
  rw [hsame, hsame] at hback
  exact hback

theorem meanwhile (h : Above f below w d) (hgoing : d.main.result? = none)
    (hroomy : d.Roomy limits es) (hes : ∀ e ∈ es, e.actor ≠ none) :
    Above f below (w.meanwhile limits es) (d.meanwhile limits es) := by
  induction es generalizing w d with
  | nil => exact h
  | cons e es ih =>
      obtain ⟨he, hes⟩ := List.forall_mem_cons.mp hes
      rw [meanwhile_cons_other limits w he, meanwhile_cons_other limits d he]
      have hnext : (d.move limits e).main.result? = none := by
        rw [main_move_other limits d he]
        exact hgoing
      exact ih (h.move_other hroomy.here he) hnext (hroomy.next hgoing) hes

/-- Where events lead the one run on, they lead the other one on in step. -/
theorem along (h : Above f below w d) (hbelow : below.frames ≠ [])
    (hscope : below.scope.getD [] = []) (hw : w.main.Evaluating limits)
    (hroomy : d.Roomy limits es) (halong : w.Along limits es v) :
    ∃ d', d.Along limits es d' ∧ Above f below v d' ∧ v.main.Evaluating limits := by
  induction halong generalizing d with
  | here w => exact ⟨d, .here d, h, hw⟩
  | @on v w e es hgoing _ ih =>
      have hdgoing := h.going hbelow
      have hnext := h.move hscope (.inr hgoing) (.inr hw.nests.depth_eq.ge) hroomy.here e
      have hkept : (w.move limits e).main.Evaluating limits := by
        rcases main_move limits w e with hmain | ⟨s, hmain⟩
        · rw [hmain]
          exact hw
        · rw [hmain]
          exact hw.step hgoing s
      obtain ⟨d', hd', hv⟩ := ih hnext hkept (hroomy.next hdgoing)
      exact ⟨d', .on hdgoing hd', hv⟩

/-- Where the run above comes to a result, the other one did so before, in step. -/
theorem comes_to_result (h : Above f below w d) (hbelow : below.frames ≠ [])
    (hscope : below.scope.getD [] = []) (hw : w.main.Evaluating limits)
    (hroomy : d.Roomy limits es) {d' : World} {o' : Outcome} (hends : d.Ends limits es o' d') :
    ∃ first later v o d₁, es = first ++ later ∧ w.Ends limits first o v ∧
      d.Along limits first d₁ ∧ Above f below v d₁ ∧ v.main.Evaluating limits ∧
      d₁.Ends limits later o' d' := by
  obtain ⟨halong, hresult⟩ := hends
  induction halong generalizing w with
  | here d => exact nomatch (h.going hbelow).symm.trans hresult
  | @on d' d e es hgoing hrest ih =>
      cases ho : w.main.result? with
      | some o =>
          exact ⟨[], e :: es, w, o, d, rfl, ⟨.here w, ho⟩, .here d, h, hw, .on hgoing hrest,
            hresult⟩
      | none =>
          have hnext := h.move hscope (.inr ho) (.inr hw.nests.depth_eq.ge) hroomy.here e
          have hkept : (w.move limits e).main.Evaluating limits := by
            rcases main_move limits w e with hmain | ⟨s, hmain⟩
            · rw [hmain]
              exact hw
            · rw [hmain]
              exact hw.step ho s
          obtain ⟨first, later, v, o, d₁, rfl, hv, hd₁, habove, heval, hlast⟩ :=
            ih hnext hkept (hroomy.next hgoing) hresult
          exact ⟨e :: first, later, v, o, d₁, rfl, ⟨.on ho hv.along, hv.result⟩, .on hgoing hd₁,
            habove, heval, hlast⟩

/-- What the frames below make of the outcome of the one run, the run above does. -/
theorem leaves (h : Above f below w d) (he : e.actor = none) {below' : Footing} {t : Task}
    (hstep : ∀ s, (w.main.recast (.ofFile f) below).step limits s =
      (t.recast (.ofFile f) below', s)) :
    Above f below' (w.led t) (d.move limits e) := by
  obtain ⟨actor, o⟩ := e
  obtain rfl : actor = none := he
  have hfits := (fits_ofFile (f := f) limits (d.within o)).main
  have hrecast := Task.step_recast hfits rfl rfl
  have hmain : (d.within o).main.recast (.ofFile f) .ground = w.main.recast (.ofFile f) below :=
    h.main
  rw [hmain, hstep] at hrecast
  obtain ⟨ht, hstore⟩ := Prod.mk.inj hrecast
  have hmoved : (d.move limits ⟨none, o⟩).recast (.ofFile f) .ground 0 =
      ((d.within o).led ((d.within o).main.step limits (d.within o).store).1).recast
        (.ofFile f) .ground 0 :=
    congrArg (fun s => World.mk s _ _ 0) hstore.symm
  have hsame : Outside.bare.recast (.ofFile f) = Outside.bare.recast (.ofFile f) := rfl
  have hbare := within_alike hmoved hsame
  exact hbare.trans (h.led ht.symm)

/-- Where the frames below go on with something to do, the run above does, as if the
other one were to do that above fewer or other frames. -/
theorem goesOn (h : Above f below w d) (he : e.actor = none) {below' : Footing} {c : Control}
    (hstep : ∀ s, (w.main.recast (.ofFile f) below).step limits s =
      ((w.main.doing c).recast (.ofFile f) below', s)) :
    Above f below' (w.doing c) (d.move limits e) := h.leaves he hstep

/-- The run above leaves the node that alone waits for the result, and has the same
result. -/
theorem exits {position : Option Position}
    (h : Above f ⟨[.leaveNode position none], 1, some []⟩ w d) (he : e.actor = none)
    (hresult : w.main.result? = some o)
    (hplace : ∀ failure q, o = .failed failure → position = some q →
      failure.position.isKnown = true) :
    ∃ o', (d.move limits e).main.result? = some o' ∧ o'.recast (.ofFile f) = o.recast (.ofFile f) ∧
      w.Agrees f (d.move limits e) := by
  obtain ⟨hcontrol, hframes⟩ := Task.result?_eq_some_iff.mp hresult
  have hexits : ∀ s,
      (w.main.recast (.ofFile f) ⟨[.leaveNode position none], 1, some []⟩).step limits s =
      (({ w.main with control := .outcome o, scope := none } : Task).recast
        (.ofFile f) .ground, s) := by
    intro s
    obtain ⟨store, ⟨control, frames, scope, depth, calls, file⟩, threads, age⟩ := w
    obtain rfl : control = .outcome o := hcontrol
    obtain rfl : frames = [] := hframes
    cases position with
    | none => cases o <;> rfl
    | some q =>
        cases o with
        | failed failure =>
            have hknown : (failure.recast (.ofFile f)).position.isKnown = true :=
              hplace failure q rfl rfl
            have hlocated : Task.located s (failure.recast (.ofFile f)) q =
                (failure.recast (.ofFile f), _) := if_pos hknown
            simp only [Task.recast, Control.recast, Outcome.recast, List.map_nil, List.nil_append,
              Task.step, Task.resume, Task.exited, hlocated]
            rfl
        | _ => rfl
  have hleaves := h.leaves he hexits
  have hleft : ({ w.main with control := .outcome o, scope := none } : Task).result? = some o :=
    Task.result?_eq_some_iff.mpr ⟨rfl, hframes⟩
  have hended : (d.move limits e).main.result?.map (Outcome.recast (.ofFile f)) =
      some (o.recast (.ofFile f)) := by
    rw [← Task.result?_recast (.ofFile f) .ground _ rfl, hleaves.main,
      Task.result?_recast (.ofFile f) .ground _ rfl]
    exact congrArg (Option.map _) hleft
  obtain ⟨o', ho', hsame⟩ := Option.map_eq_some_iff.mp hended
  exact ⟨o', ho', hsame, hleaves.agrees.store, hleaves.agrees.threads⟩

end Above

end World

end Scriptlet
