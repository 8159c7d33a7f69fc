/-
The events of a run.  They lead from a world to another one as long as the main
thread has something to do before each; whatever the terms of a run are, it is led
by the events that these feed it.  What other threads do meanwhile does not depend
on the main thread.
-/
import Scriptlet.Proofs.GuiseSteps
import Scriptlet.Proofs.WorldSteps

namespace Scriptlet

/-- Terms on which some events happen, one after the other, from an age on. -/
def Terms.along (limits : Limits) (age : Nat) (es : List Event) : Terms :=
  .following limits fun n => es.getD (n - age) ⟨none, .bare⟩

/-- Whether events are others with some that are extra in between. -/
inductive Padded (extra : Event → Prop) : List Event → List Event → Prop where
  | nil : Padded extra [] []
  | same (e : Event) {es es' : List Event} (h : Padded extra es es') :
      Padded extra (e :: es) (e :: es')
  | extra {e : Event} (hextra : extra e) {es es' : List Event} (h : Padded extra es es') :
      Padded extra es (e :: es')

namespace Padded

variable {extra extra' : Event → Prop} {as as' bs bs' : List Event}

theorem refl (es : List Event) : Padded extra es es := by
  induction es with
  | nil => exact .nil
  | cons e es ih => exact ih.same e

theorem append (h : Padded extra as as') (h' : Padded extra bs bs') :
    Padded extra (as ++ bs) (as' ++ bs') := by
  induction h with
  | nil => exact h'
  | same e _ ih => exact ih.same e
  | extra hextra _ ih => exact ih.extra hextra

theorem concat (h : Padded extra as as') {e : Event} (hextra : extra e) :
    Padded extra as (as' ++ [e]) := by
  have hlast : Padded extra [] [e] := Padded.nil.extra hextra
  simpa using h.append hlast

theorem all {P : Event → Prop} (h : Padded extra as as') (has : ∀ e ∈ as, P e)
    (hextra : ∀ e, extra e → P e) : ∀ e ∈ as', P e := by
  induction h with
  | nil => exact List.forall_mem_nil _
  | same e _ ih =>
      obtain ⟨he, hrest⟩ := List.forall_mem_cons.mp has
      exact List.forall_mem_cons.mpr ⟨he, ih hrest⟩
  | extra he _ ih => exact List.forall_mem_cons.mpr ⟨hextra _ he, ih has⟩

end Padded

/-- Events are those before the first one of the main thread in one way only. -/
theorem first_main_unique {as as' bs bs' : List Event} {a b : Event}
    (has : ∀ e ∈ as, e.actor ≠ none) (hbs : ∀ e ∈ bs, e.actor ≠ none) (ha : a.actor = none)
    (hb : b.actor = none) (h : as ++ a :: as' = bs ++ b :: bs') : as = bs ∧ a = b := by
  induction as generalizing bs with
  | nil =>
      cases bs with
      | nil => exact ⟨rfl, (List.cons.inj h).1⟩
      | cons e bs =>
          obtain ⟨rfl, -⟩ := List.cons.inj h
          exact absurd ha (hbs _ List.mem_cons_self)
  | cons e as ih =>
      obtain ⟨he, has⟩ := List.forall_mem_cons.mp has
      cases bs with
      | nil =>
          obtain ⟨rfl, -⟩ := List.cons.inj h
          exact absurd hb he
      | cons e' bs =>
          obtain ⟨rfl, htail⟩ := List.cons.inj h
          obtain ⟨rfl, rfl⟩ := ih has (List.forall_mem_cons.mp hbs).2 htail
          exact ⟨rfl, rfl⟩

namespace World

variable {limits : Limits} {horizon : Nat} {u v w : World} {o : Outcome} {e : Event}
  {es es' : List Event} {events : Nat → Event}

/-- Whether events lead from a world to another one, the main thread having something to do
before each. -/
inductive Along (limits : Limits) : World → List Event → World → Prop where
  | here (w : World) : Along limits w [] w
  | on {v w : World} {e : Event} {es : List Event} (hgoing : w.main.result? = none)
      (h : Along limits (w.move limits e) es v) : Along limits w (e :: es) v

theorem main_move_other (limits : Limits) (w : World) (he : e.actor ≠ none) :
    (w.move limits e).main = w.main := by
  obtain ⟨actor, o⟩ := e
  cases actor with
  | none => exact absurd rfl he
  | some id => exact main_move_of_some limits w id o

namespace Along

theorem trans (h : w.Along limits es v) (h' : v.Along limits es' u) :
    w.Along limits (es ++ es') u := by
  induction h with
  | here w => exact h'
  | on hgoing _ ih => exact .on hgoing (ih h')

theorem split (h : w.Along limits (es ++ es') u) :
    ∃ v, w.Along limits es v ∧ v.Along limits es' u := by
  induction es generalizing w with
  | nil => exact ⟨w, .here w, h⟩
  | cons e es ih =>
      cases h with
      | on hgoing h =>
          obtain ⟨v, hv, hu⟩ := ih h
          exact ⟨v, .on hgoing hv, hu⟩

theorem concat (h : w.Along limits es v) (hgoing : v.main.result? = none) (e : Event) :
    w.Along limits (es ++ [e]) (v.move limits e) :=
  h.trans (.on hgoing (.here _))

theorem unique (h : w.Along limits es v) (h' : w.Along limits es u) : u = v := by
  induction h with
  | here w =>
      cases h'
      rfl
  | on _ _ ih =>
      cases h' with
      | on _ h' => exact ih h'

theorem age (h : w.Along limits es v) : v.age = w.age + es.length := by
  induction h with
  | here w => rfl
  | on _ _ ih =>
      rw [ih, age_move, List.length_cons]
      omega

/-- A world whose main thread has a result is led nowhere. -/
theorem of_result (h : w.Along limits es v) (hresult : w.main.result? = some o) :
    es = [] ∧ v = w := by
  cases h with
  | here => exact ⟨rfl, rfl⟩
  | on hgoing _ => exact nomatch hgoing.symm.trans hresult

end Along

/-- Whether events lead a run to a result of the main thread, and no further. -/
structure Ends (limits : Limits) (w : World) (es : List Event) (o : Outcome)
    (v : World) : Prop where
  along : w.Along limits es v
  result : v.main.result? = some o

theorem Ends.unique {o' : Outcome} (h : w.Ends limits es o v) (h' : w.Ends limits es o' u) :
    o' = o ∧ u = v := by
  obtain rfl := h.along.unique h'.along
  exact ⟨Option.some.inj (h'.result.symm.trans h.result), rfl⟩

theorem Ends.after (h : v.Ends limits es' o u) (hv : w.Along limits es v) :
    w.Ends limits (es ++ es') o u := ⟨hv.trans h.along, h.result⟩

theorem Ends.next (h : w.Ends limits (e :: es) o v) : (w.move limits e).Ends limits es o v := by
  obtain ⟨halong, hresult⟩ := h
  cases halong with
  | on _ halong => exact ⟨halong, hresult⟩

theorem Ends.later (h : w.Ends limits (es ++ es') o u) (hv : w.Along limits es v) :
    v.Ends limits es' o u := by
  obtain ⟨v', hv', hu⟩ := h.along.split
  obtain rfl := hv.unique hv'
  exact ⟨hu, h.result⟩

/-- It is the main thread that comes to its result. -/
theorem Ends.last_main (h : w.Ends limits (es ++ [e]) o v) : e.actor = none := by
  obtain ⟨u, -, hlast⟩ := h.along.split
  cases hlast with
  | on hgoing hlast =>
      cases hlast
      refine Decidable.byContradiction fun he => ?_
      have hresult := h.result
      rw [main_move_other limits u he, hgoing] at hresult
      exact nomatch hresult

/-- A run that meets events by number comes to a result after as many of them as lead to it. -/
theorem finish_following :
    w.finish (.following limits events) horizon = some (o, v) ↔
      ∃ k < horizon, w.Along limits ((List.range' w.age k).map events) v ∧
        v.main.result? = some o := by
  induction horizon generalizing w with
  | zero => exact iff_of_false nofun (by rintro ⟨k, hk, -⟩; exact Nat.not_lt_zero k hk)
  | succ horizon ih =>
      cases hresult : w.main.result? with
      | none =>
          rw [finish_succ hresult, ih]
          have hage : (w.step (.following limits events)).age = w.age + 1 := age_move _ _ _
          constructor
          · rintro ⟨k, hk, halong, ho⟩
            refine ⟨k + 1, by omega, ?_, ho⟩
            rw [hage] at halong
            rw [List.range'_succ, List.map_cons]
            exact .on hresult halong
          · rintro ⟨k, hk, halong, ho⟩
            cases k with
            | zero =>
                cases halong
                exact nomatch hresult.symm.trans ho
            | succ k =>
                rw [List.range'_succ, List.map_cons] at halong
                cases halong with
                | on _ halong =>
                    refine ⟨k, by omega, ?_, ho⟩
                    rw [hage]
                    exact halong
      | some o' =>
          rw [finish_result hresult]
          constructor
          · intro h
            obtain ⟨rfl, rfl⟩ := Prod.mk.inj (Option.some.inj h)
            exact ⟨0, Nat.succ_pos _, .here w, hresult⟩
          · rintro ⟨k, -, halong, ho⟩
            obtain ⟨-, rfl⟩ := halong.of_result hresult
            obtain rfl := Option.some.inj (ho.symm.trans hresult)
            rfl

theorem fed_along (age : Nat) (es : List Event) :
    (List.range' age es.length).map (fun n => es.getD (n - age) ⟨none, .bare⟩) = es := by
  apply List.ext_getElem
  · simp
  · intro i hi hi'
    simp [hi']

/-- A run that meets some events comes to a result with the last of them where they lead to it. -/
theorem finish_along :
    (∃ horizon, w.finish (.along limits w.age es) horizon = some (o, v)) ∧
      v.age = w.age + es.length ↔ w.Ends limits es o v := by
  constructor
  · rintro ⟨⟨horizon, h⟩, hage⟩
    obtain ⟨k, -, halong, ho⟩ := finish_following.mp h
    have hk : k = es.length := by
      have hlength := halong.age
      rw [List.length_map, List.length_range'] at hlength
      omega
    rw [hk, fed_along] at halong
    exact ⟨halong, ho⟩
  · rintro ⟨halong, ho⟩
    refine ⟨⟨es.length + 1, finish_following.mpr ⟨es.length, Nat.lt_succ_self _, ?_, ho⟩⟩,
      halong.age⟩
    rw [fed_along]
    exact halong

/-- Whether on the way by some events no thread is ever about to exceed a limit. -/
def Roomy (limits : Limits) (w : World) (es : List Event) : Prop :=
  ∀ before v, before <+: es → w.Along limits before v →
    ∀ t ∈ v.tasks, ¬ t.Exceeds limits v.store

theorem Roomy.here (h : w.Roomy limits es) : ∀ t ∈ w.tasks, ¬ t.Exceeds limits w.store :=
  h [] w List.nil_prefix (.here w)

theorem Roomy.next (h : w.Roomy limits (e :: es)) (hgoing : w.main.result? = none) :
    (w.move limits e).Roomy limits es :=
  fun before u hbefore hu =>
    h (e :: before) u (List.cons_prefix_cons.mpr ⟨rfl, hbefore⟩) (.on hgoing hu)

theorem Roomy.later (h : w.Roomy limits (es ++ es')) (hv : w.Along limits es v) :
    v.Roomy limits es' :=
  fun before u hbefore hu =>
    h (es ++ before) u ((List.prefix_append_right_inj es).mpr hbefore) (hv.trans hu)

theorem Roomy.left (h : w.Roomy limits (es ++ es')) : w.Roomy limits es :=
  fun before u hbefore hu => h before u (hbefore.trans (List.prefix_append es es')) hu

/-- There is no way beyond a result. -/
theorem Roomy.beyond (h : w.Roomy limits es) (hends : w.Ends limits es o v) (es' : List Event) :
    w.Roomy limits (es ++ es') := by
  intro before u hbefore hu
  rcases List.prefix_or_prefix_of_prefix hbefore (List.prefix_append es es') with
    hshort | ⟨more, rfl⟩
  · exact h before u hshort hu
  · obtain ⟨v', hv', hmore⟩ := hu.split
    obtain rfl := hends.along.unique hv'
    obtain ⟨rfl, rfl⟩ := hmore.of_result hends.result
    exact h es _ List.prefix_rfl hends.along

instance (limits : Limits) (s : Store) : (t : Task) → Decidable (t.Exceeds limits s)
  | ⟨.expr _ _, _, _, _, _, _⟩ | ⟨.stmt _ _, _, _, _, _, _⟩ | ⟨.block _ _, _, _, _, _, _⟩
  | ⟨.program _ _, _, _, _, _, _⟩ => inferInstanceAs (Decidable (_ ∨ _))
  | ⟨.hook _ _ _, _, _, _, _, _⟩ => inferInstanceAs (Decidable (_ < _))
  | ⟨.call _ _, _, _, _, _, _⟩ | ⟨.asleep _, _, _, _, _, _⟩ | ⟨.joining _, _, _, _, _, _⟩
  | ⟨.outcome _, _, _, _, _, _⟩ => inferInstanceAs (Decidable False)

theorem roomy_cons (w : World) (e : Event) (es : List Event) :
    w.Roomy limits (e :: es) ↔ (∀ t ∈ w.tasks, ¬ t.Exceeds limits w.store) ∧
      (w.main.result? = none → (w.move limits e).Roomy limits es) := by
  constructor
  · exact fun h => ⟨h.here, h.next⟩
  · rintro ⟨hhere, hlater⟩ before v hbefore hv
    cases hv with
    | here => exact hhere
    | on hgoing hv =>
        obtain ⟨rfl, hrest⟩ := List.cons_prefix_cons.mp hbefore
        exact hlater hgoing _ _ hrest hv

instance (limits : Limits) : (w : World) → (es : List Event) → Decidable (w.Roomy limits es)
  | w, [] => decidable_of_iff (∀ t ∈ w.tasks, ¬ t.Exceeds limits w.store) <| by
    constructor
    · intro h before v hbefore hv
      obtain rfl := List.prefix_nil.mp hbefore
      cases hv
      exact h
    · exact Roomy.here
  | w, e :: es =>
    have : Decidable ((w.move limits e).Roomy limits es) := instDecidableRoomy limits _ es
    decidable_of_iff _ (roomy_cons w e es).symm

/-- The run with another main thread. -/
def led (w : World) (t : Task) : World := { w with main := t }

/-- Other threads do the same whatever the main thread is. -/
theorem move_led (limits : Limits) (w : World) (t : Task) (he : e.actor ≠ none) :
    (w.led t).move limits e = (w.move limits e).led t := by
  obtain ⟨actor, o⟩ := e
  cases actor with
  | none => exact absurd rfl he
  | some id =>
      simp only [led, move, within, act]
      cases w.store.threads[id]? with
      | none => rfl
      | some cell => cases cell <;> rfl

/-- What an event of the main thread does to a run. -/
theorem move_main (limits : Limits) (w : World) (t : Task) {t' : Task} {s : Store}
    (he : e.actor = none)
    (hstep : t.step limits (w.within e.outside).store = (t', s)) :
    (w.led t).move limits e = { w.within e.outside with main := t', store := s } := by
  obtain ⟨actor, o⟩ := e
  obtain rfl : actor = none := he
  obtain ⟨hmain, hstore⟩ := Prod.mk.inj hstep
  subst hmain hstore
  rfl

/-- What other threads make of a world by their share of some events. -/
def meanwhile (limits : Limits) (w : World) (es : List Event) : World :=
  (es.filter fun e => e.actor.isSome).foldl (World.move limits) w

theorem meanwhile_cons_other (limits : Limits) (w : World) (he : e.actor ≠ none)
    (es : List Event) : w.meanwhile limits (e :: es) = (w.move limits e).meanwhile limits es := by
  have hsome : e.actor.isSome = true := Option.isSome_iff_ne_none.mpr he
  simp [meanwhile, hsome]

theorem meanwhile_cons_main (limits : Limits) (w : World) (he : e.actor = none)
    (es : List Event) : w.meanwhile limits (e :: es) = w.meanwhile limits es := by
  simp [meanwhile, he]

theorem meanwhile_append (limits : Limits) (w : World) (es es' : List Event) :
    w.meanwhile limits (es ++ es') = (w.meanwhile limits es).meanwhile limits es' := by
  simp [meanwhile]

theorem main_meanwhile (limits : Limits) (w : World) (es : List Event) :
    (w.meanwhile limits es).main = w.main := by
  induction es generalizing w with
  | nil => rfl
  | cons e es ih =>
      by_cases he : e.actor = none
      · rw [meanwhile_cons_main limits w he, ih]
      · rw [meanwhile_cons_other limits w he, ih, main_move_other limits w he]

/-- The way by events of other threads. -/
theorem along_others (limits : Limits) (hes : ∀ e ∈ es, e.actor ≠ none)
    (hgoing : w.main.result? = none) : w.Along limits es (w.meanwhile limits es) := by
  induction es generalizing w with
  | nil => exact .here w
  | cons e es ih =>
      obtain ⟨he, hes⟩ := List.forall_mem_cons.mp hes
      rw [meanwhile_cons_other limits w he]
      refine .on hgoing (ih hes ?_)
      rw [main_move_other limits w he]
      exact hgoing

theorem meanwhile_led (limits : Limits) (w : World) (t : Task) (es : List Event) :
    (w.led t).meanwhile limits es = (w.meanwhile limits es).led t := by
  induction es generalizing w with
  | nil => rfl
  | cons e es ih =>
      by_cases he : e.actor = none
      · rw [meanwhile_cons_main limits _ he, meanwhile_cons_main limits _ he, ih]
      · rw [meanwhile_cons_other limits _ he, meanwhile_cons_other limits _ he,
          move_led limits w t he, ih]

theorem along_doing (limits : Limits) (hes : ∀ e ∈ es, e.actor ≠ none) (u : World) (t : Task)
    (c : Control) (hc : ∀ o, c ≠ .outcome o) :
    (u.led (t.doing c)).Along limits es ((u.meanwhile limits es).led (t.doing c)) := by
  have hgoing : (u.led (t.doing c)).main.result? = none :=
    (Task.result?_eq_none_iff _).mpr fun ⟨_, o, ho⟩ => hc o ho
  have halong := along_others limits hes hgoing
  rw [meanwhile_led] at halong
  exact halong

/-- A way to a result comes to where the main thread first goes on. -/
theorem Ends.first_main (h : w.Ends limits es o v) (hgoing : w.main.result? = none) :
    ∃ others e rest, es = others ++ e :: rest ∧ (∀ e ∈ others, e.actor ≠ none) ∧
      e.actor = none ∧ ((w.meanwhile limits others).move limits e).Ends limits rest o v := by
  obtain ⟨h, hresult⟩ := h
  induction h with
  | here w => exact nomatch hgoing.symm.trans hresult
  | @on v w e es _ h ih =>
      by_cases he : e.actor = none
      · exact ⟨[], e, es, rfl, List.forall_mem_nil _, he, h, hresult⟩
      · have hnext : (w.move limits e).main.result? = none := by
          rw [main_move_other limits w he]
          exact hgoing
        obtain ⟨others, e', rest, rfl, hothers, he', hrest⟩ := ih hnext hresult
        refine ⟨e :: others, e', rest, rfl, List.forall_mem_cons.mpr ⟨he, hothers⟩, he', ?_⟩
        rw [meanwhile_cons_other limits w he]
        exact hrest

end World

end Scriptlet
