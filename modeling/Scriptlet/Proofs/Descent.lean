/-
How far the conversion of a value to the host goes down into lists.  It comes to an end exactly
when no list that it enters is met inside itself: a list that is met again is entered again, since
nothing is kept of the lists on the way.
-/
import Mathlib.Data.Finset.Card
import Mathlib.Logic.Relation
import Scriptlet.Proofs.Moments
import Scriptlet.Session

namespace Scriptlet

namespace Marshal

open Relation

variable {s : Store}

/-- The list that conversion enters for a value, where a type is wanted or not, with the type that
its items are wanted in. -/
def visit? (wanted : Option HostType) (v : Value) : Option (HostType × Nat) :=
  if wanted == some .object then none
  else
    match payload? v with
    | some (.list id) => some (itemType wanted, id)
    | _ => none

theorem item_of_visit? {wanted : Option HostType} {v : Value} {a : HostType × Nat}
    (hv : visit? wanted v = some a) : a.1 = itemType wanted := by
  rw [visit?] at hv
  split at hv
  · cases hv
  · split at hv <;> cases hv
    rfl

/-- What comes of a list whose items are wanted in a type. -/
def within (s : Store) : Nat → HostType × Nat → Option (Except Text HostValue)
  | 0, _ => none
  | limit + 1, (item, id) =>
    (fromValues s limit item 0 [] (s.listItems id).toList).map (Except.map (HostValue.slice item))

/-- Either a list is entered for a value, or something comes of it at once. -/
theorem fromValue_cases (s : Store) (wanted : Option HostType) (v : Value) :
    (∃ a, visit? wanted v = some a ∧ ∀ limit, fromValue s limit wanted v = within s limit a) ∨
      visit? wanted v = none ∧ ∃ r, ∀ limit, fromValue s limit wanted v = some r := by
  by_cases hobject : (wanted == some .object) = true
  · exact .inr ⟨by rw [visit?, if_pos hobject], _, fun limit => by rw [fromValue, if_pos hobject]⟩
  · cases hp : payload? v with
    | none =>
        exact .inr ⟨by rw [visit?, if_neg hobject, hp],
          _, fun limit => by rw [fromValue, if_neg hobject, hp]⟩
    | some w =>
        cases w with
        | list id =>
            refine .inl ⟨(itemType wanted, id), by rw [visit?, if_neg hobject, hp], ?_⟩
            intro limit
            rw [fromValue, if_neg hobject, hp]
            cases limit <;> rfl
        | _ =>
            exact .inr ⟨by rw [visit?, if_neg hobject, hp],
              _, fun limit => by rw [fromValue, if_neg hobject, hp]⟩

theorem fromValue_eq_within {wanted : Option HostType} {v : Value} {a : HostType × Nat}
    (hv : visit? wanted v = some a) (limit : Nat) :
    fromValue s limit wanted v = within s limit a := by
  obtain ⟨b, hb, hlimit⟩ | ⟨hnone, -⟩ := fromValue_cases s wanted v
  · cases hb.symm.trans hv
    exact hlimit limit
  · cases hnone.symm.trans hv

theorem exists_visit? {wanted : Option HostType} {v : Value} {limit : Nat}
    (hnone : fromValue s limit wanted v = none) :
    ∃ a, visit? wanted v = some a ∧ within s limit a = none := by
  obtain ⟨a, ha, hlimit⟩ | ⟨-, r, hr⟩ := fromValue_cases s wanted v
  · exact ⟨a, ha, (hlimit limit).symm.trans hnone⟩
  · cases (hr limit).symm.trans hnone

/-- Something that came of values at a limit comes of them at another one too where it did of
each. -/
theorem fromValues_congr {limit limit' : Nat} {item : HostType}
    (hstep : ∀ v r, fromValue s limit (some item) v = some r →
      fromValue s limit' (some item) v = some r)
    (items : List Value) (n : Nat) (before : List HostValue) {r : Except Text (List HostValue)}
    (hr : fromValues s limit item n before items = some r) :
    fromValues s limit' item n before items = some r := by
  induction items generalizing n before with
  | nil => rwa [fromValues] at hr ⊢
  | cons v rest ih =>
      cases hv : fromValue s limit (some item) v with
      | none =>
          rw [fromValues, hv] at hr
          cases hr
      | some c =>
          have hv' := hstep v c hv
          rcases c with reason | h
          · rw [fromValues, hv] at hr
            rw [fromValues, hv']
            exact hr
          · by_cases hnil : h = .nil
            · subst hnil
              rw [fromValues, hv] at hr
              rw [fromValues, hv']
              exact ih _ _ hr
            · rw [fromValues_cons hv hnil] at hr
              rw [fromValues_cons hv' hnil]
              cases hassign : assign? h item with
              | none =>
                  rw [hassign] at hr
                  exact hr
              | some h' =>
                  rw [hassign] at hr
                  exact ih _ _ hr

theorem within_succ {limit : Nat} {a : HostType × Nat} {r : Except Text HostValue}
    (hr : within s limit a = some r) : within s (limit + 1) a = some r := by
  induction limit generalizing a r with
  | zero => cases hr
  | succ limit ih =>
      obtain ⟨hs, hitems, rfl⟩ := Option.map_eq_some_iff.mp hr
      refine Option.map_eq_some_iff.mpr ⟨hs, fromValues_congr ?_ _ _ _ hitems, rfl⟩
      intro v c hc
      obtain ⟨b, -, hb⟩ | ⟨-, c', hc'⟩ := fromValue_cases s (some a.1) v
      · rw [hb] at hc ⊢
        exact ih hc
      · rwa [hc'] at hc ⊢

theorem within_mono {limit limit' : Nat} (hle : limit ≤ limit') {a : HostType × Nat}
    {r : Except Text HostValue} (hr : within s limit a = some r) :
    within s limit' a = some r := by
  induction hle with
  | refl => exact hr
  | step _ ih => exact within_succ ih

theorem fromValue_mono {limit limit' : Nat} (hle : limit ≤ limit') {wanted : Option HostType}
    {v : Value} {r : Except Text HostValue} (hr : fromValue s limit wanted v = some r) :
    fromValue s limit' wanted v = some r := by
  obtain ⟨a, -, hlimit⟩ | ⟨-, r', hr'⟩ := fromValue_cases s wanted v
  · rw [hlimit] at hr ⊢
    exact within_mono hle hr
  · rwa [hr'] at hr ⊢

theorem within_eq_none_of_le {limit limit' : Nat} (hle : limit ≤ limit') {a : HostType × Nat}
    (hnone : within s limit' a = none) : within s limit a = none := by
  cases hr : within s limit a with
  | none => rfl
  | some r => cases (within_mono hle hr).symm.trans hnone

/-- An item with which the conversion of the items goes on. -/
def Passes (s : Store) (item : HostType) (v : Value) : Prop :=
  ∃ limit h, fromValue s limit (some item) v = some (.ok h) ∧
    (h = .nil ∨ (assign? h item).isSome = true)

/-- From inside one list conversion enters another: all items before have passed. -/
def Enters (s : Store) (a b : HostType × Nat) : Prop :=
  ∃ before v rest, (s.listItems a.2).toList = before ++ v :: rest ∧
    (∀ u ∈ before, Passes s a.1 u) ∧ visit? (some a.1) v = some b

theorem Enters.item_eq {a b : HostType × Nat} (hab : Enters s a b) :
    b.1 = itemType (some a.1) := by
  obtain ⟨_, v, _, -, -, hv⟩ := hab
  exact item_of_visit? hv

theorem Enters.lt_size {a b : HostType × Nat} (hab : Enters s a b) : a.2 < s.lists.size := by
  obtain ⟨before, v, rest, hitems, -⟩ := hab
  by_contra hle
  rw [Store.listItems, Array.getElem?_eq_none (Nat.not_lt.mp hle)] at hitems
  cases before <;> cases hitems

theorem fromValues_passed {limit : Nat} {item : HostType} {v : Value} {h : HostValue}
    (hv : fromValue s limit (some item) v = some (.ok h))
    (hpass : h = .nil ∨ (assign? h item).isSome = true) (n : Nat) (before : List HostValue)
    (rest : List Value) :
    ∃ before', fromValues s limit item n before (v :: rest) =
      fromValues s limit item (n + 1) before' rest := by
  by_cases hnil : h = .nil
  · subst hnil
    rw [fromValues, hv]
    exact ⟨_, rfl⟩
  · obtain ⟨h', hassign⟩ := Option.isSome_iff_exists.mp (hpass.resolve_left hnil)
    rw [fromValues_cons hv hnil, hassign]
    exact ⟨_, rfl⟩

/-- Where nothing comes of items, nothing comes of one of them, and those before it pass. -/
theorem exists_of_fromValues_eq_none {limit : Nat} {item : HostType} (items : List Value) (n : Nat)
    (done : List HostValue) (hnone : fromValues s limit item n done items = none) :
    ∃ before v rest, items = before ++ v :: rest ∧ (∀ u ∈ before, Passes s item u) ∧
      fromValue s limit (some item) v = none := by
  induction items generalizing n done with
  | nil => rw [fromValues] at hnone; cases hnone
  | cons v rest ih =>
      cases hv : fromValue s limit (some item) v with
      | none => exact ⟨[], v, rest, rfl, List.forall_mem_nil _, hv⟩
      | some r =>
          have hgoes : ∃ h, r = .ok h ∧ (h = .nil ∨ (assign? h item).isSome = true) := by
            rcases r with reason | h
            · rw [fromValues, hv] at hnone
              cases hnone
            · refine ⟨h, rfl, or_iff_not_imp_left.mpr fun hnil => ?_⟩
              rw [fromValues_cons hv hnil] at hnone
              cases hassign : assign? h item with
              | none =>
                  rw [hassign] at hnone
                  cases hnone
              | some _ => rfl
          obtain ⟨h, rfl, hpass⟩ := hgoes
          obtain ⟨done', hrest⟩ := fromValues_passed hv hpass n done rest
          obtain ⟨before, u, after, rfl, hbefore, hu⟩ := ih _ _ (hrest.symm.trans hnone)
          refine ⟨v :: before, u, after, rfl, ?_, hu⟩
          exact List.forall_mem_cons.mpr ⟨⟨limit, h, hv, hpass⟩, hbefore⟩

theorem exists_enters {limit : Nat} {a : HostType × Nat} (hnone : within s (limit + 1) a = none) :
    ∃ b, Enters s a b ∧ within s limit b = none := by
  obtain ⟨before, v, rest, hitems, hbefore, hv⟩ :=
    exists_of_fromValues_eq_none _ _ _ (Option.map_eq_none_iff.mp hnone)
  obtain ⟨b, hb, hwithin⟩ := exists_visit? hv
  exact ⟨b, ⟨before, v, rest, hitems, hbefore, hb⟩, hwithin⟩

theorem fromValues_eq_none {limit : Nat} {item : HostType} {v : Value}
    (hv : fromValue s limit (some item) v = none) (rest : List Value) (before : List Value)
    (hbefore : ∀ u ∈ before, Passes s item u) (n : Nat) (done : List HostValue) :
    fromValues s limit item n done (before ++ v :: rest) = none := by
  induction before generalizing n done with
  | nil => rw [List.nil_append, fromValues, hv]
  | cons u before ih =>
      obtain ⟨⟨limit', h, hu, hpass⟩, hbefore⟩ := List.forall_mem_cons.mp hbefore
      cases hu' : fromValue s limit (some item) u with
      | none => rw [List.cons_append, fromValues, hu']
      | some r =>
          have hr : some r = some (.ok h) := by
            rw [← fromValue_mono (Nat.le_max_left limit limit') hu',
              fromValue_mono (Nat.le_max_right limit limit') hu]
          obtain ⟨done', hrest⟩ :=
            fromValues_passed (hu'.trans hr) hpass n done (before ++ v :: rest)
          exact hrest.trans (ih hbefore _ _)

theorem Enters.within_eq_none {limit : Nat} {a b : HostType × Nat} (hab : Enters s a b)
    (hnone : within s limit b = none) : within s (limit + 1) a = none := by
  obtain ⟨before, v, rest, hitems, hbefore, hv⟩ := hab
  rw [within, hitems,
    fromValues_eq_none ((fromValue_eq_within hv limit).trans hnone) rest before hbefore, Option.map]

/-- From a list conversion comes to one that it meets inside itself. -/
def Endless (s : Store) (a : HostType × Nat) : Prop :=
  ∃ c, ReflTransGen (Enters s) a c ∧ TransGen (Enters s) c c

/-- In converting a value, where a type is wanted or not, a list is met inside itself. -/
def MeetsItself (s : Store) (wanted : Option HostType) (v : Value) : Prop :=
  ∃ a, visit? wanted v = some a ∧ Endless s a

theorem within_eq_none_of_transGen {a b : HostType × Nat} (hab : TransGen (Enters s) a b)
    {limit : Nat} (hnone : within s limit b = none) : within s (limit + 1) a = none := by
  induction hab generalizing limit with
  | single hab => exact hab.within_eq_none hnone
  | tail _ hbc ih =>
      exact ih (within_eq_none_of_le (Nat.le_succ limit) (hbc.within_eq_none hnone))

/-- Nothing ever comes of a list from which one is reached that is met inside itself. -/
theorem Endless.within_eq_none {a : HostType × Nat} (ha : Endless s a) (limit : Nat) :
    within s limit a = none := by
  obtain ⟨c, hac, hcc⟩ := ha
  have hc : ∀ limit, within s limit c = none := by
    intro limit
    induction limit with
    | zero => rfl
    | succ limit ih => exact within_eq_none_of_transGen hcc ih
  induction hac using ReflTransGen.head_induction_on generalizing limit with
  | refl => exact hc limit
  | head hab _ ih => exact within_eq_none_of_le (Nat.le_succ limit) (hab.within_eq_none (ih limit))

theorem Endless.head {a b : HostType × Nat} (hab : Enters s a b) (hb : Endless s b) :
    Endless s a := by
  obtain ⟨c, hbc, hcc⟩ := hb
  exact ⟨c, hbc.head hab, hcc⟩

/-- Where there are fewer lists than conversion goes down, one of them is met inside itself.  The
lists `above` have been entered on the way, each once. -/
theorem endless_of_above (limit id : Nat) (above : List Nat) (hnodup : above.Nodup)
    (hlt : ∀ i ∈ above, i < s.lists.size)
    (hreach : ∀ i ∈ above, TransGen (Enters s) (.any, i) (.any, id))
    (hsize : s.lists.size < above.length + limit) (hnone : within s limit (.any, id) = none) :
    Endless s (.any, id) := by
  induction limit generalizing id above with
  | zero =>
      exfalso
      have hsub : above.toFinset ⊆ Finset.range s.lists.size := fun i hi =>
        Finset.mem_range.mpr (hlt i (List.mem_toFinset.mp hi))
      have hcard := Finset.card_le_card hsub
      rw [List.toFinset_card_of_nodup hnodup, Finset.card_range] at hcard
      omega
  | succ limit ih =>
      obtain ⟨⟨item, id'⟩, henters, hnone'⟩ := exists_enters hnone
      obtain rfl : item = .any := henters.item_eq
      by_cases hmem : id ∈ above
      · exact ⟨_, .refl, hreach id hmem⟩
      · refine .head henters (ih id' (id :: above) (.cons hmem hnodup) ?_ ?_ ?_ hnone')
        · exact List.forall_mem_cons.mpr ⟨henters.lt_size, hlt⟩
        · exact List.forall_mem_cons.mpr
            ⟨.single henters, fun i hi => (hreach i hi).tail henters⟩
        · rw [List.length_cons]
          omega

/-- The items of a slice are of fewer slices than it, and those of anything else are wanted in no
type of their own. -/
theorem itemType_depth (item : HostType) :
    itemType (some item) = .any ∨ (itemType (some item)).depth < item.depth := by
  induction item with
  | slice item _ => exact .inr (Nat.lt_succ_self _)
  | named name shape ih => exact ih
  | _ => exact .inl rfl

theorem endless_of_within_eq_none {item : HostType} {limit id : Nat}
    (hle : s.lists.size + item.depth + 2 ≤ limit) (hnone : within s limit (item, id) = none) :
    Endless s (item, id) := by
  induction hdepth : item.depth using Nat.strong_induction_on generalizing item limit id with
  | _ depth ih =>
      obtain ⟨limit, rfl⟩ : ∃ n, limit = n + 1 := ⟨limit - 1, by omega⟩
      obtain ⟨⟨item', id'⟩, henters, hnone'⟩ := exists_enters hnone
      obtain rfl : item' = itemType (some item) := henters.item_eq
      rcases itemType_depth item with hany | hless
      · rw [hany] at henters hnone'
        have hsize : s.lists.size < ([] : List Nat).length + limit := by
          rw [List.length_nil]
          omega
        exact .head henters (endless_of_above limit id' [] .nil nofun nofun hsize hnone')
      · exact .head henters (ih _ (hdepth ▸ hless) (by omega) hnone' rfl)

theorem depth_itemType_le (wanted : Option HostType) :
    (itemType wanted).depth ≤ (wanted.map HostType.depth).getD 0 := by
  cases wanted with
  | none => exact Nat.le_refl _
  | some wanted =>
      rcases itemType_depth wanted with hany | hless
      · rw [hany]
        exact Nat.zero_le _
      · exact Nat.le_of_lt hless

/-- Conversion comes to nothing at the limit exactly where a list is met inside itself. -/
theorem fromValue_eq_none_iff (s : Store) (wanted : Option HostType) (v : Value) :
    fromValue s (nestingLimit s wanted) wanted v = none ↔ MeetsItself s wanted v := by
  constructor
  · intro hnone
    obtain ⟨⟨item, id⟩, hv, hwithin⟩ := exists_visit? hnone
    refine ⟨_, hv, endless_of_within_eq_none ?_ hwithin⟩
    obtain rfl : item = itemType wanted := item_of_visit? hv
    have hdepth := depth_itemType_le wanted
    rw [nestingLimit]
    omega
  · rintro ⟨a, hv, ha⟩
    rw [fromValue_eq_within hv]
    exact ha.within_eq_none _

/-- Nothing is lost at the limit: what comes of a value at any depth comes of it there. -/
theorem fromValue_nestingLimit {wanted : Option HostType} {v : Value} {limit : Nat}
    {r : Except Text HostValue} (hr : fromValue s limit wanted v = some r) :
    fromValue s (nestingLimit s wanted) wanted v = some r := by
  cases hlimit : fromValue s (nestingLimit s wanted) wanted v with
  | none =>
      obtain ⟨a, hv, ha⟩ := (fromValue_eq_none_iff s wanted v).mp hlimit
      rw [fromValue_eq_within hv, ha.within_eq_none] at hr
      cases hr
  | some r' =>
      rw [← fromValue_mono (Nat.le_max_left _ limit) hlimit,
    fromValue_mono (Nat.le_max_right _ _) hr]

/-- Something comes of a value at some depth exactly where no list is met inside itself. -/
theorem exists_isSome_iff (s : Store) (wanted : Option HostType) (v : Value) :
    (∃ limit, (fromValue s limit wanted v).isSome) ↔ ¬ MeetsItself s wanted v := by
  rw [← fromValue_eq_none_iff, ← Ne, ← Option.isSome_iff_ne_none]
  constructor
  · rintro ⟨limit, hsome⟩
    obtain ⟨r, hr⟩ := Option.isSome_iff_exists.mp hsome
    rw [fromValue_nestingLimit hr, Option.isSome_some]
  · exact fun hsome => ⟨_, hsome⟩

theorem ofValue_isSome_iff (s : Store) (v : Value) :
    (ofValue s v).isSome ↔ ¬ MeetsItself s none v := by
  rw [Option.isSome_iff_ne_none, Ne, ofValue, fromValue_eq_none_iff]

end Marshal

namespace Session

open Marshal

/-- A value can be carried over to the host: no list is met inside itself. -/
def Carries (s : Store) (v : Value) : Prop := ¬ MeetsItself s none v

theorem exported_isSome_iff (s : Session) (v : Value) :
    (s.exported v).isSome ↔ Carries s.store v := by
  rw [exported, Option.isSome_map, ofValue_isSome_iff, Carries]

theorem finished_isSome_iff (s : Session) (o : Outcome) (w : World) :
    (s.finished (o, w)).isSome ↔ ∀ v, o = .value v ∨ o = .returned v → Carries w.store v := by
  cases o with
  | value v | returned v =>
      rw [finished, Option.isSome_map, exported_isSome_iff]
      constructor
      · rintro hv _ (h | h) <;> cases h
        exact hv
      · intro h
        first | exact h v (.inl rfl) | exact h v (.inr rfl)
  | _ => exact iff_of_true rfl fun _ h => by obtain h | h := h <;> cases h

theorem get_isSome_iff (s : Session) (name : String) :
    (s.get name).isSome ↔ ∀ v, s.global? name = some v → Carries s.store v := by
  rw [get]
  cases hv : s.global? name with
  | none => exact iff_of_true rfl nofun
  | some v =>
      rw [exported_isSome_iff]
      exact ⟨fun h u hu => Option.some.inj hu ▸ h, fun h => h v rfl⟩

theorem eval_isSome_iff {horizon : Nat} {s s' : Session} {code : Text}
    {r : Except SessionFault (List Value)} (hrun : s.run horizon code evalLabel = some (r, s')) :
    (s.eval horizon code).isSome ↔
      ∀ values v, r = .ok values → values.getLast? = some v → Carries s'.store v := by
  rw [eval, hrun, Option.bind_some]
  rcases r with fault | values
  · exact iff_of_true rfl nofun
  · dsimp only
    cases hlast : values.getLast? with
    | none =>
        refine iff_of_true rfl fun values' v h h' => ?_
        cases h
        cases hlast.symm.trans h'
    | some v =>
        rw [Option.isSome_map, exported_isSome_iff]
        constructor
        · intro hv values' u h h'
          cases h
          cases hlast.symm.trans h'
          exact hv
        · exact fun h => h values v rfl hlast

theorem evalExpression_isSome_iff {horizon : Nat} {s : Session} {code : Text} {e : Expr}
    {o : Outcome} {w : World} (hsingle : single code = .ok e)
    (heval : (s.world.inFile exprLabel).evalExpr s.terms horizon e = some (o, w)) :
    (s.evalExpression horizon code).isSome ↔
      ∀ v, o = .value v ∨ o = .returned v → Carries w.store v := by
  rw [evalExpression, hsingle]
  dsimp only
  rw [heval, Option.bind_some, finished_isSome_iff]

theorem call_isSome_iff {horizon : Nat} {s : Session} {name : String} {args : List HostValue}
    {callee : Value} {values : List Value} {store : Store} {o : Outcome} {w : World}
    (hcallee : s.global? name = some callee)
    (hargs : imported s.store 0 [] args = (.ok values, store))
    (happly : (s.withStore store).world.apply s.terms horizon callee values = some (o, w)) :
    (s.call horizon name args).isSome ↔
      ∀ v, o = .value v ∨ o = .returned v → Carries w.store v := by
  rw [call, hcallee]
  dsimp only
  rw [hargs]
  dsimp only
  have hterms : (s.withStore store).terms = s.terms := rfl
  rw [hterms, happly, Option.bind_some, finished_isSome_iff]

/-- Conversion to the host comes to an end, whatever type is wanted, exactly where no list is met
inside itself; so the value of a name, and of code, an expression or a call that is over, is
answered to the host exactly where it is such a value. -/
theorem conversion_ends_iff (horizon : Nat) (s : Session) :
    (∀ wanted v, (∃ limit, (fromValue s.store limit wanted v).isSome) ↔
      ¬ MeetsItself s.store wanted v) ∧
    (∀ name, (s.get name).isSome ↔ ∀ v, s.global? name = some v → Carries s.store v) ∧
    (∀ code r s', s.run horizon code evalLabel = some (r, s') →
      ((s.eval horizon code).isSome ↔
        ∀ values v, r = .ok values → values.getLast? = some v → Carries s'.store v)) ∧
    (∀ code e o w, single code = .ok e →
      (s.world.inFile exprLabel).evalExpr s.terms horizon e = some (o, w) →
      ((s.evalExpression horizon code).isSome ↔
        ∀ v, o = .value v ∨ o = .returned v → Carries w.store v)) ∧
    (∀ name args callee values store o w, s.global? name = some callee →
      imported s.store 0 [] args = (.ok values, store) →
      (s.withStore store).world.apply s.terms horizon callee values = some (o, w) →
      ((s.call horizon name args).isSome ↔
        ∀ v, o = .value v ∨ o = .returned v → Carries w.store v)) := by
  refine ⟨?_, get_isSome_iff s, ?_, ?_, ?_⟩
  · exact fun wanted v => exists_isSome_iff s.store wanted v
  · exact fun _ _ _ hrun => eval_isSome_iff hrun
  · exact fun _ _ _ _ hsingle heval => evalExpression_isSome_iff hsingle heval
  · exact fun _ _ _ _ _ _ _ hcallee hargs happly => call_isSome_iff hcallee hargs happly

/-- Nothing is answered for a name that stands for a list which contains itself. -/
theorem conversion_ends_iff_list_in_itself :
    let store : Store := { Store.initial with
      lists := #[#[.list 0]], scopes := Store.initial.scopes.set [] "x" (.list 0) }
    ((start (.bare (.ofNumbers 0 0)) fun _ => .error "no files").withStore store).get "x" =
      none := by
  intro store
  have hself : Enters store (.any, 0) (.any, 0) := ⟨[], .list 0, [], rfl, nofun, rfl⟩
  have hmeets : MeetsItself store none (.list 0) := ⟨(.any, 0), rfl, _, .refl, .single hself⟩
  have hget := ((conversion_ends_iff 0
    ((start (.bare (.ofNumbers 0 0)) fun _ => .error "no files").withStore store)).2.1 "x").not
  rw [Bool.not_eq_true, Option.isSome_eq_false_iff, Option.isNone_iff_eq_none] at hget
  exact hget.mpr fun h => h (.list 0) rfl hmeets

end Session

end Scriptlet
