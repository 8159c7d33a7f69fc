/-
Equality of values as `==` asks for it.  Whatever lists and options hold, and be it
themselves, what is asked depends on how many hooks may still nest and on nothing else of
the thread; the answer is the same both ways round, and equals of equals are never found
to be different.
-/
import Scriptlet.Proofs.Asking
import Scriptlet.Proofs.Inspection

namespace Scriptlet

namespace Text

theorem compareFrom_eq_iff (t u : Text) (i : Nat) :
    t.compareFrom u i = .eq ↔ ∀ j, i ≤ j → (j < t.size ↔ j < u.size) ∧
      (j < t.size → t.byteAt j = u.byteAt j) := by
  fun_induction compareFrom t u i with
  | case1 i ht hu heq ih =>
      rw [ih]
      have hbyte : t.byteAt i = u.byteAt i := by simpa using heq
      constructor
      · intro h j hj
        rcases Nat.eq_or_lt_of_le hj with rfl | hlt
        · exact ⟨iff_of_true ht hu, fun _ => hbyte⟩
        · exact h j hlt
      · intro h j hj
        exact h j (Nat.le_of_succ_le hj)
  | case2 i ht hu hne =>
      refine iff_of_false hne fun h => hne ?_
      rw [(h i (Nat.le_refl i)).2 ht]
      exact Std.ReflOrd.compare_self
  | case3 i ht hu => exact iff_of_false nofun fun h => hu ((h i (Nat.le_refl i)).1.mp ht)
  | case4 i ht hu => exact iff_of_false nofun fun h => ht ((h i (Nat.le_refl i)).1.mpr hu)
  | case5 i ht hu =>
      refine iff_of_true rfl fun j hj => ⟨?_, ?_⟩
      · omega
      · omega

theorem cmp_eq_iff (t u : Text) : t.cmp u = .eq ↔ t = u := by
  constructor
  · intro h
    have hall := (compareFrom_eq_iff t u 0).mp h
    have hsize : t.bytes.size = u.bytes.size := by
      have ht := (hall t.size (Nat.zero_le _)).1
      have hu := (hall u.size (Nat.zero_le _)).1
      simp only [size] at ht hu
      omega
    obtain ⟨t⟩ := t
    obtain ⟨u⟩ := u
    congr 1
    refine ByteArray.ext_getElem hsize fun j hj hj' => ?_
    have hbyte := (hall j (Nat.zero_le j)).2 hj
    simpa only [byteAt, hj, hj', dif_pos] using hbyte
  · rintro rfl
    exact (compareFrom_eq_iff t t 0).mpr fun j _ => ⟨Iff.rfl, fun _ => rfl⟩

end Text

namespace Value

def equality : Value → Builtin
  | .int _ _ | .float _ _ => .number .equal
  | .str _ _ => .text (.order .equal)
  | .bool _ => .bool .equal
  | .null => .null .equal
  | .none | .some _ _ => .option .equal
  | .range _ _ _ => .rangeOf .equal
  | .list _ => .list .equal
  | _ => .sameObject

/-- What a value is worth that is equal to others of the same worth; none for values that
are equal only to themselves. -/
def worth? : Value → Option (Int64 ⊕ Text ⊕ Int64 × Int64)
  | .int n _ => .some (.inl n)
  | .str t _ => .some (.inr (.inl t))
  | .range first last _ => .some (.inr (.inr (first, last)))
  | _ => .none

/-- Whether two values of one type that hold no others are equal. -/
def alike (a b : Value) : Bool :=
  match a.worth? with
  | .some x => b.worth? = .some x
  | .none => a.same b

theorem same_symm {a b : Value} (h : a.same b = true) : b.same a = true := by
  fun_cases same a b with
  | case1 => rfl
  | case3 a i b j =>
      simp only [same, Bool.and_eq_true, beq_iff_eq, Bool.or_eq_true] at h ⊢
      obtain ⟨rfl, h⟩ := h
      exact ⟨rfl, h.imp_right Eq.symm⟩
  | case6 => rfl
  | case24 =>
      rw [same] at h
      · cases h
      all_goals assumption
  | _ => exact beq_iff_eq.mpr (eq_of_beq h).symm

theorem same_trans {a b c : Value} (h : a.same b = true) (h' : b.same c = true) :
    a.same c = true := by
  fun_cases same a b with
  | case1 => exact h'
  | case3 a i b j =>
      cases c with
      | int c k =>
          simp only [same, Bool.and_eq_true, beq_iff_eq, Bool.or_eq_true] at h h' ⊢
          grind
      | _ => cases h'
  | case6 => exact h'
  | case24 =>
      rw [same] at h
      · cases h
      all_goals assumption
  | _ =>
      -- The numbers are equal, and nothing else of a value is looked at.
      have h := eq_of_beq h
      subst h
      cases c <;> exact h'

theorem worth?_isSome_of_same {a b : Value} (h : a.same b = true) :
    a.worth?.isSome = b.worth?.isSome := by
  fun_cases same a b with
  | case24 => simp_all [same]
  | _ => rfl

theorem alike_iff (a b : Value) :
    a.alike b = true ↔ (∃ x, a.worth? = .some x ∧ b.worth? = .some x) ∨
      a.worth? = .none ∧ b.worth? = .none ∧ a.same b = true := by
  unfold alike
  cases ha : a.worth? with
  | some x => simp
  | none =>
      have hb : a.same b = true → b.worth? = .none := fun hsame => by
        simpa [ha] using (worth?_isSome_of_same hsame).symm
      simpa using hb

theorem alike_symm {a b : Value} (h : a.alike b = true) : b.alike a = true := by
  rw [alike_iff] at h ⊢
  obtain ⟨x, ha, hb⟩ | ⟨ha, hb, h⟩ := h
  · exact .inl ⟨x, hb, ha⟩
  · exact .inr ⟨hb, ha, same_symm h⟩

theorem alike_trans {a b c : Value} (h : a.alike b = true) (h' : b.alike c = true) :
    a.alike c = true := by
  rw [alike_iff] at h h' ⊢
  obtain ⟨x, ha, hb⟩ | ⟨ha, hb, h⟩ := h
  · obtain ⟨y, hb', hc⟩ | ⟨hb', -⟩ := h'
    · obtain rfl := Option.some.inj (hb.symm.trans hb')
      exact .inl ⟨x, ha, hc⟩
    · exact nomatch hb.symm.trans hb'
  · obtain ⟨y, hb', -⟩ | ⟨-, hc, h'⟩ := h'
    · exact nomatch hb.symm.trans hb'
    · exact .inr ⟨ha, hc, same_trans h h'⟩

end Value

namespace Value

theorem eq_list_of_alike {id : Nat} {b : Value} (h : (Value.list id).alike b = true) :
    b = .list id := by
  cases b with
  | list id' => rw [eq_of_beq (show (id == id') = true from h)]
  | _ => cases h

theorem eq_some_of_alike {v b : Value} {id : Nat} (h : (Value.some v id).alike b = true) :
    ∃ w id, b = .some w id := by
  cases b with
  | some w id => exact ⟨w, id, rfl⟩
  | _ => cases h

theorem isFlat_of_alike {a b : Value} (h : a.alike b = true) (ha : a.isFlat = true) :
    b.isFlat = true := by
  cases b with
  | list id =>
      obtain rfl := eq_list_of_alike (alike_symm h)
      exact nomatch ha
  | some v id =>
      obtain ⟨w, id, rfl⟩ := eq_some_of_alike (alike_symm h)
      exact nomatch ha
  | _ => rfl

end Value

namespace Store

def classId? (s : Store) : Value → Option Nat
  | .instance id => s.instances[id]?.map Instance.classId
  | _ => none

/-- Whether two values are equal that can be, where `ask` says it of what they hold; none if
it does not say. -/
def compareInside? (s : Store) (ask : Value → Value → Option Bool) :
    Value → Value → Option Bool
  | .list a, .list b =>
    match Task.listPairs s a b with
    | .inl answer => some answer
    | .inr pairs => pairs.allM fun pair => ask pair.1 pair.2
  | .some a _, .some b _ => ask a b
  | a, b => some (a.alike b)

/-- Whether two values are equal, where so many hooks may nest; none if that is not enough to
tell. -/
def compare? (s : Store) : Nat → Value → Value → Option Bool
  | 0, a, b => if Task.comparable s a b then none else some false
  | room + 1, a, b =>
    if Task.comparable s a b then s.compareInside? (s.compare? room) a b else some false

end Store

theorem Value.typeLabel_eq_instance {v : Value} (h : v.typeLabel = "Instance") :
    ∃ id, v = .instance id := by
  cases v with
  | «instance» id => exact ⟨id, rfl⟩
  | _ => simp [typeLabel] at h

/-- Values can be equal if they are of one type and, if they are instances, of one class. -/
theorem Task.comparable_iff (s : Store) (a b : Value) :
    comparable s a b = true ↔ a.typeLabel = b.typeLabel ∧ s.classId? a = s.classId? b := by
  fun_cases comparable s a b with
  | case1 i j => simp [Value.typeLabel, Store.classId?]
  | case2 =>
      rename_i hnot
      rw [beq_iff_eq]
      refine ⟨fun h => ⟨h, ?_⟩, And.left⟩
      have hone : ∀ {v w : Value}, v.typeLabel = w.typeLabel → (∃ i, v = .instance i) →
          ∃ i j, v = .instance i ∧ w = .instance j := by
        rintro v w h ⟨i, rfl⟩
        obtain ⟨j, rfl⟩ := Value.typeLabel_eq_instance h.symm
        exact ⟨i, j, rfl, rfl⟩
      have ha : ∀ i, a ≠ .instance i := fun i hi => by
        obtain ⟨i, j, hi, hj⟩ := hone h ⟨i, hi⟩
        exact hnot i j hi hj
      have hb : ∀ j, b ≠ .instance j := fun j hj => by
        obtain ⟨j, i, hj, hi⟩ := hone h.symm ⟨j, hj⟩
        exact hnot i j hi hj
      rw [Store.classId?, Store.classId?] <;> assumption

section Lists

variable {α : Type} {p q r : α → Option Bool}

theorem allM_cons (x : α) (xs : List α) :
    (x :: xs).allM p = (p x).bind fun yes => if yes then xs.allM p else some false := by
  rw [List.allM]
  cases p x with
  | none => rfl
  | some yes => cases yes <;> rfl

theorem allM_cons_eq_true {x : α} {xs : List α} :
    (x :: xs).allM p = some true ↔ p x = some true ∧ xs.allM p = some true := by
  rw [allM_cons]
  cases p x with
  | none => simp
  | some yes => cases yes <;> simp

theorem allM_cons_ne_false {x : α} {xs : List α} (hx : p x ≠ some false)
    (hxs : xs.allM p ≠ some false) : (x :: xs).allM p ≠ some false := by
  rw [allM_cons]
  cases h : p x with
  | none => exact nofun
  | some yes =>
      cases yes with
      | false => exact absurd h hx
      | true => exact hxs

theorem allM_consistent {xs : List α} (hpq : ∀ x, p x = some true → q x ≠ some false)
    (h : xs.allM p = some true) : xs.allM q ≠ some false := by
  induction xs with
  | nil => exact nofun
  | cons x xs ih =>
      obtain ⟨hx, hxs⟩ := allM_cons_eq_true.mp h
      exact allM_cons_ne_false (hpq x hx) (ih hxs)

end Lists

section Pairs

variable {p q r : Value → Value → Option Bool}

theorem allM_zip_comm (hp : ∀ a b, p a b = p b a) (xs ys : List Value) :
    (xs.zip ys).allM (fun pair => p pair.1 pair.2) =
      (ys.zip xs).allM fun pair => p pair.1 pair.2 := by
  induction xs generalizing ys with
  | nil => rw [List.zip_nil_left, List.zip_nil_right]
  | cons x xs ih =>
      cases ys with
      | nil => rfl
      | cons y ys =>
          rw [List.zip_cons_cons, List.zip_cons_cons, allM_cons, allM_cons, ih, hp]

theorem allM_zip_trans (hpqr : ∀ a b c, p a b = some true → q b c = some true → r a c ≠ some false)
    {xs ys zs : List Value} (hlength : xs.length = ys.length)
    (hp : (xs.zip ys).allM (fun pair => p pair.1 pair.2) = some true)
    (hq : (ys.zip zs).allM (fun pair => q pair.1 pair.2) = some true) :
    (xs.zip zs).allM (fun pair => r pair.1 pair.2) ≠ some false := by
  induction xs generalizing ys zs with
  | nil => exact nofun
  | cons x xs ih =>
      obtain ⟨y, ys, rfl⟩ := List.exists_cons_of_length_eq_add_one hlength.symm
      cases zs with
      | nil => exact nofun
      | cons z zs =>
          obtain ⟨hxy, hp⟩ := allM_cons_eq_true.mp hp
          obtain ⟨hyz, hq⟩ := allM_cons_eq_true.mp hq
          exact allM_cons_ne_false (hpqr x y z hxy hyz) (ih (Nat.succ.inj hlength) hp hq)

end Pairs

namespace Store

variable {s : Store} {p q r : Value → Value → Option Bool} {a b c : Value}

theorem compareInside?_lists (s : Store) (ask : Value → Value → Option Bool) (i j : Nat) :
    s.compareInside? ask (.list i) (.list j) =
      if i = j then some true
      else if (s.listItems i).size = (s.listItems j).size then
        ((s.listItems i).toList.zip (s.listItems j).toList).allM fun pair => ask pair.1 pair.2
      else some false := by
  by_cases hid : i = j
  · simp [compareInside?, Task.listPairs, hid]
  · by_cases hsize : (s.listItems i).size = (s.listItems j).size <;>
      simp [compareInside?, Task.listPairs, hid, hsize]

theorem eq_or_of_compareInside?_lists {i j : Nat}
    (h : s.compareInside? p (.list i) (.list j) = some true) :
    i = j ∨ (s.listItems i).toList.length = (s.listItems j).toList.length ∧
      ((s.listItems i).toList.zip (s.listItems j).toList).allM
        (fun pair => p pair.1 pair.2) = some true := by
  rw [compareInside?_lists] at h
  by_cases hid : i = j
  · exact .inl hid
  · by_cases hsize : (s.listItems i).size = (s.listItems j).size
    · rw [if_neg hid, if_pos hsize] at h
      exact .inr ⟨by simpa using hsize, h⟩
    · rw [if_neg hid, if_neg hsize] at h
      exact nomatch h

theorem compareInside?_lists_ne_false {i j : Nat}
    (hlength : (s.listItems i).toList.length = (s.listItems j).toList.length)
    (h : ((s.listItems i).toList.zip (s.listItems j).toList).allM
      (fun pair => p pair.1 pair.2) ≠ some false) :
    s.compareInside? p (.list i) (.list j) ≠ some false := by
  rw [compareInside?_lists]
  by_cases hid : i = j
  · rw [if_pos hid]
    exact nofun
  · rwa [if_neg hid, if_pos (by simpa using hlength)]

theorem compareInside?_flat (ask : Value → Value → Option Bool)
    (hlists : ¬ ∃ i j, a = .list i ∧ b = .list j)
    (hsomes : ¬ ∃ v i w j, a = .some v i ∧ b = .some w j) :
    s.compareInside? ask a b = some (a.alike b) := by
  rw [compareInside?]
  · exact fun i j ha hb => hlists ⟨i, j, ha, hb⟩
  · exact fun v i w j ha hb => hsomes ⟨v, i, w, j, ha, hb⟩

theorem compareInside?_comm (hp : ∀ a b, p a b = p b a) (a b : Value) :
    s.compareInside? p a b = s.compareInside? p b a := by
  by_cases hlists : ∃ i j, a = .list i ∧ b = .list j
  · obtain ⟨i, j, rfl, rfl⟩ := hlists
    simp only [compareInside?_lists, allM_zip_comm hp (s.listItems i).toList, eq_comm]
  · by_cases hsomes : ∃ v i w j, a = .some v i ∧ b = .some w j
    · obtain ⟨v, i, w, j, rfl, rfl⟩ := hsomes
      exact hp v w
    · rw [compareInside?_flat p hlists hsomes,
        compareInside?_flat p (fun ⟨j, i, hb, ha⟩ => hlists ⟨i, j, ha, hb⟩)
          (fun ⟨w, j, v, i, hb, ha⟩ => hsomes ⟨v, i, w, j, ha, hb⟩),
        Option.some.injEq, Bool.eq_iff_iff]
      exact ⟨Value.alike_symm, Value.alike_symm⟩

/-- Values that are found to be equal are lists, options that are not empty, or hold no
others. -/
theorem compareInside?_true (h : s.compareInside? p a b = some true) :
    (∃ i j, a = .list i ∧ b = .list j) ∨ (∃ v i w j, a = .some v i ∧ b = .some w j) ∨
      a.isFlat = true ∧ b.isFlat = true ∧ a.alike b = true := by
  by_cases hlists : ∃ i j, a = .list i ∧ b = .list j
  · exact .inl hlists
  · by_cases hsomes : ∃ v i w j, a = .some v i ∧ b = .some w j
    · exact .inr (.inl hsomes)
    · rw [compareInside?_flat p hlists hsomes, Option.some.injEq] at h
      have ha : a.isFlat = true := by
        cases a with
        | list i => exact absurd ⟨i, i, rfl, Value.eq_list_of_alike h⟩ hlists
        | some v i =>
            obtain ⟨w, j, hb⟩ := Value.eq_some_of_alike h
            exact absurd ⟨v, i, w, j, rfl, hb⟩ hsomes
        | _ => rfl
      exact .inr (.inr ⟨ha, Value.isFlat_of_alike h ha, h⟩)

theorem compareInside?_of_isFlat (ha : a.isFlat = true) (b : Value)
    (ask : Value → Value → Option Bool) : s.compareInside? ask a b = some (a.alike b) := by
  refine compareInside?_flat ask ?_ ?_
  · rintro ⟨i, j, rfl, -⟩
    exact nomatch ha
  · rintro ⟨v, i, w, j, rfl, -⟩
    exact nomatch ha

theorem compareInside?_consistent (hpq : ∀ a b, p a b = some true → q a b ≠ some false)
    (h : s.compareInside? p a b = some true) : s.compareInside? q a b ≠ some false := by
  obtain ⟨i, j, rfl, rfl⟩ | ⟨v, i, w, j, rfl, rfl⟩ | ⟨ha, -, halike⟩ := compareInside?_true h
  · obtain rfl | ⟨hlength, hall⟩ := eq_or_of_compareInside?_lists h
    · rw [compareInside?_lists, if_pos rfl]
      exact nofun
    · exact compareInside?_lists_ne_false hlength
        (allM_consistent (fun pair => hpq pair.1 pair.2) hall)
  · exact hpq v w h
  · rw [compareInside?_of_isFlat ha, halike]
    exact nofun

theorem compareInside?_trans
    (hpq : ∀ a b, p a b = some true → r a b ≠ some false)
    (hqr : ∀ a b, q a b = some true → r a b ≠ some false)
    (hpqr : ∀ a b c, p a b = some true → q b c = some true → r a c ≠ some false)
    (h : s.compareInside? p a b = some true) (h' : s.compareInside? q b c = some true) :
    s.compareInside? r a c ≠ some false := by
  obtain ⟨i, j, rfl, rfl⟩ | ⟨v, i, w, j, rfl, rfl⟩ | ⟨ha, hb, halike⟩ := compareInside?_true h
  · obtain ⟨_, k, hj, rfl⟩ | ⟨_, _, _, _, hj, -⟩ | ⟨hj, -⟩ := compareInside?_true h'
    · obtain rfl := Value.list.inj hj
      -- Where two of the lists are one, what is asked of the third was asked before.
      obtain rfl | ⟨hlength, hall⟩ := eq_or_of_compareInside?_lists h
      · exact compareInside?_consistent hqr h'
      · obtain rfl | ⟨hlength', hall'⟩ := eq_or_of_compareInside?_lists h'
        · exact compareInside?_consistent hpq h
        · exact compareInside?_lists_ne_false (hlength.trans hlength')
            (allM_zip_trans hpqr hlength hall hall')
    · exact nomatch hj
    · exact nomatch hj
  · obtain ⟨_, _, hw, -⟩ | ⟨_, _, x, k, hw, rfl⟩ | ⟨hw, -⟩ := compareInside?_true h'
    · exact nomatch hw
    · obtain ⟨rfl, rfl⟩ := Value.some.inj hw
      exact hpqr v w x h h'
    · exact nomatch hw
  · rw [compareInside?_of_isFlat hb, Option.some.injEq] at h'
    rw [compareInside?_of_isFlat ha, Value.alike_trans halike h']
    exact nofun

theorem comparable_comm (s : Store) (a b : Value) :
    Task.comparable s a b = Task.comparable s b a := by
  rw [Bool.eq_iff_iff, Task.comparable_iff, Task.comparable_iff, eq_comm,
    eq_comm (a := s.classId? a)]

theorem comparable_trans (hab : Task.comparable s a b = true)
    (hbc : Task.comparable s b c = true) : Task.comparable s a c = true := by
  rw [Task.comparable_iff] at *
  exact ⟨hab.1.trans hbc.1, hab.2.trans hbc.2⟩

theorem compare?_comm (s : Store) (room : Nat) (a b : Value) :
    s.compare? room a b = s.compare? room b a := by
  induction room generalizing a b with
  | zero => rw [compare?, compare?, comparable_comm]
  | succ room ih => rw [compare?, compare?, comparable_comm, compareInside?_comm ih]

/-- What is found to be equal can be equal, and was looked into. -/
theorem compare?_true {room : Nat} (h : s.compare? room a b = some true) :
    Task.comparable s a b = true ∧
      ∃ less, room = less + 1 ∧ s.compareInside? (s.compare? less) a b = some true := by
  cases room with
  | zero =>
      rw [compare?] at h
      split at h
      · exact nomatch h
      · exact nomatch Option.some.inj h
  | succ less =>
      rw [compare?] at h
      split at h
      · exact ⟨‹_›, less, rfl, h⟩
      · exact nomatch Option.some.inj h

theorem compare?_ne_false {room : Nat} (hcomparable : Task.comparable s a b = true)
    (h : ∀ less, s.compareInside? (s.compare? less) a b ≠ some false) :
    s.compare? room a b ≠ some false := by
  cases room with
  | zero =>
      rw [compare?, if_pos hcomparable]
      exact nofun
  | succ less =>
      rw [compare?, if_pos hcomparable]
      exact h less

/-- What is found to be equal is not found to be different at another depth. -/
theorem compare?_consistent {room : Nat} (h : s.compare? room a b = some true) (room' : Nat) :
    s.compare? room' a b ≠ some false := by
  induction room generalizing a b room' with
  | zero => exact absurd (compare?_true h).2 (by simp)
  | succ room ih =>
      obtain ⟨hcomparable, less, hroom, hinside⟩ := compare?_true h
      obtain rfl := Nat.succ.inj hroom
      exact compare?_ne_false hcomparable fun less' =>
        compareInside?_consistent (fun v w hvw => ih hvw less') hinside

/-- What is equal to something that is equal to a third is not found to be different from
it, be it at another depth. -/
theorem compare?_trans {room room' : Nat} (h : s.compare? room a b = some true)
    (h' : s.compare? room' b c = some true) (room'' : Nat) :
    s.compare? room'' a c ≠ some false := by
  induction room generalizing a b c room' room'' with
  | zero => exact absurd (compare?_true h).2 (by simp)
  | succ room ih =>
      obtain ⟨hcomparable, less, hroom, hinside⟩ := compare?_true h
      obtain rfl := Nat.succ.inj hroom
      obtain ⟨hcomparable', less', rfl, hinside'⟩ := compare?_true h'
      refine compare?_ne_false (comparable_trans hcomparable hcomparable') fun less'' => ?_
      exact compareInside?_trans (fun _ _ hvw => compare?_consistent hvw less'')
        (fun _ _ hvw => compare?_consistent hvw less'')
        (fun _ _ _ hvw hwx => ih hvw hwx less'') hinside hinside'

/-- Whether a value is equal to others in a way of its own: a float, a thing of the host, or
an instance with a field that says how. -/
def HasOwnEquality (s : Store) : Value → Prop
  | .float _ _ | .host _ _ => True
  | .instance id => s.field? id HookCheck.equality.hook ≠ none
  | _ => False

/-- Whether a value neither is nor holds anything that is equal to others in a way of its
own. -/
def Plain (s : Store) (v : Value) : Prop := ∀ w, s.Reaches v w → ¬ s.HasOwnEquality w

theorem Plain.of_contains {v w : Value} (h : s.Plain v) (hw : s.Contains v w) : s.Plain w :=
  fun x hx => h x (.head hw hx)

theorem member_equality {v : Value} (h : ¬ s.HasOwnEquality v) :
    s.member v HookCheck.equality.hook = (.ok (.builtin v.equality), s) := by
  cases v with
  | float x id => exact absurd trivial h
  | host p id => exact absurd trivial h
  | «instance» id =>
      have hfield : s.field? id HookCheck.equality.hook = none := not_not.mp h
      rw [member, hfield]
      rfl
  | «module» m => cases m <;> rfl
  | _ => rfl

end Store

/-- How asking whether two values are equal ends that is answered, or not for want of
depth. -/
def Outcome.ofVerdict : Option Bool → Outcome
  | some answer => .value (.bool answer)
  | none => .failed (Failure.ofFault .tooDeep)

namespace Task

variable {limits : Limits} {t : Task} {s : Store} {a b : Value}

/-- Comparing pairs one after the other gets what asking of each in turn says, up to the
first that is not equal. -/
theorem gets_comparePairs {p : Value → Value → Option Bool} {pairs : List (Value × Value)}
    (hask : ∀ pair ∈ pairs, ∀ u : Task, u.depth = t.depth →
      u.Gets limits (.ofVerdict (p pair.1 pair.2)) s (u.askEqual s pair.1 pair.2) s) :
    t.Gets limits (.ofVerdict (pairs.allM fun pair => p pair.1 pair.2)) s
      (t.comparePairs s pairs) s := by
  induction pairs with
  | nil => exact .already
  | cons pair rest ih =>
      obtain ⟨hfirst, hrest⟩ := List.forall_mem_cons.mp hask
      obtain ⟨v, w⟩ := pair
      rw [allM_cons, comparePairs]
      refine (hfirst (t.pushed (.pairs rest)) rfl).pop rfl ?_
      cases p v w with
      | none => exact .already
      | some answer =>
          cases answer with
          | false => exact .already
          | true => exact ih hrest

/-- What the equality hook of a value that holds no others answers, if it does not call
back. -/
theorem answer_equality (hflat : a.isFlat = true) (hback : a.equality.callsBack = false)
    (hown : ¬ s.HasOwnEquality a) (hlabel : a.typeLabel = b.typeLabel) :
    a.equality.answer s [a, b] = (.ok (.bool (a.alike b)), s) := by
  cases a with
  | float x id => exact absurd trivial hown
  | none => exact nomatch hback
  | list id | some v id => exact nomatch hflat
  | int n id =>
      cases b <;> simp [Value.typeLabel] at hlabel
      rename_i m id'
      have hworth : (n == m) = (Value.int n id).alike (.int m id') := by
        simp [Value.alike, Value.worth?, Bool.beq_eq_decide_eq, eq_comm]
      exact congrArg s.giveBool hworth
  | range x y id =>
      cases b <;> simp [Value.typeLabel] at hlabel
      rename_i x' y' id'
      have hworth : (x == x' && y == y') = (Value.range x y id).alike (.range x' y' id') := by
        simp [Value.alike, Value.worth?, Bool.beq_eq_decide_eq, eq_comm]
      exact congrArg s.giveBool hworth
  | str u id =>
      cases b <;> simp [Value.typeLabel] at hlabel
      rename_i u' id'
      have hworth : OrderOp.equal.holds (u.cmp u') = (Value.str u id).alike (.str u' id') := by
        simp [OrderOp.holds, Value.alike, Value.worth?, Bool.beq_eq_decide_eq, Text.cmp_eq_iff,
          eq_comm (a := u)]
      exact congrArg s.giveBool hworth
  | bool x | null =>
      cases b <;> simp [Value.typeLabel] at hlabel
      rfl
  | _ => rfl

theorem listPairs_eq_inr {i j : Nat} {pairs : List (Value × Value)}
    (h : listPairs s i j = .inr pairs) :
    pairs = (s.listItems i).toList.zip (s.listItems j).toList := by
  unfold listPairs at h
  dsimp only at h
  split_ifs at h
  exact (Sum.inr.inj h).symm

/-- Two lists are compared by their elements, where that needs a look at them. -/
theorem callBack_equal (i j : Nat) : t.callBack s (.list .equal) [.list i, .list j] =
    match listPairs s i j with
    | .inl answer => (t.having (.bool answer), s)
    | .inr pairs => (t.comparePairs s pairs, s) := rfl

/-- The equality hook gets what asking of all that the two values hold says. -/
theorem gets_equality {p : Value → Value → Option Bool} (ha : ¬ s.HasOwnEquality a)
    (hcomparable : comparable s a b = true)
    (hask : ∀ v w, s.Contains a v → s.Contains b w → ∀ u : Task, u.depth = t.depth →
      u.Gets limits (.ofVerdict (p v w)) s (u.askEqual s v w) s) :
    t.Gets limits (.ofVerdict (s.compareInside? p a b)) s
      (t.doing (.call (.builtin a.equality) [a, b])) s := by
  obtain ⟨hlabel, -⟩ := (comparable_iff s a b).mp hcomparable
  cases a with
  | list i =>
      cases b <;> simp [Value.typeLabel] at hlabel
      rename_i j
      refine gets_callBack rfl rfl ?_
      rw [Store.compareInside?]
      rw [Value.equality, callBack_equal]
      cases hpairs : listPairs s i j with
      | inl answer => exact .already
      | inr pairs =>
          refine gets_comparePairs fun pair hpair u hu => ?_
          obtain rfl := listPairs_eq_inr hpairs
          obtain ⟨hv, hw⟩ := List.of_mem_zip (a := pair.1) (b := pair.2) hpair
          exact hask pair.1 pair.2 (.element hv) (.element hw) u hu
  | some v i =>
      cases b <;> simp [Value.typeLabel] at hlabel
      · exact gets_callBack rfl rfl .already
      · exact gets_callBack rfl rfl (hask _ _ (.inside _ _) (.inside _ _) _ rfl)
  | none =>
      cases b <;> simp [Value.typeLabel] at hlabel
      · exact gets_callBack rfl rfl .already
      · exact gets_callBack rfl rfl .already
  | _ =>
      have hanswer := answer_equality rfl rfl ha hlabel
      rw [Store.compareInside?_of_isFlat rfl]
      exact gets_answer rfl rfl hanswer

/-- Asking whether two values are equal that are plain. -/
theorem gets_askEqual {room : Nat} (hroom : limits.maxDepth - t.depth = room) (ha : s.Plain a)
    (hb : s.Plain b) :
    t.Gets limits (.ofVerdict (s.compare? room a b)) s (t.askEqual s a b) s := by
  have hends : ∀ r : Option Bool, (∃ f, Outcome.ofVerdict r = .failed f) ∨
      ∃ v, Outcome.ofVerdict r = .value v ∧ HookCheck.equality.accepts v = true := by
    rintro (_ | answer)
    · exact .inl ⟨_, rfl⟩
    · exact .inr ⟨_, rfl, rfl⟩
  induction room generalizing t a b with
  | zero =>
      rw [Store.compare?, askEqual]
      split
      · have hhook : (t.pushed (.check .equality a)).Gets limits _ s _ s :=
          gets_hook_tooDeep (t := t.pushed (.check .equality a))
            (Nat.sub_eq_zero_iff_le.mp hroom) s a HookCheck.equality.hook [b]
        exact hhook.check (hends none)
      · exact .already
  | succ room ih =>
      rw [Store.compare?, askEqual]
      split
      · rename_i hcomparable
        have hdeep : (t.pushed (.check .equality a)).depth < limits.maxDepth := by
          dsimp only [pushed]
          omega
        refine Gets.check (gets_hook hdeep (Store.member_equality (ha a .refl)) ?_) (hends _)
        refine gets_equality (ha a .refl) hcomparable fun v w hv hw u hu => ?_
        refine ih ?_ (ha.of_contains hv) (hb.of_contains hw)
        rw [hu]
        dsimp only [hooked, pushed]
        omega
      · exact .already

/-- Asking whether two plain values are different. -/
theorem gets_askDifferent {room : Nat} (hroom : limits.maxDepth - t.depth = room) (ha : s.Plain a)
    (hb : s.Plain b) :
    t.Gets limits (.ofVerdict ((s.compare? room a b).map not)) s
      ((t.pushed .negated).askEqual s a b) s := by
  have hequal : (t.pushed .negated).Gets limits (.ofVerdict (s.compare? room a b)) s
      ((t.pushed .negated).askEqual s a b) s := gets_askEqual hroom ha hb
  refine hequal.pop rfl ?_
  rcases s.compare? room a b with _ | (_ | _) <;> exact .already

/-- Equality is the same both ways round and, as far as the depth allows to tell, transitive;
being different is its negation.  Asking comes to an end whatever the values hold: with an
answer, or with the failure that it went too deep. -/
theorem equality_symm_trans_and_negation (limits : Limits) (s : Store) {a b c : Value}
    (ha : s.Plain a) (hb : s.Plain b) (hc : s.Plain c) :
    (∀ t : Task, ∃ r : Option Bool, ∀ o s',
      (t.Gets limits o s' (t.askEqual s a b) s ↔ o = .ofVerdict r ∧ s' = s) ∧
      (t.Gets limits o s' (t.askEqual s b a) s ↔ o = .ofVerdict r ∧ s' = s)) ∧
    (∀ (t t' t'' : Task) (s₁ s₂ s₃ : Store),
      t.Gets limits (.value (.bool true)) s₁ (t.askEqual s a b) s →
      t'.Gets limits (.value (.bool true)) s₂ (t'.askEqual s b c) s →
      ¬ t''.Gets limits (.value (.bool false)) s₃ (t''.askEqual s a c) s) ∧
    ∀ t : Task, ∃ r : Option Bool, ∀ o s',
      (t.Gets limits o s' (t.applyBinary s .equal a b).1 (t.applyBinary s .equal a b).2 ↔
        o = .ofVerdict r ∧ s' = s) ∧
      (t.Gets limits o s' (t.applyBinary s .notEqual a b).1 (t.applyBinary s .notEqual a b).2 ↔
        o = .ofVerdict (r.map not) ∧ s' = s) := by
  have hverdict : ∀ {r : Option Bool} {answer : Bool},
      Outcome.value (.bool answer) = .ofVerdict r → r = some answer := by
    rintro (_ | given) answer h
    · exact nomatch h
    · rw [Value.bool.inj (Outcome.value.inj h)]
  refine ⟨fun t => ?_, fun t t' t'' s₁ s₂ s₃ hab hbc hac => ?_, fun t => ?_⟩
  · have hab : t.Gets limits _ s _ s := gets_askEqual rfl ha hb
    have hba : t.Gets limits _ s _ s := gets_askEqual rfl hb ha
    rw [Store.compare?_comm s _ b a] at hba
    exact ⟨_, fun o s' => ⟨hab.iff, hba.iff⟩⟩
  · obtain ⟨hab, -⟩ := (gets_askEqual rfl ha hb).unique hab
    obtain ⟨hbc, -⟩ := (gets_askEqual rfl hb hc).unique hbc
    obtain ⟨hac, -⟩ := (gets_askEqual rfl ha hc).unique hac
    exact Store.compare?_trans (hverdict hab) (hverdict hbc) _ (hverdict hac)
  · have hequal : t.Gets limits _ s _ s := gets_askEqual rfl ha hb
    have hdifferent : t.Gets limits _ s _ s := gets_askDifferent rfl ha hb
    exact ⟨_, fun o s' => ⟨hequal.iff, hdifferent.iff⟩⟩

end Task

/-- Two lists that both hold the first of them and nothing else. -/
def Store.loops : Store := { bare with lists := #[#[.list 0], #[.list 0]] }

theorem Store.loops_plain (id : Nat) (hid : id < 2) : Store.loops.Plain (.list id) := by
  intro w hw
  have hlist : ∃ i, i < 2 ∧ w = .list i := by
    refine hw.of_closed (P := fun w => ∃ i, i < 2 ∧ w = .list i) ⟨id, hid, rfl⟩ ?_
    rintro x y ⟨i, hi, rfl⟩ hcontains
    cases hcontains with
    | element hmem =>
        have hitems : Store.loops.listItems i = #[.list 0] := by
          interval_cases i <;> rfl
        rw [hitems] at hmem
        exact ⟨0, by omega, by simpa using hmem⟩
  obtain ⟨i, -, rfl⟩ := hlist
  exact not_false

/-- Of two lists, the first of which holds itself, the second equals the first because the
first equals the second. -/
theorem equality_symm_of_loops :
    Store.loops.Plain (.list 0) ∧ Store.loops.Plain (.list 1) ∧
      (Task.idle "").Gets ⟨2, 0⟩ (.value (.bool true)) Store.loops
        ((Task.idle "").askEqual Store.loops (.list 1) (.list 0)) Store.loops := by
  have h0 := Store.loops_plain 0 (by decide)
  have h1 := Store.loops_plain 1 (by decide)
  have hroom : (⟨2, 0⟩ : Limits).maxDepth - (Task.idle "").depth = 2 := rfl
  have hequal := Task.gets_askEqual hroom h0 h1
  obtain ⟨hsymm, -, -⟩ := Task.equality_symm_trans_and_negation ⟨2, 0⟩ Store.loops h0 h1 h0
  obtain ⟨r, hr⟩ := hsymm (Task.idle "")
  exact ⟨h0, h1, (hr _ _).2.mpr ((hr _ _).1.mp hequal)⟩

end Scriptlet
