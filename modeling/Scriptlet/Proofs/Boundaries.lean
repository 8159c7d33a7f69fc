/-
Where a byte string may be cut.  A text falls apart at any of its characters
into two texts that read as the characters before and behind, and a line end
between two texts keeps both as they read.
-/
import Scriptlet.Proofs.Characters

namespace Scriptlet.Text

namespace Begins

variable {b b' : Nat → UInt8} {c : Char} {m : Nat}

theorem of_agree (h : Begins b c m) (hagree : ∀ k ≤ m, b k = b' k) : Begins b' c m := by
  cases h with
  | one hlead =>
      rw [hagree 0 (by decide)] at hlead ⊢
      exact .one hlead
  | two hleast hmost h1 =>
      rw [hagree 0 (by decide)] at hleast hmost ⊢
      rw [hagree 1 (by decide)] at h1 ⊢
      exact .two hleast hmost h1
  | three hleast hmost hleast1 hmost1 h2 =>
      rw [hagree 0 (by decide)] at hleast hmost hleast1 hmost1 ⊢
      rw [hagree 1 (by decide)] at hleast1 hmost1 ⊢
      rw [hagree 2 (by decide)] at h2 ⊢
      exact .three hleast hmost hleast1 hmost1 h2
  | four hleast hmost hleast1 hmost1 h2 h3 =>
      rw [hagree 0 (by decide)] at hleast hmost hleast1 hmost1 ⊢
      rw [hagree 1 (by decide)] at hleast1 hmost1 ⊢
      rw [hagree 2 (by decide)] at h2 ⊢
      rw [hagree 3 (by decide)] at h3 ⊢
      exact .four hleast hmost hleast1 hmost1 h2 h3

/-- A character has at most four bytes. -/
theorem short (h : Begins b c m) : m < 4 := by
  cases h <;> decide

theorem tails (h : Begins b c m) {k : Nat} (hk : 0 < k) (hkm : k ≤ m) : 0x80 ≤ b k := by
  have htail : ∀ {x : UInt8}, isTail x = true → 0x80 ≤ x := fun hx => by
    simp only [isTail, Bool.and_eq_true, decide_eq_true_eq] at hx
    exact hx.1
  cases h with
  | one => omega
  | two _ _ h1 =>
      obtain rfl : k = 1 := by omega
      exact htail h1
  | three _ _ h1 _ h2 =>
      obtain rfl | rfl : k = 1 ∨ k = 2 := by omega
      · exact ((least_le_iff (by decide)).mp h1).1
      · exact htail h2
  | four _ _ h1 _ h2 h3 =>
      obtain rfl | rfl | rfl : k = 1 ∨ k = 2 ∨ k = 3 := by omega
      · exact ((least_le_iff (by decide)).mp h1).1
      · exact htail h2
      · exact htail h3

end Begins

/-- A character is read from its own bytes alone. -/
theorem sequenceAt_local {t u : Text} {i j : Nat} {c : Char} {m : Nat}
    (h : t.sequenceAt i = some (c, m)) (hbytes : ∀ k ≤ m, t.byteAt (i + k) = u.byteAt (j + k)) :
    u.sequenceAt j = some (c, m) :=
  sequenceAt_of_begins ((begins_of_sequenceAt h).of_agree hbytes)

/-- The bytes of a text, in order. -/
def toList (t : Text) : List UInt8 := t.bytes.data.toList

theorem length_toList (t : Text) : t.toList.length = t.size := rfl

theorem toList_append (a b : Text) : (a ++ b).toList = a.toList ++ b.toList :=
  (congrArg Array.toList ByteArray.data_append).trans Array.toList_append

theorem toList_mk (l : List UInt8) : toList ⟨l.toByteArray⟩ = l := List.toList_data_toByteArray

theorem byteAt_eq_getD (t : Text) (i : Nat) : t.byteAt i = t.toList.getD i 0 := by
  unfold byteAt toList
  by_cases h : i < t.bytes.size
  · rw [dif_pos h, List.getD_eq_getElem _ _ h]
    rfl
  · rw [dif_neg h, List.getD_eq_default _ _ (not_lt.mp h)]

theorem size_append (a b : Text) : (a ++ b).size = a.size + b.size := ByteArray.size_append

theorem append_assoc (a b c : Text) : a ++ b ++ c = a ++ (b ++ c) :=
  congrArg Text.mk ByteArray.append_assoc

theorem empty_append (a : Text) : empty ++ a = a := congrArg Text.mk ByteArray.empty_append

theorem append_empty (a : Text) : a ++ empty = a := congrArg Text.mk ByteArray.append_empty

theorem byteAt_of_size_le {t : Text} {i : Nat} (h : t.size ≤ i) : t.byteAt i = 0 :=
  dif_neg (Nat.not_lt.mpr h)

theorem byteAt_of_lt {t : Text} {i : Nat} (h : i < t.bytes.size) : t.byteAt i = t.bytes[i] :=
  dif_pos h

theorem byteAt_append_left {a : Text} (b : Text) {i : Nat} (h : i < a.size) :
    (a ++ b).byteAt i = a.byteAt i := by
  have hboth : i < (a ++ b).size := by
    rw [size_append]
    omega
  rw [byteAt_of_lt hboth, byteAt_of_lt h]
  exact ByteArray.getElem_append_left h

theorem byteAt_append_right (a b : Text) (i : Nat) : (a ++ b).byteAt (a.size + i) = b.byteAt i := by
  by_cases h : i < b.size
  · have hboth : a.size + i < (a ++ b).size := by
      rw [size_append]
      omega
    rw [byteAt_of_lt hboth, byteAt_of_lt h]
    refine (ByteArray.getElem_append_right (Nat.le_add_right _ _)).trans ?_
    congr 1
    exact Nat.add_sub_cancel_left _ _
  · rw [byteAt_of_size_le (t := b) (by omega), byteAt_of_size_le]
    rw [size_append]
    omega

theorem eq_empty_of_size_eq_zero {t : Text} (h : t.size = 0) : t = empty := by
  obtain ⟨bytes⟩ := t
  exact congrArg Text.mk (ByteArray.ext (Array.size_eq_zero_iff.mp h))

/-- A text falls apart at any offset. -/
theorem exists_append_of_le {t : Text} {n : Nat} (h : n ≤ t.size) :
    ∃ a b : Text, t = a ++ b ∧ a.size = n := by
  refine ⟨⟨t.bytes.extract 0 n⟩, ⟨t.bytes.extract n t.bytes.size⟩, ?_, ?_⟩
  · have hparts : t.bytes.extract 0 n ++ t.bytes.extract n t.bytes.size = t.bytes := by
      have hmax : max n t.bytes.size = t.bytes.size := Nat.max_eq_right h
      rw [ByteArray.extract_append_extract, Nat.zero_min, hmax, ByteArray.extract_zero_size]
    exact congrArg Text.mk hparts.symm
  · rw [size, ByteArray.size_extract, Nat.sub_zero]
    exact Nat.min_eq_left h

/-- Where the bytes agree as far as either character goes, one character is read. -/
theorem readAt_eq_of_agree {t u : Text} {i j n : Nat}
    (hbytes : ∀ k < n, t.byteAt (i + k) = u.byteAt (j + k))
    (ht : ∀ c m, t.sequenceAt i = some (c, m) → m < n)
    (hu : ∀ c m, u.sequenceAt j = some (c, m) → m < n) : t.readAt i = u.readAt j := by
  have hsame : t.sequenceAt i = u.sequenceAt j := by
    cases hfound : t.sequenceAt i with
    | some found =>
        obtain ⟨c, m⟩ := found
        have hm := ht c m hfound
        exact (sequenceAt_local hfound fun k hk => hbytes k (by omega)).symm
    | none =>
        cases hfound' : u.sequenceAt j with
        | none => rfl
        | some found =>
            obtain ⟨c, m⟩ := found
            have hm := hu c m hfound'
            have hback := sequenceAt_local hfound' fun k hk => (hbytes k (by omega)).symm
            rw [hfound] at hback
            cases hback
  rw [readAt, readAt, hsame]

/-- Where a byte stands that continues nothing, no character goes on. -/
theorem sequenceAt_lt {t : Text} {i : Nat} {c : Char} {m n : Nat}
    (h : t.sequenceAt i = some (c, m)) (hn : 0 < n) (hbyte : t.byteAt (i + n) < 0x80) : m < n := by
  rcases Nat.lt_or_ge m n with hlt | hge
  · exact hlt
  · exact absurd hbyte (UInt8.not_lt.mpr ((begins_of_sequenceAt h).tails hn hge))

/-- A character ends with the text, at the latest. -/
theorem readAt_le_size {t : Text} {i : Nat} (h : i < t.size) : i + 1 + (t.readAt i).2 ≤ t.size := by
  cases hfound : t.sequenceAt i with
  | none =>
      rw [readAt, hfound]
      exact h
  | some found =>
      obtain ⟨c, m⟩ := found
      have hzero : t.byteAt (i + (t.size - i)) = 0 := byteAt_of_size_le (by omega)
      have hm := sequenceAt_lt hfound (n := t.size - i) (by omega) (by rw [hzero]; decide)
      rw [readAt, hfound]
      change i + 1 + m ≤ t.size
      omega

/-- What holds past the end of a text, and at an offset if it holds behind the character that is
read there, holds at every offset. -/
@[elab_as_elim]
theorem reading_induction (t : Text) {motive : Nat → Prop} (stop : ∀ i, t.size ≤ i → motive i)
    (read : ∀ i, i < t.size → motive (i + 1 + (t.readAt i).2) → motive i) (i : Nat) :
    motive i := by
  induction hleft : t.size - i using Nat.strong_induction_on generalizing i with
  | _ n ih =>
      rcases Nat.lt_or_ge i t.size with hmore | hend
      · exact read i hmore (ih _ (by omega) _ rfl)
      · exact stop i hend

theorem charsFrom_toList (t : Text) (i : Nat) (before : Array Char) :
    (t.charsFrom i before).toList = before.toList ++ (t.charsFrom i #[]).toList := by
  induction i using reading_induction t generalizing before with
  | stop i hend =>
      rw [charsFrom, charsFrom, if_neg (not_lt.mpr hend), if_neg (not_lt.mpr hend)]
      simp
  | read i hmore ih =>
      rw [charsFrom, charsFrom, if_pos hmore, if_pos hmore]
      dsimp only
      rw [ih, ih (#[].push (t.readAt i).1)]
      simp

theorem charsFrom_cons {t : Text} {i : Nat} (h : i < t.size) :
    (t.charsFrom i #[]).toList =
      (t.readAt i).1 :: (t.charsFrom (i + 1 + (t.readAt i).2) #[]).toList := by
  rw [charsFrom, if_pos h]
  dsimp only
  rw [charsFrom_toList]
  rfl

theorem charsFrom_end {t : Text} {i : Nat} (h : t.size ≤ i) : t.charsFrom i #[] = #[] := by
  rw [charsFrom, if_neg (Nat.not_lt.mpr h)]

/-- Behind some text the characters are those of what follows. -/
theorem charsFrom_append (a b : Text) (i : Nat) :
    ((a ++ b).charsFrom (a.size + i) #[]).toList = (b.charsFrom i #[]).toList := by
  induction i using reading_induction b with
  | stop i hend =>
      rw [charsFrom_end hend, charsFrom_end]
      rw [size_append]
      omega
  | read i hmore ih =>
      have hboth : a.size + i < (a ++ b).size := by
        rw [size_append]
        omega
      have hread : (a ++ b).readAt (a.size + i) = b.readAt i := by
        have hbytes : ∀ k, (a ++ b).byteAt (a.size + i + k) = b.byteAt (i + k) := fun k => by
          rw [Nat.add_assoc, byteAt_append_right]
        refine readAt_eq_of_agree (n := 4) (fun k _ => hbytes k) ?_ ?_ <;>
          exact fun c m hfound => (begins_of_sequenceAt hfound).short
      rw [charsFrom_cons hboth, charsFrom_cons hmore, hread, ← ih]
      simp only [Nat.add_assoc]

/-- Two texts read one after the other where no character goes across. -/
theorem chars_append {a b : Text} (h : ∀ i < a.size, (a ++ b).readAt i = a.readAt i) :
    (a ++ b).chars.toList = a.chars.toList ++ b.chars.toList := by
  have hfrom : ∀ i ≤ a.size, ((a ++ b).charsFrom i #[]).toList =
      (a.charsFrom i #[]).toList ++ b.chars.toList := by
    intro i hi
    induction i using reading_induction a with
    | stop i hend =>
        obtain rfl : i = a.size := Nat.le_antisymm hi hend
        rw [charsFrom_end (t := a) (Nat.le_refl _)]
        exact charsFrom_append a b 0
    | read i hmore ih =>
        have hboth : i < (a ++ b).size := by
          rw [size_append]
          omega
        rw [charsFrom_cons hboth, charsFrom_cons hmore, h i hmore, ih (readAt_le_size hmore),
          List.cons_append]
  exact hfrom 0 (Nat.zero_le _)

/-- A text reads by itself as it does before a byte that continues nothing. -/
theorem chars_append_of_first {a b : Text} (h : b.byteAt 0 < 0x80) :
    (a ++ b).chars.toList = a.chars.toList ++ b.chars.toList := by
  refine chars_append fun i hi => ?_
  have hlast : (a ++ b).byteAt (i + (a.size - i)) = b.byteAt 0 := by
    rw [← byteAt_append_right a b 0]
    congr 1
    omega
  have hzero : a.byteAt (i + (a.size - i)) = 0 := byteAt_of_size_le (by omega)
  refine readAt_eq_of_agree (n := a.size - i) (fun k hk => byteAt_append_left b (by omega)) ?_ ?_
  · intro c m hfound
    exact sequenceAt_lt hfound (by omega) (by rw [hlast]; exact h)
  · intro c m hfound
    exact sequenceAt_lt hfound (by omega) (by rw [hzero]; decide)

/-- The first character of a text is that of any beginning of it that holds its bytes. -/
theorem readAt_append_of_lt {a b : Text} (h : ((a ++ b).readAt 0).2 < a.size) :
    (a ++ b).readAt 0 = a.readAt 0 := by
  have hzero : a.byteAt (0 + a.size) = 0 := byteAt_of_size_le (by omega)
  refine readAt_eq_of_agree (n := a.size) (fun k hk => byteAt_append_left b (by omega)) ?_ ?_
  · intro c m hfound
    rw [readAt, hfound] at h
    exact h
  · intro c m hfound
    exact sequenceAt_lt hfound (by omega) (by rw [hzero]; decide)

theorem chars_empty : empty.chars = #[] := charsFrom_end (Nat.le_refl 0)

/-- A text falls apart at any of its characters into texts that read as the
characters before and behind. -/
theorem exists_append_of_chars {t : Text} {as bs : List Char} (h : t.chars.toList = as ++ bs) :
    ∃ a b : Text, t = a ++ b ∧ a.chars.toList = as ∧ b.chars.toList = bs := by
  induction as generalizing t with
  | nil => exact ⟨empty, t, (empty_append t).symm, congrArg Array.toList chars_empty, h⟩
  | cons c as ih =>
      have hsome : 0 < t.size := by
        rcases Nat.eq_zero_or_pos t.size with hnone | hsome
        · rw [chars, charsFrom_end (by omega)] at h
          cases h
        · exact hsome
      have hstop := readAt_le_size hsome
      obtain ⟨first, others, rfl, hsize⟩ := exists_append_of_le hstop
      rw [chars, charsFrom_cons hsome, ← hsize] at h
      obtain ⟨rfl, hothers⟩ := List.cons.inj h
      have hbehind : others.chars.toList = as ++ bs :=
        (charsFrom_append first others 0).symm.trans hothers
      obtain ⟨a, b, rfl, ha, hb⟩ := ih hbehind
      have hsame : (first ++ (a ++ b)).readAt 0 = (first ++ a).readAt 0 := by
        rw [← append_assoc] at hsize ⊢
        refine readAt_append_of_lt ?_
        rw [size_append]
        omega
      have hpos : 0 < (first ++ a).size := by
        rw [size_append]
        omega
      refine ⟨first ++ a, b, (append_assoc first a b).symm, ?_, hb⟩
      rw [chars, charsFrom_cons hpos, ← hsame, ← hsize, ← ha]
      exact congrArg _ (charsFrom_append first a 0)

end Scriptlet.Text
