/-
Byte strings with invalid bytes in them.  What is read of a text are the characters of the text
mended: each byte that no character begins at is replaced by U+FFFD and everything else stays.
The length of a text, its characters by number and the list of them are three readings of it,
and agree.
-/
import Scriptlet.Proofs.Boundaries

namespace Scriptlet.Text

theorem ofNat_eq_of_toNat {n : Nat} {b : UInt8} (h : n = b.toNat) : UInt8.ofNat n = b := by
  rw [h, UInt8.ofNat_toNat]

/-- A byte that continues a character is the one for its low bits. -/
theorem tailByte_eq {n : Nat} {b : UInt8} (hb : 128 ≤ b.toNat ∧ b.toNat ≤ 191)
    (hn : n % 64 = b.toNat % 64) : tailByte n = b :=
  ofNat_eq_of_toNat (by omega)

theorem utf8EncodeChar_ofNat {v : Nat} (hv : v.isValidChar) :
    String.utf8EncodeChar (Char.ofNat v) =
      if v ≤ 0x7f then [UInt8.ofNat v]
      else if v ≤ 0x7ff then [UInt8.ofNat (v / 64 % 0x20 + 0xc0), tailByte v]
      else if v ≤ 0xffff then
        [UInt8.ofNat (v / 4096 % 0x10 + 0xe0), tailByte (v / 64), tailByte v]
      else
        [UInt8.ofNat (v / 262144 % 0x08 + 0xf0), tailByte (v / 4096), tailByte (v / 64),
          tailByte v] := by
  have hvalue : (Char.ofNat v).val.toNat = v := (Char.toNat_ofNat v).trans (if_pos hv)
  rw [String.utf8EncodeChar, hvalue]
  rfl

namespace Begins

variable {b : Nat → UInt8} {c : Char} {m : Nat}

/-- The bytes that a character is read from are those that encode it. -/
theorem encodes (h : Begins b c m) : String.utf8EncodeChar c = (List.range (m + 1)).map b := by
  cases h with
  | one hlead =>
      rw [lt_byte_iff (n := 0x80) rfl] at hlead
      rw [utf8EncodeChar_ofNat (Or.inl (by omega)), if_pos (by omega), UInt8.ofNat_toNat]
      rfl
  | two hleast hmost h1 =>
      have hbits : (b 0 &&& 0x1F).toNat = (b 0).toNat % 32 := toNat_and_lowBits _ 5 (by decide)
      rw [lt_byte_iff (n := 0xC2) rfl] at hleast
      rw [lt_byte_iff (n := 0xE0) rfl] at hmost
      rw [isTail_iff] at h1
      rw [hbits, tailBits_eq]
      rw [utf8EncodeChar_ofNat (Or.inl (by omega)), if_neg (by omega), if_pos (by omega),
        ofNat_eq_of_toNat (b := b 0) (by omega), tailByte_eq h1 (by omega)]
      rfl
  | three hleast hmost hleast1 hmost1 h2 =>
      have hbits : (b 0 &&& 0x0F).toNat = (b 0).toNat % 16 := toNat_and_lowBits _ 4 (by decide)
      have hlow : 128 ≤ (b 1).toNat ∧ ((b 0).toNat = 224 → 160 ≤ (b 1).toNat) :=
        (least_le_iff (by decide)).mp hleast1
      have hhigh : (b 1).toNat ≤ 191 ∧ ((b 0).toNat = 237 → (b 1).toNat ≤ 159) :=
        (le_most_iff (by decide)).mp hmost1
      rw [lt_byte_iff (n := 0xE0) rfl] at hleast
      rw [lt_byte_iff (n := 0xF0) rfl] at hmost
      rw [isTail_iff] at h2
      rw [hbits, tailBits_eq, tailBits_eq]
      rw [utf8EncodeChar_ofNat (by omega), if_neg (by omega), if_neg (by omega),
        if_pos (by omega), ofNat_eq_of_toNat (b := b 0) (by omega),
        tailByte_eq (b := b 1) ⟨hlow.1, hhigh.1⟩ (by omega), tailByte_eq h2 (by omega)]
      rfl
  | four hleast hmost hleast1 hmost1 h2 h3 =>
      have hbits : (b 0 &&& 0x07).toNat = (b 0).toNat % 8 := toNat_and_lowBits _ 3 (by decide)
      have hlow : 128 ≤ (b 1).toNat ∧ ((b 0).toNat = 240 → 144 ≤ (b 1).toNat) :=
        (least_le_iff (by decide)).mp hleast1
      have hhigh : (b 1).toNat ≤ 191 ∧ ((b 0).toNat = 244 → (b 1).toNat ≤ 143) :=
        (le_most_iff (by decide)).mp hmost1
      rw [lt_byte_iff (n := 0xF0) rfl] at hleast
      rw [lt_byte_iff (n := 0xF5) rfl] at hmost
      rw [isTail_iff] at h2 h3
      rw [hbits, tailBits_eq, tailBits_eq, tailBits_eq]
      rw [utf8EncodeChar_ofNat (by omega), if_neg (by omega), if_neg (by omega),
        if_neg (by omega), ofNat_eq_of_toNat (b := b 0) (by omega),
        tailByte_eq (b := b 1) ⟨hlow.1, hhigh.1⟩ (by omega),
        tailByte_eq (b := b 2) h2 (by omega), tailByte_eq h3 (by omega)]
      rfl

end Begins

/-- The bytes behind an offset begin with those of the character that is read there. -/
theorem drop_of_sequenceAt {t : Text} {i : Nat} {c : Char} {m : Nat} (hi : i < t.size)
    (h : t.sequenceAt i = some (c, m)) :
    t.toList.drop i = String.utf8EncodeChar c ++ t.toList.drop (i + 1 + m) := by
  have hstop : i + 1 + m ≤ t.size := by
    have hread := readAt_le_size hi
    rwa [readAt, h] at hread
  have hbytes : String.utf8EncodeChar c = (t.toList.drop i).take (m + 1) := by
    rw [(begins_of_sequenceAt h).encodes]
    refine List.ext_getElem? fun k => ?_
    rcases Nat.lt_or_ge k (m + 1) with hk | hk
    · rw [List.getElem?_take_of_lt hk, List.getElem?_drop, List.getElem?_map,
        List.getElem?_range hk, Option.map_some, byteAt_eq_getD, List.getD_eq_getElem?_getD]
      have hin : i + k < t.toList.length := by
        rw [length_toList]
        omega
      rw [List.getElem?_eq_getElem hin]
      rfl
    · rw [List.getElem?_eq_none (by simpa using hk), List.getElem?_eq_none]
      simp only [List.length_take]
      omega
  rw [hbytes, Nat.add_assoc, Nat.add_comm 1 m, ← List.drop_drop, List.take_append_drop]

/-- Where the bytes behind an offset begin with those of a character, it is read. -/
theorem sequenceAt_of_isPrefix {t : Text} {i : Nat} {c : Char}
    (h : String.utf8EncodeChar c <+: t.toList.drop i) :
    t.sequenceAt i = some (c, (String.utf8EncodeChar c).length - 1) := by
  refine sequenceAt_of_bytes t i c fun k b hb => ?_
  obtain ⟨rest, hrest⟩ := h
  obtain ⟨hk, -⟩ := List.getElem?_eq_some_iff.mp hb
  rw [byteAt_eq_getD, List.getD_eq_getElem?_getD, ← List.getElem?_drop, ← hrest,
    List.getElem?_append_left hk, hb, Option.getD_some]

/-- That bytes are mended to others: what encodes a character stays, and a byte that no
character begins at is replaced by the bytes of U+FFFD. -/
inductive Mends : List UInt8 → List UInt8 → Prop where
  | done : Mends [] []
  | character (c : Char) {rest mended : List UInt8} (h : Mends rest mended) :
      Mends (String.utf8EncodeChar c ++ rest) (String.utf8EncodeChar c ++ mended)
  | invalid (b : UInt8) {rest mended : List UInt8}
      (hnone : ∀ c, ¬ String.utf8EncodeChar c <+: b :: rest) (h : Mends rest mended) :
      Mends (b :: rest) (String.utf8EncodeChar '\uFFFD' ++ mended)

/-- The characters read from an offset on, encoded, are the bytes from there mended. -/
theorem mends_charsFrom (t : Text) (i : Nat) :
    Mends (t.toList.drop i) (encoded (t.charsFrom i #[]).toList) := by
  induction i using reading_induction t with
  | stop i hend =>
      have hnone : t.toList.drop i = [] := List.drop_eq_nil_of_le hend
      rw [charsFrom_end hend, hnone]
      exact .done
  | read i hmore hrest =>
      rw [charsFrom_cons hmore, encoded, List.flatMap_cons]
      cases hfound : t.sequenceAt i with
      | some found =>
          obtain ⟨c, m⟩ := found
          have hread : t.readAt i = (c, m) := congrArg (Option.getD · (replacement, 0)) hfound
          rw [hread] at hrest ⊢
          rw [drop_of_sequenceAt hmore hfound]
          exact .character c hrest
      | none =>
          have hread : t.readAt i = (replacement, 0) :=
            congrArg (Option.getD · (replacement, 0)) hfound
          have hdrop := List.drop_eq_getElem_cons (l := t.toList) hmore
          rw [hread] at hrest ⊢
          rw [hdrop]
          refine .invalid _ (fun c hc => ?_) hrest
          rw [← hdrop] at hc
          rw [sequenceAt_of_isPrefix hc] at hfound
          cases hfound

/-- No two characters begin at one byte. -/
theorem encoding_inj {c d : Char} {rest rest' : List UInt8}
    (h : String.utf8EncodeChar c ++ rest = String.utf8EncodeChar d ++ rest') :
    c = d ∧ rest = rest' := by
  have hc : sequenceAt ⟨(String.utf8EncodeChar c ++ rest).toByteArray⟩ 0 = some (c, _) :=
    sequenceAt_of_isPrefix ⟨rest, by rw [toList_mk]; rfl⟩
  have hd : sequenceAt ⟨(String.utf8EncodeChar c ++ rest).toByteArray⟩ 0 = some (d, _) :=
    sequenceAt_of_isPrefix ⟨rest', by rw [toList_mk]; exact h.symm⟩
  obtain rfl : c = d := (Prod.mk.inj (Option.some.inj (hc.symm.trans hd))).1
  exact ⟨rfl, List.append_cancel_left h⟩

/-- Bytes are mended in one way. -/
theorem Mends.unique {l u u' : List UInt8} (h : Mends l u) (h' : Mends l u') : u' = u := by
  induction h generalizing u' with
  | done =>
      generalize hl : [] = l at h'
      cases h' with
      | done => rfl
      | character c =>
          exact absurd (List.append_eq_nil_iff.mp hl.symm).1 String.utf8EncodeChar_ne_nil
      | invalid => cases hl
  | @character c rest mended h ih =>
      generalize hl : String.utf8EncodeChar c ++ rest = l at h'
      cases h' with
      | done =>
          exact absurd (List.append_eq_nil_iff.mp hl).1 String.utf8EncodeChar_ne_nil
      | character d h' =>
          obtain ⟨rfl, rfl⟩ := encoding_inj hl
          rw [ih h']
      | invalid b hnone => exact absurd ⟨rest, hl⟩ (hnone c)
  | @invalid b rest mended hnone h ih =>
      generalize hl : b :: rest = l at h'
      cases h' with
      | done => cases hl
      | @character d rest' => exact absurd ⟨rest', hl.symm⟩ (hnone d)
      | invalid _ _ h' =>
          obtain ⟨rfl, rfl⟩ := List.cons.inj hl
          rw [ih h']

/-- The characters of a text, encoded, are what it is mended to. -/
theorem mends_iff (t : Text) (u : List UInt8) :
    Mends t.toList u ↔ u = encoded t.chars.toList := by
  have hmends : Mends t.toList (encoded t.chars.toList) := mends_charsFrom t 0
  exact ⟨hmends.unique, fun h => h ▸ hmends⟩

/-- A surrogate is no character, and so none of its bytes is; nor is a character cut short. -/
example : (chars ⟨⟨#[0x61, 0xED, 0xA0, 0x80, 0xC3, 0xA9, 0xC3]⟩⟩).toList =
    ['a', '\uFFFD', '\uFFFD', '\uFFFD', 'é', '\uFFFD'] := by
  cbv

/-- Bytes that are those of some characters have nothing to be mended. -/
theorem mends_encoded (cs : List Char) : Mends (encoded cs) (encoded cs) := by
  induction cs with
  | nil => exact .done
  | cons c cs ih =>
      rw [encoded, List.flatMap_cons]
      exact .character c ih

/-- A text is mended to itself just if its bytes are valid. -/
theorem encoded_chars_eq_iff (t : Text) :
    encoded t.chars.toList = t.toList ↔ t.bytes.IsValidUTF8 := by
  constructor
  · intro h
    refine ⟨t.chars.toList, ByteArray.ext (Array.toList_inj.mp ?_)⟩
    exact h.symm.trans (toList_mk _).symm
  · rintro ⟨cs, hcs⟩
    have hbytes : t.toList = encoded cs := by
      rw [toList, hcs]
      exact toList_mk _
    refine ((mends_iff t _).mp ?_).symm
    rw [hbytes]
    exact mends_encoded cs

theorem countFrom_eq (t : Text) (i before : Nat) :
    t.countFrom i before = before + (t.charsFrom i #[]).toList.length := by
  induction i using reading_induction t generalizing before with
  | stop i hend =>
      rw [countFrom, if_neg (not_lt.mpr hend), charsFrom_end hend]
      rfl
  | read i hmore ih =>
      rw [countFrom, if_pos hmore, ih, charsFrom_cons hmore, List.length_cons]
      omega

theorem nthFrom_eq (t : Text) (i k : Nat) : t.nthFrom i k = (t.charsFrom i #[]).toList[k]? := by
  induction i using reading_induction t generalizing k with
  | stop i hend =>
      rw [nthFrom, if_neg (not_lt.mpr hend), charsFrom_end hend]
      rfl
  | read i hmore ih =>
      rw [nthFrom, if_pos hmore, charsFrom_cons hmore]
      cases k with
      | zero => rfl
      | succ k => exact ih k

theorem length_eq (t : Text) : t.length = t.chars.toList.length :=
  (countFrom_eq t 0 0).trans (Nat.zero_add _)

theorem nth?_eq (t : Text) (k : Nat) : t.nth? k = t.chars.toList[k]? := nthFrom_eq t 0 k

/-- There are no more characters than bytes. -/
theorem length_charsFrom_le (t : Text) (i : Nat) :
    (t.charsFrom i #[]).toList.length ≤ t.size - i := by
  induction i using reading_induction t with
  | stop i hend =>
      rw [charsFrom_end hend]
      exact Nat.zero_le _
  | read i hmore ih =>
      rw [charsFrom_cons hmore, List.length_cons]
      omega

theorem toList_ofChar (c : Char) : (ofChar c).toList = String.utf8EncodeChar c := by
  rw [ofChar, ofString_eq, toList_mk]
  simp [encoded]

theorem length_ofChar (c : Char) : (ofChar c).length = 1 := by
  rw [length_eq, ofChar, chars_ofString]
  simp

end Scriptlet.Text
