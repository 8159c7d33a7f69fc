/-
The bytes of a string, read as characters, are the characters of the string:
reading is the inverse of encoding.  Quoting a string is therefore escaping its
characters one by one.
-/
import Mathlib
import Scriptlet.Text.Quoted

namespace Scriptlet.Text

theorem byteAt_toByteArray (l : List UInt8) (i : Nat) :
    byteAt ⟨l.toByteArray⟩ i = l.getD i 0 := by
  unfold byteAt
  by_cases h : i < l.length <;> simp [h]

theorem lt_byte_iff {a b : UInt8} {n : Nat} (h : b.toNat = n) : a < b ↔ a.toNat < n := by
  rw [UInt8.lt_iff_toNat_lt, h]

theorem le_byte_iff {a b : UInt8} {n : Nat} (h : b.toNat = n) : a ≤ b ↔ a.toNat ≤ n := by
  rw [UInt8.le_iff_toNat_le, h]

theorem byte_le_iff {a b : UInt8} {n : Nat} (h : a.toNat = n) : a ≤ b ↔ n ≤ b.toNat := by
  rw [UInt8.le_iff_toNat_le, h]

theorem toNat_and_lowBits (b : UInt8) (k : Nat) (hk : 2 ^ k - 1 < 256) :
    (b &&& UInt8.ofNat (2 ^ k - 1)).toNat = b.toNat % 2 ^ k := by
  rw [UInt8.toNat_and, UInt8.toNat_ofNat', Nat.mod_eq_of_lt (by simpa using hk),
    Nat.and_two_pow_sub_one_eq_mod]

/-- The first byte of a long character, with some bits over its mark. -/
theorem toNat_leadByte {bits mark : Nat} (h : bits + mark < 256) :
    (UInt8.ofNat (bits + mark)).toNat = bits + mark := by
  rw [UInt8.toNat_ofNat']
  exact Nat.mod_eq_of_lt h

/-- The byte that carries the low six bits of `n` behind a first byte. -/
def tailByte (n : Nat) : UInt8 := UInt8.ofNat (n % 0x40 + 0x80)

theorem toNat_tailByte (n : Nat) : (tailByte n).toNat = n % 64 + 128 :=
  toNat_leadByte (by omega)

theorem tailBits_eq (b : UInt8) : tailBits b = b.toNat % 64 := toNat_and_lowBits b 6 (by decide)

theorem isTail_iff (b : UInt8) : isTail b = true ↔ 128 ≤ b.toNat ∧ b.toNat ≤ 191 := by
  rw [isTail, Bool.and_eq_true, decide_eq_true_eq, decide_eq_true_eq,
    byte_le_iff (n := 0x80) rfl, le_byte_iff (n := 0xBF) rfl]

theorem tailBits_tailByte (n : Nat) : tailBits (tailByte n) = n % 64 := by
  rw [tailBits_eq, toNat_tailByte]
  omega

theorem isTail_tailByte (n : Nat) : isTail (tailByte n) = true := by
  rw [isTail_iff, toNat_tailByte]
  omega

/-- The second byte is bounded more narrowly behind one first byte than behind the others. -/
theorem least_le_iff {lead mark low least x : UInt8} (h : low ≤ least) :
    (if lead == mark then least else low) ≤ x ↔
      low.toNat ≤ x.toNat ∧ (lead.toNat = mark.toNat → least.toNat ≤ x.toNat) := by
  rw [UInt8.toNat_inj]
  by_cases hmark : lead = mark
  · rw [if_pos (beq_iff_eq.mpr hmark)]
    exact ⟨fun hx => ⟨UInt8.le_trans h hx, fun _ => hx⟩, fun hx => hx.2 hmark⟩
  · rw [if_neg (mt beq_iff_eq.mp hmark)]
    exact ⟨fun hx => ⟨hx, fun hsame => absurd hsame hmark⟩, And.left⟩

theorem le_most_iff {lead mark high most x : UInt8} (h : most ≤ high) :
    x ≤ (if lead == mark then most else high) ↔
      x.toNat ≤ high.toNat ∧ (lead.toNat = mark.toNat → x.toNat ≤ most.toNat) := by
  rw [UInt8.toNat_inj]
  by_cases hmark : lead = mark
  · rw [if_pos (beq_iff_eq.mpr hmark)]
    exact ⟨fun hx => ⟨UInt8.le_trans hx h, fun _ => hx⟩, fun hx => hx.2 hmark⟩
  · rw [if_neg (mt beq_iff_eq.mp hmark)]
    exact ⟨fun hx => ⟨hx, fun hsame => absurd hsame hmark⟩, And.left⟩

/-- That bytes, by their place, begin with those of a character, of which so many are behind
its first one. -/
inductive Begins (b : Nat → UInt8) : Char → Nat → Prop where
  | one (hlead : b 0 < 0x80) : Begins b (Char.ofNat (b 0).toNat) 0
  | two (hleast : ¬ b 0 < 0xC2) (hmost : b 0 < 0xE0) (h1 : isTail (b 1) = true) :
      Begins b (Char.ofNat ((b 0 &&& 0x1F).toNat * 64 + tailBits (b 1))) 1
  | three (hleast : ¬ b 0 < 0xE0) (hmost : b 0 < 0xF0)
      (hleast1 : (if b 0 == 0xE0 then (0xA0 : UInt8) else 0x80) ≤ b 1)
      (hmost1 : b 1 ≤ if b 0 == 0xED then (0x9F : UInt8) else 0xBF) (h2 : isTail (b 2) = true) :
      Begins b (Char.ofNat
        (((b 0 &&& 0x0F).toNat * 64 + tailBits (b 1)) * 64 + tailBits (b 2))) 2
  | four (hleast : ¬ b 0 < 0xF0) (hmost : b 0 < 0xF5)
      (hleast1 : (if b 0 == 0xF0 then (0x90 : UInt8) else 0x80) ≤ b 1)
      (hmost1 : b 1 ≤ if b 0 == 0xF4 then (0x8F : UInt8) else 0xBF) (h2 : isTail (b 2) = true)
      (h3 : isTail (b 3) = true) :
      Begins b (Char.ofNat
        ((((b 0 &&& 0x07).toNat * 64 + tailBits (b 1)) * 64 + tailBits (b 2)) * 64 +
          tailBits (b 3))) 3

/-- A character is read where the bytes begin with its own, and only there. -/
theorem begins_of_sequenceAt {t : Text} {i : Nat} {c : Char} {m : Nat}
    (h : t.sequenceAt i = some (c, m)) : Begins (fun k => t.byteAt (i + k)) c m := by
  unfold sequenceAt at h
  dsimp only at h
  by_cases hone : t.byteAt i < 0x80
  · rw [if_pos hone] at h
    obtain ⟨rfl, rfl⟩ := Prod.mk.inj (Option.some.inj h)
    exact .one hone
  rw [if_neg hone] at h
  by_cases hlow : t.byteAt i < 0xC2
  · rw [if_pos hlow] at h
    cases h
  rw [if_neg hlow] at h
  by_cases htwo : t.byteAt i < 0xE0
  · rw [if_pos htwo, Option.ite_none_right_eq_some] at h
    obtain ⟨htail, heq⟩ := h
    obtain ⟨rfl, rfl⟩ := Prod.mk.inj (Option.some.inj heq)
    exact .two hlow htwo htail
  rw [if_neg htwo] at h
  by_cases hthree : t.byteAt i < 0xF0
  · rw [if_pos hthree, Option.ite_none_right_eq_some] at h
    obtain ⟨htail, heq⟩ := h
    obtain ⟨rfl, rfl⟩ := Prod.mk.inj (Option.some.inj heq)
    simp only [Bool.and_eq_true, decide_eq_true_eq] at htail
    exact .three htwo hthree htail.1.1 htail.1.2 htail.2
  rw [if_neg hthree] at h
  by_cases hfour : t.byteAt i < 0xF5
  · rw [if_pos hfour, Option.ite_none_right_eq_some] at h
    obtain ⟨htail, heq⟩ := h
    obtain ⟨rfl, rfl⟩ := Prod.mk.inj (Option.some.inj heq)
    simp only [Bool.and_eq_true, decide_eq_true_eq] at htail
    exact .four hthree hfour htail.1.1.1 htail.1.1.2 htail.1.2 htail.2
  · rw [if_neg hfour] at h
    cases h

theorem sequenceAt_of_begins {t : Text} {i : Nat} {c : Char} {m : Nat}
    (h : Begins (fun k => t.byteAt (i + k)) c m) : t.sequenceAt i = some (c, m) := by
  have hless : ∀ {a b : UInt8}, a ≤ b → ¬ t.byteAt i < b → ¬ t.byteAt i < a :=
    fun hab h hlt => h (UInt8.lt_of_lt_of_le hlt hab)
  rw [sequenceAt]
  cases h with
  | one hlead => exact if_pos hlead
  | two hleast hmost h1 =>
      dsimp only [Nat.add_zero] at *
      rw [if_neg (hless (by decide) hleast), if_neg hleast, if_pos hmost, if_pos h1]
  | three hleast hmost hleast1 hmost1 h2 =>
      dsimp only [Nat.add_zero] at *
      rw [if_neg (hless (by decide) hleast), if_neg (hless (by decide) hleast), if_neg hleast,
        if_pos hmost, if_pos]
      simp only [Bool.and_eq_true, decide_eq_true_eq]
      exact ⟨⟨hleast1, hmost1⟩, h2⟩
  | four hleast hmost hleast1 hmost1 h2 h3 =>
      dsimp only [Nat.add_zero] at *
      rw [if_neg (hless (by decide) hleast), if_neg (hless (by decide) hleast),
        if_neg (hless (by decide) hleast), if_neg hleast, if_pos hmost, if_pos]
      simp only [Bool.and_eq_true, decide_eq_true_eq]
      exact ⟨⟨⟨hleast1, hmost1⟩, h2⟩, h3⟩

namespace Begins

variable {b : Nat → UInt8} {v : Nat}

theorem of_one (hv : v ≤ 0x7f) (h0 : b 0 = UInt8.ofNat v) : Begins b (Char.ofNat v) 0 := by
  have hlead : (b 0).toNat = v := by
    rw [h0]
    exact Nat.mod_eq_of_lt (by omega)
  rw [← hlead]
  refine .one ?_
  rw [lt_byte_iff (n := 0x80) rfl]
  omega

theorem of_two (hlow : 0x80 ≤ v) (hhigh : v ≤ 0x7ff)
    (h0 : b 0 = UInt8.ofNat (v / 64 % 0x20 + 0xc0)) (h1 : b 1 = tailByte v) :
    Begins b (Char.ofNat v) 1 := by
  have hlead : (b 0).toNat = v / 64 % 32 + 192 := by
    rw [h0, toNat_leadByte]
    omega
  have hbits : (b 0 &&& 0x1F).toNat = (b 0).toNat % 32 := toNat_and_lowBits _ 5 (by decide)
  have hvalue : (b 0 &&& 0x1F).toNat * 64 + tailBits (b 1) = v := by
    rw [hbits, hlead, h1, tailBits_tailByte]
    omega
  rw [← hvalue]
  refine .two ?_ ?_ (h1 ▸ isTail_tailByte v)
  · rw [lt_byte_iff (n := 0xC2) rfl]
    omega
  · rw [lt_byte_iff (n := 0xE0) rfl]
    omega

/-- The second byte narrows the first to the characters outside the gap. -/
theorem of_three (hlow : 0x800 ≤ v) (hhigh : v ≤ 0xffff) (hgap : v < 0xD800 ∨ 0xE000 ≤ v)
    (h0 : b 0 = UInt8.ofNat (v / 4096 % 0x10 + 0xe0)) (h1 : b 1 = tailByte (v / 64))
    (h2 : b 2 = tailByte v) : Begins b (Char.ofNat v) 2 := by
  have hlead : (b 0).toNat = v / 4096 % 16 + 224 := by
    rw [h0, toNat_leadByte]
    omega
  have htail : (b 1).toNat = v / 64 % 64 + 128 := by rw [h1, toNat_tailByte]
  have hbits : (b 0 &&& 0x0F).toNat = (b 0).toNat % 16 := toNat_and_lowBits _ 4 (by decide)
  have hvalue : ((b 0 &&& 0x0F).toNat * 64 + tailBits (b 1)) * 64 + tailBits (b 2) = v := by
    rw [hbits, hlead, h1, h2, tailBits_tailByte, tailBits_tailByte]
    omega
  rw [← hvalue]
  refine .three ?_ ?_ ((least_le_iff (by decide)).mpr ?_) ((le_most_iff (by decide)).mpr ?_)
    (h2 ▸ isTail_tailByte v)
  · rw [lt_byte_iff (n := 0xE0) rfl]
    omega
  · rw [lt_byte_iff (n := 0xF0) rfl]
    omega
  · change 128 ≤ _ ∧ (_ = 224 → 160 ≤ _)
    omega
  · change _ ≤ 191 ∧ (_ = 237 → _ ≤ 159)
    omega

theorem of_four (hlow : 0x10000 ≤ v) (hhigh : v < 0x110000)
    (h0 : b 0 = UInt8.ofNat (v / 262144 % 0x08 + 0xf0)) (h1 : b 1 = tailByte (v / 4096))
    (h2 : b 2 = tailByte (v / 64)) (h3 : b 3 = tailByte v) : Begins b (Char.ofNat v) 3 := by
  have hlead : (b 0).toNat = v / 262144 % 8 + 240 := by
    rw [h0, toNat_leadByte]
    omega
  have htail : (b 1).toNat = v / 4096 % 64 + 128 := by rw [h1, toNat_tailByte]
  have hbits : (b 0 &&& 0x07).toNat = (b 0).toNat % 8 := toNat_and_lowBits _ 3 (by decide)
  have hvalue : (((b 0 &&& 0x07).toNat * 64 + tailBits (b 1)) * 64 + tailBits (b 2)) * 64 +
      tailBits (b 3) = v := by
    rw [hbits, hlead, h1, h2, h3, tailBits_tailByte, tailBits_tailByte, tailBits_tailByte]
    omega
  rw [← hvalue]
  refine .four ?_ ?_ ((least_le_iff (by decide)).mpr ?_) ((le_most_iff (by decide)).mpr ?_)
    (h2 ▸ isTail_tailByte _) (h3 ▸ isTail_tailByte v)
  · rw [lt_byte_iff (n := 0xF0) rfl]
    omega
  · rw [lt_byte_iff (n := 0xF5) rfl]
    omega
  · change 128 ≤ _ ∧ (_ = 240 → 144 ≤ _)
    omega
  · change _ ≤ 191 ∧ (_ = 244 → _ ≤ 143)
    omega

/-- Bytes that begin with those that encode a character begin with that character. -/
theorem of_encoding {c : Char}
    (h : ∀ k x, (String.utf8EncodeChar c)[k]? = some x → b k = x) :
    Begins b c ((String.utf8EncodeChar c).length - 1) := by
  have hrange : c.val.toNat < 0xD800 ∨ 0xE000 ≤ c.val.toNat ∧ c.val.toNat < 0x110000 := by
    rcases c.valid with hlow | ⟨hlow, hhigh⟩
    · exact Or.inl hlow
    · exact Or.inr ⟨by omega, hhigh⟩
  have hchar : Char.ofNat c.val.toNat = c := Char.ofNat_toNat c
  rw [String.utf8EncodeChar] at h ⊢
  generalize c.val.toNat = v at *
  subst hchar
  by_cases h1 : v ≤ 0x7f
  · simp only [h1, if_true] at h ⊢
    exact of_one h1 (h 0 _ rfl)
  by_cases h2 : v ≤ 0x7ff
  · simp only [h1, h2, if_true, if_false] at h ⊢
    exact of_two (by omega) h2 (h 0 _ rfl) (h 1 _ rfl)
  by_cases h3 : v ≤ 0xffff
  · simp only [h1, h2, h3, if_true, if_false] at h ⊢
    exact of_three (by omega) h3 (by omega) (h 0 _ rfl) (h 1 _ rfl) (h 2 _ rfl)
  · simp only [h1, h2, h3, if_false] at h ⊢
    exact of_four (by omega) (by omega) (h 0 _ rfl) (h 1 _ rfl) (h 2 _ rfl) (h 3 _ rfl)

end Begins

/-- Where the bytes of a character stand, that character is read. -/
theorem sequenceAt_of_bytes (t : Text) (i : Nat) (c : Char)
    (h : ∀ k b, (String.utf8EncodeChar c)[k]? = some b → t.byteAt (i + k) = b) :
    t.sequenceAt i = some (c, (String.utf8EncodeChar c).length - 1) :=
  sequenceAt_of_begins (.of_encoding h)

/-- The bytes of some characters, as a list. -/
def encoded (cs : List Char) : List UInt8 := cs.flatMap String.utf8EncodeChar

theorem ofString_eq (s : String) : ofString s = ⟨(encoded s.toList).toByteArray⟩ := by
  have h : s.toByteArray = s.toList.utf8Encode := String.utf8Encode_toList.symm
  simp only [ofString, String.toUTF8_eq_toByteArray, h]
  rfl

theorem size_encoded (cs : List Char) :
    size ⟨(encoded cs).toByteArray⟩ = (encoded cs).length := by
  simp [size]

/-- Behind the characters `done`, the first of the characters that follow is
read. -/
theorem sequenceAt_encoded (done : List Char) (c : Char) (rest : List Char) :
    sequenceAt ⟨(encoded (done ++ c :: rest)).toByteArray⟩ (encoded done).length =
      some (c, (String.utf8EncodeChar c).length - 1) := by
  apply sequenceAt_of_bytes
  intro k b hb
  obtain ⟨hk, hget⟩ := List.getElem?_eq_some_iff.mp hb
  have hsplit : encoded (done ++ c :: rest) =
      encoded done ++ (String.utf8EncodeChar c ++ encoded rest) := by
    simp [encoded]
  rw [byteAt_toByteArray, hsplit, List.getD_eq_getElem?_getD,
    List.getElem?_append_right (by omega), Nat.add_sub_cancel_left,
    List.getElem?_append_left hk, hb, Option.getD_some]

theorem encoded_length_succ (done : List Char) (c : Char) :
    (encoded done).length + 1 + ((String.utf8EncodeChar c).length - 1) =
      (encoded (done ++ [c])).length := by
  have hpos := c.utf8Size_pos
  simp [encoded]
  omega

/-- Reading the encoded characters behind `done` gives those back. -/
theorem charsFrom_encoded (done rest : List Char) (before : Array Char) :
    charsFrom ⟨(encoded (done ++ rest)).toByteArray⟩ (encoded done).length before =
      before ++ rest.toArray := by
  induction rest generalizing done before with
  | nil =>
      rw [charsFrom, size_encoded]
      simp
  | cons c rest ih =>
      have hpos := c.utf8Size_pos
      have hmore : (encoded done).length < (encoded (done ++ c :: rest)).length := by
        simp [encoded]
        omega
      have hnext := ih (done ++ [c]) (before.push c)
      rw [charsFrom, size_encoded, if_pos hmore]
      simp only [readAt, sequenceAt_encoded, Option.getD_some]
      rw [encoded_length_succ]
      simpa using hnext

/-- The characters of an encoded string are those of the string. -/
theorem chars_ofString (s : String) : (ofString s).chars.toList = s.toList := by
  have h := charsFrom_encoded [] s.toList #[]
  rw [ofString_eq, chars]
  simpa [encoded] using congrArg Array.toList h

/-- Quoting the encoded characters behind `done` escapes one after the other. -/
theorem quoteFrom_encoded (done rest : List Char) (before : String) :
    quoteFrom ⟨(encoded (done ++ rest)).toByteArray⟩ (encoded done).length before =
      before ++ String.ofList (rest.flatMap escapeChar) := by
  induction rest generalizing done before with
  | nil =>
      rw [quoteFrom, size_encoded]
      simp
  | cons c rest ih =>
      have hpos := c.utf8Size_pos
      have hmore : (encoded done).length < (encoded (done ++ c :: rest)).length := by
        simp [encoded]
        omega
      have hnext := ih (done ++ [c]) (before ++ String.ofList (escapeChar c))
      rw [quoteFrom, size_encoded, if_pos hmore]
      simp only [sequenceAt_encoded]
      rw [encoded_length_succ]
      simpa [String.append_assoc] using hnext

/-- The quoted form of a string: every character escaped, between quotes. -/
theorem quoteString_toList (s : String) :
    (quoteString s).toList = '"' :: s.toList.flatMap escapeChar ++ ['"'] := by
  have h := quoteFrom_encoded [] s.toList "\""
  rw [quoteString, quote, ofString_eq]
  simp only [List.nil_append, encoded, List.flatMap_nil, List.length_nil] at h
  rw [encoded, h]
  simp

end Scriptlet.Text
