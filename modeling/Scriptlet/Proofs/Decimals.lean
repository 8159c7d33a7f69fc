/-
The decimal text of a double.  The shortest decimal in the interval around a
magnitude is found with at most seventeen digits, so it is rounded to that
magnitude again, and the text of a double reads back as the same double.
-/
import Scriptlet.Proofs.Legible
import Scriptlet.Proofs.Rounding

namespace Scriptlet

theorem Dyadic.covers_of_lt {d : Dyadic} (hpos : 0 < d.mantissa) {v : ℚ}
    (hlow : d.mantissa - (d.below : ℚ) / 4 < v / 2 ^ d.exponent)
    (hhigh : v / 2 ^ d.exponent < d.mantissa + 1 / 2) : d.Covers v := by
  rw [Dyadic.covers_iff hpos]
  split
  · exact ⟨hlow.le, hhigh.le⟩
  · exact ⟨hlow, hhigh⟩

theorem Dyadic.below_pos (d : Dyadic) : 0 < d.below := by
  unfold Dyadic.below
  split <;> omega

theorem Dyadic.covers_value {d : Dyadic} (hpos : 0 < d.mantissa) : d.Covers d.value := by
  have hself : d.value / 2 ^ d.exponent = d.mantissa := by
    rw [Dyadic.value, mul_div_cancel_right₀ _ (zpow_two_pos d.exponent).ne']
  have hbelow : (0 : ℚ) < d.below := by exact_mod_cast d.below_pos
  refine Dyadic.covers_of_lt hpos ?_ ?_ <;> rw [hself] <;> linarith

/-- A fraction in the interval around a magnitude becomes its double. -/
theorem nearestFloat_of_covers {d : Dyadic} (hd : d.Canonical) (hpos : 0 < d.mantissa)
    {num den : Nat} (hden : 0 < den) (h : d.Covers (num / den)) :
    BinaryFormat.double.nearestFloat num den = some (Double.toFloat false d) := by
  have hself : BinaryFormat.double.nearest d.fraction.1 d.fraction.2 = some d := by
    refine nearest_of_covers hd hpos d.fraction_pos ?_
    rw [d.fraction_eq]
    exact Dyadic.covers_value hpos
  rw [BinaryFormat.nearestFloat, nearest_of_covers hd hpos hden h, Option.bind_some, hself,
    Option.map_some]

namespace Decimal

/-- The number that a decimal is. -/
def value (t : Decimal) : ℚ := t.coefficient * 10 ^ t.exponent

theorem inUnits_eq {f : Nat × Nat} (hf : 0 < f.2) (e : ℤ) :
    0 < (inUnits f e).2 ∧ ((inUnits f e).1 : ℚ) / (inUnits f e).2 = f.1 / f.2 / 10 ^ e := by
  unfold inUnits
  split
  · rename_i he
    obtain ⟨k, rfl⟩ := Int.eq_ofNat_of_zero_le he
    refine ⟨Nat.mul_pos hf (Nat.pow_pos (by decide)), ?_⟩
    simp only [Int.toNat_natCast, tenTo_eq]
    push_cast
    rw [← div_div, ← zpow_natCast]
  · rename_i he
    obtain ⟨k, hk⟩ := Int.eq_ofNat_of_zero_le (a := -e) (by omega)
    have hneg : e = -(k : ℤ) := by omega
    refine ⟨hf, ?_⟩
    simp only [hk, Int.toNat_natCast, tenTo_eq]
    rw [hneg, zpow_neg, div_inv_eq_mul, zpow_natCast, div_mul_eq_mul_div]
    push_cast
    rfl

theorem between_iff {closed : Bool} {low high : Nat × Nat} (hl : 0 < low.2) (hh : 0 < high.2)
    (c : Nat) : between closed low high c = true ↔
      if closed then (low.1 : ℚ) / low.2 ≤ c ∧ (c : ℚ) ≤ high.1 / high.2
      else (low.1 : ℚ) / low.2 < c ∧ (c : ℚ) < high.1 / high.2 := by
  have hlow : (0 : ℚ) < low.2 := by exact_mod_cast hl
  have hhigh : (0 : ℚ) < high.2 := by exact_mod_cast hh
  unfold between
  rw [div_le_iff₀ hlow, le_div_iff₀ hhigh, div_lt_iff₀ hlow, lt_div_iff₀ hhigh]
  cases closed <;> simp <;> norm_cast

theorem zpow_ten_pos (e : ℤ) : (0 : ℚ) < 10 ^ e := zpow_pos (by norm_num) e

/-- What `candidate` tests of a coefficient is that its multiple of the unit lies
in the interval. -/
theorem between_span_iff (d : Dyadic) (unit : ℤ) (c : Nat) :
    between (spanOf d).closed
      (inUnits (Dyadic.fraction ⟨(spanOf d).low, (spanOf d).exponent⟩) unit)
      (inUnits (Dyadic.fraction ⟨(spanOf d).high, (spanOf d).exponent⟩) unit) c = true ↔
      d.Covers (value ⟨c, unit⟩) := by
  have hten := zpow_ten_pos unit
  obtain ⟨hl, hlow⟩ := inUnits_eq (Dyadic.fraction_pos ⟨(spanOf d).low, (spanOf d).exponent⟩) unit
  obtain ⟨hh, hhigh⟩ := inUnits_eq (Dyadic.fraction_pos ⟨(spanOf d).high, (spanOf d).exponent⟩) unit
  rw [between_iff hl hh, hlow, hhigh, Dyadic.fraction_eq, Dyadic.fraction_eq, div_le_iff₀ hten,
    le_div_iff₀ hten, div_lt_iff₀ hten, lt_div_iff₀ hten]
  rfl

/-- A candidate lies in the interval. -/
theorem candidate_covers {d : Dyadic} {unit : ℤ} {t : Decimal}
    (h : candidate (spanOf d) unit = some t) : d.Covers t.value := by
  simp only [candidate] at h
  split_ifs at h with hboth hprefer hdown hup <;> simp only [Option.some.injEq] at h <;> subst h
  all_goals refine (between_span_iff d unit _).mp ?_
  · simp_all
  · simp_all
  · assumption
  · assumption

theorem search_covers {d : Dyadic} {position : ℤ} {digits more : Nat} {t : Decimal}
    (h : search (spanOf d) position digits more = some t) : d.Covers t.value := by
  induction more generalizing digits with
  | zero => cases h
  | succ more ih =>
      rw [search] at h
      split at h
      · rename_i found hfound
        cases h
        exact candidate_covers hfound
      · exact ih h

theorem leadingZeros_spec {limit num den : Nat} (h : den ≤ num * 10 ^ limit) :
    den ≤ num * 10 ^ (leadingZeros limit num den + 1) := by
  induction limit generalizing num with
  | zero =>
      rw [Nat.pow_zero] at h
      rw [leadingZeros, Nat.zero_add, Nat.pow_one]
      omega
  | succ limit ih =>
      rw [leadingZeros]
      split
      · rw [Nat.pow_succ', ← Nat.mul_assoc] at h ⊢
        exact ih h
      · rw [Nat.zero_add, Nat.pow_one]
        omega

/-- A positive fraction that is not too small begins with the digit that
`pointPosition` says. -/
theorem pointPosition_spec {num den : Nat} (hden : 0 < den) (h : den ≤ num * 10 ^ 400) :
    (10 : ℚ) ^ (pointPosition num den - 1) ≤ num / den := by
  have hpos : (0 : ℚ) < den := by exact_mod_cast hden
  unfold pointPosition
  rw [le_div_iff₀ hpos]
  split
  · rename_i hlarge
    have hquotient : 0 < num / den := Nat.div_pos hlarge hden
    obtain ⟨k, hk⟩ : ∃ k, (Nat.toDigits 10 (num / den)).length = k + 1 :=
      Nat.exists_eq_succ_of_ne_zero (Nat.ne_of_gt Nat.length_toDigits_pos)
    have hpow : 10 ^ k ≤ num / den := by
      rcases Nat.eq_zero_or_pos k with rfl | hk0
      · exact hquotient
      · by_contra hlt
        have hlength := (Nat.length_toDigits_le_iff (b := 10) (by decide) hk0).mpr (not_le.mp hlt)
        omega
    have hmul : 10 ^ k * den ≤ num :=
      (Nat.mul_le_mul_right den hpow).trans (Nat.div_mul_le_self num den)
    rw [hk]
    push_cast
    rw [add_sub_cancel_right, zpow_natCast]
    exact_mod_cast hmul
  · have hzeros := leadingZeros_spec h
    have hten : (0 : ℚ) < 10 ^ (leadingZeros 400 num den + 1) := by positivity
    have hexponent : -(leadingZeros 400 num den : ℤ) - 1 =
        -((leadingZeros 400 num den + 1 : ℕ) : ℤ) := by
      push_cast
      ring
    rw [hexponent, zpow_neg, zpow_natCast, inv_mul_le_iff₀ hten, mul_comm]
    exact_mod_cast hzeros

theorem two_pow_le_ten_pow {n k : Nat} (h : n ≤ 3 * k) : 2 ^ n ≤ 10 ^ k :=
  calc 2 ^ n ≤ 2 ^ (3 * k) := Nat.pow_le_pow_right (by decide) h
    _ = (2 ^ 3) ^ k := Nat.pow_mul 2 3 k
    _ ≤ 10 ^ k := Nat.pow_le_pow_left (by decide) k

theorem fraction_le (d : Dyadic) (hpos : 0 < d.mantissa) (hleast : -1076 ≤ d.exponent) :
    d.fraction.2 ≤ d.fraction.1 * 10 ^ 400 := by
  unfold Dyadic.fraction
  split
  · have htwo : 0 < twoTo d.exponent.toNat := Nat.pow_pos (by decide)
    have hone : 1 ≤ d.mantissa * twoTo d.exponent.toNat := Nat.mul_pos hpos htwo
    exact hone.trans (Nat.le_mul_of_pos_right _ (by positivity))
  · have hpow : twoTo (-d.exponent).toNat ≤ 10 ^ 400 := two_pow_le_ten_pow (by omega)
    exact hpow.trans (Nat.le_mul_of_pos_left _ hpos)

/-- A grid of seventeen digits is finer than the interval around a magnitude, so
that one of the two multiples next to the magnitude lies in it. -/
theorem covers_floor_or_succ {d : Dyadic} (hd : d.Canonical) (hpos : 0 < d.mantissa) {unit : ℤ}
    (hunit : (10 : ℚ) ^ unit * 10 ^ 16 ≤ d.value) {c : Nat}
    (hfloor : c * 10 ^ unit ≤ d.value) (hnext : d.value < (c + 1) * 10 ^ unit) :
    d.Covers (value ⟨c, unit⟩) ∨ d.Covers (value ⟨c + 1, unit⟩) := by
  have htwo := zpow_two_pos d.exponent
  have hwide : (d.mantissa : ℚ) < (1 / 2 + (d.below : ℚ) / 4) * 10 ^ 16 := by
    unfold Dyadic.below
    split
    · rename_i hpower
      rw [hpower.1, Double.leastNormal, twoTo_eq]
      norm_num
    · have hcast : (d.mantissa : ℚ) < 2 ^ 53 := by exact_mod_cast hd.1
      norm_num at hcast ⊢
      linarith
  rw [Dyadic.value] at hunit hfloor hnext
  by_cases hdown : (d.mantissa - (d.below : ℚ) / 4) * 2 ^ d.exponent < c * 10 ^ unit
  · left
    refine Dyadic.covers_of_lt hpos ?_ ?_
    · rw [lt_div_iff₀ htwo]
      exact hdown
    · rw [div_lt_iff₀ htwo, value]
      linarith
  · right
    refine Dyadic.covers_of_lt hpos ?_ ?_
    · rw [lt_div_iff₀ htwo, value]
      push_cast
      have hbelow : (0 : ℚ) < d.below := by exact_mod_cast d.below_pos
      nlinarith
    · rw [div_lt_iff₀ htwo, value]
      push_cast
      nlinarith

theorem mid_value (d : Dyadic) :
    (Dyadic.mk (spanOf d).mid (spanOf d).exponent).value = d.value := by
  have hpow : (2 : ℚ) ^ (d.exponent - 2) = 2 ^ d.exponent / 4 := by
    rw [zpow_sub₀ (by norm_num)]
    norm_num
  simp only [Dyadic.value, spanOf, hpow]
  push_cast
  ring

/-- The digits of a magnitude are found within seventeen. -/
theorem candidate_ne_none {d : Dyadic} (hd : d.Canonical) (hpos : 0 < d.mantissa) {unit : ℤ}
    (hunit : (10 : ℚ) ^ unit * 10 ^ 16 ≤ d.value) : candidate (spanOf d) unit ≠ none := by
  have hten := zpow_ten_pos unit
  have hmid := mid_value d
  obtain ⟨hden, hvalue⟩ := inUnits_eq
    (Dyadic.fraction_pos ⟨(spanOf d).mid, (spanOf d).exponent⟩) unit
  rw [Dyadic.fraction_eq, hmid] at hvalue
  simp only [candidate]
  generalize inUnits (Dyadic.fraction ⟨(spanOf d).mid, (spanOf d).exponent⟩) unit = mid
    at hden hvalue
  have hcast : (0 : ℚ) < mid.2 := by exact_mod_cast hden
  have hfloor : ((mid.1 / mid.2 : ℕ) : ℚ) * 10 ^ unit ≤ d.value := by
    rw [← le_div_iff₀ hten, ← hvalue, le_div_iff₀ hcast]
    exact_mod_cast Nat.div_mul_le_self mid.1 mid.2
  have hnext : d.value < ((mid.1 / mid.2 : ℕ) + 1) * 10 ^ unit := by
    rw [← div_lt_iff₀ hten, ← hvalue, div_lt_iff₀ hcast]
    have hlt := Nat.lt_mul_div_succ mid.1 hden
    rw [Nat.mul_comm] at hlt
    exact_mod_cast hlt
  rcases covers_floor_or_succ hd hpos hunit hfloor hnext with hcovers | hcovers
  · have hdown := (between_span_iff d unit _).mpr hcovers
    simp only [hdown]
    split_ifs <;> simp_all
  · have hup := (between_span_iff d unit _).mpr hcovers
    simp only [hup]
    split_ifs <;> simp_all

theorem search_ne_none {span : Span} {position : ℤ} {k : Nat} (digits more : Nat)
    (hlow : digits ≤ k) (hhigh : k < digits + more) (h : candidate span (position - k) ≠ none) :
    search span position digits more ≠ none := by
  induction more generalizing digits with
  | zero => omega
  | succ more ih =>
      rw [search]
      split
      · exact Option.some_ne_none _
      · rename_i hnone
        have hne : digits ≠ k := by
          rintro rfl
          exact h hnone
        exact ih (digits + 1) (by omega) (by omega)

theorem dropZeros_value (limit : Nat) (t : Decimal) : (dropZeros limit t).value = t.value := by
  induction limit generalizing t with
  | zero => rfl
  | succ limit ih =>
      rw [dropZeros]
      split
      · rename_i h
        have hdiv : t.coefficient = t.coefficient / 10 * 10 := by omega
        rw [ih, value, value, zpow_add₀ (by norm_num), zpow_one]
        conv_rhs => rw [hdiv]
        push_cast
        ring
      · rfl

/-- The shortest decimal lies in the interval around the magnitude. -/
theorem shortest_covers {d : Dyadic} (hd : d.Canonical) (hpos : 0 < d.mantissa) :
    d.Covers (shortest d).value := by
  obtain ⟨mid, hmid⟩ : ∃ mid : Dyadic, mid = ⟨(spanOf d).mid, (spanOf d).exponent⟩ := ⟨_, rfl⟩
  have hvalue : mid.value = d.value := by
    rw [hmid]
    exact mid_value d
  have hlarge : mid.fraction.2 ≤ mid.fraction.1 * 10 ^ 400 := by
    refine fraction_le mid ?_ ?_ <;> rw [hmid]
    · exact Nat.mul_pos (by decide) hpos
    · have hleast : (-1074 : ℤ) ≤ d.exponent := hd.2.1
      change -1076 ≤ d.exponent - 2
      omega
  have hpoint := pointPosition_spec mid.fraction_pos hlarge
  rw [mid.fraction_eq, hvalue] at hpoint
  have hseventeen : (10 : ℚ) ^ (pointPosition mid.fraction.1 mid.fraction.2 - (17 : ℕ)) * 10 ^ 16 ≤
      d.value := by
    refine le_of_eq_of_le ?_ hpoint
    rw [← zpow_natCast, ← zpow_add₀ (by norm_num)]
    congr 1
    push_cast
    ring
  have hsearch := search_ne_none 1 17 (by decide) (by decide)
    (candidate_ne_none hd hpos hseventeen)
  rw [shortest, ← hmid]
  split
  · rename_i found hfound
    rw [dropZeros_value]
    exact search_covers hfound
  · rename_i hnone
    exact absurd hnone hsearch

theorem numeral_eq (cs : List Char) : Lexer.numeral cs = Nat.ofDigitChars 10 cs 0 := by
  rw [Lexer.numeral, Nat.ofDigitChars_eq_foldl]
  congr 1
  funext n c
  rw [Nat.mul_comm]

theorem numeral_toDigits (n : Nat) : Lexer.numeral (Nat.toDigits 10 n) = n := by
  rw [numeral_eq, Nat.ofDigitChars_ten_toDigits]

theorem numeral_zeros_append (k : Nat) (cs : List Char) :
    Lexer.numeral (List.replicate k '0' ++ cs) = Lexer.numeral cs := by
  rw [numeral_eq, numeral_eq, Nat.ofDigitChars_append, Nat.ofDigitChars_replicate_zero,
    Nat.mul_zero]

theorem numeral_append_zeros (cs : List Char) (k : Nat) :
    Lexer.numeral (cs ++ List.replicate k '0') = Lexer.numeral cs * 10 ^ k := by
  rw [numeral_eq, numeral_eq, Nat.ofDigitChars_append, Nat.ofDigitChars_replicate_zero,
    Nat.mul_comm]

theorem isDigit_of_mem_toDigits {n : Nat} {c : Char} (h : c ∈ Nat.toDigits 10 n) :
    Lexer.isDigit c = true :=
  Nat.isDigit_of_mem_toDigits (by decide) (by decide) h

theorem isDigit_of_mem_zeros {k : Nat} {c : Char} (h : c ∈ List.replicate k '0') :
    Lexer.isDigit c = true := by
  rw [List.eq_of_mem_replicate h]
  rfl

/-- Whether some characters are a literal with a fraction that stands for `v`. -/
def Spells (cs : List Char) (v : ℚ) : Prop :=
  ∃ whole fraction, cs = whole ++ '.' :: fraction ∧ whole ≠ [] ∧ fraction ≠ [] ∧
    (∀ c ∈ whole ++ fraction, Lexer.isDigit c = true) ∧
    (Lexer.numeral (whole ++ fraction) : ℚ) / 10 ^ fraction.length = v

theorem spells_whole (n k : Nat) :
    Spells (Nat.toDigits 10 n ++ List.replicate k '0' ++ ['.', '0']) (n * 10 ^ k) := by
  refine ⟨Nat.toDigits 10 n ++ List.replicate k '0', ['0'], rfl, ?_, List.cons_ne_nil _ _, ?_, ?_⟩
  · simp
  · intro c hc
    rcases List.mem_append.mp hc with hc | hc
    · rcases List.mem_append.mp hc with hc | hc
      · exact isDigit_of_mem_toDigits hc
      · exact isDigit_of_mem_zeros hc
    · rw [List.mem_singleton.mp hc]
      rfl
  · have hone : (['0'] : List Char) = List.replicate 1 '0' := rfl
    rw [List.append_assoc, hone, List.replicate_append_replicate, numeral_append_zeros,
      numeral_toDigits, List.length_replicate]
    push_cast
    rw [pow_add, ← mul_assoc, mul_div_assoc, div_self (by norm_num), mul_one]

theorem spells_fraction {padded : List Char} {k n : Nat} (hk : 0 < k) (hlong : k < padded.length)
    (hdigits : ∀ c ∈ padded, Lexer.isDigit c = true) (hvalue : Lexer.numeral padded = n) :
    Spells (padded.take (padded.length - k) ++ '.' :: padded.drop (padded.length - k))
      (n * 10 ^ (-(k : ℤ))) := by
  refine ⟨padded.take (padded.length - k), padded.drop (padded.length - k), rfl, ?_, ?_, ?_, ?_⟩
  · rw [← List.length_pos_iff, List.length_take]
    omega
  · rw [← List.length_pos_iff, List.length_drop]
    omega
  · rw [List.take_append_drop]
    exact hdigits
  · have hlength : (padded.drop (padded.length - k)).length = k := by
      rw [List.length_drop]
      omega
    rw [List.take_append_drop, hvalue, hlength, zpow_neg, zpow_natCast, div_eq_mul_inv]

/-- The positional text of a decimal, with a fraction, stands for its value. -/
theorem positional_spells (t : Decimal) :
    Spells (t.positional ++ if 0 ≤ t.exponent then ".0" else "").toList t.value := by
  unfold positional
  by_cases he : 0 ≤ t.exponent
  · obtain ⟨k, hk⟩ := Int.eq_ofNat_of_zero_le he
    simp only [hk, value, if_pos, Int.toNat_natCast, zpow_natCast, Int.natCast_nonneg]
    by_cases hzero : t.coefficient = 0
    · have hspells := spells_whole 0 0
      rw [if_pos hzero, hzero]
      simpa using hspells
    · have hspells := spells_whole t.coefficient k
      rw [if_neg hzero]
      simpa using hspells
  · obtain ⟨k, hk⟩ := Int.eq_ofNat_of_zero_le (a := -t.exponent) (by omega)
    have hneg : t.exponent = -(k : ℤ) := by omega
    have hpos : 0 < k := by omega
    have hlength : (toString t.coefficient).length = (Nat.toDigits 10 t.coefficient).length := by
      simp [← String.length_toList]
    have hlist : (toString t.coefficient).toList = Nat.toDigits 10 t.coefficient := by simp
    simp only [if_neg he, hk, Int.toNat_natCast, hlength, hlist, value]
    rw [hneg]
    split
    · rename_i hshort
      obtain ⟨padded, hpadded⟩ : ∃ padded, padded = List.replicate
        (k + 1 - (Nat.toDigits 10 t.coefficient).length) '0' ++ Nat.toDigits 10 t.coefficient :=
        ⟨_, rfl⟩
      have hlong : k < padded.length := by
        rw [hpadded, List.length_append, List.length_replicate]
        omega
      have hdigits : ∀ c ∈ padded, Lexer.isDigit c = true := by
        intro c hc
        rw [hpadded] at hc
        rcases List.mem_append.mp hc with hc | hc
        · exact isDigit_of_mem_zeros hc
        · exact isDigit_of_mem_toDigits hc
      have hvalue : Lexer.numeral padded = t.coefficient := by
        rw [hpadded, numeral_zeros_append, numeral_toDigits]
      have hspells := spells_fraction hpos hlong hdigits hvalue
      rw [← hpadded]
      simpa using hspells
    · have hspells := spells_fraction hpos (by omega)
        (fun c hc => isDigit_of_mem_toDigits hc) (numeral_toDigits t.coefficient)
      simpa using hspells

end Decimal

theorem IsDecimal.exists_dyadic {x : Float} (h : IsDecimal x) :
    ∃ d : Dyadic, d.Canonical ∧ x = Double.toFloat false d := by
  obtain ⟨digits, scale, hnearest⟩ := h
  rw [nearestDecimal, BinaryFormat.nearestFloat] at hnearest
  obtain ⟨d, -, hmap⟩ := Option.bind_eq_some_iff.mp hnearest
  obtain ⟨e, he, hx⟩ := Option.map_eq_some_iff.mp hmap
  exact ⟨e, nearest_canonical d.fraction_pos he, hx.symm⟩

theorem nearestFloat_zero (den : Nat) : BinaryFormat.double.nearestFloat 0 den =
    some (Double.toFloat false ⟨0, Double.leastExponent⟩) := by
  have hzero : ∀ n, BinaryFormat.double.nearest 0 n = some ⟨0, Double.leastExponent⟩ :=
    fun n => if_pos rfl
  have hfraction : (Dyadic.mk 0 Double.leastExponent).fraction.1 = 0 := rfl
  rw [BinaryFormat.nearestFloat, hzero, Option.bind_some, hfraction, hzero, Option.map_some]

/-- The text of a double stands for a number that is rounded to that double. -/
theorem floatText_spells {x : Float} (h : IsDecimal x) :
    ∃ v : ℚ, Decimal.Spells (floatText x).toList v ∧
      ∀ num den : Nat, 0 < den → (num : ℚ) / den = v →
        BinaryFormat.double.nearestFloat num den = some x := by
  obtain ⟨d, hd, rfl⟩ := IsDecimal.exists_dyadic h
  have htext : floatText (Double.toFloat false d) =
      (if d.mantissa = 0 then (⟨0, 0⟩ : Decimal) else Decimal.shortest d).positional ++
        if 0 ≤ (if d.mantissa = 0 then (⟨0, 0⟩ : Decimal) else Decimal.shortest d).exponent then
          ".0" else "" := by
    rw [floatText, Double.ofFloat_toFloat hd]
    simp
  rw [htext]
  refine ⟨_, Decimal.positional_spells _, ?_⟩
  intro num den hden hvalue
  by_cases hzero : d.mantissa = 0
  · obtain ⟨m, e⟩ := d
    subst hzero
    have hsmall : ¬ 2 ^ 52 ≤ 0 := by decide
    obtain rfl : e = Double.leastExponent := hd.2.2.2.resolve_left hsmall
    have hpos : (0 : ℚ) < den := by exact_mod_cast hden
    rw [if_pos rfl, Decimal.value, Nat.cast_zero, zero_mul, div_eq_zero_iff] at hvalue
    have hnum : num = 0 := by exact_mod_cast hvalue.resolve_right hpos.ne'
    rw [hnum]
    exact nearestFloat_zero den
  · have hpos : 0 < d.mantissa := Nat.pos_of_ne_zero hzero
    rw [if_neg hzero] at hvalue
    refine nearestFloat_of_covers hd hpos hden ?_
    rw [hvalue]
    exact Decimal.shortest_covers hd hpos

/-- The text of a double is a literal that reads back as that double. -/
theorem floatText_reads {x : Float} (h : IsDecimal x) :
    ∃ whole fraction, (floatText x).toList = whole ++ '.' :: fraction ∧ whole ≠ [] ∧
      fraction ≠ [] ∧ (∀ c ∈ whole ++ fraction, Lexer.isDigit c = true) ∧
      nearestDecimal (Lexer.numeral (whole ++ fraction)) fraction.length = some x := by
  obtain ⟨v, ⟨whole, fraction, htext, hwhole, hfraction, hdigits, hvalue⟩, hround⟩ :=
    floatText_spells h
  refine ⟨whole, fraction, htext, hwhole, hfraction, hdigits, hround _ _ ?_ ?_⟩
  · exact Nat.pow_pos (by decide)
  · rw [tenTo_eq, ← hvalue]
    push_cast
    rfl

end Scriptlet
