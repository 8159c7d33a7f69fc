/-
Rounding a fraction to a double.  Every fraction in the interval around a
magnitude that its double covers is rounded to that double, and every rounded
magnitude is one that a double can have.
-/
import Scriptlet.Number.Nearest
import Scriptlet.Number.Shortest
import Scriptlet.Proofs.Doubles

namespace Scriptlet

theorem twoTo_eq (n : Nat) : twoTo n = 2 ^ n := rfl

theorem tenTo_eq (n : Nat) : tenTo n = 10 ^ n := rfl

/-- The number that a magnitude is. -/
def Dyadic.value (d : Dyadic) : ℚ := d.mantissa * 2 ^ d.exponent

theorem Dyadic.fraction_pos (d : Dyadic) : 0 < d.fraction.2 := by
  unfold Dyadic.fraction
  split
  · exact Nat.one_pos
  · exact Nat.pow_pos (by decide)

theorem Dyadic.fraction_eq (d : Dyadic) : (d.fraction.1 : ℚ) / d.fraction.2 = d.value := by
  unfold Dyadic.fraction Dyadic.value
  split
  · rename_i h
    obtain ⟨n, hn⟩ := Int.eq_ofNat_of_zero_le h
    simp [hn, twoTo_eq]
  · rename_i h
    obtain ⟨n, hn⟩ := Int.eq_ofNat_of_zero_le (a := -d.exponent) (by omega)
    have he : d.exponent = -(n : ℤ) := by omega
    simp [he, twoTo_eq, div_eq_mul_inv]

/-- Whether `r` is the integer that `x` is rounded to: the nearest one, of two
such the even one. -/
def RoundsTo (x : ℚ) (r : ℕ) : Prop :=
  r - 1 / 2 < x ∧ x < r + 1 / 2 ∨ r % 2 = 0 ∧ r - 1 / 2 ≤ x ∧ x ≤ r + 1 / 2

theorem roundDiv_of_bounds {num den r : Nat} (hden : 0 < den)
    (hlow : 2 * (r * den) ≤ 2 * num + den) (hhigh : 2 * num ≤ 2 * (r * den) + den)
    (htie : 2 * (r * den) = 2 * num + den ∨ 2 * num = 2 * (r * den) + den → r % 2 = 0) :
    roundDiv num den = r := by
  have hsplit := Nat.div_add_mod num den
  have hmod := Nat.mod_lt num hden
  rw [Nat.mul_comm] at hsplit
  simp only [roundDiv]
  rcases Nat.lt_or_ge (num / den) r with hlt | hge
  · -- the quotient is the number below
    have hnext : (num / den + 1) * den ≤ r * den := Nat.mul_le_mul_right den hlt
    have hr : r = num / den + 1 := by
      by_contra hne
      have hfar : (num / den + 2) * den ≤ r * den := Nat.mul_le_mul_right den (by omega)
      rw [Nat.add_mul] at hnext hfar
      omega
    rw [hr, Nat.add_mul] at hlow hhigh htie
    split_ifs <;> omega
  · -- the quotient is the number itself
    have hr : num / den = r := by
      by_contra hne
      have hfar : (r + 1) * den ≤ num / den * den := Nat.mul_le_mul_right den (by omega)
      rw [Nat.add_mul] at hfar
      omega
    rw [hr] at hsplit ⊢
    split_ifs <;> omega

theorem roundDiv_eq {num den r : Nat} (hden : 0 < den) (h : RoundsTo (num / den) r) :
    roundDiv num den = r := by
  have hpos : (0 : ℚ) < den := Nat.cast_pos.mpr hden
  have hclosed : (r : ℚ) - 1 / 2 ≤ num / den ∧ (num : ℚ) / den ≤ r + 1 / 2 := by
    rcases h with ⟨hlow, hhigh⟩ | ⟨-, hlow, hhigh⟩
    · exact ⟨hlow.le, hhigh.le⟩
    · exact ⟨hlow, hhigh⟩
  have hlow : 2 * (r * den : ℚ) ≤ 2 * num + den := by
    have hmul := (le_div_iff₀ hpos).mp hclosed.1
    linarith
  have hhigh : 2 * (num : ℚ) ≤ 2 * (r * den) + den := by
    have hmul := (div_le_iff₀ hpos).mp hclosed.2
    linarith
  refine roundDiv_of_bounds hden (by exact_mod_cast hlow) (by exact_mod_cast hhigh) ?_
  intro htie
  rcases h with ⟨hlt, hgt⟩ | ⟨heven, -⟩
  · rw [lt_div_iff₀ hpos] at hlt
    rw [div_lt_iff₀ hpos] at hgt
    rcases htie with htie | htie
    · have hcast : 2 * (r * den : ℚ) = 2 * num + den := by exact_mod_cast htie
      linarith
    · have hcast : 2 * (num : ℚ) = 2 * (r * den) + den := by exact_mod_cast htie
      linarith
  · exact heven

/-- Rounding in units of a power of two is rounding a fraction. -/
theorem exists_roundAt_eq (num : Nat) {den : Nat} (hden : 0 < den) (e : ℤ) :
    ∃ n d, 0 < d ∧ roundAt num den e = roundDiv n d ∧ (n : ℚ) / d = num / den / 2 ^ e := by
  unfold roundAt
  split
  · rename_i he
    obtain ⟨k, rfl⟩ := Int.eq_ofNat_of_zero_le he
    refine ⟨_, _, Nat.mul_pos hden (Nat.pow_pos (by decide)), rfl, ?_⟩
    rw [Int.toNat_natCast]
    push_cast
    rw [← div_div, ← zpow_natCast]
  · rename_i he
    obtain ⟨k, hk⟩ := Int.eq_ofNat_of_zero_le (a := -e) (by omega)
    have hneg : e = -(k : ℤ) := by omega
    refine ⟨_, _, hden, rfl, ?_⟩
    rw [hk, Int.toNat_natCast, twoTo_eq, hneg, zpow_neg, div_inv_eq_mul, zpow_natCast,
      div_mul_eq_mul_div]
    push_cast
    rfl

theorem roundAt_eq {num den r : Nat} {e : ℤ} (hden : 0 < den)
    (h : RoundsTo (num / den / 2 ^ e) r) : roundAt num den e = r := by
  obtain ⟨n, d, hd, hround, hvalue⟩ := exists_roundAt_eq num hden e
  rw [hround]
  rw [← hvalue] at h
  exact roundDiv_eq hd h

theorem le_roundAt {num den k : Nat} {e : ℤ} (hden : 0 < den)
    (h : (k : ℚ) ≤ num / den / 2 ^ e) : k ≤ roundAt num den e := by
  obtain ⟨n, d, hd, hround, hvalue⟩ := exists_roundAt_eq num hden e
  have hpos : (0 : ℚ) < d := Nat.cast_pos.mpr hd
  rw [← hvalue, le_div_iff₀ hpos] at h
  have hfloor : k ≤ n / d := (Nat.le_div_iff_mul_le hd).mpr (by exact_mod_cast h)
  rw [hround]
  simp only [roundDiv]
  split_ifs <;> omega

theorem roundAt_le {num den k : Nat} {e : ℤ} (hden : 0 < den)
    (h : (num : ℚ) / den / 2 ^ e < k) : roundAt num den e ≤ k := by
  obtain ⟨n, d, hd, hround, hvalue⟩ := exists_roundAt_eq num hden e
  have hpos : (0 : ℚ) < d := Nat.cast_pos.mpr hd
  rw [← hvalue, div_lt_iff₀ hpos] at h
  have hfloor : n / d < k := (Nat.div_lt_iff_lt_mul hd).mpr (by exact_mod_cast h)
  rw [hround]
  simp only [roundDiv]
  split_ifs <;> omega

/-- The powers of two around a fraction, by the lengths of its parts. -/
theorem fraction_between {num den : Nat} (hnum : 0 < num) (hden : 0 < den) :
    (2 : ℚ) ^ ((num.log2 : ℤ) - den.log2 - 1) ≤ num / den ∧
      (num : ℚ) / den < 2 ^ ((num.log2 : ℤ) - den.log2 + 1) := by
  have hpos : (0 : ℚ) < den := Nat.cast_pos.mpr hden
  have hnlow : (2 : ℚ) ^ num.log2 ≤ num := by exact_mod_cast Nat.log2_self_le hnum.ne'
  have hnhigh : (num : ℚ) < 2 ^ (num.log2 + 1) := by exact_mod_cast Nat.lt_log2_self
  have hdlow : (2 : ℚ) ^ den.log2 ≤ den := by exact_mod_cast Nat.log2_self_le hden.ne'
  have hdhigh : (den : ℚ) < 2 ^ (den.log2 + 1) := by exact_mod_cast Nat.lt_log2_self
  constructor
  · rw [le_div_iff₀ hpos]
    calc (2 : ℚ) ^ ((num.log2 : ℤ) - den.log2 - 1) * den
        ≤ 2 ^ ((num.log2 : ℤ) - den.log2 - 1) * 2 ^ (den.log2 + 1) := by gcongr
      _ = 2 ^ num.log2 := by
        rw [← zpow_natCast, ← zpow_add₀ (by norm_num), ← zpow_natCast]
        congr 1
        push_cast
        ring
      _ ≤ num := hnlow
  · rw [div_lt_iff₀ hpos]
    calc (num : ℚ) < 2 ^ (num.log2 + 1) := hnhigh
      _ = 2 ^ ((num.log2 : ℤ) - den.log2 + 1) * 2 ^ den.log2 := by
        rw [← zpow_natCast, ← zpow_natCast, ← zpow_add₀ (by norm_num)]
        congr 1
        push_cast
        ring
      _ ≤ 2 ^ ((num.log2 : ℤ) - den.log2 + 1) * den := by gcongr

/-- What `fittingExponent` compares. -/
theorem fits_iff (num : Nat) {den : Nat} (hden : 0 < den) (guess : ℤ) :
    (if 0 ≤ guess then den * twoTo guess.toNat * twoTo 52 ≤ num
      else den * twoTo 52 ≤ num * twoTo (-guess).toNat) ↔
      (2 : ℚ) ^ (guess + 52) ≤ num / den := by
  have hpos : (0 : ℚ) < den := Nat.cast_pos.mpr hden
  rw [le_div_iff₀ hpos]
  split
  · rename_i hguess
    obtain ⟨n, rfl⟩ := Int.eq_ofNat_of_zero_le hguess
    have hpow : (2 : ℚ) ^ ((n : ℤ) + 52) * den = ((den * 2 ^ n * 2 ^ 52 : ℕ) : ℚ) := by
      rw [zpow_add₀ (by norm_num)]
      push_cast
      rw [zpow_natCast]
      ring
    rw [hpow, Int.toNat_natCast, twoTo_eq, twoTo_eq]
    exact Nat.cast_le.symm
  · rename_i hguess
    obtain ⟨n, hn⟩ := Int.eq_ofNat_of_zero_le (a := -guess) (by omega)
    have hneg : guess = -(n : ℤ) := by omega
    have htwo : (0 : ℚ) < 2 ^ n := by positivity
    have hpow : (2 : ℚ) ^ (guess + 52) * den = ((den * 2 ^ 52 : ℕ) : ℚ) / 2 ^ n := by
      rw [hneg, zpow_add₀ (by norm_num), zpow_neg, zpow_natCast]
      push_cast
      field_simp
    rw [hpow, hn, Int.toNat_natCast, twoTo_eq, twoTo_eq, div_le_iff₀ htwo]
    exact_mod_cast Iff.rfl

/-- The exponent at which a fraction has a full mantissa, or the least one. -/
theorem fittingExponent_spec {num den : Nat} (hnum : 0 < num) (hden : 0 < den) :
    ∃ e : ℤ, BinaryFormat.double.fittingExponent num den = max e Double.leastExponent ∧
      (2 : ℚ) ^ (e + 52) ≤ num / den ∧ (num : ℚ) / den < 2 ^ (e + 53) := by
  obtain ⟨hlow, hhigh⟩ := fraction_between hnum hden
  obtain ⟨guess, hguess⟩ : ∃ guess : ℤ, guess = (num.log2 : ℤ) - den.log2 - 52 := ⟨_, rfl⟩
  have habove : (num.log2 : ℤ) - den.log2 + 1 = guess + 53 := by omega
  have hbelow : (num.log2 : ℤ) - den.log2 - 1 = guess - 1 + 52 := by omega
  have hequal : guess + 52 = guess - 1 + 53 := by omega
  rw [habove] at hhigh
  rw [hbelow] at hlow
  have hfits := fits_iff num hden guess
  have hform : BinaryFormat.double.fittingExponent num den =
      max (if (if 0 ≤ guess then den * twoTo guess.toNat * twoTo 52 ≤ num
        else den * twoTo 52 ≤ num * twoTo (-guess).toNat) then guess else guess - 1)
        Double.leastExponent := by
    rw [hguess]
    rfl
  by_cases hexact : (2 : ℚ) ^ (guess + 52) ≤ num / den
  · refine ⟨guess, ?_, hexact, hhigh⟩
    rw [hform, if_pos (hfits.mpr hexact)]
  · refine ⟨guess - 1, ?_, hlow, ?_⟩
    · rw [hform, if_neg (fun h => hexact (hfits.mp h))]
    · rw [← hequal]
      exact not_le.mp hexact

theorem zpow_two_pos (e : ℤ) : (0 : ℚ) < 2 ^ e := zpow_pos (by norm_num) e

theorem lt_of_zpow_two_lt {a b : ℤ} (h : (2 : ℚ) ^ a < 2 ^ b) : a < b :=
  (zpow_lt_zpow_iff_right₀ (by norm_num)).mp h

theorem zpow_two_add (e : ℤ) (n : ℕ) : (2 : ℚ) ^ (e + n) = 2 ^ n * 2 ^ e := by
  rw [zpow_add₀ (by norm_num), zpow_natCast, mul_comm]

/-- A magnitude whose mantissa may be one too large. -/
def carried (m : Nat) (e : ℤ) : Dyadic := if m = 2 ^ 53 then ⟨2 ^ 52, e + 1⟩ else ⟨m, e⟩

theorem carried_of_eq {m : Nat} {e : ℤ} (h : m = 2 ^ 53) : carried m e = ⟨2 ^ 52, e + 1⟩ :=
  if_pos h

theorem carried_of_ne {m : Nat} {e : ℤ} (h : m ≠ 2 ^ 53) : carried m e = ⟨m, e⟩ := if_neg h

theorem nearest_eq {num den : Nat} (hnum : num ≠ 0) {e : ℤ}
    (he : BinaryFormat.double.fittingExponent num den = e) :
    BinaryFormat.double.nearest num den =
      if (carried (roundAt num den e) e).exponent ≤ Double.greatestExponent then
        some (carried (roundAt num den e) e)
      else none := by
  subst he
  rw [BinaryFormat.nearest, if_neg hnum]
  rfl

/-- A rounded magnitude is one that a double can have. -/
theorem nearest_canonical {num den : Nat} (hden : 0 < den) {d : Dyadic}
    (h : BinaryFormat.double.nearest num den = some d) : d.Canonical := by
  by_cases hnum : num = 0
  · rw [BinaryFormat.nearest, if_pos hnum] at h
    cases h
    exact ⟨by decide, le_refl _, by decide, Or.inr rfl⟩
  obtain ⟨e, hfit, hlow, hhigh⟩ := fittingExponent_spec (Nat.pos_of_ne_zero hnum) hden
  obtain ⟨E, hE⟩ : ∃ E, E = max e Double.leastExponent := ⟨_, rfl⟩
  have hle : e ≤ E := hE ▸ le_max_left _ _
  have hleast : Double.leastExponent ≤ E := hE ▸ le_max_right _ _
  have htwo := zpow_two_pos E
  have hupper : (num : ℚ) / den / 2 ^ E < ((2 ^ 53 : ℕ) : ℚ) := by
    rw [div_lt_iff₀ htwo]
    have hmono : (2 : ℚ) ^ (e + 53) ≤ 2 ^ (E + 53) := zpow_le_zpow_right₀ (by norm_num) (by omega)
    have hsplit := zpow_two_add E 53
    push_cast at hsplit ⊢
    linarith
  have hmost := roundAt_le hden hupper
  have hfull : E ≠ Double.leastExponent → 2 ^ 52 ≤ roundAt num den E := by
    intro hne
    have heq : E = e := by omega
    refine le_roundAt hden ?_
    rw [le_div_iff₀ htwo, heq]
    have hsplit := zpow_two_add e 52
    push_cast at hsplit ⊢
    linarith
  rw [nearest_eq hnum (hfit.trans hE.symm)] at h
  split at h
  · rename_i hfits
    cases h
    by_cases hcarry : roundAt num den E = 2 ^ 53
    · rw [carried_of_eq hcarry] at hfits ⊢
      exact ⟨Nat.pow_lt_pow_right (by decide) (by decide), Int.le_add_one hleast, hfits,
        Or.inl (le_refl _)⟩
    · rw [carried_of_ne hcarry] at hfits ⊢
      refine ⟨lt_of_le_of_ne hmost hcarry, hleast, hfits, ?_⟩
      by_cases hne : E = Double.leastExponent
      · exact Or.inr hne
      · exact Or.inl (hfull hne)
  · cases h

/-- Whether a number lies in the interval around a magnitude that is rounded to
it. -/
def Dyadic.Covers (d : Dyadic) (v : ℚ) : Prop :=
  let span := Decimal.spanOf d
  if span.closed then span.low * 2 ^ span.exponent ≤ v ∧ v ≤ span.high * 2 ^ span.exponent
  else span.low * 2 ^ span.exponent < v ∧ v < span.high * 2 ^ span.exponent

def Dyadic.below (d : Dyadic) : Nat :=
  if d.mantissa = Double.leastNormal ∧ Double.leastExponent < d.exponent then 1 else 2

theorem Dyadic.below_le (d : Dyadic) : d.below ≤ 2 := by
  unfold Dyadic.below
  split <;> omega

theorem Dyadic.covers_iff {d : Dyadic} (hpos : 0 < d.mantissa) (v : ℚ) :
    d.Covers v ↔
      if d.mantissa % 2 = 0 then
        d.mantissa - (d.below : ℚ) / 4 ≤ v / 2 ^ d.exponent ∧
          v / 2 ^ d.exponent ≤ d.mantissa + 1 / 2
      else
        d.mantissa - (d.below : ℚ) / 4 < v / 2 ^ d.exponent ∧
          v / 2 ^ d.exponent < d.mantissa + 1 / 2 := by
  have htwo := zpow_two_pos d.exponent
  have hbelow := d.below_le
  have hspan : Decimal.spanOf d = ⟨4 * d.mantissa - d.below, 4 * d.mantissa, 4 * d.mantissa + 2,
    d.exponent - 2, d.mantissa % 2 == 0⟩ := rfl
  have hcast : ((4 * d.mantissa - d.below : ℕ) : ℚ) = 4 * d.mantissa - d.below := by
    rw [Nat.cast_sub (by omega)]
    push_cast
    rfl
  have hpow : (2 : ℚ) ^ (d.exponent - 2) = 2 ^ d.exponent / 4 := by
    rw [zpow_sub₀ (by norm_num)]
    norm_num
  have hlow : ((4 * d.mantissa - d.below : ℕ) : ℚ) * 2 ^ (d.exponent - 2) =
      (d.mantissa - (d.below : ℚ) / 4) * 2 ^ d.exponent := by
    rw [hcast, hpow]
    ring
  have hhigh : ((4 * d.mantissa + 2 : ℕ) : ℚ) * 2 ^ (d.exponent - 2) =
      (d.mantissa + 1 / 2) * 2 ^ d.exponent := by
    rw [hpow]
    push_cast
    ring
  simp only [Dyadic.Covers, hspan, beq_iff_eq]
  rw [hlow, hhigh, le_div_iff₀ htwo, div_le_iff₀ htwo, lt_div_iff₀ htwo, div_lt_iff₀ htwo]

/-- What lies in the interval around a magnitude is nearest to it. -/
theorem Dyadic.Covers.roundsTo {d : Dyadic} (hpos : 0 < d.mantissa) {v : ℚ} (h : d.Covers v) :
    RoundsTo (v / 2 ^ d.exponent) d.mantissa := by
  have hbelow : (d.below : ℚ) ≤ 2 := by exact_mod_cast d.below_le
  rw [Dyadic.covers_iff hpos] at h
  split at h
  · rename_i heven
    exact Or.inr ⟨heven, by linarith [h.1], h.2⟩
  · exact Or.inl ⟨by linarith [h.1], h.2⟩

theorem RoundsTo.bounds {x : ℚ} {r : ℕ} (h : RoundsTo x r) : r - 1 / 2 ≤ x ∧ x ≤ r + 1 / 2 := by
  rcases h with ⟨hlow, hhigh⟩ | ⟨-, hlow, hhigh⟩
  · exact ⟨hlow.le, hhigh.le⟩
  · exact ⟨hlow, hhigh⟩

/-- Just below a power of two the units are half as large, and a fraction there
is rounded up to it. -/
theorem nearest_of_covers_below {e : ℤ} (hleast : Double.leastExponent < e)
    (hgreatest : e ≤ Double.greatestExponent) {num den : Nat} (hnum : 0 < num) (hden : 0 < den)
    (hlow : 2 ^ 52 - 1 / 4 ≤ (num : ℚ) / den / 2 ^ e) (hhigh : (num : ℚ) / den / 2 ^ e < 2 ^ 52) :
    BinaryFormat.double.nearest num den = some ⟨2 ^ 52, e⟩ := by
  obtain ⟨E, hfit, hElow, hEhigh⟩ := fittingExponent_spec hnum hden
  have htwo := zpow_two_pos e
  have hhalf : (2 : ℚ) ^ (e - 1) = 2 ^ e / 2 := by
    rw [zpow_sub₀ (by norm_num), zpow_one]
  have hbelow : E + 52 < e + 52 := by
    refine lt_of_zpow_two_lt (hElow.trans_lt ?_)
    have hsplit := zpow_two_add e 52
    rw [div_lt_iff₀ htwo] at hhigh
    push_cast at hsplit
    linarith
  have habove : e + 51 < E + 53 := by
    refine lt_of_zpow_two_lt (lt_of_le_of_lt ?_ hEhigh)
    have hsplit := zpow_two_add e 51
    rw [le_div_iff₀ htwo] at hlow
    push_cast at hsplit
    linarith
  have hexponent : BinaryFormat.double.fittingExponent num den = e - 1 := by omega
  have hround : roundAt num den (e - 1) = 2 ^ 53 := by
    refine roundAt_eq hden (Or.inr ⟨by decide, ?_⟩)
    have htwice : (num : ℚ) / den / 2 ^ (e - 1) = 2 * (num / den / 2 ^ e) := by
      rw [hhalf]
      field_simp
    rw [htwice]
    push_cast
    constructor <;> linarith
  rw [nearest_eq hnum.ne' hexponent, carried_of_eq hround, sub_add_cancel, if_pos hgreatest]

/-- A fraction in the interval around a magnitude is rounded to it. -/
theorem nearest_of_covers {d : Dyadic} (hd : d.Canonical) (hpos : 0 < d.mantissa) {num den : Nat}
    (hden : 0 < den) (h : d.Covers (num / den)) : BinaryFormat.double.nearest num den = some d := by
  obtain ⟨m, e⟩ := d
  obtain ⟨hm, hleast, hgreatest, hfull⟩ := hd
  simp only at hm hleast hgreatest hfull hpos
  have hrounds : RoundsTo (num / den / 2 ^ e) m := h.roundsTo hpos
  obtain ⟨hlow, hhigh⟩ := hrounds.bounds
  have htwo := zpow_two_pos e
  have hone : (1 : ℚ) ≤ m := by exact_mod_cast hpos
  have hmost : (m : ℚ) + 1 ≤ 2 ^ 53 := by exact_mod_cast hm
  have hnum : 0 < num := by
    refine Nat.pos_of_ne_zero ?_
    rintro rfl
    rw [Nat.cast_zero, zero_div, zero_div] at hlow
    linarith
  by_cases hbelow : Double.leastExponent < e ∧ (num : ℚ) / den / 2 ^ e < 2 ^ 52
  · obtain ⟨hlt, hsmall⟩ := hbelow
    have hnormal : 2 ^ 52 ≤ m := hfull.resolve_right hlt.ne'
    have hexact : m = 2 ^ 52 := by
      have hupper : (m : ℚ) < 2 ^ 52 + 1 := by linarith
      have hcast : m < 2 ^ 52 + 1 := by exact_mod_cast hupper
      omega
    subst hexact
    have hquarter : (Dyadic.mk (2 ^ 52) e).below = 1 := if_pos ⟨rfl, hlt⟩
    have heven : (2 : ℕ) ^ 52 % 2 = 0 := by norm_num
    rw [Dyadic.covers_iff hpos, if_pos heven, hquarter] at h
    refine nearest_of_covers_below hlt hgreatest hnum hden ?_ hsmall
    have hstart := h.1
    push_cast at hstart
    exact hstart
  · obtain ⟨E, hfit, hElow, hEhigh⟩ := fittingExponent_spec hnum hden
    have hupper : E + 52 < e + 53 := by
      refine lt_of_zpow_two_lt (hElow.trans_lt ?_)
      have hsplit := zpow_two_add e 53
      rw [div_le_iff₀ htwo] at hhigh
      push_cast at hsplit
      nlinarith
    have hexponent : BinaryFormat.double.fittingExponent num den = e := by
      by_cases hlt : Double.leastExponent < e
      · have hlarge : (2 : ℚ) ^ 52 ≤ num / den / 2 ^ e := not_lt.mp fun hx => hbelow ⟨hlt, hx⟩
        have hlower : e + 52 < E + 53 := by
          refine lt_of_zpow_two_lt (lt_of_le_of_lt ?_ hEhigh)
          have hsplit := zpow_two_add e 52
          rw [le_div_iff₀ htwo] at hlarge
          push_cast at hsplit
          linarith
        omega
      · omega
    rw [nearest_eq hnum.ne' hexponent, roundAt_eq hden hrounds, carried_of_ne hm.ne,
      if_pos hgreatest]

/-- A fraction far below the greatest double is rounded to a number that is as well. -/
theorem exists_nearest {num den : Nat} (hden : 0 < den) {k : Nat} (hk : k ≤ 1000)
    (h : (num : ℚ) / den < 2 ^ k) :
    ∃ d, BinaryFormat.double.nearest num den = some d ∧ d.value < 2 ^ (k + 2) := by
  by_cases hnum : num = 0
  · refine ⟨⟨0, Double.leastExponent⟩, if_pos hnum, ?_⟩
    rw [Dyadic.value, Nat.cast_zero, zero_mul]
    positivity
  obtain ⟨e, hfit, hlow, -⟩ := fittingExponent_spec (Nat.pos_of_ne_zero hnum) hden
  have hsmall : e + 52 < k := by
    refine lt_of_zpow_two_lt (hlow.trans_lt ?_)
    rw [zpow_natCast]
    exact h
  obtain ⟨E, hE⟩ : ∃ E, E = max e Double.leastExponent := ⟨_, rfl⟩
  have hmost : E + 52 < k := by
    rw [hE, Double.leastExponent]
    omega
  have hcarried : ∀ m : Nat, (carried m E).exponent ≤ E + 1 := by
    intro m
    unfold carried
    split
    · exact Int.le_refl _
    · exact Int.le_add_one (Int.le_refl _)
  obtain ⟨d, hd⟩ : ∃ d, d = carried (roundAt num den E) E := ⟨_, rfl⟩
  have hexponent : d.exponent ≤ E + 1 := hd ▸ hcarried _
  have hfits : d.exponent ≤ Double.greatestExponent := by
    rw [Double.greatestExponent]
    omega
  have hnearest : BinaryFormat.double.nearest num den = some d := by
    rw [nearest_eq hnum (hfit.trans hE.symm), ← hd, if_pos hfits]
  refine ⟨d, hnearest, ?_⟩
  have hmantissa : (d.mantissa : ℚ) < 2 ^ 53 := by
    exact_mod_cast (nearest_canonical hden hnearest).1
  calc d.value < 2 ^ 53 * 2 ^ d.exponent := by
        exact mul_lt_mul_of_pos_right hmantissa (zpow_two_pos _)
    _ = 2 ^ (d.exponent + 53) := (zpow_two_add d.exponent 53).symm
    _ ≤ 2 ^ ((k + 2 : ℕ) : ℤ) := zpow_le_zpow_right₀ (by norm_num) (by push_cast; omega)
    _ = 2 ^ (k + 2) := zpow_natCast 2 _

/-- Digits that are few enough are rounded to a double. -/
theorem exists_nearestDecimal {digits k : Nat} (h : digits < 2 ^ k) (hk : k ≤ 900)
    (scale : Nat) : ∃ x, nearestDecimal digits scale = some x := by
  have hten : 0 < tenTo scale := Nat.pow_pos (by decide)
  have hone : (1 : ℚ) ≤ tenTo scale := by exact_mod_cast hten
  have hdigits : (digits : ℚ) < 2 ^ k := by exact_mod_cast h
  have hsmall : (digits : ℚ) / tenTo scale < 2 ^ k := by
    rw [div_lt_iff₀ (by linarith)]
    exact hdigits.trans_le (le_mul_of_one_le_right (by positivity) hone)
  obtain ⟨d, hd, hvalue⟩ := exists_nearest hten (by omega) hsmall
  rw [← d.fraction_eq] at hvalue
  obtain ⟨e, he, -⟩ := exists_nearest d.fraction_pos (by omega) hvalue
  refine ⟨Double.toFloat false e, ?_⟩
  rw [nearestDecimal, BinaryFormat.nearestFloat, hd, Option.bind_some, he, Option.map_some]

end Scriptlet
