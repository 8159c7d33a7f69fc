/-
Doubles and the magnitudes they have.  A magnitude that a double can have is the
one read off that double again.
-/
import Mathlib
import Scriptlet.Number.Double

namespace Scriptlet

open Float.Model UnpackedFloat

abbrev DoubleBits : Type := BitVec Format.binary64.numBits

theorem toNat_packComponents (s : UnpackedFloat.Sign) (e : BitVec 11) (m : BitVec 52) :
    (packComponents Format.binary64 s e m).toNat =
      (s.toBitVec.toNat * 2 ^ 11 + e.toNat) * 2 ^ 52 + m.toNat := by
  have hm := m.isLt
  have he := e.isLt
  simp only [packComponents, BitVec.toNat_append]
  rw [← Nat.shiftLeft_add_eq_or_of_lt hm, ← Nat.shiftLeft_add_eq_or_of_lt he, Nat.shiftLeft_eq,
    Nat.shiftLeft_eq]

theorem toNat_unpackMantissa (b : DoubleBits) : (unpackMantissa b).toNat = b.toNat % 2 ^ 52 := by
  simp [unpackMantissa]

theorem toNat_unpackExponent (b : DoubleBits) :
    (unpackExponent b).toNat = b.toNat / 2 ^ 52 % 2 ^ 11 := by
  simp [unpackExponent, Nat.shiftRight_eq_div_pow]

theorem toNat_unpackSign (b : DoubleBits) : (unpackSign b).toNat = b.toNat / 2 ^ 63 := by
  have hlt := b.isLt
  have hone : b.toNat / 2 ^ 63 < 2 := by
    change b.toNat < 2 ^ 64 at hlt
    omega
  simp [unpackSign, Nat.shiftRight_eq_div_pow]
  omega

theorem toBitVec_ofBitVec (v : BitVec 1) : (UnpackedFloat.Sign.ofBitVec v).toBitVec = v := by
  revert v
  decide

theorem biased_eq {k : Nat} {e : Int} (he : e = (k : Int) - 1075) :
    (e + Format.binary64.exponentBias + Format.binary64.mantissaBitsWithoutImplicit).toNat = k := by
  have hbias : (Format.binary64.exponentBias : Int) = 1023 := rfl
  have hbits : (Format.binary64.mantissaBitsWithoutImplicit : Int) = 52 := rfl
  rw [he, hbias, hbits]
  omega

theorem pack_finite_subnormal (s : UnpackedFloat.Sign) {m : Nat} {e : Int} (hpos : 0 < m)
    (hm : m < 2 ^ 52) (he : e = -1074) :
    UnpackedFloat.pack Format.binary64 (.finite s m e hpos) =
      packComponents Format.binary64 s 0#11 (BitVec.ofNat 52 m) := by
  have hlog : m.log2 < 52 := (Nat.log2_lt (Nat.ne_of_gt hpos)).mpr hm
  have hbits : m.log2 + 1 ≠ Format.binary64.mantissaBits := by
    change m.log2 + 1 ≠ 53
    omega
  have hbiased : (e + Format.binary64.exponentBias +
      Format.binary64.mantissaBitsWithoutImplicit).toNat = 1 := biased_eq he
  have hfinite : ¬ 2 ^ Format.binary64.exponentBits ≤ 1 + 1 := by decide
  simp only [UnpackedFloat.pack, hbiased, if_neg hfinite, if_neg hbits]

theorem pack_finite_normal (s : UnpackedFloat.Sign) {m k : Nat} {e : Int} (hpos : 0 < m)
    (hlow : 2 ^ 52 ≤ m) (hm : m < 2 ^ 53) (he : e = (k : Int) - 1075) (hk : k < 2047) :
    UnpackedFloat.pack Format.binary64 (.finite s m e hpos) =
      packComponents Format.binary64 s (BitVec.ofNat 11 k) (BitVec.ofNat 52 m) := by
  have hlog : m.log2 = 52 := (Nat.log2_eq_iff (Nat.ne_of_gt hpos)).mpr ⟨hlow, hm⟩
  have hbits : m.log2 + 1 = Format.binary64.mantissaBits := by
    rw [hlog]
    rfl
  have hbiased := biased_eq he
  have hfinite : ¬ 2 ^ Format.binary64.exponentBits ≤ k + 1 := by
    change ¬ 2 ^ 11 ≤ k + 1
    omega
  simp only [UnpackedFloat.pack, hbiased, if_neg hfinite, if_pos hbits]

/-- The bits of what is finite are kept. -/
theorem pack_unpack (b : DoubleBits) (h : b.toNat / 2 ^ 52 % 2 ^ 11 ≠ 2047) :
    UnpackedFloat.pack Format.binary64 (UnpackedFloat.unpack Format.binary64 b) = b := by
  have hlt := b.isLt
  have hm := toNat_unpackMantissa b
  have he := toNat_unpackExponent b
  have hs := toNat_unpackSign b
  have hself : packComponents Format.binary64 (UnpackedFloat.Sign.ofBitVec (unpackSign b))
      (unpackExponent b) (unpackMantissa b) = b := by
    apply BitVec.eq_of_toNat_eq
    rw [toNat_packComponents, toBitVec_ofBitVec, hm, he, hs]
    omega
  have hfull : unpackExponent b ≠ -1#11 := by
    intro heq
    rw [heq] at he
    exact h he.symm
  have hmant : BitVec.ofNat 52 (unpackMantissa b).toNat = unpackMantissa b := by
    apply BitVec.eq_of_toNat_eq
    simp
  have hexp : BitVec.ofNat 11 (unpackExponent b).toNat = unpackExponent b := by
    apply BitVec.eq_of_toNat_eq
    simp
  rw [UnpackedFloat.unpack, if_neg hfull]
  split
  · rename_i hzero
    split
    · rename_i hmantissa
      rw [hzero, hmantissa] at hself
      exact hself
    · rw [pack_finite_subnormal _ _ (unpackMantissa b).isLt, hmant]
      · rw [hzero] at hself
        exact hself
      · rw [hzero]
        rfl
  · have hmantlt : (unpackMantissa b).toNat < 2 ^ 52 := (unpackMantissa b).isLt
    have hnormal : (1#1 ++ unpackMantissa b).toNat = 2 ^ 52 + (unpackMantissa b).toNat := by
      rw [BitVec.toNat_append, ← Nat.shiftLeft_add_eq_or_of_lt hmantlt]
      rfl
    have hdrop : BitVec.ofNat 52 (2 ^ 52 + (unpackMantissa b).toNat) = unpackMantissa b := by
      apply BitVec.eq_of_toNat_eq
      rw [BitVec.toNat_ofNat, Nat.add_mod_left, Nat.mod_eq_of_lt hmantlt]
    have hlarge : 2 ^ 52 ≤ (1#1 ++ unpackMantissa b).toNat := by
      rw [hnormal]
      omega
    have hsmall : (1#1 ++ unpackMantissa b).toNat < 2 ^ 53 := by
      rw [hnormal]
      omega
    have hexplt : (unpackExponent b).toNat < 2047 := by
      rw [he]
      omega
    refine (pack_finite_normal _ _ hlarge hsmall rfl hexplt).trans ?_
    rw [hexp, hnormal, hdrop]
    exact hself

/-- The bits of a finite double are those it was made of. -/
theorem toBits_ofBits (b : UInt64) (h : b.toNat / 2 ^ 52 % 2 ^ 11 ≠ 2047) :
    (Float.ofBits b).toBits = b := by
  have hpack := pack_unpack b.toBitVec h
  change UInt64.ofBitVec (UnpackedFloat.pack Format.binary64
    (UnpackedFloat.unpack Format.binary64 b.toBitVec)) = b
  rw [hpack]

/-- Whether a double can have a magnitude: the mantissa is full, or the exponent
is the least one. -/
def Dyadic.Canonical (d : Dyadic) : Prop :=
  d.mantissa < 2 ^ 53 ∧ Double.leastExponent ≤ d.exponent ∧ d.exponent ≤ Double.greatestExponent ∧
    (2 ^ 52 ≤ d.mantissa ∨ d.exponent = Double.leastExponent)

/-- The exponent as the bits of a positive double hold it. -/
def Dyadic.biased (d : Dyadic) : Nat :=
  if d.mantissa < 2 ^ 52 then 0 else (d.exponent + 1075).toNat

theorem Double.toNat_toBits_toFloat (d : Dyadic) (h : d.biased < 2047) :
    (Double.toFloat false d).toBits.toNat = d.biased * 2 ^ 52 + d.mantissa % 2 ^ 52 := by
  have hfraction : d.mantissa % 2 ^ 52 < 2 ^ 52 := Nat.mod_lt _ (by decide)
  have hform : Double.toFloat false d =
      Float.ofBits (UInt64.ofNat (0 + d.biased * 2 ^ 52 + d.mantissa % 2 ^ 52)) := rfl
  have hnat : (UInt64.ofNat (0 + d.biased * 2 ^ 52 + d.mantissa % 2 ^ 52)).toNat =
      d.biased * 2 ^ 52 + d.mantissa % 2 ^ 52 := by
    rw [Nat.zero_add, UInt64.toNat_ofNat', Nat.mod_eq_of_lt]
    omega
  rw [hform, toBits_ofBits _ (by rw [hnat]; omega), hnat]

/-- Reading a double gives the magnitude it was made of. -/
theorem Double.ofFloat_toFloat {d : Dyadic} (h : d.Canonical) :
    Double.ofFloat (Double.toFloat false d) = .finite false d := by
  obtain ⟨m, e⟩ := d
  obtain ⟨hm, hleast, hgreatest, hfull⟩ := h
  simp only [Double.leastExponent, Double.greatestExponent] at hm hleast hgreatest hfull
  have hbiased : (Dyadic.mk m e).biased < 2047 := by
    change (if m < 2 ^ 52 then 0 else (e + 1075).toNat) < 2047
    split <;> omega
  have hbits : (Double.toFloat false ⟨m, e⟩).toBits.toNat =
      (Dyadic.mk m e).biased * 2 ^ 52 + m % 2 ^ 52 := Double.toNat_toBits_toFloat ⟨m, e⟩ hbiased
  have hfraction : m % 2 ^ 52 < 2 ^ 52 := Nat.mod_lt _ (by decide)
  have htwo : ∀ n, twoTo n = 2 ^ n := fun n => rfl
  have hsign : ¬ 2 ^ 63 ≤ (Double.toFloat false ⟨m, e⟩).toBits.toNat := by
    rw [hbits]
    omega
  have hexponent : (Double.toFloat false ⟨m, e⟩).toBits.toNat / 2 ^ 52 % 2 ^ 11 =
      (Dyadic.mk m e).biased := by
    rw [hbits]
    omega
  have hmantissa : (Double.toFloat false ⟨m, e⟩).toBits.toNat % 2 ^ 52 = m % 2 ^ 52 := by
    rw [hbits]
    omega
  simp only [Double.ofFloat, Double.leastNormal, Double.leastExponent, htwo, hsign, hexponent,
    hmantissa, decide_false, if_neg (Nat.ne_of_lt hbiased)]
  by_cases hsmall : m < 2 ^ 52
  · have hzero : (Dyadic.mk m e).biased = 0 := if_pos hsmall
    have he := hfull.resolve_left (Nat.not_le_of_lt hsmall)
    rw [if_pos hzero, Nat.mod_eq_of_lt hsmall, he]
  · have hvalue : (Dyadic.mk m e).biased = (e + 1075).toNat := if_neg hsmall
    rw [if_neg (by omega)]
    congr 2 <;> omega

end Scriptlet
