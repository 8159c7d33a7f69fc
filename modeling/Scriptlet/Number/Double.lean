/-
A double as an exact number: a finite one is ± `mantissa` · 2 ^ `exponent`.
-/
import Scriptlet.Number.Power

namespace Scriptlet

/-- The magnitude `mantissa` · 2 ^ `exponent`. -/
structure Dyadic where
  mantissa : Nat
  exponent : Int
deriving DecidableEq, Repr

/-- The numerator and the denominator of a magnitude. -/
def Dyadic.fraction (d : Dyadic) : Nat × Nat :=
  if 0 ≤ d.exponent then (d.mantissa * twoTo d.exponent.toNat, 1)
  else (d.mantissa, twoTo (-d.exponent).toNat)

inductive Double where
  | finite (negative : Bool) (magnitude : Dyadic)
  | infinite (negative : Bool)
  | notANumber
deriving DecidableEq, Repr

namespace Double

/-- The exponent of the smallest positive double, and of all subnormal ones. -/
def leastExponent : Int := -1074

def greatestExponent : Int := 971

def leastNormal : Nat := twoTo 52

/-- Reads the sign, the exponent and the fraction off the bits. -/
def ofFloat (x : Float) : Double :=
  let bits := x.toBits.toNat
  let negative := twoTo 63 ≤ bits
  let biased : Nat := bits / twoTo 52 % twoTo 11
  let fraction : Nat := bits % twoTo 52
  if biased = 2047 then if fraction = 0 then .infinite negative else .notANumber
  else if biased = 0 then .finite negative ⟨fraction, leastExponent⟩
  else .finite negative ⟨leastNormal + fraction, (biased : Int) - 1075⟩

/-- The double with a sign and a magnitude that one can have. -/
def toFloat (negative : Bool) (magnitude : Dyadic) : Float :=
  let biased := if magnitude.mantissa < leastNormal then 0 else (magnitude.exponent + 1075).toNat
  let sign := if negative then twoTo 63 else 0
  Float.ofBits (UInt64.ofNat (sign + biased * twoTo 52 + magnitude.mantissa % twoTo 52))

end Double

end Scriptlet
