/-
The double nearest to a fraction.  Of two equally near doubles the one with
the even mantissa is taken.
-/
import Scriptlet.Number.Double

namespace Scriptlet

/-- The nearest integer to `num / den`; a half goes to the even neighbour. -/
def roundDiv (num den : Nat) : Nat :=
  let floor := num / den
  let twice := 2 * (num % den)
  if twice < den then floor
  else if den < twice then floor + 1
  else if floor % 2 = 0 then floor else floor + 1

/-- `num / den` in units of 2 ^ `exponent`, rounded. -/
def roundAt (num den : Nat) (exponent : Int) : Nat :=
  if 0 ≤ exponent then roundDiv num (den * twoTo exponent.toNat)
  else roundDiv (num * twoTo (-exponent).toNat) den

/-- A format of binary numbers: the bits of a full mantissa, the exponent of the
least numbers and that of the greatest. -/
structure BinaryFormat where
  bits : Nat
  leastExponent : Int
  greatestExponent : Int
deriving DecidableEq, Repr

def BinaryFormat.double : BinaryFormat := ⟨53, Double.leastExponent, Double.greatestExponent⟩

/-- The format of numbers of half that size. -/
def BinaryFormat.single : BinaryFormat := ⟨24, -149, 104⟩

/-- The exponent at which the mantissa of the positive fraction `num / den` is
full, or the least one. -/
def BinaryFormat.fittingExponent (f : BinaryFormat) (num den : Nat) : Int :=
  let guess := (num.log2 : Int) - (den.log2 : Int) - ((f.bits : Int) - 1)
  let exact :=
    if 0 ≤ guess then den * twoTo guess.toNat * twoTo (f.bits - 1) ≤ num
    else den * twoTo (f.bits - 1) ≤ num * twoTo (-guess).toNat
  max (if exact then guess else guess - 1) f.leastExponent

/-- The magnitude in a format that is nearest to `num / den`; none where that
exceeds all of the format. -/
def BinaryFormat.nearest (f : BinaryFormat) (num den : Nat) : Option Dyadic :=
  if num = 0 then some ⟨0, f.leastExponent⟩
  else
    let exponent := f.fittingExponent num den
    let mantissa := roundAt num den exponent
    let rounded : Dyadic :=
      if mantissa = twoTo f.bits then ⟨twoTo (f.bits - 1), exponent + 1⟩ else ⟨mantissa, exponent⟩
    if rounded.exponent ≤ f.greatestExponent then some rounded else none

/-- The double that is nearest to `num / den` among those of a format. -/
def BinaryFormat.nearestFloat (f : BinaryFormat) (num den : Nat) : Option Float :=
  (f.nearest num den).bind fun d =>
    (BinaryFormat.double.nearest d.fraction.1 d.fraction.2).map (Double.toFloat false)

def nearestDecimal (digits scale : Nat) : Option Float :=
  BinaryFormat.double.nearestFloat digits (tenTo scale)

end Scriptlet
