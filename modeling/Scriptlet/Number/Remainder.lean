/-
The remainder of two doubles: exact, smaller than the divisor, and with the
sign of the dividend.
-/
import Scriptlet.Number.Nearest

namespace Scriptlet

def Dyadic.remainder (a b : Dyadic) : Dyadic :=
  let unit := min a.exponent b.exponent
  let left := a.mantissa * twoTo (a.exponent - unit).toNat
  let right := b.mantissa * twoTo (b.exponent - unit).toNat
  let rest := left % right
  let (num, den) := Dyadic.fraction ⟨rest, unit⟩
  (BinaryFormat.double.nearest num den).getD ⟨0, Double.leastExponent⟩

/-- The remainder of `x` by `y`; there is none for an infinite dividend, a
zero divisor or anything that is not a number. -/
def floatRemainder (x y : Float) : Float :=
  match Double.ofFloat x, Double.ofFloat y with
  | .finite negative a, .finite _ b =>
    if b.mantissa = 0 then 0.0 / 0.0 else Double.toFloat negative (a.remainder b)
  | .finite _ _, .infinite _ => x
  | _, _ => 0.0 / 0.0

end Scriptlet
