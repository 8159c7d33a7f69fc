/-
The decimal text of a double: the fewest digits that read back as the same
double, the nearest such decimal, an exact tie going to the even last digit,
always written positionally.
-/
import Scriptlet.Number.Double

namespace Scriptlet

/-- The number `coefficient` · 10 ^ `exponent`. -/
structure Decimal where
  coefficient : Nat
  exponent : Int
deriving DecidableEq, Repr

namespace Decimal

def inUnits (fraction : Nat × Nat) (e : Int) : Nat × Nat :=
  if 0 ≤ e then (fraction.1, fraction.2 * tenTo e.toNat)
  else (fraction.1 * tenTo (-e).toNat, fraction.2)

/-- How often a positive fraction below one can be multiplied by ten, at most
`limit` times, and stay below one. -/
def leadingZeros : Nat → Nat → Nat → Nat
  | 0, _, _ => 0
  | limit + 1, num, den => if num * 10 < den then leadingZeros limit (num * 10) den + 1 else 0

/-- The number of digits before the decimal point of a positive fraction,
negative by the zeros that follow the point. -/
def pointPosition (num den : Nat) : Int :=
  if den ≤ num then ((Nat.toDigits 10 (num / den)).length : Int)
  else -(leadingZeros 400 num den : Int)

/-- The interval of reals that round to a double, scaled by four over the
unit of its last place; the ends belong to it iff the mantissa is even. -/
structure Span where
  low : Nat
  mid : Nat
  high : Nat
  exponent : Int
  closed : Bool

/-- The interval of reals that round to a magnitude. -/
def spanOf (d : Dyadic) : Span :=
  let below :=
    if d.mantissa = Double.leastNormal ∧ Double.leastExponent < d.exponent then 1 else 2
  { low := 4 * d.mantissa - below
    mid := 4 * d.mantissa
    high := 4 * d.mantissa + 2
    exponent := d.exponent - 2
    closed := d.mantissa % 2 == 0 }

def between (closed : Bool) (low high : Nat × Nat) (c : Nat) : Bool :=
  if closed then low.1 ≤ c * low.2 && c * high.2 ≤ high.1
  else low.1 < c * low.2 && c * high.2 < high.1

/-- The multiple of 10 ^ `unit` nearest to the middle of a span, among the
middle's two neighbours that lie in the span. -/
def candidate (span : Span) (unit : Int) : Option Decimal :=
  let low := inUnits (Dyadic.fraction ⟨span.low, span.exponent⟩) unit
  let mid := inUnits (Dyadic.fraction ⟨span.mid, span.exponent⟩) unit
  let high := inUnits (Dyadic.fraction ⟨span.high, span.exponent⟩) unit
  let floor := mid.1 / mid.2
  let twice := 2 * (mid.1 % mid.2)
  let down := between span.closed low high floor
  let up := between span.closed low high (floor + 1)
  let preferUp := mid.2 < twice || (twice == mid.2 && floor % 2 == 1)
  if down && up then some ⟨if preferUp then floor + 1 else floor, unit⟩
  else if down then some ⟨floor, unit⟩
  else if up then some ⟨floor + 1, unit⟩
  else none

/-- The first candidate with `digits` digits or more, trying `more` counts. -/
def search (span : Span) (position : Int) (digits : Nat) : Nat → Option Decimal
  | 0 => none
  | more + 1 =>
    match candidate span (position - digits) with
    | some d => some d
    | none => search span position (digits + 1) more

/-- A decimal of the same value whose coefficient has no final zero, if that
takes at most `limit` steps. -/
def dropZeros : Nat → Decimal → Decimal
  | 0, d => d
  | limit + 1, d =>
    if d.coefficient ≠ 0 ∧ d.coefficient % 10 = 0 then
      dropZeros limit ⟨d.coefficient / 10, d.exponent + 1⟩
    else d

def shortest (d : Dyadic) : Decimal :=
  let span := spanOf d
  let mid := Dyadic.fraction ⟨span.mid, span.exponent⟩
  match search span (pointPosition mid.1 mid.2) 1 17 with
  | some found => dropZeros 20 found
  | none => dropZeros 800 ⟨d.mantissa, 0⟩

def positional (d : Decimal) : String :=
  let digits := toString d.coefficient
  if 0 ≤ d.exponent then
    if d.coefficient = 0 then "0"
    else digits ++ String.ofList (List.replicate d.exponent.toNat '0')
  else
    let places := (-d.exponent).toNat
    let padded :=
      if digits.length ≤ places then
        List.replicate (places + 1 - digits.length) '0' ++ digits.toList
      else digits.toList
    let whole := padded.length - places
    String.ofList (padded.take whole) ++ "." ++ String.ofList (padded.drop whole)

end Decimal

/-- The text of a double, with `.0` after a whole number. -/
def floatText (x : Float) : String :=
  match Double.ofFloat x with
  | .notANumber => "NaN"
  | .infinite negative => if negative then "-Inf" else "+Inf"
  | .finite negative d =>
    let decimal := if d.mantissa = 0 then ⟨0, 0⟩ else Decimal.shortest d
    let plain := decimal.positional
    (if negative then "-" else "") ++ plain ++ (if 0 ≤ decimal.exponent then ".0" else "")

end Scriptlet
