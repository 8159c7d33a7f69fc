/-
Numbers as they are written: decimal ones with a point and an exponent of ten,
and ones of base sixteen with a point and an exponent of two.  An underscore
may stand between two digits.
-/
import Scriptlet.Number.Nearest

namespace Scriptlet

def digitValue? (c : Char) : Option Nat :=
  if '0' ≤ c && c ≤ '9' then some (c.toNat - '0'.toNat)
  else if 'a' ≤ c && c ≤ 'f' then some (c.toNat - 'a'.toNat + 10)
  else if 'A' ≤ c && c ≤ 'F' then some (c.toNat - 'A'.toNat + 10)
  else none

def isDigitOf (base : Nat) (c : Char) : Bool := (digitValue? c).any (· < base)

def digitsValue? (base : Nat) (ds : List Char) : Option Nat :=
  ds.foldlM
    (fun n c => (digitValue? c).bind fun d => if d < base then some (base * n + d) else none) 0

def splitSign : List Char → Bool × List Char
  | '-' :: rest => (true, rest)
  | '+' :: rest => (false, rest)
  | cs => (false, cs)

/-- The number ± `digits` · `radix` ^ `exponent`. -/
structure Numeral where
  negative : Bool
  digits : Nat
  radix : Nat
  exponent : Int
deriving DecidableEq, Repr

namespace Numeral

/-- Whether every underscore stands between two digits of a base; `last` is the
character before, and any digit stands for all of them there. -/
def wellSpaced (base : Nat) (last : Char) : List Char → Bool
  | [] => last != '_'
  | c :: rest =>
    if isDigitOf base c then wellSpaced base '0' rest
    else if c == '_' then last == '0' && wellSpaced base '_' rest
    else last != '_' && wellSpaced base c rest

/-- The digits at the front and the rest, where underscores count as digits. -/
def splitDigits (base : Nat) (cs : List Char) : List Char × List Char :=
  let isPart (c : Char) := isDigitOf base c || c == '_'
  ((cs.takeWhile isPart).filter (· != '_'), cs.dropWhile isPart)

/-- The exponent behind a mark; 0 where nothing stands. -/
def exponent? (mark : Char) : List Char → Option Int
  | [] => some 0
  | c :: rest =>
    let (negative, unsigned) := splitSign rest
    let (digits, rest) := splitDigits 10 unsigned
    if c.toLower == mark && unsigned.head?.any (isDigitOf 10) && rest.isEmpty then
      (digitsValue? 10 digits).map fun n => if negative then -(n : Int) else n
    else none

def unsigned? (base : Nat) (mark : Char) (cs : List Char) : Option Numeral :=
  let (whole, rest) := splitDigits base cs
  let (fraction, rest) :=
    match rest with
    | '.' :: rest => splitDigits base rest
    | rest => ([], rest)
  if whole.isEmpty && fraction.isEmpty then none
  else
    match digitsValue? base (whole ++ fraction), exponent? mark rest with
    | some digits, some e =>
      if base = 10 then some ⟨false, digits, 10, e - fraction.length⟩
      else some ⟨false, digits, 2, e - 4 * fraction.length⟩
    | _, _ => none

/-- The number that a text spells, all of it.  One of base sixteen begins with
`0x` and has an exponent. -/
def ofChars? (cs : List Char) : Option Numeral :=
  let (negative, unsigned) := splitSign cs
  let found :=
    match unsigned with
    | '0' :: x :: c :: rest =>
      if x == 'x' || x == 'X' then
        if wellSpaced 16 '0' (c :: rest) && (c :: rest).any (fun c => c == 'p' || c == 'P') then
          unsigned? 16 'p' (c :: rest)
        else none
      else decimal? unsigned
    | _ => decimal? unsigned
  found.map fun n => { n with negative := negative }
where
  decimal? (cs : List Char) : Option Numeral :=
    if wellSpaced 10 ' ' cs then unsigned? 10 'e' cs else none

/-- How far the value of a number can be from 1, in digits, and still matter. -/
def farExponent : Int := 5000

/-- The magnitude in a format that is nearest to a number; none where that
exceeds all of the format. -/
def nearest (f : BinaryFormat) (n : Numeral) : Option Float :=
  if n.digits = 0 then some 0
  else if farExponent < n.exponent then none
  else if n.exponent + n.digits.log2 < -farExponent then some 0
  else if 0 ≤ n.exponent then f.nearestFloat (n.digits * Nat.pow n.radix n.exponent.toNat) 1
  else f.nearestFloat n.digits (Nat.pow n.radix (-n.exponent).toNat)

/-- The double of a format that is nearest to a number, with its sign; none
where the number exceeds all that are finite. -/
def toFloat? (f : BinaryFormat) (n : Numeral) : Option Float :=
  (n.nearest f).map fun x => if n.negative then -x else x

end Numeral

/-- The double of a format that a text spells.  What exceeds all finite ones is
infinite, and there are words for infinity and for what is not a number. -/
def floatOfText? (f : BinaryFormat) (text : String) : Option Float :=
  let (negative, unsigned) := splitSign text.toList
  let infinite : Float := if negative then -1.0 / 0.0 else 1.0 / 0.0
  let word := (String.ofList unsigned).toLower
  if word == "inf" || word == "infinity" then some infinite
  else if text.toLower == "nan" then some (0.0 / 0.0)
  else (Numeral.ofChars? text.toList).map fun n => (n.toFloat? f).getD infinite

end Scriptlet
