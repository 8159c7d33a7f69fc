/-
What values of a document stand for.  A plain value can stand for a number, a
truth value or nothing at all; any other is a text, unless its tag says more.
-/
import Scriptlet.Document.Moment
import Scriptlet.Document.Node
import Scriptlet.Text.Basic

namespace Scriptlet.Document

/-- What a value stands for. -/
inductive Meaning where
  | nothing
  | truth (b : Bool)
  | integer (n : Int)
  | real (x : Float)
  | text
deriving Repr

def word? (t : String) : Option Meaning :=
  if ["", "~", "null", "Null", "NULL"].contains t then some .nothing
  else if ["true", "True", "TRUE"].contains t then some (.truth true)
  else if ["false", "False", "FALSE"].contains t then some (.truth false)
  else if [".nan", ".NaN", ".NAN"].contains t then some (.real (0.0 / 0.0))
  else if [".inf", ".Inf", ".INF", "+.inf", "+.Inf", "+.INF"].contains t then
    some (.real (1.0 / 0.0))
  else if ["-.inf", "-.Inf", "-.INF"].contains t then some (.real (-1.0 / 0.0))
  else none

def base? (c : Char) : Option Nat :=
  match c.toLower with
  | 'b' => some 2
  | 'o' => some 8
  | 'x' => some 16
  | _ => none

/-- The number of an unsigned whole numeral: decimal, octal after a zero, or of
the base that a letter after the zero names. -/
def wholeNumber? : List Char → Option Nat
  | [] => none
  | '0' :: c :: d :: rest =>
    match base? c with
    | some base => digitsValue? base (d :: rest)
    | none => digitsValue? 8 (c :: d :: rest)
  | '0' :: rest => digitsValue? 8 rest
  | ds => digitsValue? 10 ds

/-- A number with its sign, if it is one of the language. -/
def inRange? (negative : Bool) (n : Nat) : Option Int :=
  if negative then if n ≤ twoTo 63 then some (-(n : Int)) else none
  else if n < twoTo 63 then some n
  else none

/-- A number of base two or eight whose sign stands after the mark of the base. -/
def signInside? : List Char → Option Int
  | '0' :: c :: rest =>
    if c == 'b' || c == 'o' then
      let (negative, digits) := splitSign rest
      if digits.isEmpty then none
      else ((base? c).bind fun base => digitsValue? base digits).bind (inRange? negative)
    else none
  | _ => none

def number? (cs : List Char) : Option Meaning :=
  let (negative, unsigned) := splitSign cs
  let whole := wholeNumber? unsigned
  match whole.bind (inRange? negative) with
  | some n => some (.integer n)
  | none =>
    match wholeNumber? cs with
    | some n => if n < twoTo 64 then some (.integer n) else decimal? cs
    | none => decimal? cs
where
  decimal? (cs : List Char) : Option Meaning :=
    match Numeral.ofChars? cs with
    | some numeral =>
      if numeral.radix = 10 then (numeral.toFloat? .double).map .real
      else none
    | none => (signInside? cs).map .integer

def plainMeaning (t : String) : Meaning :=
  match word? t with
  | some m => m
  | none =>
    match t.toList with
    | [] => .nothing
    | c :: rest =>
      if c == '.' then
        match (Numeral.ofChars? (c :: rest)).bind (Numeral.toFloat? .double) with
        | some x => .real x
        | none => .text
      else if isDigitOf 10 c || c == '-' || c == '+' then
        (number? ((c :: rest).filter (· != '_'))).getD .text
      else .text

def shortTag (tag : String) : String :=
  if tag.startsWith "tag:yaml.org,2002:" then "!!" ++ (tag.drop 18).toString else tag

namespace Scalar

/-- The tag of a value, unless it only asks for the usual meaning. -/
def namedTag? (s : Scalar) : Option String := (s.tag?.map shortTag).filter (· != "!")

/-- What a value stands for; none if it is not what its tag says. -/
def meaning? (s : Scalar) : Option Meaning :=
  match s.namedTag? with
  | none => some (if s.plain then plainMeaning s.text else .text)
  | some tag =>
    match tag, plainMeaning s.text with
    | "!!str", _ | "!!binary", _ => some .text
    | "!!timestamp", _ => if isMoment s.text then some .text else none
    | "!!null", .nothing => some .nothing
    | "!!bool", .truth b => some (.truth b)
    | "!!int", .integer n => some (.integer n)
    | "!!float", .real x => some (.real x)
    | "!!float", .integer n => if n < twoTo 63 then some (.real (.ofInt n)) else none
    | _, _ => none

/-- The value of a digit of base sixty-four. -/
def sextet? (c : Char) : Option Nat :=
  if 'A' ≤ c && c ≤ 'Z' then some (c.toNat - 'A'.toNat)
  else if 'a' ≤ c && c ≤ 'z' then some (c.toNat - 'a'.toNat + 26)
  else if '0' ≤ c && c ≤ '9' then some (c.toNat - '0'.toNat + 52)
  else if c == '+' then some 62
  else if c == '/' then some 63
  else none

/-- The bytes that digits of base sixty-four spell, four for three bytes; equal
signs fill up the last four. -/
def bytes? : List Char → Option (List UInt8)
  | [] => some []
  | [a, b, '=', '='] => do
    let n := 64 * (← sextet? a) + (← sextet? b)
    return [UInt8.ofNat (n / 16)]
  | [a, b, c, '='] => do
    let n := 64 * (64 * (← sextet? a) + (← sextet? b)) + (← sextet? c)
    return [UInt8.ofNat (n / 1024), UInt8.ofNat (n / 4)]
  | a :: b :: c :: d :: rest => do
    let n := 64 * (64 * (64 * (← sextet? a) + (← sextet? b)) + (← sextet? c)) + (← sextet? d)
    return UInt8.ofNat (n / 65536) :: UInt8.ofNat (n / 256) :: UInt8.ofNat n :: (← bytes? rest)
  | _ => none

/-- The text that a value gives; one that is tagged as bytes spells them. -/
def wording? (s : Scalar) : Option Text :=
  if s.namedTag? == some "!!binary" then
    (bytes? (s.text.toList.filter fun c => c != '\n' && c != '\r')).map fun bs => ⟨⟨bs.toArray⟩⟩
  else some s.text

end Scalar

def leastInt : Int := -9223372036854775808

/-- The integer of a meaning; a number with a fraction loses it.  A real number
one past the greatest integer counts as the least, and one farther than that
is none. -/
def Meaning.integer? : Meaning → Option Int
  | .integer n => if n < twoTo 63 then some n else none
  | .real x =>
    if x < 9223372036854775808.0 then some x.toInt64.toInt
    else if x == 9223372036854775808.0 then some leastInt
    else none
  | _ => none

end Scriptlet.Document
