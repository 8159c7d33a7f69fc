/-
Moments as a document writes them: a date, or a date and a time of day, where
months, days and hours may have one digit or two.
-/
import Scriptlet.Number.Numeral

namespace Scriptlet.Document

/-- A number of one or two digits in front, and the rest. -/
def shortNumber? : List Char → Option (Nat × List Char)
  | [] => none
  | a :: rest =>
    match rest with
    | b :: more =>
      if isDigitOf 10 b then (digitsValue? 10 [a, b]).map fun n => (n, more)
      else (digitsValue? 10 [a]).map fun n => (n, rest)
    | [] => (digitsValue? 10 [a]).map fun n => (n, [])

def daysIn (year month : Nat) : Nat :=
  if month == 2 then
    if year % 4 == 0 && (year % 100 != 0 || year % 400 == 0) then 29 else 28
  else if [4, 6, 9, 11].contains month then 30
  else 31

/-- What follows a date with a year of four digits. -/
def afterDate? (cs : List Char) : Option (List Char) :=
  match digitsValue? 10 (cs.take 4), cs.drop 4 with
  | some year, '-' :: rest =>
    match shortNumber? rest with
    | some (month, '-' :: rest) =>
      match shortNumber? rest with
      | some (day, rest) =>
        if 1 ≤ month && month ≤ 12 && 1 ≤ day && day ≤ daysIn year month then some rest else none
      | none => none
    | _ => none
  | _, _ => none

/-- What follows a fraction of a second, if there is one. -/
def afterFraction : List Char → List Char
  | p :: d :: rest =>
    if (p == '.' || p == ',') && isDigitOf 10 d then rest.dropWhile (isDigitOf 10)
    else p :: d :: rest
  | cs => cs

def afterTime? (cs : List Char) : Option (List Char) :=
  match shortNumber? cs with
  | some (hour, ':' :: rest) =>
    match shortNumber? rest with
    | some (minute, ':' :: rest) =>
      match shortNumber? rest with
      | some (second, rest) =>
        if hour < 24 && minute < 60 && second < 60 then some (afterFraction rest) else none
      | none => none
    | _ => none
  | _ => none

/-- Whether a text is a zone: a letter, or a sign, hours and minutes. -/
def isZone : List Char → Bool
  | ['Z'] => true
  | [sign, a, b, ':', c, d] =>
    (sign == '+' || sign == '-') && (digitsValue? 10 [a, b]).any (· ≤ 24) &&
      (digitsValue? 10 [c, d]).any (· ≤ 60)
  | _ => false

/-- Whether a text is a moment.  A letter between a date and a time asks for a
zone after them, and a space for none. -/
def isMoment (t : String) : Bool :=
  match afterDate? t.toList with
  | some [] => true
  | some (c :: rest) =>
    if c == 'T' || c == 't' then (afterTime? rest).any isZone
    else c == ' ' && (afterTime? (rest.dropWhile (· == ' '))).any List.isEmpty
  | none => false

end Scriptlet.Document
