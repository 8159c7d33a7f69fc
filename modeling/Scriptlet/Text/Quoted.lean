/-
The quoted form of a text: between double quotes, with everything that would
not show as itself written as an escape.
-/
import Scriptlet.Text.Utf8
import Scriptlet.Text.Printable

namespace Scriptlet.Text

def hexDigit (n : Nat) : Char :=
  if n < 10 then Char.ofNat ('0'.toNat + n) else Char.ofNat ('a'.toNat + (n - 10))

def hexDigits : Nat → Nat → List Char
  | 0, _ => []
  | width + 1, n => hexDigits width (n / 16) ++ [hexDigit (n % 16)]

/-- A character inside quotes: itself if printable, else its shortest escape. -/
def escapeChar (c : Char) : List Char :=
  if c == '"' || c == '\\' then ['\\', c]
  else if isPrintable c then [c]
  else
    match c.toNat with
    | 0x07 => ['\\', 'a']
    | 0x08 => ['\\', 'b']
    | 0x0C => ['\\', 'f']
    | 0x0A => ['\\', 'n']
    | 0x0D => ['\\', 'r']
    | 0x09 => ['\\', 't']
    | 0x0B => ['\\', 'v']
    | n =>
      if n < 0x80 then '\\' :: 'x' :: hexDigits 2 n
      else if n < 0x10000 then '\\' :: 'u' :: hexDigits 4 n
      else '\\' :: 'U' :: hexDigits 8 n

def escapeByte (b : UInt8) : List Char := '\\' :: 'x' :: hexDigits 2 b.toNat

def quoteFrom (t : Text) (i : Nat) (before : String) : String :=
  if i < t.size then
    match t.sequenceAt i with
    | some (c, more) => quoteFrom t (i + 1 + more) (before ++ String.ofList (escapeChar c))
    | none => quoteFrom t (i + 1) (before ++ String.ofList (escapeByte (t.byteAt i)))
  else before
termination_by t.size - i

def quote (t : Text) : String := (t.quoteFrom 0 "\"").push '"'

def quoteString (s : String) : String := quote (ofString s)

end Scriptlet.Text
