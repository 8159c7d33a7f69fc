/-
The characters of a document.  Its bytes are UTF-8, or UTF-16 where a mark of
the byte order says so.
-/
import Scriptlet.Text.Utf8

namespace Scriptlet.Document

/-- How characters are written as bytes. -/
inductive Encoding where
  | utf8
  | utf16 (bigEnd : Bool)
deriving DecidableEq, Repr

def announced (t : Text) : Encoding × Nat :=
  if t.byteAt 0 == 0xFF && t.byteAt 1 == 0xFE then (.utf16 false, 2)
  else if t.byteAt 0 == 0xFE && t.byteAt 1 == 0xFF then (.utf16 true, 2)
  else if t.byteAt 0 == 0xEF && t.byteAt 1 == 0xBB && t.byteAt 2 == 0xBF then (.utf8, 3)
  else (.utf8, 0)

def unitAt? (bigEnd : Bool) (t : Text) (i : Nat) : Option Nat :=
  if i + 1 < t.size then
    let first := (t.byteAt i).toNat
    let second := (t.byteAt (i + 1)).toNat
    some (if bigEnd then 256 * first + second else 256 * second + first)
  else none

/-- The character that begins at an offset and the number of bytes after its
first; `none` where the bytes there are not well formed. -/
def Encoding.charAt? (e : Encoding) (t : Text) (i : Nat) : Option (Char × Nat) :=
  match e with
  | .utf8 => t.sequenceAt i
  | .utf16 bigEnd =>
    match unitAt? bigEnd t i with
    | none => none
    | some high =>
      if high < 0xD800 || 0xDFFF < high then some (Char.ofNat high, 1)
      else
        match unitAt? bigEnd t (i + 2) with
        | some low =>
          if high < 0xDC00 && 0xDC00 ≤ low && low < 0xE000 then
            some (Char.ofNat (0x10000 + 1024 * (high - 0xD800) + (low - 0xDC00)), 3)
          else none
        | none => none

/-- Whether a character may stand in a document. -/
def isAllowed (c : Char) : Bool :=
  c == '\t' || c == '\n' || c == '\r' || (' ' ≤ c && c ≤ '~') || c.toNat == 0x85 ||
    (0xA0 ≤ c.toNat && c.toNat ≤ 0xFFFD) || 0x10000 ≤ c.toNat

/-- A document as characters.  One that is damaged goes on after them, but
cannot be read. -/
structure Source where
  chars : List Char
  damaged : Bool
deriving Repr

/-- Number of bytes that are read from a document at once.  Where some of them
are wrong, none of them can be read. -/
def blockSize : Nat := 512

/-- The characters from offset `i` on, after those in `before`, of which `kept`
lie in the blocks before the one at number `block`. -/
def Source.readFrom (e : Encoding) (t : Text) (i : Nat) (before : Array Char) (block kept : Nat) :
    Source :=
  if i < t.size then
    let kept := if block < i / blockSize then before.size else kept
    let block := i / blockSize
    match e.charAt? t i with
    | some (c, more) =>
      if isAllowed c then readFrom e t (i + 1 + more) (before.push c) block kept
      else ⟨before.toList.take kept, true⟩
    | none => ⟨before.toList.take kept, true⟩
  else ⟨before.toList, false⟩
termination_by t.size - i

def Source.ofText (t : Text) : Source :=
  let (e, start) := announced t
  .readFrom e t start #[] 0 0

end Scriptlet.Document
