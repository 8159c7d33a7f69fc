/-
Reading a byte string as characters.  A byte that begins no well-formed UTF-8
sequence stands for U+FFFD by itself, so every byte string has a unique
reading and its characters cover all of its bytes.
-/
import Scriptlet.Text.Basic

namespace Scriptlet.Text

/-- Stands for a byte that is no part of a well-formed sequence. -/
def replacement : Char := '\uFFFD'

/-- Whether a byte continues a sequence. -/
def isTail (b : UInt8) : Bool := 0x80 ≤ b && b ≤ 0xBF

def tailBits (b : UInt8) : Nat := (b &&& 0x3F).toNat

/-- The character that begins at offset `i` and the number of bytes after
its first; `none` where the bytes there are not well formed. -/
def sequenceAt (t : Text) (i : Nat) : Option (Char × Nat) :=
  let b0 := t.byteAt i
  if b0 < 0x80 then some (Char.ofNat b0.toNat, 0)
  else
    let b1 := t.byteAt (i + 1)
    if b0 < 0xC2 then none
    else if b0 < 0xE0 then
      if isTail b1 then
        some (Char.ofNat ((b0 &&& 0x1F).toNat * 64 + tailBits b1), 1)
      else none
    else
      let b2 := t.byteAt (i + 2)
      if b0 < 0xF0 then
        let least : UInt8 := if b0 == 0xE0 then 0xA0 else 0x80
        let most : UInt8 := if b0 == 0xED then 0x9F else 0xBF
        if least ≤ b1 && b1 ≤ most && isTail b2 then
          some (Char.ofNat (((b0 &&& 0x0F).toNat * 64 + tailBits b1) * 64 + tailBits b2), 2)
        else none
      else if b0 < 0xF5 then
        let b3 := t.byteAt (i + 3)
        let least : UInt8 := if b0 == 0xF0 then 0x90 else 0x80
        let most : UInt8 := if b0 == 0xF4 then 0x8F else 0xBF
        if least ≤ b1 && b1 ≤ most && isTail b2 && isTail b3 then
          some (Char.ofNat
            ((((b0 &&& 0x07).toNat * 64 + tailBits b1) * 64 + tailBits b2) * 64 + tailBits b3), 3)
        else none
      else none

def readAt (t : Text) (i : Nat) : Char × Nat :=
  (t.sequenceAt i).getD (replacement, 0)

/-- The characters from offset `i` on, after those in `before`. -/
def charsFrom (t : Text) (i : Nat) (before : Array Char) : Array Char :=
  if i < t.size then
    let (c, more) := t.readAt i
    charsFrom t (i + 1 + more) (before.push c)
  else before
termination_by t.size - i

/-- The characters of a text, in order. -/
def chars (t : Text) : Array Char := t.charsFrom 0 #[]

/-- The number of characters from offset `i` on, plus `before`. -/
def countFrom (t : Text) (i before : Nat) : Nat :=
  if i < t.size then countFrom t (i + 1 + (t.readAt i).2) (before + 1) else before
termination_by t.size - i

/-- Number of characters. -/
def length (t : Text) : Nat := t.countFrom 0 0

def nthFrom (t : Text) (i k : Nat) : Option Char :=
  if i < t.size then
    let (c, more) := t.readAt i
    if k = 0 then some c else nthFrom t (i + 1 + more) (k - 1)
  else none
termination_by t.size - i

/-- The `k`-th character, counted from 0. -/
def nth? (t : Text) (k : Nat) : Option Char := t.nthFrom 0 k

def ofChar (c : Char) : Text := ofString c.toString

def ofChars (cs : List Char) : Text := ofString (String.ofList cs)

/-- The byte slices that hold one character each, from offset `i` on, after
those in `before`. -/
def slicesFrom (t : Text) (i : Nat) (before : Array Text) : Array Text :=
  if i < t.size then
    let next := i + 1 + (t.readAt i).2
    slicesFrom t next (before.push (t.slice i next))
  else before
termination_by t.size - i

/-- The pieces of `t` between the places where `separator` stands; with an
empty separator, the characters of `t`. -/
def split (t separator : Text) : Array Text :=
  if separator.isEmpty then t.slicesFrom 0 #[] else t.splitFrom separator 0 #[]

end Scriptlet.Text
