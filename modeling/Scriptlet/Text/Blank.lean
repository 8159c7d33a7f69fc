/-
Blank characters, the Unicode property White_Space, and trimming them from
the ends of a text.
-/
import Scriptlet.Text.Utf8

namespace Scriptlet.Text

def isBlank (c : Char) : Bool :=
  let n := c.toNat
  (0x09 ≤ n && n ≤ 0x0D) || n == 0x20 || n == 0x85 || n == 0xA0 || n == 0x1680 ||
    (0x2000 ≤ n && n ≤ 0x200A) || n == 0x2028 || n == 0x2029 || n == 0x202F ||
    n == 0x205F || n == 0x3000

/-- The offset, from `i` on, of the first character that is not blank. -/
def skipBlanks (t : Text) (i : Nat) : Nat :=
  if i < t.size then
    let (c, more) := t.readAt i
    if isBlank c then skipBlanks t (i + 1 + more) else i
  else i
termination_by t.size - i

/-- The offset after the last character, from `i` on, that is not blank, and
`last` if all are. -/
def lastInk (t : Text) (i last : Nat) : Nat :=
  if i < t.size then
    let (c, more) := t.readAt i
    let next := i + 1 + more
    lastInk t next (if isBlank c then last else next)
  else last
termination_by t.size - i

/-- The text without the blanks at its ends. -/
def trim (t : Text) : Text :=
  let start := t.skipBlanks 0
  t.slice start (t.lastInk start start)

end Scriptlet.Text
