/-
Byte strings, the strings of the language.  A text is any sequence of bytes;
most are UTF-8, but a file may hold anything, so nothing here assumes it.
-/

namespace Scriptlet

/-- A string of the language: any sequence of bytes. -/
structure Text where
  bytes : ByteArray

instance : DecidableEq Text := fun s t =>
  match ByteArray.instDecidableEq s.bytes t.bytes with
  | isTrue h => isTrue (congrArg Text.mk h)
  | isFalse h => isFalse (fun e => h (congrArg Text.bytes e))

namespace Text

/-- The text with no bytes. -/
def empty : Text := ⟨ByteArray.empty⟩

instance : Inhabited Text := ⟨empty⟩

def ofString (s : String) : Text := ⟨s.toUTF8⟩

instance : Coe String Text := ⟨ofString⟩

/-- Concatenation. -/
def append (s t : Text) : Text := ⟨s.bytes ++ t.bytes⟩

instance : Append Text := ⟨append⟩

/-- Number of bytes. -/
def size (t : Text) : Nat := t.bytes.size

/-- Whether there are no bytes. -/
def isEmpty (t : Text) : Bool := t.size == 0

/-- The bytes from offset `start` up to, not including, offset `stop`. -/
def slice (t : Text) (start stop : Nat) : Text := ⟨t.bytes.extract start stop⟩

/-- The bytes from offset `start` on. -/
def drop (t : Text) (start : Nat) : Text := t.slice start t.size

/-- The byte at an offset as a number, 0 past the end. -/
def byteAt (t : Text) (i : Nat) : UInt8 :=
  if h : i < t.bytes.size then t.bytes[i] else 0

/-- Whether the bytes form valid UTF-8, and then the string they form. -/
def toString? (t : Text) : Option String := String.fromUTF8? t.bytes

/-- All texts one after the other, with `separator` between neighbours. -/
def join (separator : Text) : List Text → Text
  | [] => empty
  | first :: rest => rest.foldl (fun acc t => acc ++ separator ++ t) first

/-- Whether the bytes of `part` stand in `t` at offset `i`, from the `k`-th on. -/
def matchesFrom (t part : Text) (i k : Nat) : Bool :=
  if k < part.size then
    i + k < t.size && t.byteAt (i + k) == part.byteAt k && matchesFrom t part i (k + 1)
  else true
termination_by part.size - k

def standsAt (t part : Text) (i : Nat) : Bool := matchesFrom t part i 0

def startsWith (t part : Text) : Bool := t.standsAt part 0

def endsWith (t part : Text) : Bool :=
  part.size ≤ t.size && t.standsAt part (t.size - part.size)

/-- The least offset, from `i` on, at which `part` stands in `t`. -/
def findFrom (t part : Text) (i : Nat) : Option Nat :=
  if t.standsAt part i then some i
  else if i < t.size then findFrom t part (i + 1)
  else none
termination_by t.size - i

/-- The least offset at which `part` stands in `t`. -/
def find? (t part : Text) : Option Nat := t.findFrom part 0

/-- Whether `part` stands anywhere in `t`. -/
def contains (t part : Text) : Bool := (t.find? part).isSome

/-- The pieces of `t` from offset `i` on between the places where the
nonempty `separator` stands, after those in `before`. -/
def splitFrom (t separator : Text) (i : Nat) (before : Array Text) : Array Text :=
  match t.findFrom separator i with
  | none => before.push (t.drop i)
  | some j =>
    if i ≤ j ∧ j < t.size ∧ 0 < separator.size then
      splitFrom t separator (j + separator.size) (before.push (t.slice i j))
    else before.push (t.drop i)
termination_by t.size - i

def compareFrom (s t : Text) (i : Nat) : Ordering :=
  if i < s.size then
    if i < t.size then
      match compare (s.byteAt i) (t.byteAt i) with
      | .eq => compareFrom s t (i + 1)
      | o => o
    else .gt
  else if i < t.size then .lt else .eq
termination_by s.size - i

/-- Bytewise lexicographic order. -/
def cmp (s t : Text) : Ordering := compareFrom s t 0

def times (t : Text) (n : Nat) : Text :=
  if n = 0 then empty
  else
    let half := times t (n / 2)
    if n % 2 = 0 then half ++ half else half ++ half ++ t
termination_by n

/-- A decimal numeral. -/
def ofNat (n : Nat) : Text := ofString (toString n)

/-- A signed decimal numeral. -/
def ofInt (n : Int) : Text := ofString (toString n)

end Text

end Scriptlet
