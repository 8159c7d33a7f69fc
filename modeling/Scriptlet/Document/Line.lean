/-
Lines of a document: what ends them, what separates words on them, and where a
character stands.
-/

namespace Scriptlet.Document

/-- Whether a character separates words on a line. -/
def isGap (c : Char) : Bool := c == ' ' || c == '\t'

/-- Whether a character ends a line. -/
def isBreak (c : Char) : Bool :=
  c == '\n' || c == '\r' || c == '\u0085' || c == '\u2028' || c == '\u2029'

def endsWord : List Char → Bool
  | [] => true
  | c :: _ => isGap c || isBreak c

/-- Whether a mark between documents stands in front, alone. -/
def startsWithMark (mark : Char) : List Char → Bool
  | a :: b :: c :: rest => a == mark && b == mark && c == mark && endsWord rest
  | _ => false

/-- Whether a document begins or ends at the start of this line. -/
def atDocumentMark (cs : List Char) : Bool := startsWithMark '-' cs || startsWithMark '.' cs

/-- The end of a line in front, as one character, and what follows. -/
def readBreak? : List Char → Option (Char × List Char)
  | '\r' :: '\n' :: rest => some ('\n', rest)
  | c :: rest =>
    if c == '\u2028' || c == '\u2029' then some (c, rest)
    else if isBreak c then some ('\n', rest)
    else none
  | [] => none

theorem readBreak?_length_lt {cs rest : List Char} {b : Char}
    (h : readBreak? cs = some (b, rest)) : rest.length < cs.length := by
  unfold readBreak? at h
  split at h
  · simp only [Option.some.injEq, Prod.mk.injEq] at h
    rw [← h.2]
    simp only [List.length_cons]
    omega
  · split at h
    · simp only [Option.some.injEq, Prod.mk.injEq] at h
      rw [← h.2]
      simp
    · split at h
      · simp only [Option.some.injEq, Prod.mk.injEq] at h
        rw [← h.2]
        simp
      · cases h
  · cases h

/-- What stands between two words: blanks, and ends of lines with the blanks
after each. -/
structure Gap where
  blanks : List Char
  lines : List (Char × List Char)
deriving DecidableEq, Repr

/-- The ends of lines in front, with the blanks after each, and the rest. -/
def splitLines (cs : List Char) : List (Char × List Char) × List Char :=
  match h : readBreak? cs with
  | none => ([], cs)
  | some (b, rest) =>
    have := readBreak?_length_lt h
    let further := splitLines (rest.dropWhile isGap)
    ((b, rest.takeWhile isGap) :: further.1, further.2)
termination_by cs.length
decreasing_by
  have := (List.dropWhile_suffix (l := rest) isGap).length_le
  omega

def splitGap (cs : List Char) : Gap × List Char :=
  let further := splitLines (cs.dropWhile isGap)
  (⟨cs.takeWhile isGap, further.1⟩, further.2)

/-- Whether nothing stands between two words. -/
def Gap.isEmpty (g : Gap) : Bool := g.blanks.isEmpty && g.lines.isEmpty

theorem splitLines_length_le (cs : List Char) : (splitLines cs).2.length ≤ cs.length := by
  fun_induction splitLines cs with
  | case1 cs h => simp
  | case2 cs b rest h _ further ih =>
    have h1 := (List.dropWhile_suffix (l := rest) isGap).length_le
    exact Nat.le_of_lt (Nat.lt_of_le_of_lt (Nat.le_trans ih h1) (readBreak?_length_lt h))

theorem splitLines_length_lt {cs : List Char} (h : (splitLines cs).1 ≠ []) :
    (splitLines cs).2.length < cs.length := by
  unfold splitLines at h ⊢
  split at h
  · exact absurd rfl h
  · rename_i b rest hb
    have h1 := (List.dropWhile_suffix (l := rest) isGap).length_le
    have h2 := readBreak?_length_lt hb
    have h3 := splitLines_length_le (rest.dropWhile isGap)
    simp only
    omega

theorem splitGap_length_le (cs : List Char) : (splitGap cs).2.length ≤ cs.length := by
  have h1 := (List.dropWhile_suffix (l := cs) isGap).length_le
  have h2 := splitLines_length_le (cs.dropWhile isGap)
  simp only [splitGap]
  omega

theorem splitGap_length_lt {cs : List Char} (h : (splitGap cs).1.isEmpty = false) :
    (splitGap cs).2.length < cs.length := by
  have h1 := congrArg List.length (List.takeWhile_append_dropWhile (p := isGap) (l := cs))
  have h2 := splitLines_length_le (cs.dropWhile isGap)
  rw [List.length_append] at h1
  simp only [splitGap, Gap.isEmpty, Bool.and_eq_false_iff, List.isEmpty_eq_false_iff] at h ⊢
  rcases h with h | h
  · have h3 := List.length_pos_iff.2 h
    omega
  · have h3 := splitLines_length_lt h
    omega

namespace Gap

/-- Whether the next word is on another line. -/
def crosses (g : Gap) : Bool := !g.lines.isEmpty

/-- The blanks that the last line begins with, if it is another one. -/
def margin? (g : Gap) : Option (List Char) := g.lines.getLast?.map Prod.snd

/-- Whether the next word begins a line. -/
def atStart (g : Gap) : Bool := g.margin? == some []

/-- The ends of lines. -/
def breaks (g : Gap) : List Char := g.lines.map Prod.fst

/-- What a gap inside a value stands for: itself on a line, else the ends of
lines after the first, and one space if there are none. -/
def text (g : Gap) : List Char :=
  match g.breaks with
  | [] => g.blanks
  | ['\n'] => [' ']
  | '\n' :: more => more
  | breaks => breaks

/-- Whether a tab stands where lines must be indented by spaces. -/
def hasTabWithin (g : Gap) (indent : Nat) : Bool :=
  g.lines.any fun line => (line.2.take indent).contains '\t'

end Gap

/-- Where a character stands: how many are before it in all and on its line,
how many lines are, and how many of them ended since the last character that
shows. -/
structure Place where
  index : Nat
  line : Nat
  column : Nat
  ended : Nat
deriving DecidableEq, Repr

namespace Place

/-- The place of the first character. -/
def start : Place := ⟨0, 0, 0, 0⟩

/-- The place after some characters. -/
def advance (p : Place) : List Char → Place
  | [] => p
  | '\r' :: '\n' :: rest => advance ⟨p.index + 2, p.line + 1, 0, p.ended + 1⟩ rest
  | c :: rest =>
    if isBreak c then advance ⟨p.index + 1, p.line + 1, 0, p.ended + 1⟩ rest
    else advance ⟨p.index + 1, p.line, p.column + 1, if isGap c then p.ended else 0⟩ rest

end Place

end Scriptlet.Document
