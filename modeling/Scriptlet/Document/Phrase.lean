/-
The texts of values, as they are written: plain, in single or double quotes, or
as a block of lines.  Each reader begins after what announces the text and
gives the text and the characters after it; a line that does not end a text is
joined to the next one.
-/
import Scriptlet.Document.Line
import Scriptlet.Number.Numeral

namespace Scriptlet.Document

/-- Whether a colon ends a key in front of some characters. -/
def isKeyEnd (c : Char) (rest : List Char) : Bool := c == ':' && endsWord rest

/-- Characters that end a plain word inside brackets. -/
def bracketEnds : List Char := [',', '?', '[', ']', '\x7b', '\x7d']

def plainWord (inBrackets : Bool) : List Char → List Char × List Char
  | [] => ([], [])
  | c :: rest =>
    if isGap c || isBreak c || isKeyEnd c rest || (inBrackets && bracketEnds.contains c) then
      ([], c :: rest)
    else
      let further := plainWord inBrackets rest
      (c :: further.1, further.2)

theorem plainWord_length_le (inBrackets : Bool) (cs : List Char) :
    (plainWord inBrackets cs).2.length ≤ cs.length := by
  induction cs with
  | nil => simp [plainWord]
  | cons c rest ih =>
    unfold plainWord
    split
    · simp
    · simp only [List.length_cons]
      omega

/-- A plain text whose words are indented by `indent`, after a gap: the text,
whether the rest is on another line, and the rest.  A comment ends it, and so
does a line that is indented less. -/
def plainAfter (inBrackets : Bool) (indent : Nat) (gap : Gap) (cs : List Char) :
    Option (List Char × Bool × List Char) :=
  if (gap.atStart && atDocumentMark cs) || cs.head? == some '#' then some ([], gap.crosses, cs)
  else
    let word := plainWord inBrackets cs
    let text := if word.1.isEmpty then [] else gap.text ++ word.1
    let next := splitGap word.2
    if h : next.1.isEmpty = false then
      if next.1.hasTabWithin indent then none
      else if !inBrackets && next.1.margin?.any (·.length < indent) then
        some (text, next.1.crosses, next.2)
      else
        have : next.2.length < cs.length :=
          Nat.lt_of_lt_of_le (splitGap_length_lt h) (plainWord_length_le inBrackets cs)
        (plainAfter inBrackets indent next.1 next.2).map fun further =>
          (text ++ further.1, further.2)
    else some (text, word.1.isEmpty && gap.crosses, word.2)
termination_by cs.length

def plainText (inBrackets : Bool) (indent : Nat) (cs : List Char) :
    Option (List Char × Bool × List Char) :=
  plainAfter inBrackets indent ⟨[], []⟩ cs

def singleQuoted (cs : List Char) : Option (List Char × List Char) :=
  match cs with
  | [] => none
  | '\x27' :: '\x27' :: rest => (singleQuoted rest).map fun further =>
      ('\x27' :: further.1, further.2)
  | c :: rest =>
    if c == '\x27' then some ([], rest)
    else
      let gap := splitGap (c :: rest)
      if h : gap.1.isEmpty = false then
        have := splitGap_length_lt h
        if gap.1.atStart && atDocumentMark gap.2 then none
        else (singleQuoted gap.2).map fun further => (gap.1.text ++ further.1, further.2)
      else (singleQuoted rest).map fun further => (c :: further.1, further.2)
termination_by cs.length
decreasing_by all_goals (simp only [List.length_cons] at *; omega)

/-- The character that a letter after a backslash stands for. -/
def escape? : Char → Option Char
  | '0' => some '\x00'
  | 'a' => some '\x07'
  | 'b' => some '\x08'
  | 't' | '\t' => some '\t'
  | 'n' => some '\n'
  | 'v' => some '\x0b'
  | 'f' => some '\x0c'
  | 'r' => some '\r'
  | 'e' => some '\x1b'
  | ' ' => some ' '
  | '\x22' => some '\x22'
  | '\x27' => some '\x27'
  | '\\' => some '\\'
  | 'N' => some '\u0085'
  | '_' => some '\u00a0'
  | 'L' => some '\u2028'
  | 'P' => some '\u2029'
  | _ => none

/-- Number of digits of base sixteen after a letter that announces some. -/
def escapeLength? : Char → Option Nat
  | 'x' => some 2
  | 'u' => some 4
  | 'U' => some 8
  | _ => none

/-- What an escape stands for, after its backslash, and the rest. -/
def readEscape? : List Char → Option (Char × List Char)
  | [] => none
  | c :: rest =>
    match escape? c, escapeLength? c with
    | some e, _ => some (e, rest)
    | none, some n =>
      match digitsValue? 16 (rest.take n) with
      | some code =>
        if rest.length < n || !code.isValidChar then none else some (Char.ofNat code, rest.drop n)
      | none => none
    | none, none => none

theorem readEscape?_length_lt {cs rest : List Char} {e : Char}
    (h : readEscape? cs = some (e, rest)) : rest.length < cs.length := by
  unfold readEscape? at h
  split at h
  · cases h
  · split at h
    · cases h
      simp
    · split at h
      · split at h
        · cases h
        · cases h
          simp only [List.length_drop, List.length_cons]
          omega
      · cases h
    · cases h

/-- A text in double quotes, with escapes.  A backslash before the end of a
line joins it to the next one with nothing between. -/
def doubleQuoted (cs : List Char) : Option (List Char × List Char) :=
  match cs with
  | [] => none
  | c :: rest =>
    if c == '\x22' then some ([], rest)
    else if c == '\\' then
      match hb : readBreak? rest with
      | some (_, next) =>
        have := readBreak?_length_lt hb
        let gap := splitGap next
        have := splitGap_length_le next
        let atStart := gap.1.isEmpty || gap.1.atStart
        if atStart && atDocumentMark gap.2 then none
        else (doubleQuoted gap.2).map fun further => (gap.1.breaks ++ further.1, further.2)
      | none =>
        match he : readEscape? rest with
        | some (e, next) =>
          have := readEscape?_length_lt he
          (doubleQuoted next).map fun further => (e :: further.1, further.2)
        | none => none
    else
      let gap := splitGap (c :: rest)
      if h : gap.1.isEmpty = false then
        have := splitGap_length_lt h
        if gap.1.atStart && atDocumentMark gap.2 then none
        else (doubleQuoted gap.2).map fun further => (gap.1.text ++ further.1, further.2)
      else (doubleQuoted rest).map fun further => (c :: further.1, further.2)
termination_by cs.length
decreasing_by all_goals (simp only [List.length_cons] at *; omega)

/-- What becomes of the ends of lines after a block: all go, all stay, or one
stays. -/
inductive Chomping where
  | strip
  | keep
  | clip
deriving DecidableEq, Repr

/-- How a block of lines is read: whether its lines are folded into one, what
becomes of its end, and its indentation where that is given. -/
structure BlockHeader where
  folded : Bool
  chomping : Chomping
  indent? : Option Nat
deriving DecidableEq, Repr

/-- What a sign says about the end of a block. -/
def chomping? : Char → Option Chomping
  | '-' => some .strip
  | '+' => some .keep
  | _ => none

def blockIndent? (c : Char) : Option Nat := if isDigitOf 10 c then digitValue? c else none

def blockSigns (folded : Bool) (cs : List Char) : Option (BlockHeader × List Char) :=
  let checked (chomping : Chomping) (indent? : Option Nat) (rest : List Char) :=
    if indent? == some 0 then none else some (⟨folded, chomping, indent?⟩, rest)
  match cs with
  | [] => some (⟨folded, .clip, none⟩, [])
  | c :: rest =>
    match chomping? c, blockIndent? c with
    | some chomping, _ =>
      match rest with
      | [] => checked chomping none []
      | d :: more =>
        match blockIndent? d with
        | some n => checked chomping (some n) more
        | none => checked chomping none rest
    | none, some n =>
      match rest with
      | [] => checked .clip (some n) []
      | d :: more =>
        match chomping? d with
        | some chomping => checked chomping (some n) more
        | none => checked .clip (some n) rest
    | none, none => checked .clip none cs

def toLineEnd (cs : List Char) : List Char := cs.dropWhile (!isBreak ·)

theorem toLineEnd_length_le (cs : List Char) : (toLineEnd cs).length ≤ cs.length :=
  (List.dropWhile_suffix (l := cs) (!isBreak ·)).length_le

def afterLine (cs : List Char) : List Char × List Char :=
  match readBreak? (toLineEnd cs) with
  | some (b, rest) => ([b], rest)
  | none => ([], toLineEnd cs)

theorem afterLine_length_lt {cs : List Char} (h : cs ≠ []) :
    (afterLine cs).2.length < cs.length := by
  have hle := toLineEnd_length_le cs
  unfold afterLine
  split
  · rename_i hb
    exact Nat.lt_of_lt_of_le (readBreak?_length_lt hb) hle
  · rename_i hb
    match cs, h with
    | c :: rest, _ =>
      have hrest := toLineEnd_length_le rest
      by_cases hc : isBreak c
      · exfalso
        revert hb
        unfold toLineEnd readBreak?
        simp only [List.dropWhile_cons, hc, Bool.not_true, Bool.false_eq_true, if_false]
        split <;> simp_all
        split <;> simp
      · simp only [toLineEnd, List.dropWhile_cons, hc, Bool.not_false, if_true,
          List.length_cons] at hrest ⊢
        omega

/-- What a block says in its first line, after its mark, and the lines that
follow. -/
def blockHeader (folded : Bool) (cs : List Char) : Option (BlockHeader × List Char) :=
  (blockSigns folded cs).bind fun signs =>
    let rest := signs.2.dropWhile isGap
    let rest := if rest.head? == some '#' then toLineEnd rest else rest
    match rest with
    | [] => some (signs.1, [])
    | rest => (readBreak? rest).map fun next => (signs.1, next.2)

/-- Lines of a block that say nothing, from the start of a line on. -/
structure BlockGap where
  breaks : List Char
  deepest : Nat
  column : Nat
  rest : List Char

/-- Passes over lines that say nothing and over the indentation of the next, at
most `indent`, or all of it where that is not known.  A tab cannot indent. -/
def blockGap (indent? : Option Nat) (cs : List Char) : Option BlockGap :=
  let spaces := (cs.takeWhile (· == ' ')).length
  let column := match indent? with
    | some n => min n spaces
    | none => spaces
  let rest := cs.drop column
  if indent?.all (column < ·) && rest.head? == some '\t' then none
  else
    match h : readBreak? rest with
    | none => some ⟨[], column, column, rest⟩
    | some (b, next) =>
      have : next.length < cs.length :=
        Nat.lt_of_lt_of_le (readBreak?_length_lt h)
          (Nat.le_trans (Nat.le_of_eq List.length_drop) (Nat.sub_le _ _))
      (blockGap indent? next).map fun g =>
        { g with breaks := b :: g.breaks, deepest := max column g.deepest }
termination_by cs.length

theorem blockGap_length_le (indent? : Option Nat) (cs : List Char) :
    ∀ g, blockGap indent? cs = some g → g.rest.length ≤ cs.length := by
  fun_induction blockGap indent? cs with
  | case1 =>
    intro g h
    cases h
  | case2 cs spaces column rest =>
    intro g h
    cases h
    exact Nat.le_trans (Nat.le_of_eq List.length_drop) (Nat.sub_le _ _)
  | case3 cs spaces column rest _ b next hb hlt ih =>
    intro g h
    obtain ⟨g', hg', rfl⟩ := Option.map_eq_some_iff.1 h
    exact Nat.le_trans (ih g' hg') (Nat.le_of_lt hlt)

/-- The lines of a block from one that is indented by `indent` on, with their
ends: after the end of a line, the ends of empty lines, and a line that began
with a blank or not.  The end of the last line comes apart, and the ends of
lines after that. -/
def blockLines (folded : Bool) (indent : Nat) (lineEnd : List Char) (blankBefore : Bool)
    (gap : BlockGap) : Option (List Char × List Char × BlockGap) :=
  if h : gap.column = indent ∧ gap.rest ≠ [] then
    let line := gap.rest.takeWhile (!isBreak ·)
    let blank := line.head?.any isGap
    let joined :=
      if folded && !blankBefore && !blank && lineEnd == ['\n'] then
        if gap.breaks.isEmpty then [' '] else []
      else lineEnd
    let text := joined ++ gap.breaks ++ line
    let next := afterLine gap.rest
    match hg : blockGap (some indent) next.2 with
    | none => none
    | some further =>
      have : further.rest.length < gap.rest.length :=
        Nat.lt_of_le_of_lt (blockGap_length_le _ _ _ hg) (afterLine_length_lt h.2)
      (blockLines folded indent next.1 blank further).map fun (more, ends) => (text ++ more, ends)
  else some ([], lineEnd, gap)
termination_by gap.rest.length

/-- A block of lines inside something indented by `outer`, after its mark. -/
def blockText (folded : Bool) (outer : Int) (cs : List Char) : Option (List Char × List Char) :=
  (blockHeader folded cs).bind fun (header, rest) =>
    let given := header.indent?.map fun n => outer.toNat + n
    (blockGap given rest).bind fun first =>
      let indent := given.getD (max first.deepest (max (outer + 1).toNat 1))
      (blockLines folded indent [] false first).map fun (text, lineEnd, last) =>
        let ending := match header.chomping with
          | .strip => []
          | .clip => lineEnd
          | .keep => lineEnd ++ last.breaks
        (text ++ ending, last.rest)

end Scriptlet.Document
