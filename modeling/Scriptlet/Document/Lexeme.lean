/-
A document as a sequence of lexemes: marks, values and names, and the starts
and ends of collections, which come from how lines are indented.
-/
import Scriptlet.Document.Phrase
import Scriptlet.Document.Source

namespace Scriptlet.Document

/-- A lexeme of a document.  One that is broken stands for all that cannot be
read. -/
inductive Lexeme where
  | documentStart
  | documentEnd
  | version (major minor : Nat)
  | handle (name meaning : String)
  | blockSequence
  | blockMapping
  | blockEnd
  | openList
  | closeList
  | openMap
  | closeMap
  | item
  | comma
  | key
  | value
  | alias (name : String)
  | anchor (name : String)
  | tag (handle suffix : String)
  | scalar (plain : Bool) (text : String)
  | finish
  | broken
deriving DecidableEq, Repr

/-- What may turn out to be a key when its colon comes: the number of its first
lexeme, its place, and whether nothing else can stand there. -/
structure KeyStart where
  number : Nat
  place : Place
  required : Bool
deriving DecidableEq, Repr

def longestKey : Nat := 1024

/-- Whether a key that began at a place may still end: on the same line, and not
too far. -/
def KeyStart.canEndAt (k : KeyStart) (p : Place) : Bool :=
  p.line ≤ k.place.line && p.index ≤ k.place.index + longestKey

/-- A document that is being read.  Where a collection in brackets is open,
`keys` has an entry for each, the innermost first, and a last one for outside. -/
structure Reading where
  rest : List Char
  damaged : Bool
  place : Place
  indent : Int
  outer : List Int
  keys : List (Option KeyStart)
  keyAllowed : Bool
  lexemes : Array Lexeme

namespace Reading

/-- A document of which nothing is read yet. -/
def start (s : Source) : Reading := ⟨s.chars, s.damaged, .start, -1, [], [none], true, #[]⟩

def inBrackets (r : Reading) : Bool := 1 < r.keys.length

def moveTo (r : Reading) (rest : List Char) : Reading :=
  { r with rest := rest, place := r.place.advance (r.rest.take (r.rest.length - rest.length)) }

def add (r : Reading) (l : Lexeme) : Reading := { r with lexemes := r.lexemes.push l }

def allowKey (r : Reading) (allowed : Bool) : Reading := { r with keyAllowed := allowed }

/-- Gives up what might have been a key, unless it has to be one. -/
def dropKey (r : Reading) : Option Reading :=
  match r.keys with
  | some k :: outside => if k.required then none else some { r with keys := none :: outside }
  | _ => some r

/-- Remembers that a key may begin here, if it may. -/
def saveKey (r : Reading) : Option Reading :=
  if r.keyAllowed then
    r.dropKey.map fun r =>
      let required := !r.inBrackets && r.indent == r.place.column
      { r with keys := some ⟨r.lexemes.size, r.place, required⟩ :: r.keys.tail }
  else some r

/-- Begins a collection at a column if it is deeper than the one around; the
lexeme for that becomes the one with a number. -/
def indentTo (r : Reading) (column number : Nat) (l : Lexeme) : Reading :=
  if !r.inBrackets && r.indent < column then
    { r with
      indent := column
      outer := r.indent :: r.outer
      lexemes := r.lexemes.insertIdxIfInBounds number l }
  else r

/-- Ends all collections that are deeper than a column. -/
def dedentTo (r : Reading) (column : Int) : Reading :=
  if r.inBrackets then r else go r.indent r.outer r
where
  go (indent : Int) : List Int → Reading → Reading
    | [], r => { r with indent := indent, outer := [] }
    | before :: outer, r =>
      if column < indent then go before outer (r.add .blockEnd)
      else { r with indent := indent, outer := before :: outer }

def commentReach : Nat := 512

/-- What follows a comment: the end of its line, or of the last line of those
that go on with one. -/
def afterComments (cs : List Char) : List Char :=
  match h : toLineEnd cs with
  | [] => []
  | c :: further =>
    let isSpace (c : Char) := isGap c || c == '\n' || c == '\r'
    let next := further.dropWhile isSpace
    let goesOn := isSpace c && (further.takeWhile isSpace).length + 1 < commentReach &&
      next.head? == some '#'
    have : next.length < cs.length := by
      have h1 := (List.dropWhile_suffix (l := further) isSpace).length_le
      have h2 := toLineEnd_length_le cs
      rw [h, List.length_cons] at h2
      exact Nat.lt_of_le_of_lt h1 h2
    if goesOn then afterComments next else c :: further
termination_by cs.length

theorem afterComments_length_le (cs : List Char) : (afterComments cs).length ≤ cs.length := by
  fun_induction afterComments cs with
  | case1 => simp
  | case2 cs c further h _ _ _ hlt _ ih => exact Nat.le_trans ih (Nat.le_of_lt hlt)
  | case3 cs c further h =>
    rw [← h]
    exact toLineEnd_length_le cs

/-- The characters after a mark of the byte order, where a line starts. -/
def unmarked (atStart : Bool) : List Char → List Char
  | [] => []
  | c :: rest => if atStart && c == '\uFEFF' then rest else c :: rest

theorem unmarked_length_le (atStart : Bool) (cs : List Char) :
    (unmarked atStart cs).length ≤ cs.length := by
  unfold unmarked
  split
  · simp
  · split <;> simp

/-- The characters after blanks and comments; a tab is a blank only where
`tabs` says so. -/
def afterBlanks (tabs : Bool) (cs : List Char) : List Char :=
  let inked := cs.dropWhile fun c => c == ' ' || (tabs && c == '\t')
  if inked.head? == some '#' then afterComments inked else inked

theorem afterBlanks_length_le (tabs : Bool) (cs : List Char) :
    (afterBlanks tabs cs).length ≤ cs.length := by
  have h := (List.dropWhile_suffix (l := cs) fun c => c == ' ' || (tabs && c == '\t')).length_le
  simp only [afterBlanks]
  split
  · exact Nat.le_trans (afterComments_length_le _) h
  · exact h

/-- Passes over what says nothing: a mark of the byte order at the start of a
line, blanks, comments and ends of lines.  Also says whether a key may begin
then.  Where one may, a tab is not a blank. -/
def passSilence (inBrackets keyAllowed atStart : Bool) (cs : List Char) : List Char × Bool :=
  let line := afterBlanks (inBrackets || !keyAllowed) (unmarked atStart cs)
  match h : readBreak? line with
  | none => (line, keyAllowed)
  | some (_, next) =>
    have : next.length < cs.length :=
      Nat.lt_of_lt_of_le (readBreak?_length_lt h)
        (Nat.le_trans (afterBlanks_length_le _ _) (unmarked_length_le atStart cs))
    passSilence inBrackets (keyAllowed || !inBrackets) true next
termination_by cs.length

def passLineComment (r : Reading) : Reading :=
  let blanks := r.rest.takeWhile isGap
  let rest := r.rest.drop blanks.length
  if r.place.ended = 0 && blanks.length < commentReach && rest.head? == some '#' then
    r.moveTo (toLineEnd rest)
  else r

def mark (r : Reading) (l : Lexeme) : Reading := (r.moveTo r.rest.tail).add l

def documentMark (r : Reading) (l : Lexeme) : Option Reading :=
  (r.dedentTo (-1)).dropKey.map fun r => ((r.allowKey false).moveTo (r.rest.drop 3)).add l

/-- The end of the document. -/
def ending (r : Reading) : Option Reading :=
  (r.dedentTo (-1)).dropKey.map fun r => (r.allowKey false).add .finish

/-- A bracket that opens. -/
def opening (r : Reading) (l : Lexeme) : Option Reading :=
  r.saveKey.map fun r => ({ r with keys := none :: r.keys }.allowKey true).mark l

/-- A bracket that closes. -/
def closing (r : Reading) (l : Lexeme) : Option Reading :=
  r.dropKey.map fun r =>
    let keys := match r.keys with
      | _ :: k :: outside => k :: outside
      | keys => keys
    ({ r with keys := keys }.allowKey false).mark l

def comma (r : Reading) : Option Reading := r.dropKey.map fun r => (r.allowKey true).mark .comma

def lineMark (r : Reading) (collection l : Lexeme) (keyAfter : Bool) : Option Reading :=
  if !r.inBrackets && !r.keyAllowed then none
  else
    (r.indentTo r.place.column r.lexemes.size collection).dropKey.map fun r =>
      (r.allowKey keyAfter).mark l

def colon (r : Reading) : Option Reading :=
  match r.keys with
  | some k :: outside =>
    if k.canEndAt r.place then
      let r := { r with
        keys := none :: outside
        lexemes := r.lexemes.insertIdxIfInBounds k.number .key }
      some (((r.indentTo k.place.column k.number .blockMapping).allowKey false).mark .value)
    else if k.required then none
    else bare { r with keys := none :: outside }
  | _ => bare r
where
  bare (r : Reading) : Option Reading :=
    if !r.inBrackets && !r.keyAllowed then none
    else
      let r := r.indentTo r.place.column r.lexemes.size .blockMapping
      some ((r.allowKey (!r.inBrackets)).mark .value)

def isNameChar (c : Char) : Bool := c.isAlphanum || c == '_' || c == '-'

/-- Characters that may follow the name of an anchor. -/
def afterName : List Char := ['?', ':', ',', ']', '\x7d', '%', '@', '\x60']

def name (r : Reading) (lexeme : String → Lexeme) : Option Reading :=
  r.saveKey.bind fun r =>
    let cs := r.rest.tail
    let word := cs.takeWhile isNameChar
    let rest := cs.dropWhile isNameChar
    if !word.isEmpty && (endsWord rest || rest.head?.any afterName.contains) then
      some (((r.allowKey false).moveTo rest).add (lexeme (String.ofList word)))
    else none

def tagChars : List Char :=
  [';', '/', '?', ':', '@', '&', '=', '+', '$', ',', '.', '!', '~', '*', '\x27', '(', ')', '[', ']']

/-- The text of a tag, in which a percent sign stands before the code of a
character, and the rest. -/
def tagText (cs : List Char) : Option (List Char × List Char) :=
  match cs with
  | [] => some ([], [])
  | '%' :: a :: b :: rest =>
    match digitsValue? 16 [a, b] with
    | some code => (tagText rest).map fun further => (Char.ofNat code :: further.1, further.2)
    | none => none
  | c :: rest =>
    if c == '%' then none
    else if isNameChar c || tagChars.contains c then
      (tagText rest).map fun further => (c :: further.1, further.2)
    else some ([], c :: rest)

/-- The handle of a tag: an exclamation mark, or a name between two. -/
def tagHandle (cs : List Char) : List Char × List Char :=
  let word := cs.tail.takeWhile isNameChar
  match cs.tail.dropWhile isNameChar with
  | '!' :: rest => ('!' :: word ++ ['!'], rest)
  | _ => (['!'], cs.tail)

/-- The parts of a tag, and the rest.  A tag is written out between angles, or
with a handle, and an exclamation mark alone is one by itself. -/
def tagParts (cs : List Char) : Option (String × String × List Char) :=
  match cs with
  | '!' :: '<' :: inner =>
    match tagText inner with
    | some (text, '>' :: rest) =>
      if text.isEmpty then none else some ("", String.ofList text, rest)
    | _ => none
  | _ =>
    let handle := tagHandle cs
    match tagText handle.2 with
    | none => none
    | some (suffix, rest) =>
      if suffix.isEmpty then
        if handle.1 == ['!'] then some ("", "!", rest) else none
      else some (String.ofList handle.1, String.ofList suffix, rest)

def tag (r : Reading) : Option Reading :=
  r.saveKey.bind fun r =>
    (tagParts r.rest).bind fun (handle, suffix, rest) =>
      if endsWord rest then some (((r.allowKey false).moveTo rest).add (.tag handle suffix))
      else none

/-- A number of at most nine digits in front, and the rest. -/
def versionNumber (cs : List Char) : Option (Nat × List Char) :=
  let digits := cs.takeWhile (isDigitOf 10)
  if digits.isEmpty || 9 < digits.length then none
  else (digitsValue? 10 digits).map fun n => (n, cs.drop digits.length)

/-- What a directive says, after its name, and the rest of its line. -/
def directiveParts (name : String) (cs : List Char) : Option (Lexeme × List Char) :=
  let cs := cs.dropWhile isGap
  match name with
  | "YAML" =>
    match versionNumber cs with
    | some (major, '.' :: rest) =>
      (versionNumber rest).map fun (minor, rest) => (.version major minor, rest)
    | _ => none
  | "TAG" =>
    if cs.head? != some '!' then none
    else
      let (handle, rest) := tagHandle cs
      if !rest.head?.any isGap then none
      else
        match tagText (rest.dropWhile isGap) with
        | some (text, rest) =>
          if text.isEmpty || !endsWord rest then none
          else some (.handle (String.ofList handle) (String.ofList text), rest)
        | none => none
  | _ => none

def directive (r : Reading) : Option Reading :=
  (r.dedentTo (-1)).dropKey.bind fun r =>
    let cs := r.rest.tail
    let word := cs.takeWhile isNameChar
    let rest := cs.dropWhile isNameChar
    if word.isEmpty || !endsWord rest then none
    else
      (directiveParts (String.ofList word) rest).bind fun (l, rest) =>
        let rest := rest.dropWhile isGap
        let rest := if rest.head? == some '#' then toLineEnd rest else rest
        match rest with
        | [] => some (((r.allowKey false).moveTo []).add l)
        | rest => (readBreak? rest).map fun next => ((r.allowKey false).moveTo next.2).add l

def block (r : Reading) (folded : Bool) : Option Reading :=
  r.dropKey.bind fun r =>
    (blockText folded r.indent r.rest.tail).map fun (text, rest) =>
      ((r.allowKey true).moveTo rest).add (.scalar false (String.ofList text))

def quoted (r : Reading) (read : List Char → Option (List Char × List Char)) : Option Reading :=
  r.saveKey.bind fun r =>
    (read r.rest.tail).map fun (text, rest) =>
      ((r.allowKey false).moveTo rest).add (.scalar false (String.ofList text))

def plain (r : Reading) : Option Reading :=
  r.saveKey.bind fun r =>
    (plainText r.inBrackets (r.indent + 1).toNat r.rest).map fun (text, crossed, rest) =>
      ((r.allowKey crossed).moveTo rest).add (.scalar true (String.ofList text))

/-- Characters that no plain text begins with. -/
def reserved : List Char :=
  [',', '[', ']', '\x7b', '\x7d', '#', '&', '*', '!', '|', '>', '\x27', '\x22', '%', '@', '\x60']

/-- Whether a plain text can begin with a character before some others. -/
def startsPlain (inBrackets : Bool) (c : Char) (rest : List Char) : Bool :=
  if c == '-' then !rest.head?.any isGap
  else if c == '?' || c == ':' then !inBrackets && !endsWord rest
  else !reserved.contains c && !isGap c && !isBreak c

/-- The lexeme that begins with a character, but for marks between documents
and directives. -/
def lexemeAt (r : Reading) (c : Char) (after : List Char) : Option Reading :=
  let free := !r.inBrackets
  match c with
  | '[' => r.opening .openList
  | '\x7b' => r.opening .openMap
  | ']' => r.closing .closeList
  | '\x7d' => r.closing .closeMap
  | ',' => r.comma
  | '*' => r.name .alias
  | '&' => r.name .anchor
  | '!' => r.tag
  | '\x27' => r.quoted singleQuoted
  | '\x22' => r.quoted doubleQuoted
  | _ =>
    if c == '-' && endsWord after then r.lineMark .blockSequence .item true
    else if c == '?' && (r.inBrackets || endsWord after) then r.lineMark .blockMapping .key free
    else if c == ':' && (r.inBrackets || endsWord after) then r.colon
    else if c == '|' && free then r.block false
    else if c == '>' && free then r.block true
    else if startsPlain r.inBrackets c after then r.plain
    else none

def next (r : Reading) : Option Reading :=
  let silence := passSilence r.inBrackets r.keyAllowed (r.place.column == 0) r.rest
  let r := (r.moveTo silence.1).allowKey silence.2
  let r := r.dedentTo r.place.column
  let atStart := r.place.column == 0
  match r.rest with
  | [] => if r.damaged then none else r.ending
  | c :: after =>
    if atStart && c == '%' then r.directive
    else if atStart && startsWithMark '-' r.rest then r.documentMark .documentStart
    else if atStart && startsWithMark '.' r.rest then r.documentMark .documentEnd
    else
      (r.lexemeAt c after).map fun r =>
        if r.lexemes.back? == some .item then r else r.passLineComment

def deepest : Nat := 10000

/-- The lexemes that are known when no more can be read.  The reader of lexemes
looks two ahead, and sees no key before it knows that it is one. -/
def cut (r : Reading) : List Lexeme :=
  let open? := r.keys.filterMap fun k? =>
    k?.bind fun k => if k.canEndAt r.place then some k.number else none
  (r.lexemes.toList.take (open?.foldl min (r.lexemes.size - 2))) ++ [.broken]

/-- The lexemes of a document, of which at most `limit` more readings are
made. -/
def run : Nat → Reading → List Lexeme
  | 0, r => r.cut
  | limit + 1, r =>
    match r.next with
    | none => r.cut
    | some r' =>
      if r'.lexemes.back? == some .finish then r'.lexemes.toList
      else if deepest < r'.outer.length || deepest + 1 < r'.keys.length then r.cut
      else run limit r'

end Reading

/-- The lexemes of a document; each but the last takes at least one character. -/
def lexemes (s : Source) : List Lexeme := (Reading.start s).run (s.chars.length + 1)

end Scriptlet.Document
