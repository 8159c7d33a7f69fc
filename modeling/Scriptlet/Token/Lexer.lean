/-
Cutting a source text into tokens.  The source is a list of characters; a
NUL character ends it like its real end does.  Blanks and comments separate
tokens and mean nothing else.
-/
import Scriptlet.Token.Basic
import Scriptlet.Number.Nearest

namespace Scriptlet

/-- What is left of a source, and the place where that begins. -/
structure Cursor where
  position : Position
  rest : List Char
deriving DecidableEq

namespace Cursor

def ofChars (source : List Char) : Cursor := ⟨.start, source⟩

def ofText (source : Text) : Cursor := ofChars source.chars.toList

end Cursor

namespace Lexer

/-- What a character belongs to that is part of no token. -/
inductive Skipping where
  | blanks
  | lineComment
  | blockComment
deriving DecidableEq

/-- Whether a character separates tokens by itself. -/
def isSpace (c : Char) : Bool := c == ' ' || c == '\t' || c == '\r' || c == '\n'

/-- Passes over blanks and comments. -/
def skip : Skipping → Position → List Char → Cursor
  | _, p, [] => ⟨p, []⟩
  | .blanks, p, '/' :: '/' :: cs => skip .lineComment ((p.after '/').after '/') cs
  | .blanks, p, '/' :: '*' :: cs => skip .blockComment ((p.after '/').after '*') cs
  | .blanks, p, c :: cs => if isSpace c then skip .blanks (p.after c) cs else ⟨p, c :: cs⟩
  | .lineComment, p, c :: cs =>
    if c = '\n' then skip .blanks (p.after c) cs
    else if c = '\x00' then ⟨p, c :: cs⟩
    else skip .lineComment (p.after c) cs
  | .blockComment, p, '*' :: '/' :: cs => skip .blanks ((p.after '*').after '/') cs
  | .blockComment, p, c :: cs =>
    if c = '\x00' then ⟨p, c :: cs⟩ else skip .blockComment (p.after c) cs

/-- Whether a character may begin a name. -/
def isLetter (c : Char) : Bool := Text.isNarrowLetter c || c == '_' || Text.isWideLetter c

def isDigit (c : Char) : Bool := '0' ≤ c && c ≤ '9'

def isNameChar (c : Char) : Bool := isLetter c || isDigit c

/-- What a string literal turns out to be: its characters and what follows. -/
structure StringEnd where
  value : List Char
  closed : Bool
  after : Cursor

/-- The character that an escape stands for: four have names, any other
stands for itself. -/
def unescape (c : Char) : Char :=
  if c = 'n' then '\n' else if c = 't' then '\t' else if c = 'r' then '\r'
  else if c = '0' then '\x00' else c

/-- Reads a string literal after its opening quote; `done` holds the
characters read so far, last first. -/
def readString (done : List Char) : Position → List Char → StringEnd
  | p, [] => ⟨done.reverse, false, ⟨p, []⟩⟩
  | p, '\\' :: [] => ⟨done.reverse, false, ⟨p.after '\\', []⟩⟩
  | p, '\\' :: c :: cs =>
    if c = '\x00' then ⟨done.reverse, false, ⟨p.after '\\', c :: cs⟩⟩
    else readString (unescape c :: done) ((p.after '\\').after c) cs
  | p, c :: cs =>
    if c = '"' then ⟨done.reverse, true, ⟨p.after c, cs⟩⟩
    else if c = '\x00' then ⟨done.reverse, false, ⟨p, c :: cs⟩⟩
    else readString (c :: done) (p.after c) cs

/-- The number that some decimal digits write. -/
def numeral (digits : List Char) : Nat :=
  digits.foldl (fun n c => n * 10 + (c.toNat - '0'.toNat)) 0

def greatestInt : Nat := 9223372036854775807

def intKind (digits : List Char) : TokenKind :=
  let n := numeral digits
  if n ≤ greatestInt then .int (Int64.ofNat n) else .illegal "integer overflow"

def floatKind (whole fraction : List Char) : TokenKind :=
  match nearestDecimal (numeral (whole ++ fraction)) fraction.length with
  | some x => .float x
  | none =>
    .illegal ("strconv.ParseFloat: parsing " ++
      Text.quoteString (String.ofList (whole ++ '.' :: fraction)) ++ ": value out of range")

def wordKind (word : List Char) : TokenKind :=
  match Keyword.ofString? (String.ofList word) with
  | some k => .keyword k
  | none => .name (word.head?.any (fun c => 'A' ≤ c && c ≤ 'Z'))

def oneSign? (c : Char) : Option Sign :=
  match c with
  | '=' => some .assign
  | '+' => some .plus
  | '-' => some .minus
  | '*' => some .star
  | '/' => some .slash
  | '%' => some .percent
  | '!' => some .bang
  | '<' => some .less
  | '>' => some .greater
  | ',' => some .comma
  | ':' => some .colon
  | ';' => some .semicolon
  | '.' => some .dot
  | '(' => some .leftParen
  | ')' => some .rightParen
  | '{' => some .leftBrace
  | '}' => some .rightBrace
  | '[' => some .leftBracket
  | ']' => some .rightBracket
  | _ => none

def twoSign? (c d : Char) : Option Sign :=
  match c, d with
  | '=', '=' => some .equal
  | '!', '=' => some .notEqual
  | '<', '=' => some .lessEq
  | '>', '=' => some .greaterEq
  | '&', '&' => some .both
  | '|', '|' => some .either
  | _, _ => none

def wordToken (kind : TokenKind) (word : List Char) (p : Position) (rest : List Char) :
    Token × Cursor :=
  (⟨kind, String.ofList word, p⟩, ⟨p.afterAll word, rest⟩)

/-- The digits of a literal and what follows them; a fraction needs a digit
after its point. -/
def numberToken (p : Position) (cs : List Char) : Token × Cursor :=
  let whole := cs.takeWhile isDigit
  match cs.dropWhile isDigit with
  | '.' :: d :: rest =>
    if isDigit d then
      let fraction := (d :: rest).takeWhile isDigit
      wordToken (floatKind whole fraction) (whole ++ '.' :: fraction) p
        ((d :: rest).dropWhile isDigit)
    else wordToken (intKind whole) whole p ('.' :: d :: rest)
  | rest => wordToken (intKind whole) whole p rest

/-- The token for one or two characters of punctuation, or for a character
that begins no token. -/
def signToken (p : Position) (c : Char) (cs : List Char) : Token × Cursor :=
  match cs with
  | [] =>
    match oneSign? c with
    | some s => wordToken (.sign s) [c] p []
    | none => wordToken (.illegal c.toString) [c] p []
  | d :: rest =>
    match twoSign? c d with
    | some s => wordToken (.sign s) [c, d] p rest
    | none =>
      match oneSign? c with
      | some s => wordToken (.sign s) [c] p (d :: rest)
      | none => wordToken (.illegal c.toString) [c] p (d :: rest)

def stringToken (p : Position) (cs : List Char) : Token × Cursor :=
  let found := readString [] (p.after '"') cs
  let kind := if found.closed then TokenKind.str else .illegal "unterminated string"
  (⟨kind, String.ofList found.value, p⟩, found.after)

def tokenAt (cursor : Cursor) : Token × Cursor :=
  match cursor.rest with
  | [] => (Token.eofAt cursor.position, cursor)
  | c :: cs =>
    if c = '\x00' then (Token.eofAt cursor.position, cursor)
    else if c = '"' then stringToken cursor.position cs
    else if isLetter c then
      let word := (c :: cs).takeWhile isNameChar
      wordToken (wordKind word) word cursor.position ((c :: cs).dropWhile isNameChar)
    else if isDigit c then numberToken cursor.position (c :: cs)
    else signToken cursor.position c cs

def next (cursor : Cursor) : Token × Cursor :=
  tokenAt (skip .blanks cursor.position cursor.rest)

end Lexer

end Scriptlet
