/-
Tokens: the words of a source text, each with the place of its first
character.
-/
import Scriptlet.Text

namespace Scriptlet

/-- A place in a source text.  Lines and columns count from 1; a line of 0
says that there is no place. -/
structure Position where
  line : Nat
  column : Nat
deriving DecidableEq, Repr, Inhabited

namespace Position

/-- The place of the first character. -/
def start : Position := ⟨1, 1⟩

/-- No place at all. -/
def nowhere : Position := ⟨0, 0⟩

def isKnown (p : Position) : Bool := p.line != 0

def after (p : Position) (c : Char) : Position :=
  if c = '\n' then ⟨p.line + 1, 1⟩ else ⟨p.line, p.column + 1⟩

def afterAll (p : Position) (cs : List Char) : Position := cs.foldl after p

end Position

/-- Operators and delimiters. -/
inductive Sign where
  | assign | plus | minus | star | slash | percent | bang
  | less | greater | lessEq | greaterEq | equal | notEqual | both | either
  | comma | colon | semicolon | dot
  | leftParen | rightParen | leftBrace | rightBrace | leftBracket | rightBracket
deriving DecidableEq, Repr

/-- The spelling of a sign. -/
def Sign.text : Sign → String
  | .assign => "="
  | .plus => "+"
  | .minus => "-"
  | .star => "*"
  | .slash => "/"
  | .percent => "%"
  | .bang => "!"
  | .less => "<"
  | .greater => ">"
  | .lessEq => "<="
  | .greaterEq => ">="
  | .equal => "=="
  | .notEqual => "!="
  | .both => "&&"
  | .either => "||"
  | .comma => ","
  | .colon => ":"
  | .semicolon => ";"
  | .dot => "."
  | .leftParen => "("
  | .rightParen => ")"
  | .leftBrace => "\x7b"
  | .rightBrace => "\x7d"
  | .leftBracket => "["
  | .rightBracket => "]"

/-- Reserved words. -/
inductive Keyword where
  | fnWord | classWord | ifWord | elifWord | elseWord | whileWord | forWord | inWord
  | breakWord | continueWord | returnWord | trueWord | falseWord | nullWord
deriving DecidableEq, Repr

namespace Keyword

/-- The spelling of a keyword. -/
def text : Keyword → String
  | .fnWord => "fn"
  | .classWord => "class"
  | .ifWord => "if"
  | .elifWord => "elif"
  | .elseWord => "else"
  | .whileWord => "while"
  | .forWord => "for"
  | .inWord => "in"
  | .breakWord => "break"
  | .continueWord => "continue"
  | .returnWord => "return"
  | .trueWord => "true"
  | .falseWord => "false"
  | .nullWord => "null"

/-- Every keyword. -/
def all : List Keyword :=
  [.fnWord, .classWord, .ifWord, .elifWord, .elseWord, .whileWord, .forWord, .inWord,
    .breakWord, .continueWord, .returnWord, .trueWord, .falseWord, .nullWord]

/-- The keyword with a spelling, if there is one. -/
def ofString? (s : String) : Option Keyword := all.find? (fun k => k.text == s)

end Keyword

/-- What a token is.  A literal carries its value, and an illegal token the
reason why it is one. -/
inductive TokenKind where
  | sign (s : Sign)
  | keyword (k : Keyword)
  | name (capital : Bool)
  | int (value : Int64)
  | float (value : Float)
  | str
  | illegal (reason : String)
  | eof
deriving DecidableEq

/-- What the kind is called. -/
def TokenKind.label : TokenKind → String
  | .sign s => s.text
  | .keyword k => k.text.toUpper
  | .name capital => if capital then "IDENT_UPPER" else "IDENT_LOWER"
  | .int _ => "INT"
  | .float _ => "FLOAT"
  | .str => "STRING"
  | .illegal _ => "ILLEGAL"
  | .eof => "EOF"

/-- A token.  The lexeme of a string literal is the string itself, with the
escapes decoded. -/
structure Token where
  kind : TokenKind
  lexeme : String
  position : Position
deriving DecidableEq

namespace Token

def eofAt (p : Position) : Token := ⟨.eof, "", p⟩

instance : Inhabited Token := ⟨eofAt .nowhere⟩

def isEof (t : Token) : Bool := t.kind matches .eof

def isSign (t : Token) (s : Sign) : Bool :=
  match t.kind with
  | .sign s' => s' == s
  | _ => false

def isKeyword (t : Token) (k : Keyword) : Bool :=
  match t.kind with
  | .keyword k' => k' == k
  | _ => false

def isName (t : Token) : Bool := t.kind matches .name _

def isIllegal (t : Token) : Bool := t.kind matches .illegal _

/-- How messages refer to a token. -/
def describe (t : Token) : String :=
  if t.isEof then "end of input" else "'" ++ t.lexeme ++ "'"

end Token

end Scriptlet
