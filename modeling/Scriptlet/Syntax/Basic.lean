/-
Syntax trees.  Every node remembers the place of the token it is named
after; a node whose token has more than one spelling also remembers that.
-/
import Scriptlet.Token.Basic

namespace Scriptlet

/-- A name and where it stands. -/
structure Ident where
  name : String
  position : Position
deriving DecidableEq, Repr, Inhabited

/-- A declared parameter or class field.  The type hint only shows in print. -/
structure Param where
  name : Ident
  hint : Option Ident
deriving DecidableEq, Repr, Inhabited

inductive UnaryOp where
  | negate | posit | invert
deriving DecidableEq, Repr

/-- The spelling of a unary operator. -/
def UnaryOp.text : UnaryOp → String
  | .negate => "-"
  | .posit => "+"
  | .invert => "!"

inductive BinaryOp where
  | add | sub | mul | div | mod | less | greater | lessEq | greaterEq | equal | notEqual
  | both | either
deriving DecidableEq, Repr

namespace BinaryOp

def sign : BinaryOp → Sign
  | .add => .plus
  | .sub => .minus
  | .mul => .star
  | .div => .slash
  | .mod => .percent
  | .less => .less
  | .greater => .greater
  | .lessEq => .lessEq
  | .greaterEq => .greaterEq
  | .equal => .equal
  | .notEqual => .notEqual
  | .both => .both
  | .either => .either

/-- The spelling of a binary operator. -/
def text (op : BinaryOp) : String := op.sign.text

/-- How tightly a binary operator binds.  All of them associate to the left. -/
def precedence : BinaryOp → Nat
  | .either => 1
  | .both => 2
  | .equal | .notEqual => 3
  | .less | .greater | .lessEq | .greaterEq => 4
  | .add | .sub => 5
  | .mul | .div | .mod => 6

/-- The operator that a sign spells between two operands. -/
def ofSign? : Sign → Option BinaryOp
  | .plus => some .add
  | .minus => some .sub
  | .star => some .mul
  | .slash => some .div
  | .percent => some .mod
  | .less => some .less
  | .greater => some .greater
  | .lessEq => some .lessEq
  | .greaterEq => some .greaterEq
  | .equal => some .equal
  | .notEqual => some .notEqual
  | .both => some .both
  | .either => some .either
  | _ => none

end BinaryOp

mutual

/-- Expressions. -/
inductive Expr where
  | name (ident : Ident)
  | int (position : Position) (digits : String) (value : Int64)
  | float (position : Position) (digits : String) (value : Float)
  | str (position : Position) (value : String)
  | bool (position : Position) (value : Bool)
  | null (position : Position)
  | list (position : Position) (items : List Expr)
  | unary (position : Position) (op : UnaryOp) (operand : Expr)
  | binary (position : Position) (op : BinaryOp) (left right : Expr)
  | call (position : Position) (callee : Expr) (args : List Expr)
  | member (position : Position) (object : Expr) (field : Ident)
  | method (position : Position) (object : Expr) (field : Ident) (args : List Expr)
  | index (position : Position) (object subscript : Expr)
  | lambda (position : Position) (params : List Param) (body : Block)

/-- Statements. -/
inductive Stmt where
  | expr (position : Position) (firstWord : String) (value : Expr)
  | assign (position : Position) (target : Ident) (value : Expr)
  | store (position bracket : Position) (object subscript value : Expr)
  | choose (position : Position) (branches : List Branch) (otherwise : Option Block)
  | repeatWhile (position : Position) (condition : Expr) (body : Block)
  | forEach (position : Position) (item : Ident) (source : Expr) (body : Block)
  | declare (function : Func)
  | classDef (position : Position) (ident : Ident) (fields : List Param) (methods : List Func)
  | giveBack (position : Position) (value : Option Expr)
  | leave (position : Position)
  | skip (position : Position)

/-- Statements between braces; the place is that of the opening brace. -/
inductive Block where
  | mk (position : Position) (statements : List Stmt)

/-- One condition of a choice with its block. -/
inductive Branch where
  | mk (position : Position) (condition : Expr) (body : Block)

inductive Func where
  | mk (position : Position) (ident : Ident) (params : List Param) (hint : Option Ident)
    (body : Block)

end

instance : Inhabited Expr := ⟨.null .nowhere⟩

instance : Inhabited Block := ⟨.mk .nowhere []⟩

instance : Inhabited Stmt := ⟨.leave .nowhere⟩

namespace Block

/-- The place of the opening brace. -/
def position : Block → Position
  | .mk p _ => p

def statements : Block → List Stmt
  | .mk _ ss => ss

end Block

namespace Func

/-- The place of the introducing keyword. -/
def position : Func → Position
  | .mk p _ _ _ _ => p

/-- What the function is called. -/
def ident : Func → Ident
  | .mk _ i _ _ _ => i

def params : Func → List Param
  | .mk _ _ ps _ _ => ps

def hint : Func → Option Ident
  | .mk _ _ _ h _ => h

def body : Func → Block
  | .mk _ _ _ _ b => b

end Func

namespace Expr

/-- The place of the token that an expression is named after. -/
def position : Expr → Position
  | .name i => i.position
  | .int p _ _ | .float p _ _ | .str p _ | .bool p _ | .null p | .list p _ | .unary p _ _
  | .binary p _ _ _ | .call p _ _ | .member p _ _ | .method p _ _ _ | .index p _ _
  | .lambda p _ _ => p

/-- The spelling of the token that an expression is named after. -/
def lexeme : Expr → String
  | .name i => i.name
  | .int _ digits _ | .float _ digits _ => digits
  | .str _ value => value
  | .bool _ value => if value then "true" else "false"
  | .null _ => "null"
  | .list _ _ | .index _ _ _ => "["
  | .unary _ op _ => op.text
  | .binary _ op _ _ => op.text
  | .call _ _ _ => "("
  | .member _ _ _ | .method _ _ _ _ => "."
  | .lambda _ _ _ => "fn"

end Expr

namespace Stmt

/-- The place of the token that a statement is named after. -/
def position : Stmt → Position
  | .expr p _ _ | .assign p _ _ | .store p _ _ _ _ | .choose p _ _ | .repeatWhile p _ _
  | .forEach p _ _ _ | .classDef p _ _ _ | .giveBack p _ | .leave p | .skip p => p
  | .declare f => f.position

/-- The spelling of the token that a statement is named after. -/
def lexeme : Stmt → String
  | .expr _ word _ => word
  | .assign _ _ _ | .store _ _ _ _ _ => "="
  | .choose _ _ _ => "if"
  | .repeatWhile _ _ _ => "while"
  | .forEach _ _ _ _ => "for"
  | .declare _ => "fn"
  | .classDef _ _ _ _ => "class"
  | .giveBack _ _ => "return"
  | .leave _ => "break"
  | .skip _ => "continue"

end Stmt

/-- A whole source text: its statements and the file they came from. -/
structure Program where
  file : String
  statements : List Stmt

instance : Inhabited Program := ⟨⟨"", []⟩⟩

end Scriptlet
