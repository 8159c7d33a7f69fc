/-
The canonical layout of a syntax tree.  Parentheses stand only where the
tree needs them, every statement has its own line, and blocks are indented
by four blanks.
-/
import Scriptlet.Syntax.Basic
import Scriptlet.Number.Shortest

namespace Scriptlet.Layout

/-- The blanks before a line that is nested `depth` deep. -/
def margin (depth : Nat) : String := String.ofList (List.replicate (4 * depth) ' ')

def paramText (p : Param) : String :=
  match p.hint with
  | some h => p.name.name ++ ": " ++ h.name
  | none => p.name.name

def paramsText (ps : List Param) : String :=
  "(" ++ ", ".intercalate (ps.map paramText) ++ ")"

/-- Puts parentheses around a text where they are needed. -/
def wrapIf (needed : Bool) (s : String) : String := if needed then "(" ++ s ++ ")" else s

/-- Whether an expression needs parentheses before a call, an index or a
member. -/
def needsWrap : Expr → Bool
  | .binary _ _ _ _ | .unary _ _ _ | .lambda _ _ _ => true
  | _ => false

mutual

/-- An expression that stands beside an operator of precedence `outer`, to its
right if `onRight`. -/
def exprText (depth outer : Nat) (onRight : Bool) : Expr → String
  | .name i => i.name
  | .int _ _ value => toString value.toInt
  | .float _ _ value => floatText value
  | .str _ value => Text.quoteString value
  | .bool _ value => if value then "true" else "false"
  | .null _ => "null"
  | .list _ items => "[" ++ itemsText depth items ++ "]"
  | .unary _ op operand => op.text ++ exprText depth 100 false operand
  | .binary _ op left right =>
    wrapIf (op.precedence < outer || (op.precedence == outer && onRight))
      (exprText depth op.precedence false left ++ " " ++ op.text ++ " " ++
        exprText depth op.precedence true right)
  | .call _ callee args =>
    wrapIf (needsWrap callee) (exprText depth 0 false callee) ++ "(" ++ itemsText depth args ++ ")"
  | .member _ object field =>
    wrapIf (needsWrap object) (exprText depth 0 false object) ++ "." ++ field.name
  | .method _ object field args =>
    wrapIf (needsWrap object) (exprText depth 0 false object) ++ "." ++ field.name ++
      "(" ++ itemsText depth args ++ ")"
  | .index _ object subscript =>
    wrapIf (needsWrap object) (exprText depth 0 false object) ++
      "[" ++ exprText depth 0 false subscript ++ "]"
  | .lambda _ params body => "fn" ++ paramsText params ++ " " ++ blockText depth body

/-- Expressions separated by commas. -/
def itemsText (depth : Nat) : List Expr → String
  | [] => ""
  | [e] => exprText depth 0 false e
  | e :: es => exprText depth 0 false e ++ ", " ++ itemsText depth es

/-- A block that opens on a line nested `depth` deep. -/
def blockText (depth : Nat) : Block → String
  | .mk _ [] => "\x7b\x7d"
  | .mk _ (s :: ss) => "\x7b\n" ++ linesText (depth + 1) (s :: ss) ++ margin depth ++ "\x7d"

/-- Statements on lines of their own, nested `depth` deep. -/
def linesText (depth : Nat) : List Stmt → String
  | [] => ""
  | s :: ss => margin depth ++ stmtText depth s ++ "\n" ++ linesText depth ss

/-- Branches of a choice, the first introduced by `word`. -/
def branchesText (depth : Nat) (word : String) : List Branch → String
  | [] => ""
  | .mk _ condition body :: bs =>
    word ++ exprText depth 0 false condition ++ " " ++ blockText depth body ++
      branchesText depth " elif " bs

def funcText (depth : Nat) : Func → String
  | .mk _ ident params hint body =>
    "fn " ++ ident.name ++ paramsText params ++
      (match hint with
        | some h => ": " ++ h.name
        | none => "") ++
      " " ++ blockText depth body

/-- Methods on lines of their own, nested `depth` deep. -/
def methodsText (depth : Nat) : List Func → String
  | [] => ""
  | f :: fs => margin depth ++ funcText depth f ++ "\n" ++ methodsText depth fs

/-- A statement on a line nested `depth` deep, without its margin. -/
def stmtText (depth : Nat) : Stmt → String
  | .expr _ _ value => exprText depth 0 false value
  | .assign _ target value => target.name ++ " = " ++ exprText depth 0 false value
  | .store _ _ object subscript value =>
    wrapIf (needsWrap object) (exprText depth 0 false object) ++
      "[" ++ exprText depth 0 false subscript ++ "] = " ++ exprText depth 0 false value
  | .choose _ branches otherwise =>
    branchesText depth "if " branches ++
      (match otherwise with
        | some b => " else " ++ blockText depth b
        | none => "")
  | .repeatWhile _ condition body =>
    "while " ++ exprText depth 0 false condition ++ " " ++ blockText depth body
  | .forEach _ item source body =>
    "for " ++ item.name ++ " in " ++ exprText depth 0 false source ++ " " ++ blockText depth body
  | .declare f => funcText depth f
  | .classDef _ ident fields [] => "class " ++ ident.name ++ paramsText fields ++ ";"
  | .classDef _ ident fields (m :: ms) =>
    "class " ++ ident.name ++ paramsText fields ++ " \x7b\n" ++
      methodsText (depth + 1) (m :: ms) ++ margin depth ++ "\x7d"
  | .giveBack _ value =>
    match value with
    | some e => "return " ++ exprText depth 0 false e
    | none => "return"
  | .leave _ => "break"
  | .skip _ => "continue"

end

def programText (p : Program) : String := linesText 0 p.statements

def expressionText (e : Expr) : String := exprText 0 0 false e

end Scriptlet.Layout
