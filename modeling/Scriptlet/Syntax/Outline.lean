/-
The outline of a syntax tree: nested parenthesised lists that name every node
with the place and the spelling of its token.
-/
import Scriptlet.Syntax.Basic
import Scriptlet.Number.Shortest

namespace Scriptlet.Outline

def placeText (p : Position) : String := toString p.line ++ ":" ++ toString p.column

/-- Parts separated by blanks between parentheses. -/
def group (parts : List String) : String := "(" ++ " ".intercalate parts ++ ")"

def node (kind : String) (p : Position) (lexeme : String) (parts : List String) : String :=
  group (kind :: placeText p :: Text.quoteString lexeme :: parts)

/-- A name. -/
def identText (i : Ident) : String := node "id" i.position i.name [i.name]

def paramText (p : Param) : String :=
  group ("param" :: placeText p.name.position :: p.name.name :: (p.hint.map identText).toList)

def paramsText (ps : List Param) : String := group ("params" :: ps.map paramText)

mutual

def exprText : Expr → String
  | .name i => identText i
  | .int p digits value => node "int" p digits [toString value.toInt]
  | .float p digits value => node "float" p digits [floatText value]
  | .str p value => node "str" p value [Text.quoteString value]
  | .bool p value =>
    let word := if value then "true" else "false"
    node "bool" p word [word]
  | .null p => node "null" p "null" []
  | .list p items => node "list" p "[" (exprTexts items)
  | .unary p op operand => node "prefix" p op.text [op.text, exprText operand]
  | .binary p op left right => node "infix" p op.text [op.text, exprText left, exprText right]
  | .call p callee args => node "call" p "(" (exprText callee :: exprTexts args)
  | .member p object field => node "member" p "." [exprText object, identText field]
  | .method p object field args =>
    node "method" p "." (exprText object :: identText field :: exprTexts args)
  | .index p object subscript => node "index" p "[" [exprText object, exprText subscript]
  | .lambda p params body => node "lambda" p "fn" [paramsText params, blockText body]

def exprTexts : List Expr → List String
  | [] => []
  | e :: es => exprText e :: exprTexts es

def blockText : Block → String
  | .mk p statements => node "block" p "\x7b" (stmtTexts statements)

/-- Statements in order. -/
def stmtTexts : List Stmt → List String
  | [] => []
  | s :: ss => stmtText s :: stmtTexts ss

def branchTexts : List Branch → List String
  | [] => []
  | .mk p condition body :: bs =>
    group ["branch", placeText p, exprText condition, blockText body] :: branchTexts bs

def funcText : Func → String
  | .mk p ident params hint body =>
    node "fn" p "fn"
      ([identText ident, paramsText params] ++
        (match hint with
          | some h => [group ["returns", identText h]]
          | none => []) ++
        [blockText body])

def funcTexts : List Func → List String
  | [] => []
  | f :: fs => funcText f :: funcTexts fs

/-- A statement. -/
def stmtText : Stmt → String
  | .expr p word value => node "expr" p word [exprText value]
  | .assign p target value => node "assign" p "=" [identText target, exprText value]
  | .store p bracket object subscript value =>
    node "assign" p "="
      [node "index" bracket "[" [exprText object, exprText subscript], exprText value]
  | .choose p branches otherwise =>
    node "if" p "if"
      (branchTexts branches ++
        (match otherwise with
          | some b => [group ["else", blockText b]]
          | none => []))
  | .repeatWhile p condition body => node "while" p "while" [exprText condition, blockText body]
  | .forEach p item source body =>
    node "for" p "for" [identText item, exprText source, blockText body]
  | .declare f => funcText f
  | .classDef p ident fields methods =>
    node "class" p "class" ([identText ident, paramsText fields] ++ funcTexts methods)
  | .giveBack p value =>
    match value with
    | some e => node "return" p "return" [exprText e]
    | none => node "return" p "return" []
  | .leave p => node "break" p "break" []
  | .skip p => node "continue" p "continue" []

end

end Scriptlet.Outline
