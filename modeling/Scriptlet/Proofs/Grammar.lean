/-
Which tokens spell which syntax trees.  Parentheses around an expression, commas
behind the last of a list, semicolons between statements and the word or the colon
of a loop leave no trace in a tree; all other tokens do.  Where operators have
several readings, the tokens spell each of them.
-/
import Scriptlet.Proofs.Words

namespace Scriptlet

/-- The name that a token spells. -/
def Token.ident (t : Token) : Ident := ⟨t.lexeme, t.position⟩

inductive HintSpelt : Option Ident → List Token → Prop
  | none : HintSpelt none []
  | some {colon t : Token} : colon.isSign .colon = true → t.isName = true →
      HintSpelt (some t.ident) [colon, t]

/-- Whether some tokens spell parameters and the parenthesis behind them. -/
inductive ParamsSpelt : List Param → List Token → Prop
  | close {c : Token} : c.isSign .rightParen = true → ParamsSpelt [] [c]
  | last {t c : Token} {hint : Option Ident} {hs : List Token} : t.isName = true →
      HintSpelt hint hs → c.isSign .rightParen = true →
      ParamsSpelt [⟨t.ident, hint⟩] (t :: (hs ++ [c]))
  | more {t c : Token} {hint : Option Ident} {ps : List Param} {hs ts : List Token} :
      t.isName = true → HintSpelt hint hs → c.isSign .comma = true → ParamsSpelt ps ts →
      ParamsSpelt (⟨t.ident, hint⟩ :: ps) (t :: (hs ++ c :: ts))

/-- Whether some tokens spell the fields of a class, which may be missing. -/
inductive FieldsSpelt : List Param → List Token → Prop
  | none : FieldsSpelt [] []
  | some {o : Token} {ps : List Param} {ts : List Token} : o.isSign .leftParen = true →
      ParamsSpelt ps ts → FieldsSpelt ps (o :: ts)

/-- Whether some tokens spell the end of a statement, where there is a sign for it. -/
inductive EndSpelt : List Token → Prop
  | nothing : EndSpelt []
  | semicolon {t : Token} : t.isSign .semicolon = true → EndSpelt [t]

mutual

inductive ExprSpelt : Expr → List Token → Prop
  | name {t : Token} : t.isName = true → ExprSpelt (.name t.ident) [t]
  | int {t : Token} {value : Int64} : t.kind = .int value →
      ExprSpelt (.int t.position t.lexeme value) [t]
  | float {t : Token} {value : Float} : t.kind = .float value →
      ExprSpelt (.float t.position t.lexeme value) [t]
  | str {t : Token} : t.kind = .str → ExprSpelt (.str t.position t.lexeme) [t]
  | trueWord {t : Token} : t.isKeyword .trueWord = true → ExprSpelt (.bool t.position true) [t]
  | falseWord {t : Token} : t.isKeyword .falseWord = true → ExprSpelt (.bool t.position false) [t]
  | nullWord {t : Token} : t.isKeyword .nullWord = true → ExprSpelt (.null t.position) [t]
  | parens {o c : Token} {e : Expr} {ts : List Token} : o.isSign .leftParen = true →
      ExprSpelt e ts → c.isSign .rightParen = true → ExprSpelt e (o :: (ts ++ [c]))
  | list {o : Token} {items : List Expr} {ts : List Token} : o.isSign .leftBracket = true →
      ItemsSpelt .rightBracket items ts → ExprSpelt (.list o.position items) (o :: ts)
  | unary {t : Token} {op : UnaryOp} {e : Expr} {ts : List Token} : t.isSign op.sign = true →
      ExprSpelt e ts → ExprSpelt (.unary t.position op e) (t :: ts)
  | binary {t : Token} {op : BinaryOp} {left right : Expr} {ts us : List Token} :
      ExprSpelt left ts → t.isSign op.sign = true → ExprSpelt right us →
      ExprSpelt (.binary t.position op left right) (ts ++ t :: us)
  | call {o : Token} {callee : Expr} {args : List Expr} {ts us : List Token} :
      ExprSpelt callee ts → o.isSign .leftParen = true → ItemsSpelt .rightParen args us →
      ExprSpelt (.call o.position callee args) (ts ++ o :: us)
  | member {d t : Token} {object : Expr} {ts : List Token} :
      ExprSpelt object ts → d.isSign .dot = true → t.isName = true →
      ExprSpelt (.member d.position object t.ident) (ts ++ [d, t])
  | method {d t o : Token} {object : Expr} {args : List Expr} {ts us : List Token} :
      ExprSpelt object ts → d.isSign .dot = true → t.isName = true →
      o.isSign .leftParen = true → ItemsSpelt .rightParen args us →
      ExprSpelt (.method d.position object t.ident args) (ts ++ d :: t :: o :: us)
  | index {o c : Token} {object subscript : Expr} {ts us : List Token} :
      ExprSpelt object ts → o.isSign .leftBracket = true → ExprSpelt subscript us →
      c.isSign .rightBracket = true →
      ExprSpelt (.index o.position object subscript) (ts ++ o :: (us ++ [c]))
  | lambda {t o : Token} {ps : List Param} {body : Block} {ts us : List Token} :
      t.isKeyword .fnWord = true → o.isSign .leftParen = true → ParamsSpelt ps ts →
      BlockSpelt body us → ExprSpelt (.lambda t.position ps body) (t :: o :: (ts ++ us))

/-- Whether some tokens spell expressions and the sign behind them. -/
inductive ItemsSpelt : Sign → List Expr → List Token → Prop
  | close {closing : Sign} {c : Token} : c.isSign closing = true → ItemsSpelt closing [] [c]
  | last {closing : Sign} {c : Token} {e : Expr} {ts : List Token} : ExprSpelt e ts →
      c.isSign closing = true → ItemsSpelt closing [e] (ts ++ [c])
  | more {closing : Sign} {c : Token} {e : Expr} {es : List Expr} {ts us : List Token} :
      ExprSpelt e ts → c.isSign .comma = true → ItemsSpelt closing es us →
      ItemsSpelt closing (e :: es) (ts ++ c :: us)

inductive BlockSpelt : Block → List Token → Prop
  | mk {o c : Token} {ss : List Stmt} {ts : List Token} : o.isSign .leftBrace = true →
      LinesSpelt ss ts → c.isSign .rightBrace = true →
      BlockSpelt (.mk o.position ss) (o :: (ts ++ [c]))

/-- Whether some tokens spell statements, one behind the other. -/
inductive LinesSpelt : List Stmt → List Token → Prop
  | nil : LinesSpelt [] []
  | empty {t : Token} {ss : List Stmt} {ts : List Token} : t.isSign .semicolon = true →
      LinesSpelt ss ts → LinesSpelt ss (t :: ts)
  | cons {s : Stmt} {ss : List Stmt} {ts us : List Token} : StmtSpelt s ts → LinesSpelt ss us →
      LinesSpelt (s :: ss) (ts ++ us)

/-- Whether some tokens spell a statement. -/
inductive StmtSpelt : Stmt → List Token → Prop
  | expr {t : Token} {e : Expr} {ts es : List Token} : ExprSpelt e (t :: ts) → EndSpelt es →
      StmtSpelt (.expr t.position t.lexeme e) (t :: (ts ++ es))
  | assign {t : Token} {ident : Ident} {value : Expr} {ts us es : List Token} :
      ExprSpelt (.name ident) ts → t.isSign .assign = true → ExprSpelt value us → EndSpelt es →
      StmtSpelt (.assign t.position ident value) (ts ++ t :: (us ++ es))
  | store {t : Token} {bracket : Position} {object subscript value : Expr}
      {ts us es : List Token} :
      ExprSpelt (.index bracket object subscript) ts → t.isSign .assign = true →
      ExprSpelt value us → EndSpelt es →
      StmtSpelt (.store t.position bracket object subscript value) (ts ++ t :: (us ++ es))
  | choose {t : Token} {branches : List Branch} {otherwise : Option Block} {ts us : List Token} :
      BranchesSpelt .ifWord branches (t :: ts) → ElseSpelt otherwise us →
      StmtSpelt (.choose t.position branches otherwise) (t :: (ts ++ us))
  | repeatWhile {t : Token} {condition : Expr} {body : Block} {ts us : List Token} :
      t.isKeyword .whileWord = true → ExprSpelt condition ts → BlockSpelt body us →
      StmtSpelt (.repeatWhile t.position condition body) (t :: (ts ++ us))
  | forEach {t i w : Token} {source : Expr} {body : Block} {ts us : List Token} :
      t.isKeyword .forWord = true → i.isName = true →
      (w.isKeyword .inWord || w.isSign .colon) = true → ExprSpelt source ts →
      BlockSpelt body us →
      StmtSpelt (.forEach t.position i.ident source body) (t :: i :: w :: (ts ++ us))
  | declare {f : Func} {ts : List Token} : FuncSpelt f ts → StmtSpelt (.declare f) ts
  | classDef {t i : Token} {fields : List Param} {methods : List Func} {ts us : List Token} :
      t.isKeyword .classWord = true → i.isName = true → FieldsSpelt fields ts →
      ClassBodySpelt methods us →
      StmtSpelt (.classDef t.position i.ident fields methods) (t :: i :: (ts ++ us))
  | giveBack {t : Token} {es : List Token} : t.isKeyword .returnWord = true → EndSpelt es →
      StmtSpelt (.giveBack t.position none) (t :: es)
  | giveBackValue {t : Token} {e : Expr} {ts es : List Token} :
      t.isKeyword .returnWord = true → ExprSpelt e ts → EndSpelt es →
      StmtSpelt (.giveBack t.position (some e)) (t :: (ts ++ es))
  | leave {t : Token} {es : List Token} : t.isKeyword .breakWord = true → EndSpelt es →
      StmtSpelt (.leave t.position) (t :: es)
  | skip {t : Token} {es : List Token} : t.isKeyword .continueWord = true → EndSpelt es →
      StmtSpelt (.skip t.position) (t :: es)

/-- Whether some tokens spell the branches of a choice, the first introduced by a
keyword, the others by `elif`. -/
inductive BranchesSpelt : Keyword → List Branch → List Token → Prop
  | nil {k : Keyword} : BranchesSpelt k [] []
  | cons {k : Keyword} {t : Token} {condition : Expr} {body : Block} {bs : List Branch}
      {ts us vs : List Token} : t.isKeyword k = true → ExprSpelt condition ts →
      BlockSpelt body us → BranchesSpelt .elifWord bs vs →
      BranchesSpelt k (.mk t.position condition body :: bs) (t :: (ts ++ us ++ vs))

/-- Whether some tokens spell the last part of a choice, which may be missing. -/
inductive ElseSpelt : Option Block → List Token → Prop
  | none : ElseSpelt none []
  | some {t : Token} {body : Block} {ts : List Token} : t.isKeyword .elseWord = true →
      BlockSpelt body ts → ElseSpelt (some body) (t :: ts)

/-- Whether some tokens spell a function with a name. -/
inductive FuncSpelt : Func → List Token → Prop
  | mk {t i o : Token} {ps : List Param} {hint : Option Ident} {body : Block}
      {ts hs us : List Token} : t.isKeyword .fnWord = true → i.isName = true →
      o.isSign .leftParen = true → ParamsSpelt ps ts → HintSpelt hint hs → BlockSpelt body us →
      FuncSpelt (.mk t.position i.ident ps hint body) (t :: i :: o :: (ts ++ hs ++ us))

/-- Whether some tokens spell the methods of a class between braces, or its end. -/
inductive ClassBodySpelt : List Func → List Token → Prop
  | none {es : List Token} : EndSpelt es → ClassBodySpelt [] es
  | some {o c : Token} {fs : List Func} {ts : List Token} : o.isSign .leftBrace = true →
      MethodsSpelt fs ts → c.isSign .rightBrace = true → ClassBodySpelt fs (o :: (ts ++ [c]))

/-- Whether some tokens spell the methods of a class, one behind the other. -/
inductive MethodsSpelt : List Func → List Token → Prop
  | nil : MethodsSpelt [] []
  | empty {t : Token} {fs : List Func} {ts : List Token} : t.isSign .semicolon = true →
      MethodsSpelt fs ts → MethodsSpelt fs (t :: ts)
  | cons {f : Func} {fs : List Func} {ts us : List Token} : FuncSpelt f ts →
      MethodsSpelt fs us → MethodsSpelt (f :: fs) (ts ++ us)

end

/-- A statement by itself. -/
theorem StmtSpelt.line {s : Stmt} {ts : List Token} (h : StmtSpelt s ts) : LinesSpelt [s] ts := by
  have hline := LinesSpelt.cons h .nil
  rwa [List.append_nil] at hline

theorem LinesSpelt.append : ∀ {ss ss' : List Stmt} {ts us : List Token}, LinesSpelt ss ts →
    LinesSpelt ss' us → LinesSpelt (ss ++ ss') (ts ++ us)
  | _, _, _, _, .nil, h' => h'
  | _, _, _, _, .empty hsign h, h' => .empty hsign (h.append h')
  | _, _, _, _, .cons hs h, h' => by
      rw [List.append_assoc]
      exact .cons hs (h.append h')

end Scriptlet
