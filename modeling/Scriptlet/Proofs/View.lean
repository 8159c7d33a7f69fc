/-
Trees seen without what has no meaning: the places of their tokens and the
spellings of their literals.  A view may also change the values of string
literals, and take the call of a member for the call of a method.
-/
import Scriptlet.Proofs.Words

namespace Scriptlet

/-- How to look at a tree: what becomes of the value of a string literal, and
whether the call of a member counts as the call of a method. -/
structure View where
  text : String → String
  joins : Bool

def Expr.isMember : Expr → Bool
  | .member _ _ _ => true
  | _ => false

namespace View

/-- Nothing but places and spellings is left out. -/
def plain : View := ⟨id, false⟩

/-- The call of a member counts as the call of a method. -/
def joined : View := ⟨id, true⟩

def call (v : View) (p : Position) (callee : Expr) (args : List Expr) : Expr :=
  match v.joins, callee with
  | true, .member q object field => .method q object field args
  | _, _ => .call p callee args

end View

/-- A name without its place. -/
def Ident.seen (i : Ident) : Ident := ⟨i.name, .nowhere⟩

/-- A parameter without its place. -/
def Param.seen (p : Param) : Param := ⟨p.name.seen, p.hint.map Ident.seen⟩

mutual

def Expr.seen (v : View) : Expr → Expr
  | .name i => .name i.seen
  | .int _ _ value => .int .nowhere "" value
  | .float _ _ value => .float .nowhere "" value
  | .str _ value => .str .nowhere (v.text value)
  | .bool _ value => .bool .nowhere value
  | .null _ => .null .nowhere
  | .list _ items => .list .nowhere (exprsSeen v items)
  | .unary _ op operand => .unary .nowhere op (operand.seen v)
  | .binary _ op left right => .binary .nowhere op (left.seen v) (right.seen v)
  | .call _ callee args => v.call .nowhere (callee.seen v) (exprsSeen v args)
  | .member _ object field => .member .nowhere (object.seen v) field.seen
  | .method _ object field args => .method .nowhere (object.seen v) field.seen (exprsSeen v args)
  | .index _ object subscript => .index .nowhere (object.seen v) (subscript.seen v)
  | .lambda _ params body => .lambda .nowhere (params.map Param.seen) (body.seen v)

def exprsSeen (v : View) : List Expr → List Expr
  | [] => []
  | e :: es => e.seen v :: exprsSeen v es

def Block.seen (v : View) : Block → Block
  | .mk _ statements => .mk .nowhere (stmtsSeen v statements)

def stmtsSeen (v : View) : List Stmt → List Stmt
  | [] => []
  | s :: ss => s.seen v :: stmtsSeen v ss

def branchesSeen (v : View) : List Branch → List Branch
  | [] => []
  | .mk _ condition body :: bs =>
    .mk .nowhere (condition.seen v) (body.seen v) :: branchesSeen v bs

def Func.seen (v : View) : Func → Func
  | .mk _ ident params hint body =>
    .mk .nowhere ident.seen (params.map Param.seen) (hint.map Ident.seen) (body.seen v)

def funcsSeen (v : View) : List Func → List Func
  | [] => []
  | f :: fs => f.seen v :: funcsSeen v fs

def Stmt.seen (v : View) : Stmt → Stmt
  | .expr _ _ value => .expr .nowhere "" (value.seen v)
  | .assign _ target value => .assign .nowhere target.seen (value.seen v)
  | .store _ _ object subscript value =>
    .store .nowhere .nowhere (object.seen v) (subscript.seen v) (value.seen v)
  | .choose _ branches none => .choose .nowhere (branchesSeen v branches) none
  | .choose _ branches (some b) => .choose .nowhere (branchesSeen v branches) (some (b.seen v))
  | .repeatWhile _ condition body => .repeatWhile .nowhere (condition.seen v) (body.seen v)
  | .forEach _ item source body => .forEach .nowhere item.seen (source.seen v) (body.seen v)
  | .declare f => .declare (f.seen v)
  | .classDef _ ident fields methods =>
    .classDef .nowhere ident.seen (fields.map Param.seen) (funcsSeen v methods)
  | .giveBack _ none => .giveBack .nowhere none
  | .giveBack _ (some e) => .giveBack .nowhere (some (e.seen v))
  | .leave _ => .leave .nowhere
  | .skip _ => .skip .nowhere

end

mutual

/-- An expression and all those inside it. -/
def Expr.parts : Expr → List Expr
  | .list p items => .list p items :: exprsParts items
  | .unary p op operand => .unary p op operand :: operand.parts
  | .binary p op left right => .binary p op left right :: left.parts ++ right.parts
  | .call p callee args => .call p callee args :: callee.parts ++ exprsParts args
  | .member p object field => .member p object field :: object.parts
  | .method p object field args =>
    .method p object field args :: object.parts ++ exprsParts args
  | .index p object subscript => .index p object subscript :: object.parts ++ subscript.parts
  | .lambda p params body => .lambda p params body :: body.parts
  | .name i => [.name i]
  | .int p digits value => [.int p digits value]
  | .float p digits value => [.float p digits value]
  | .str p value => [.str p value]
  | .bool p value => [.bool p value]
  | .null p => [.null p]

/-- All expressions inside some expressions. -/
def exprsParts : List Expr → List Expr
  | [] => []
  | e :: es => e.parts ++ exprsParts es

/-- All expressions inside a block. -/
def Block.parts : Block → List Expr
  | .mk _ statements => stmtsParts statements

/-- All expressions inside some statements. -/
def stmtsParts : List Stmt → List Expr
  | [] => []
  | s :: ss => s.parts ++ stmtsParts ss

def branchesParts : List Branch → List Expr
  | [] => []
  | .mk _ condition body :: bs => condition.parts ++ body.parts ++ branchesParts bs

/-- All expressions inside a function. -/
def Func.parts : Func → List Expr
  | .mk _ _ _ _ body => body.parts

/-- All expressions inside some functions. -/
def funcsParts : List Func → List Expr
  | [] => []
  | f :: fs => f.parts ++ funcsParts fs

/-- All expressions inside a statement. -/
def Stmt.parts : Stmt → List Expr
  | .expr _ _ value => value.parts
  | .assign _ _ value => value.parts
  | .store _ _ object subscript value => object.parts ++ subscript.parts ++ value.parts
  | .choose _ branches none => branchesParts branches
  | .choose _ branches (some b) => branchesParts branches ++ b.parts
  | .repeatWhile _ condition body => condition.parts ++ body.parts
  | .forEach _ _ source body => source.parts ++ body.parts
  | .declare f => f.parts
  | .classDef _ _ _ methods => funcsParts methods
  | .giveBack _ none => []
  | .giveBack _ (some e) => e.parts
  | .leave _ => []
  | .skip _ => []

end

/-- Whether an expression, apart from those inside it, looks the same with `f`
applied to texts and member calls joined as it looks with texts left alone and
member calls joined if `joins`. -/
def Expr.Kept (f : String → String) (joins : Bool) : Expr → Prop
  | .str _ value => f value = value
  | .call _ callee _ => callee.isMember = true → joins = true
  | _ => True

theorem View.isMember_call (v : View) (p : Position) (callee : Expr) (args : List Expr) :
    (v.call p callee args).isMember = false := by
  unfold View.call
  split <;> rfl

@[simp] theorem Expr.isMember_seen (v : View) (e : Expr) : (e.seen v).isMember = e.isMember := by
  cases e with
  | call p callee args => exact View.isMember_call v _ _ _
  | _ => rfl

theorem View.call_of_not_member (v : View) (p : Position) {callee : Expr} (args : List Expr)
    (h : callee.isMember = false) : v.call p callee args = .call p callee args := by
  unfold View.call
  split
  · exact absurd h Bool.noConfusion
  · rfl

theorem View.call_eq_iff (f : String → String) (joins : Bool) (p : Position) {c d : Expr}
    (as bs : List Expr) (h : c.isMember = d.isMember) :
    View.call ⟨f, true⟩ p c as = View.call ⟨id, joins⟩ p d bs ↔
      (d.isMember = true → joins = true) ∧ c = d ∧ as = bs := by
  cases hd : d.isMember with
  | false =>
      rw [View.call_of_not_member _ p as (h.trans hd), View.call_of_not_member _ p bs hd]
      simp
  | true =>
      cases c <;> cases d <;> simp_all [Expr.isMember]
      cases joins <;> simp [View.call, and_assoc]

mutual

/-- Two views that differ in the texts agree on an expression just where those
of its literals are kept. -/
theorem Expr.seen_eq_iff (f : String → String) (joins : Bool) : (e : Expr) →
    (e.seen ⟨f, true⟩ = e.seen ⟨id, joins⟩ ↔ ∀ d ∈ e.parts, d.Kept f joins)
  | .name i => by simp [Expr.seen, Expr.parts, Expr.Kept]
  | .int _ _ _ => by simp [Expr.seen, Expr.parts, Expr.Kept]
  | .float _ _ _ => by simp [Expr.seen, Expr.parts, Expr.Kept]
  | .str _ _ => by simp [Expr.seen, Expr.parts, Expr.Kept]
  | .bool _ _ => by simp [Expr.seen, Expr.parts, Expr.Kept]
  | .null _ => by simp [Expr.seen, Expr.parts, Expr.Kept]
  | .list _ items => by
    have hitems := exprsSeen_eq_iff f joins items
    simp [Expr.seen, Expr.parts, Expr.Kept, hitems]
  | .unary _ _ operand => by
    have hoperand := Expr.seen_eq_iff f joins operand
    simp [Expr.seen, Expr.parts, Expr.Kept, hoperand]
  | .binary _ _ left right => by
    have hleft := Expr.seen_eq_iff f joins left
    have hright := Expr.seen_eq_iff f joins right
    simp [Expr.seen, Expr.parts, Expr.Kept, or_imp, forall_and, hleft, hright]
  | .call _ callee args => by
    have hcallee := Expr.seen_eq_iff f joins callee
    have hargs := exprsSeen_eq_iff f joins args
    simp [Expr.seen, Expr.parts, View.call_eq_iff, Expr.Kept, or_imp, forall_and, hcallee,
      hargs]
  | .member _ object _ => by
    have hobject := Expr.seen_eq_iff f joins object
    simp [Expr.seen, Expr.parts, Expr.Kept, hobject]
  | .method _ object _ args => by
    have hobject := Expr.seen_eq_iff f joins object
    have hargs := exprsSeen_eq_iff f joins args
    simp [Expr.seen, Expr.parts, Expr.Kept, or_imp, forall_and, hobject, hargs]
  | .index _ object subscript => by
    have hobject := Expr.seen_eq_iff f joins object
    have hsubscript := Expr.seen_eq_iff f joins subscript
    simp [Expr.seen, Expr.parts, Expr.Kept, or_imp, forall_and, hobject, hsubscript]
  | .lambda _ _ body => by
    have hbody := Block.seen_eq_iff f joins body
    simp [Expr.seen, Expr.parts, Expr.Kept, hbody]

theorem exprsSeen_eq_iff (f : String → String) (joins : Bool) : (es : List Expr) →
    (exprsSeen ⟨f, true⟩ es = exprsSeen ⟨id, joins⟩ es ↔ ∀ d ∈ exprsParts es, d.Kept f joins)
  | [] => by simp [exprsSeen, exprsParts, Expr.Kept]
  | e :: es => by
    have he := Expr.seen_eq_iff f joins e
    have hes := exprsSeen_eq_iff f joins es
    simp [exprsSeen, exprsParts, or_imp, forall_and, he, hes]

theorem Block.seen_eq_iff (f : String → String) (joins : Bool) : (b : Block) →
    (b.seen ⟨f, true⟩ = b.seen ⟨id, joins⟩ ↔ ∀ d ∈ b.parts, d.Kept f joins)
  | .mk _ ss => by
    have hss := stmtsSeen_eq_iff f joins ss
    simp [Block.seen, Block.parts, hss]

/-- Two views that differ in the texts agree on statements just where those of
their literals are kept. -/
theorem stmtsSeen_eq_iff (f : String → String) (joins : Bool) : (ss : List Stmt) →
    (stmtsSeen ⟨f, true⟩ ss = stmtsSeen ⟨id, joins⟩ ss ↔ ∀ d ∈ stmtsParts ss, d.Kept f joins)
  | [] => by simp [stmtsSeen, stmtsParts, Expr.Kept]
  | s :: ss => by
    have hs := Stmt.seen_eq_iff f joins s
    have hss := stmtsSeen_eq_iff f joins ss
    simp [stmtsSeen, stmtsParts, or_imp, forall_and, hs, hss]

theorem branchesSeen_eq_iff (f : String → String) (joins : Bool) : (bs : List Branch) →
    (branchesSeen ⟨f, true⟩ bs = branchesSeen ⟨id, joins⟩ bs ↔
      ∀ d ∈ branchesParts bs, d.Kept f joins)
  | [] => by simp [branchesSeen, branchesParts, Expr.Kept]
  | .mk _ condition body :: bs => by
    have hcondition := Expr.seen_eq_iff f joins condition
    have hbody := Block.seen_eq_iff f joins body
    have hbs := branchesSeen_eq_iff f joins bs
    simp [branchesSeen, branchesParts, or_imp, forall_and, hcondition, hbody, hbs, and_assoc]

theorem Func.seen_eq_iff (f : String → String) (joins : Bool) : (fn : Func) →
    (fn.seen ⟨f, true⟩ = fn.seen ⟨id, joins⟩ ↔ ∀ d ∈ fn.parts, d.Kept f joins)
  | .mk _ _ _ _ body => by
    have hbody := Block.seen_eq_iff f joins body
    simp [Func.seen, Func.parts, hbody]

theorem funcsSeen_eq_iff (f : String → String) (joins : Bool) : (fs : List Func) →
    (funcsSeen ⟨f, true⟩ fs = funcsSeen ⟨id, joins⟩ fs ↔ ∀ d ∈ funcsParts fs, d.Kept f joins)
  | [] => by simp [funcsSeen, funcsParts, Expr.Kept]
  | fn :: fs => by
    have hfn := Func.seen_eq_iff f joins fn
    have hfs := funcsSeen_eq_iff f joins fs
    simp [funcsSeen, funcsParts, or_imp, forall_and, hfn, hfs]

theorem Stmt.seen_eq_iff (f : String → String) (joins : Bool) : (s : Stmt) →
    (s.seen ⟨f, true⟩ = s.seen ⟨id, joins⟩ ↔ ∀ d ∈ s.parts, d.Kept f joins)
  | .expr _ _ value => by
    have hvalue := Expr.seen_eq_iff f joins value
    simp [Stmt.seen, Stmt.parts, hvalue]
  | .assign _ _ value => by
    have hvalue := Expr.seen_eq_iff f joins value
    simp [Stmt.seen, Stmt.parts, hvalue]
  | .store _ _ object subscript value => by
    have hobject := Expr.seen_eq_iff f joins object
    have hsubscript := Expr.seen_eq_iff f joins subscript
    have hvalue := Expr.seen_eq_iff f joins value
    simp [Stmt.seen, Stmt.parts, or_imp, forall_and, hobject, hsubscript, hvalue]
  | .choose _ branches none => by
    have hbranches := branchesSeen_eq_iff f joins branches
    simp [Stmt.seen, Stmt.parts, hbranches]
  | .choose _ branches (some b) => by
    have hbranches := branchesSeen_eq_iff f joins branches
    have hb := Block.seen_eq_iff f joins b
    simp [Stmt.seen, Stmt.parts, or_imp, forall_and, hbranches, hb]
  | .repeatWhile _ condition body => by
    have hcondition := Expr.seen_eq_iff f joins condition
    have hbody := Block.seen_eq_iff f joins body
    simp [Stmt.seen, Stmt.parts, or_imp, forall_and, hcondition, hbody]
  | .forEach _ _ source body => by
    have hsource := Expr.seen_eq_iff f joins source
    have hbody := Block.seen_eq_iff f joins body
    simp [Stmt.seen, Stmt.parts, or_imp, forall_and, hsource, hbody]
  | .declare fn => by
    have hfn := Func.seen_eq_iff f joins fn
    simp [Stmt.seen, Stmt.parts, hfn]
  | .classDef _ _ _ methods => by
    have hmethods := funcsSeen_eq_iff f joins methods
    simp [Stmt.seen, Stmt.parts, hmethods]
  | .giveBack _ none => by simp [Stmt.seen, Stmt.parts, Expr.Kept]
  | .giveBack _ (some e) => by
    have he := Expr.seen_eq_iff f joins e
    simp [Stmt.seen, Stmt.parts, he]
  | .leave _ => by simp [Stmt.seen, Stmt.parts, Expr.Kept]
  | .skip _ => by simp [Stmt.seen, Stmt.parts, Expr.Kept]

end

namespace Layout

/-- A word whose text, if it is a literal, is changed. -/
def Word.retold (f : String → String) : Word → Word
  | .str value => .str (f value)
  | w => w

/-- A piece whose word is changed. -/
def Piece.retold (f : String → String) (p : Piece) : Piece := ⟨p.gap, p.word.retold f⟩

@[simp] theorem Piece.retold_close (f : String → String) (s : Sign) :
    (Piece.close s).retold f = .close s := rfl

@[simp] theorem Piece.retold_apart (f : String → String) (s : Sign) :
    (Piece.apart s).retold f = .apart s := rfl

@[simp] theorem Piece.retold_mk (f : String → String) (g : Gap) (w : Word) :
    (Piece.mk g w).retold f = ⟨g, w.retold f⟩ := rfl

@[simp] theorem needsWrap_seen (v : View) (e : Expr) : needsWrap (e.seen v) = needsWrap e := by
  cases e with
  | call p callee args =>
      simp only [Expr.seen, View.call]
      split <;> rfl
  | _ => rfl

@[simp] theorem needsSide_seen (v : View) (outer : Nat) (onRight : Bool) (e : Expr) :
    needsSide outer onRight (e.seen v) = needsSide outer onRight e := by
  cases e with
  | call p callee args =>
      simp only [Expr.seen, View.call]
      split <;> rfl
  | _ => rfl

theorem wrapPieces_map (f : String → String) (needed : Bool) (g : Gap)
    (inner : Gap → List Piece) : (wrapPieces needed g inner).map (Piece.retold f) =
      wrapPieces needed g (fun g => (inner g).map (Piece.retold f)) := by
  cases needed <;> simp [wrapPieces, Word.retold]

/-- Joining a member call changes no word. -/
theorem exprPieces_call (v : View) (g : Gap) (depth : Nat) (p q : Position) (callee : Expr)
    (args : List Expr) :
    exprPieces g depth (v.call p callee args) = exprPieces g depth (.call q callee args) := by
  unfold View.call
  split <;> simp [exprPieces, needsWrap, wrapPieces]

theorem hintPieces_seen (f : String → String) (h : Option Ident) :
    hintPieces (h.map Ident.seen) = (hintPieces h).map (Piece.retold f) := by
  cases h <;> rfl

theorem paramPieces_seen (f : String → String) (g : Gap) (p : Param) :
    paramPieces g p.seen = (paramPieces g p).map (Piece.retold f) := by
  simp [paramPieces, Param.seen, Ident.seen, hintPieces_seen f, Word.retold]

theorem moreParamPieces_seen (f : String → String) (ps : List Param) :
    moreParamPieces (ps.map Param.seen) = (moreParamPieces ps).map (Piece.retold f) := by
  induction ps with
  | nil => rfl
  | cons p ps ih =>
      simp only [moreParamPieces] at ih ⊢
      simp [ih, paramPieces_seen f]

theorem paramsPieces_seen (f : String → String) (ps : List Param) :
    paramsPieces (ps.map Param.seen) = (paramsPieces ps).map (Piece.retold f) := by
  cases ps with
  | nil => rfl
  | cons p ps => simp [paramsPieces, paramPieces_seen f, moreParamPieces_seen f]

mutual

/-- The words of an expression that is seen differ in the texts only. -/
theorem exprPieces_seen (v : View) (g : Gap) (depth : Nat) : (e : Expr) →
    exprPieces g depth (e.seen v) = (exprPieces g depth e).map (Piece.retold v.text)
  | .name _ => by simp [Expr.seen, exprPieces, Ident.seen, Word.retold]
  | .int _ _ _ => by simp [Expr.seen, exprPieces, Word.retold]
  | .float _ _ _ => by simp [Expr.seen, exprPieces, Word.retold]
  | .str _ _ => by simp [Expr.seen, exprPieces, Word.retold]
  | .bool _ _ => by simp [Expr.seen, exprPieces, boolWord, Word.retold]
  | .null _ => by simp [Expr.seen, exprPieces, Word.retold]
  | .list _ items => by
    have hitems := itemsPieces_seen v depth items
    simp [Expr.seen, exprPieces, Word.retold, hitems]
  | .unary _ _ operand => by
    have hoperand := fun g => exprPieces_seen v g depth operand
    simp [Expr.seen, exprPieces, wrapPieces_map, Word.retold, hoperand]
  | .binary _ _ left right => by
    have hleft := fun g => exprPieces_seen v g depth left
    have hright := fun g => exprPieces_seen v g depth right
    simp [Expr.seen, exprPieces, wrapPieces_map, hleft, hright]
  | .call _ callee args => by
    have hcallee := fun g => exprPieces_seen v g depth callee
    have hargs := itemsPieces_seen v depth args
    rw [Expr.seen, exprPieces_call v g depth .nowhere .nowhere]
    simp [exprPieces, wrapPieces_map, hcallee, hargs]
  | .member _ object _ => by
    have hobject := fun g => exprPieces_seen v g depth object
    simp [Expr.seen, exprPieces, wrapPieces_map, Ident.seen, Word.retold, hobject]
  | .method _ object _ args => by
    have hobject := fun g => exprPieces_seen v g depth object
    have hargs := itemsPieces_seen v depth args
    simp [Expr.seen, exprPieces, wrapPieces_map, Ident.seen, Word.retold, hobject, hargs]
  | .index _ object subscript => by
    have hobject := fun g => exprPieces_seen v g depth object
    have hsubscript := exprPieces_seen v .nothing depth subscript
    simp [Expr.seen, exprPieces, wrapPieces_map, hobject, hsubscript]
  | .lambda _ params body => by
    have hparams := paramsPieces_seen v.text params
    have hbody := blockPieces_seen v depth body
    simp [Expr.seen, exprPieces, Word.retold, hparams, hbody]

theorem itemsPieces_seen (v : View) (depth : Nat) : (es : List Expr) →
    itemsPieces depth (exprsSeen v es) = (itemsPieces depth es).map (Piece.retold v.text)
  | [] => rfl
  | e :: es => by
    have he := exprPieces_seen v .nothing depth e
    have hes := moreItemsPieces_seen v depth es
    simp [exprsSeen, itemsPieces, he, hes]

theorem moreItemsPieces_seen (v : View) (depth : Nat) : (es : List Expr) →
    moreItemsPieces depth (exprsSeen v es) = (moreItemsPieces depth es).map (Piece.retold v.text)
  | [] => rfl
  | e :: es => by
    have he := exprPieces_seen v .blank depth e
    have hes := moreItemsPieces_seen v depth es
    simp [exprsSeen, moreItemsPieces, he, hes]

theorem blockPieces_seen (v : View) (depth : Nat) : (b : Block) →
    blockPieces depth (b.seen v) = (blockPieces depth b).map (Piece.retold v.text)
  | .mk _ [] => rfl
  | .mk _ (s :: ss) => by
    have hlines := linesPieces_seen v (depth + 1) (s :: ss)
    rw [stmtsSeen] at hlines
    simp [Block.seen, stmtsSeen, blockPieces, Word.retold, hlines]

theorem linesPieces_seen (v : View) (depth : Nat) : (ss : List Stmt) →
    linesPieces depth (stmtsSeen v ss) = (linesPieces depth ss).map (Piece.retold v.text)
  | [] => rfl
  | s :: ss => by
    have hs := stmtPieces_seen v (.line depth) depth s
    have hss := linesPieces_seen v depth ss
    simp [stmtsSeen, linesPieces, hs, hss]

theorem branchesPieces_seen (v : View) (g : Gap) (depth : Nat) (word : Keyword) :
    (bs : List Branch) → branchesPieces g depth word (branchesSeen v bs) =
      (branchesPieces g depth word bs).map (Piece.retold v.text)
  | [] => rfl
  | .mk _ condition body :: bs => by
    have hcondition := exprPieces_seen v .blank depth condition
    have hbody := blockPieces_seen v depth body
    have hbs := branchesPieces_seen v .blank depth .elifWord bs
    simp [branchesSeen, branchesPieces, Word.retold, hcondition, hbody, hbs]

theorem funcPieces_seen (v : View) (g : Gap) (depth : Nat) : (f : Func) →
    funcPieces g depth (f.seen v) = (funcPieces g depth f).map (Piece.retold v.text)
  | .mk _ ident params hint body => by
    have hparams := paramsPieces_seen v.text params
    have hhint := hintPieces_seen v.text hint
    have hbody := blockPieces_seen v depth body
    simp [Func.seen, funcPieces, Ident.seen, Word.retold, hparams, hhint, hbody]

theorem methodsPieces_seen (v : View) (depth : Nat) : (fs : List Func) →
    methodsPieces depth (funcsSeen v fs) = (methodsPieces depth fs).map (Piece.retold v.text)
  | [] => rfl
  | f :: fs => by
    have hf := funcPieces_seen v (.line depth) depth f
    have hfs := methodsPieces_seen v depth fs
    simp [funcsSeen, methodsPieces, hf, hfs]

theorem stmtPieces_seen (v : View) (g : Gap) (depth : Nat) : (s : Stmt) →
    stmtPieces g depth (s.seen v) = (stmtPieces g depth s).map (Piece.retold v.text)
  | .expr _ _ value => by
    rw [Stmt.seen, stmtPieces, stmtPieces, exprPieces_seen v g depth value]
  | .assign _ _ value => by
    have hvalue := exprPieces_seen v .blank depth value
    simp [Stmt.seen, stmtPieces, Ident.seen, Word.retold, hvalue]
  | .store _ _ object subscript value => by
    have hobject := fun g => exprPieces_seen v g depth object
    have hsubscript := exprPieces_seen v .nothing depth subscript
    have hvalue := exprPieces_seen v .blank depth value
    simp [Stmt.seen, stmtPieces, wrapPieces_map, hobject, hsubscript, hvalue]
  | .choose _ branches none => by
    have hbranches := branchesPieces_seen v g depth .ifWord branches
    simp [Stmt.seen, stmtPieces, hbranches]
  | .choose _ branches (some b) => by
    have hbranches := branchesPieces_seen v g depth .ifWord branches
    have hb := blockPieces_seen v depth b
    simp [Stmt.seen, stmtPieces, Word.retold, hbranches, hb]
  | .repeatWhile _ condition body => by
    have hcondition := exprPieces_seen v .blank depth condition
    have hbody := blockPieces_seen v depth body
    simp [Stmt.seen, stmtPieces, Word.retold, hcondition, hbody]
  | .forEach _ _ source body => by
    have hsource := exprPieces_seen v .blank depth source
    have hbody := blockPieces_seen v depth body
    simp [Stmt.seen, stmtPieces, Ident.seen, Word.retold, hsource, hbody]
  | .declare f => by rw [Stmt.seen, stmtPieces, stmtPieces, funcPieces_seen v g depth f]
  | .classDef _ _ fields [] => by
    have hfields := paramsPieces_seen v.text fields
    simp [Stmt.seen, funcsSeen, stmtPieces, Ident.seen, Word.retold, hfields]
  | .classDef _ _ fields (m :: ms) => by
    have hfields := paramsPieces_seen v.text fields
    have hmethods := methodsPieces_seen v (depth + 1) (m :: ms)
    rw [funcsSeen] at hmethods
    simp [Stmt.seen, funcsSeen, stmtPieces, Ident.seen, Word.retold, hfields, hmethods]
  | .giveBack _ none => rfl
  | .giveBack _ (some e) => by
    have he := exprPieces_seen v .blank depth e
    simp [Stmt.seen, stmtPieces, Word.retold, he]
  | .leave _ => rfl
  | .skip _ => rfl

end

/-- The words of a program that is seen differ in the texts only. -/
theorem programPieces_seen (v : View) (ss : List Stmt) :
    programPieces (stmtsSeen v ss) = (programPieces ss).map (Piece.retold v.text) := by
  cases ss with
  | nil => rfl
  | cons s ss =>
      simp [stmtsSeen, programPieces, stmtPieces_seen, linesPieces_seen]

end Layout

end Scriptlet
