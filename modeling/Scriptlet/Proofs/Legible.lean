/-
Trees that can be written: names are words of the language, numbers are those
that a literal can have, and no parameter occurs twice.
-/
import Scriptlet.Syntax.Basic
import Scriptlet.Token.Lexer

namespace Scriptlet

/-- Whether some characters form a name: a letter, then letters and digits, and
no keyword. -/
def IsName (n : String) : Prop :=
  (∃ c cs, n.toList = c :: cs ∧ Lexer.isLetter c = true ∧ ∀ d ∈ cs, Lexer.isNameChar d = true) ∧
    Keyword.ofString? n = none

def IsDecimal (x : Float) : Prop := ∃ digits scale, nearestDecimal digits scale = some x

def Ident.Legible (i : Ident) : Prop := IsName i.name

def HintLegible (h : Option Ident) : Prop := ∀ i, h = some i → i.Legible

/-- Whether a parameter and its hint are names. -/
def Param.Legible (p : Param) : Prop := p.name.Legible ∧ HintLegible p.hint

def ParamsLegible (ps : List Param) : Prop :=
  (∀ p ∈ ps, p.Legible) ∧ (ps.map fun p => p.name.name).Nodup

mutual

/-- Whether an expression can be written. -/
def Expr.Legible : Expr → Prop
  | .name i => i.Legible
  | .int _ _ value => 0 ≤ value
  | .float _ _ value => IsDecimal value
  | .str _ _ | .bool _ _ | .null _ => True
  | .list _ items => ExprsLegible items
  | .unary _ _ operand => operand.Legible
  | .binary _ _ left right => left.Legible ∧ right.Legible
  | .call _ callee args => callee.Legible ∧ ExprsLegible args
  | .member _ object field => object.Legible ∧ field.Legible
  | .method _ object field args => object.Legible ∧ field.Legible ∧ ExprsLegible args
  | .index _ object subscript => object.Legible ∧ subscript.Legible
  | .lambda _ params body => ParamsLegible params ∧ body.Legible

/-- Whether all of some expressions can be written. -/
def ExprsLegible : List Expr → Prop
  | [] => True
  | e :: es => e.Legible ∧ ExprsLegible es

/-- Whether a block can be written. -/
def Block.Legible : Block → Prop
  | .mk _ statements => StmtsLegible statements

/-- Whether all of some statements can be written. -/
def StmtsLegible : List Stmt → Prop
  | [] => True
  | s :: ss => s.Legible ∧ StmtsLegible ss

def BranchesLegible : List Branch → Prop
  | [] => True
  | .mk _ condition body :: bs => condition.Legible ∧ body.Legible ∧ BranchesLegible bs

/-- Whether a function can be written. -/
def Func.Legible : Func → Prop
  | .mk _ ident params hint body =>
    ident.Legible ∧ ParamsLegible params ∧ HintLegible hint ∧ body.Legible

/-- Whether all of some functions can be written. -/
def FuncsLegible : List Func → Prop
  | [] => True
  | f :: fs => f.Legible ∧ FuncsLegible fs

/-- Whether a statement can be written; a choice has a first branch. -/
def Stmt.Legible : Stmt → Prop
  | .expr _ _ value => value.Legible
  | .assign _ target value => target.Legible ∧ value.Legible
  | .store _ _ object subscript value =>
    object.Legible ∧ subscript.Legible ∧ value.Legible
  | .choose _ branches otherwise =>
    branches ≠ [] ∧ BranchesLegible branches ∧
      (match otherwise with
        | some b => b.Legible
        | none => True)
  | .repeatWhile _ condition body => condition.Legible ∧ body.Legible
  | .forEach _ item source body => item.Legible ∧ source.Legible ∧ body.Legible
  | .declare f => f.Legible
  | .classDef _ ident fields methods =>
    ident.Legible ∧ ParamsLegible fields ∧ FuncsLegible methods
  | .giveBack _ value =>
    match value with
    | some e => e.Legible
    | none => True
  | .leave _ | .skip _ => True

end

theorem exprsLegible_iff (items : List Expr) :
    ExprsLegible items ↔ ∀ e ∈ items, e.Legible := by
  induction items with
  | nil => simp [ExprsLegible]
  | cons e es ih => simp [ExprsLegible, ih]

theorem stmtsLegible_iff (statements : List Stmt) :
    StmtsLegible statements ↔ ∀ s ∈ statements, s.Legible := by
  induction statements with
  | nil => simp [StmtsLegible]
  | cons s ss ih => simp [StmtsLegible, ih]

theorem funcsLegible_iff (fs : List Func) :
    FuncsLegible fs ↔ ∀ f ∈ fs, f.Legible := by
  induction fs with
  | nil => simp [FuncsLegible]
  | cons f fs ih => simp [FuncsLegible, ih]

/-- Whether a branch can be written. -/
def Branch.Legible : Branch → Prop
  | .mk _ condition body => condition.Legible ∧ body.Legible

theorem branchesLegible_iff (bs : List Branch) :
    BranchesLegible bs ↔ ∀ b ∈ bs, b.Legible := by
  induction bs with
  | nil => simp [BranchesLegible]
  | cons b bs ih =>
      obtain ⟨p, condition, body⟩ := b
      simp [BranchesLegible, Branch.Legible, ih, and_assoc]

end Scriptlet
