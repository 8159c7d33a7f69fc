/-
The nodes of code, which are evaluated one inside another: expressions, statements and blocks.
What holds of a node and of the nodes right inside those for which it holds, holds of all nodes
inside it.
-/
import Mathlib.Logic.Relation
import Scriptlet.Syntax.Basic

namespace Scriptlet

inductive SyntaxNode where
  | expr (e : Expr)
  | stmt (s : Stmt)
  | block (b : Block)

/-- The nodes right inside a branch. -/
def Branch.children : Branch → List SyntaxNode
  | .mk _ condition body => [.expr condition, .block body]

/-- The nodes right inside an expression. -/
def Expr.children : Expr → List SyntaxNode
  | .name _ | .int _ _ _ | .float _ _ _ | .str _ _ | .bool _ _ | .null _ => []
  | .list _ items => items.map .expr
  | .unary _ _ operand => [.expr operand]
  | .binary _ _ left right => [.expr left, .expr right]
  | .call _ callee args => .expr callee :: args.map .expr
  | .member _ object _ => [.expr object]
  | .method _ object _ args => .expr object :: args.map .expr
  | .index _ object subscript => [.expr object, .expr subscript]
  | .lambda _ _ body => [.block body]

/-- The nodes right inside a statement. -/
def Stmt.children : Stmt → List SyntaxNode
  | .expr _ _ value => [.expr value]
  | .assign _ _ value => [.expr value]
  | .store _ _ object subscript value => [.expr object, .expr subscript, .expr value]
  | .choose _ branches otherwise =>
    branches.flatMap Branch.children ++ otherwise.toList.map .block
  | .repeatWhile _ condition body => [.expr condition, .block body]
  | .forEach _ _ source body => [.expr source, .block body]
  | .declare f => [.block f.body]
  | .classDef _ _ _ methods => methods.map fun f => .block f.body
  | .giveBack _ value => value.toList.map .expr
  | .leave _ | .skip _ => []

namespace SyntaxNode

/-- The place of the token that a node is named after. -/
def position : SyntaxNode → Position
  | .expr e => e.position
  | .stmt s => s.position
  | .block b => b.position

/-- The nodes right inside a node. -/
def children : SyntaxNode → List SyntaxNode
  | .expr e => e.children
  | .stmt s => s.children
  | .block b => b.statements.map .stmt

/-- A node is another or is inside it. -/
def Holds : SyntaxNode → SyntaxNode → Prop := Relation.ReflTransGen fun n m => m ∈ n.children

/-- A node and all nodes inside it stand somewhere. -/
def Grounded (n : SyntaxNode) : Prop := ∀ m, n.Holds m → m.position.isKnown = true

/-- Nodes among which are all nodes right inside one of them. -/
def Closed (N : SyntaxNode → Prop) : Prop := ∀ n, N n → ∀ m ∈ n.children, N m

theorem Grounded.position {n : SyntaxNode} (h : n.Grounded) : n.position.isKnown = true := h n .refl

theorem Grounded.child {n m : SyntaxNode} (h : n.Grounded) (hm : m ∈ n.children) : m.Grounded :=
  fun k hk => h k (.head hm hk)

/-- A node that stands somewhere is grounded if all nodes right inside it are. -/
theorem Grounded.intro {n : SyntaxNode} (hn : n.position.isKnown = true)
    (hchildren : ∀ m ∈ n.children, m.Grounded) : n.Grounded := by
  intro k hk
  rcases Relation.ReflTransGen.cases_head hk with rfl | ⟨m, hm, hrest⟩
  · exact hn
  · exact hchildren m hm k hrest

end SyntaxNode

/-- A node of a program: one of its statements or a node inside one. -/
def Program.Has (p : Program) (n : SyntaxNode) : Prop :=
  ∃ s ∈ p.statements, (SyntaxNode.stmt s).Holds n

theorem Program.closed_has (p : Program) : SyntaxNode.Closed p.Has := by
  rintro n ⟨s, hs, hn⟩ m hm
  exact ⟨s, hs, hn.tail hm⟩

theorem Program.has_stmt {p : Program} {s : Stmt} (hs : s ∈ p.statements) : p.Has (.stmt s) :=
  ⟨s, hs, .refl⟩

end Scriptlet
