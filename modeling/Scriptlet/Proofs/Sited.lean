/-
Places in what is read.  Every token of a source stands somewhere, and so does
every node that is read: its place is that of some token.
-/
import Scriptlet.Proofs.Nesting
import Scriptlet.Proofs.Nodes

namespace Scriptlet

/-- Whether a token stands somewhere. -/
def Token.Sited (t : Token) : Prop := t.position.isKnown = true

/-- Whether an expression stands somewhere. -/
def Expr.Sited (e : Expr) : Prop := e.position.isKnown = true

/-- Whether a statement stands somewhere if it is an expression. -/
def Stmt.Sited (s : Stmt) : Prop := ∀ p word e, s = .expr p word e → e.Sited

/-- Whether an expression and all nodes inside it stand somewhere. -/
def Expr.Grounded (e : Expr) : Prop := (SyntaxNode.expr e).Grounded

/-- Whether a statement and all nodes inside it stand somewhere. -/
def Stmt.Grounded (s : Stmt) : Prop := (SyntaxNode.stmt s).Grounded

/-- Whether a block and all nodes inside it stand somewhere. -/
def Block.Grounded (b : Block) : Prop := (SyntaxNode.block b).Grounded

/-- Whether all nodes inside a branch stand somewhere. -/
def Branch.Grounded (b : Branch) : Prop := ∀ n ∈ b.children, n.Grounded

/-- Whether a function and all nodes inside it stand somewhere. -/
structure Func.Grounded (f : Func) : Prop where
  position : f.position.isKnown = true
  body : f.body.Grounded

theorem Expr.Grounded.intro {e : Expr} (he : e.position.isKnown = true)
    (hchildren : ∀ m ∈ e.children, m.Grounded) : e.Grounded :=
  SyntaxNode.Grounded.intro he hchildren

theorem Stmt.Grounded.intro {s : Stmt} (hs : s.position.isKnown = true)
    (hchildren : ∀ m ∈ s.children, m.Grounded) : s.Grounded :=
  SyntaxNode.Grounded.intro hs hchildren

theorem forall_expr_grounded {es : List Expr} (h : ∀ e ∈ es, e.Grounded) :
    ∀ m ∈ es.map SyntaxNode.expr, m.Grounded :=
  List.forall_mem_map.mpr h

theorem Stmt.Grounded.sited {s : Stmt} (h : s.Grounded) : s.Sited := by
  rintro p word e rfl
  exact (h.child (List.mem_singleton_self _)).position

namespace Reader

/-- Whether all tokens that a reader has before it stand somewhere. -/
def Sited (r : Reader) : Prop := r.current.Sited ∧ r.ahead.Sited ∧ ∀ t ∈ r.rest, t.Sited

theorem Sited.moved {r : Reader} (h : r.Sited) {t : Token} {ts : List Token}
    (hrest : r.rest = t :: ts) :
    Sited { r with current := r.ahead, ahead := t, rest := ts } := by
  obtain ⟨-, hahead, htokens⟩ := h
  rw [hrest] at htokens
  exact ⟨hahead, htokens t List.mem_cons_self, fun u hu => htokens u (List.mem_cons_of_mem t hu)⟩

theorem Sited.advance {r : Reader} (h : r.Sited) : r.advance.Sited := by
  unfold Reader.advance
  split
  · exact ⟨h.2.1, h.2⟩
  · rename_i hrest
    exact h.moved hrest

theorem Sited.skipToBoundary {r : Reader} (h : r.Sited) : r.skipToBoundary.Sited := by
  fun_induction Reader.skipToBoundary r with
  | case1 r _ => exact h
  | case2 r _ _ => exact h
  | case3 r _ t ts hrest _ ih => exact ih (h.moved hrest)

end Reader

namespace Parse

variable {α β : Type} {P : α → Prop} {Q : β → Prop}

/-- Whether a reading leaves only tokens before it that stand somewhere, and
yields only values with `P`. -/
def Sites (P : α → Prop) (p : Parse α) : Prop :=
  ∀ r : Reader, r.Sited → (p r).2.Sited ∧ ∀ a, (p r).1 = some a → P a

theorem Sites.bind {p : Parse α} {f : α → Parse β} (h : Sites P p) (hf : ∀ a, P a → Sites Q (f a)) :
    Sites Q (p >>= f) := by
  intro r hr
  obtain ⟨hafter, hvalue⟩ := h r hr
  rcases hp : p r with ⟨found, after⟩
  rw [hp] at hafter hvalue
  cases found with
  | none =>
      rw [bind_none hp]
      exact ⟨hafter, nofun⟩
  | some a =>
      rw [bind_some hp]
      exact hf a (hvalue a rfl) after hafter

theorem Sites.pure {a : α} (h : P a) : Sites P (Pure.pure a : Parse α) := by
  intro r hr
  refine ⟨hr, fun b hb => ?_⟩
  obtain rfl := Option.some.inj hb
  exact h

theorem Sites.ite {c : Prop} [Decidable c] {p q : Parse α}
    (h : c → Sites P p) (h' : ¬c → Sites P q) :
    Sites P (if c then p else q) := by
  split
  · exact h ‹_›
  · exact h' ‹_›

theorem Sites.attempt {p : Parse α} {bad : Parse β} {good : Option α → Parse β} (h : Sites P p)
    (hbad : Sites Q bad) (hgood : ∀ found, (∀ a, found = some a → P a) → Sites Q (good found)) :
    Sites Q (attempt p bad good) := by
  intro r hr
  obtain ⟨hafter, hvalue⟩ := h r hr
  by_cases hsize : r.diagnostics.size < (p r).2.diagnostics.size
  · rw [attempt_bad bad good hsize]
    exact hbad _ hafter
  · rw [attempt_good bad good hsize]
    exact hgood _ hvalue _ hafter

theorem sites_recover : Sites (fun _ => True) recover :=
  fun _ hr => ⟨hr.skipToBoundary, fun _ _ => trivial⟩

theorem sites_get : Sites Reader.Sited get := by
  intro r hr
  refine ⟨hr, fun r' heq => ?_⟩
  obtain rfl := Option.some.inj heq
  exact hr

theorem sites_current : Sites Token.Sited current := by
  intro r hr
  refine ⟨hr, fun t heq => ?_⟩
  obtain rfl := Option.some.inj heq
  exact hr.1

theorem sites_fail : Sites P (fail : Parse α) := fun _ hr => ⟨hr, nofun⟩

theorem sites_refuse (fault : SyntaxFault) (p : Position) : Sites P (refuse fault p : Parse α) :=
  fun _ hr => ⟨hr, nofun⟩

theorem sites_refuseAhead (label : String) : Sites P (refuseAhead label : Parse α) :=
  fun _ hr => ⟨hr, nofun⟩

theorem sites_refuseToken (t : Token) : Sites P (refuseToken t : Parse α) := by
  unfold refuseToken
  split <;> exact sites_refuse _ _

theorem sites_advance : Sites (fun _ => True) advance :=
  fun _ hr => ⟨hr.advance, fun _ _ => trivial⟩

theorem sites_expect (s : Sign) : Sites (fun _ => True) (expect s) := by
  intro r hr
  unfold expect
  split
  · exact sites_advance r hr
  · exact sites_refuseAhead _ r hr

theorem sites_expectName : Sites (fun _ => True) expectName := by
  intro r hr
  unfold expectName
  split
  · exact ⟨hr.advance, fun _ _ => trivial⟩
  · exact sites_refuseAhead _ r hr

theorem sites_endStatement : Sites (fun _ => True) endStatement := by
  intro r hr
  unfold endStatement
  split
  · exact sites_advance r hr
  · split
    · exact ⟨hr, fun _ _ => trivial⟩
    · split
      · exact sites_refuseToken _ r hr
      · exact sites_refuse _ _ r hr

end Parse

namespace Parser

open Parse

theorem sites_optionalHint : Sites (fun _ => True) optionalHint := by
  refine sites_get.bind fun r _ => .ite (fun _ => ?_) (fun _ => .pure trivial)
  exact sites_advance.bind fun _ _ => sites_expectName.bind fun _ _ => .pure trivial

theorem sites_moreParams (fuel : Nat) (done : List Param) :
    Sites (fun _ => True) (moreParams fuel done) := by
  induction fuel generalizing done with
  | zero => exact sites_fail
  | succ fuel ih =>
      have hrest : ∀ ident : Ident, Sites (fun _ => True) (optionalHint >>= fun hint =>
          get >>= fun r =>
            if r.ahead.isSign .comma then advance >>= fun _ => get >>= fun r =>
              if r.ahead.isSign .rightParen then advance >>= fun _ =>
                Pure.pure (done ++ [⟨ident, hint⟩])
              else moreParams fuel (done ++ [⟨ident, hint⟩])
            else expect .rightParen >>= fun _ => Pure.pure (done ++ [⟨ident, hint⟩])) := by
        intro ident
        refine sites_optionalHint.bind fun hint _ => sites_get.bind fun r _ =>
          .ite (fun _ => ?_) (fun _ => (sites_expect _).bind fun _ _ => .pure trivial)
        refine sites_advance.bind fun _ _ => sites_get.bind fun r _ =>
          .ite (fun _ => ?_) (fun _ => ih _)
        exact sites_advance.bind fun _ _ => .pure trivial
      rw [moreParams]
      refine sites_expectName.bind fun ident _ => .ite (fun _ => ?_) (fun _ => hrest ident)
      exact (sites_refuse (P := fun _ => True) _ _).bind fun _ _ => hrest ident

theorem sites_params (fuel : Nat) : Sites (fun _ => True) (params fuel) := by
  refine sites_get.bind fun r _ => .ite (fun _ => ?_) (fun _ => sites_moreParams fuel [])
  exact sites_advance.bind fun _ _ => .pure trivial

/-- Whether all readings with a number of calls leave only tokens that stand
somewhere, and yield only code that does throughout. -/
structure Siting (limit fuel : Nat) : Prop where
  expression : ∀ nesting precedence, Sites Expr.Grounded (expression limit fuel nesting precedence)
  operand : ∀ nesting, Sites Expr.Grounded (operand limit fuel nesting)
  continued : ∀ nesting precedence {left : Expr}, left.Grounded →
    Sites Expr.Grounded (continued limit fuel nesting precedence left)
  extended : ∀ nesting {left : Expr}, left.Grounded →
    Sites Expr.Grounded (extended limit fuel nesting left)
  expressions : ∀ nesting closing,
    Sites (fun es => ∀ e ∈ es, e.Grounded) (expressions limit fuel nesting closing)
  moreExpressions : ∀ nesting closing {done : List Expr}, (∀ e ∈ done, e.Grounded) →
    Sites (fun es => ∀ e ∈ es, e.Grounded) (moreExpressions limit fuel nesting closing done)
  block : ∀ nesting, Sites Block.Grounded (block limit fuel nesting)
  blockStatements : ∀ nesting opened {done : List Stmt}, (∀ s ∈ done, s.Grounded) →
    Sites (fun ss => ∀ s ∈ ss, s.Grounded) (blockStatements limit fuel nesting opened done)
  statement : ∀ nesting, Sites (fun found => ∀ s, found = some s → s.Grounded)
    (statement limit fuel nesting)
  expressionStatement : ∀ nesting, Sites Stmt.Grounded (expressionStatement limit fuel nesting)
  function : ∀ nesting, Sites Func.Grounded (function limit fuel nesting)
  classStatement : ∀ nesting, Sites Stmt.Grounded (classStatement limit fuel nesting)
  classMethods : ∀ nesting opened {done : List Func}, (∀ f ∈ done, f.Grounded) →
    Sites (fun fs => ∀ f ∈ fs, f.Grounded) (classMethods limit fuel nesting opened done)
  choice : ∀ nesting {start : Position} {done : List Branch}, start.isKnown = true →
    (∀ b ∈ done, b.Grounded) → Sites Stmt.Grounded (choice limit fuel nesting start done)

theorem siting_zero (limit : Nat) : Siting limit 0 where
  expression _ _ := sites_fail
  operand _ := sites_fail
  continued _ _ _ _ := sites_fail
  extended _ _ _ := sites_fail
  expressions _ _ := sites_fail
  moreExpressions _ _ _ _ := sites_fail
  block _ := sites_fail
  blockStatements _ _ _ _ := sites_fail
  statement _ := sites_fail
  expressionStatement _ := sites_fail
  function _ := sites_fail
  classStatement _ := sites_fail
  classMethods _ _ _ _ := sites_fail
  choice _ _ _ _ _ := sites_fail

variable {limit fuel : Nat}

theorem forall_mem_two {n m : SyntaxNode} (hn : n.Grounded) (hm : m.Grounded) :
    ∀ k ∈ [n, m], k.Grounded :=
  List.forall_mem_cons.mpr ⟨hn, List.forall_mem_singleton.mpr hm⟩

theorem siting_expression (h : Siting limit fuel) (nesting precedence : Nat) :
    Sites Expr.Grounded (expression limit (fuel + 1) nesting precedence) := by
  intro r hr
  by_cases hdeep : limit ≤ nesting
  · rw [expression_refused hdeep]
    have hskipped : (r.record .tooDeep r.current.position).skipToBoundary.Sited :=
      Reader.Sited.skipToBoundary hr
    exact ⟨hskipped, fun _ h => by cases h⟩
  · rw [expression_parts hdeep]
    exact ((h.operand _).bind fun left hleft => h.continued _ _ hleft) r hr

theorem siting_operand (h : Siting limit fuel) (nesting : Nat) :
    Sites Expr.Grounded (operand limit (fuel + 1) nesting) := by
  have hunary : ∀ {t : Token} (op : UnaryOp), t.Sited → Sites Expr.Grounded (advance >>= fun _ =>
      expression limit fuel nesting unaryPrecedence >>= fun e =>
        Pure.pure (.unary t.position op e)) := fun _ ht =>
    sites_advance.bind fun _ _ => (h.expression _ _).bind fun _ he =>
      .pure (.intro ht (List.forall_mem_singleton.mpr he))
  rw [operand]
  refine sites_current.bind fun t ht => ?_
  cases t.kind with
  | name capital => exact .pure (.intro ht (List.forall_mem_nil _))
  | int value => exact .pure (.intro ht (List.forall_mem_nil _))
  | float value => exact .pure (.intro ht (List.forall_mem_nil _))
  | str => exact .pure (.intro ht (List.forall_mem_nil _))
  | illegal reason => exact sites_refuseToken t
  | eof => exact sites_refuseToken t
  | keyword k =>
      cases k with
      | trueWord => exact .pure (.intro ht (List.forall_mem_nil _))
      | falseWord => exact .pure (.intro ht (List.forall_mem_nil _))
      | nullWord => exact .pure (.intro ht (List.forall_mem_nil _))
      | fnWord =>
          refine (sites_expect _).bind fun _ _ => (sites_params fuel).bind fun ps _ => ?_
          exact (sites_expect _).bind fun _ _ => (h.block _).bind fun _ hbody =>
            .pure (.intro ht (List.forall_mem_singleton.mpr hbody))
      | _ => exact sites_refuseToken t
  | sign s =>
      cases s with
      | leftBracket =>
          exact (h.expressions _ _).bind fun _ hitems =>
            .pure (.intro ht (forall_expr_grounded hitems))
      | leftParen =>
          refine sites_advance.bind fun _ _ => (h.expression _ _).bind fun e he => ?_
          exact (sites_expect _).bind fun _ _ => .pure he
      | bang => exact hunary _ ht
      | minus => exact hunary _ ht
      | plus => exact hunary _ ht
      | _ => exact sites_refuseToken t

theorem siting_continued (h : Siting limit fuel) (nesting precedence : Nat) {left : Expr}
    (hleft : left.Grounded) :
    Sites Expr.Grounded (continued limit (fuel + 1) nesting precedence left) := by
  rw [continued]
  refine sites_get.bind fun r _ => .ite (fun _ => ?_) (fun _ => .pure hleft)
  exact sites_advance.bind fun _ _ => (h.extended _ hleft).bind fun _ hlonger =>
    h.continued _ _ hlonger

theorem siting_extended (h : Siting limit fuel) (nesting : Nat) {left : Expr}
    (hleft : left.Grounded) : Sites Expr.Grounded (extended limit (fuel + 1) nesting left) := by
  have hcons : ∀ {es : List Expr}, (∀ e ∈ es, e.Grounded) →
      ∀ m ∈ SyntaxNode.expr left :: es.map SyntaxNode.expr, m.Grounded := fun hes =>
    List.forall_mem_cons.mpr ⟨hleft, forall_expr_grounded hes⟩
  rw [extended]
  refine sites_current.bind fun t ht => ?_
  split
  · exact (h.expressions _ _).bind fun _ hargs => .pure (.intro ht (hcons hargs))
  · refine sites_advance.bind fun _ _ => (h.expression _ _).bind fun _ hsubscript => ?_
    exact (sites_expect _).bind fun _ _ => .pure (.intro ht (forall_mem_two hleft hsubscript))
  · refine sites_expectName.bind fun _ _ => sites_get.bind fun r _ => .ite (fun _ => ?_)
      (fun _ => .pure (.intro ht (List.forall_mem_singleton.mpr hleft)))
    exact sites_advance.bind fun _ _ => (h.expressions _ _).bind fun _ hargs =>
      .pure (.intro ht (hcons hargs))
  · split
    · exact sites_advance.bind fun _ _ => (h.expression _ _).bind fun _ hright =>
        .pure (.intro ht (forall_mem_two hleft hright))
    · exact sites_refuseToken t
  · exact sites_refuseToken t

theorem siting_expressions (h : Siting limit fuel) (nesting : Nat) (closing : Sign) :
    Sites (fun es => ∀ e ∈ es, e.Grounded) (expressions limit (fuel + 1) nesting closing) := by
  rw [expressions]
  refine sites_get.bind fun r _ => .ite (fun _ => ?_) (fun _ => ?_)
  · exact sites_advance.bind fun _ _ => .pure (List.forall_mem_nil _)
  · exact sites_advance.bind fun _ _ => (h.expression _ _).bind fun _ he =>
      h.moreExpressions _ _ (List.forall_mem_singleton.mpr he)

theorem siting_moreExpressions (h : Siting limit fuel) (nesting : Nat) (closing : Sign)
    {done : List Expr} (hdone : ∀ e ∈ done, e.Grounded) :
    Sites (fun es => ∀ e ∈ es, e.Grounded)
      (moreExpressions limit (fuel + 1) nesting closing done) := by
  have hall : ∀ e ∈ done.reverse, e.Grounded := fun e he => hdone e (List.mem_reverse.mp he)
  rw [moreExpressions]
  refine sites_get.bind fun r _ => .ite (fun _ => ?_) (fun _ => ?_)
  · refine sites_advance.bind fun _ _ => sites_get.bind fun r _ =>
      .ite (fun _ => sites_advance.bind fun _ _ => .pure hall) (fun _ => ?_)
    exact sites_advance.bind fun _ _ => (h.expression _ _).bind fun _ he =>
      h.moreExpressions _ _ (List.forall_mem_cons.mpr ⟨he, hdone⟩)
  · exact (sites_expect _).bind fun _ _ => .pure hall

theorem siting_block (h : Siting limit fuel) (nesting : Nat) :
    Sites Block.Grounded (block limit (fuel + 1) nesting) := by
  rw [block, counted_eq]
  refine sites_current.bind fun opening hopening => sites_advance.bind fun _ _ => ?_
  exact (h.blockStatements _ _ (List.forall_mem_nil _)).bind fun _ hss =>
    .pure (SyntaxNode.Grounded.intro hopening (List.forall_mem_map.mpr hss))

theorem siting_blockStatements (h : Siting limit fuel) (nesting : Nat) (opened : Position)
    {done : List Stmt} (hdone : ∀ s ∈ done, s.Grounded) :
    Sites (fun ss => ∀ s ∈ ss, s.Grounded)
      (blockStatements limit (fuel + 1) nesting opened done) := by
  have hall : ∀ s ∈ done.reverse, s.Grounded := fun s hs => hdone s (List.mem_reverse.mp hs)
  rw [blockStatements]
  refine sites_current.bind fun t _ => .ite (fun _ => .pure hall) fun _ =>
    .ite (fun _ => sites_refuse _ _) fun _ => ?_
  refine (h.statement _).attempt ?_ ?_
  · refine sites_recover.bind fun _ _ => sites_get.bind fun r _ =>
      .ite (fun _ => .pure hall) fun _ => ?_
    exact sites_advance.bind fun _ _ => h.blockStatements _ _ hdone
  · intro found hfound
    refine sites_advance.bind fun _ _ => ?_
    rcases found with _ | _ | s
    · exact h.blockStatements _ _ hdone
    · exact h.blockStatements _ _ hdone
    · exact h.blockStatements _ _ (List.forall_mem_cons.mpr ⟨hfound _ rfl s rfl, hdone⟩)

theorem siting_statement (h : Siting limit fuel) (nesting : Nat) :
    Sites (fun found => ∀ s, found = some s → s.Grounded) (statement limit (fuel + 1) nesting) := by
  have hsome : ∀ {s : Stmt}, s.Grounded → ∀ s', some s = some s' → s'.Grounded := by
    rintro s hs s' ⟨⟩
    exact hs
  have hread : ∀ {p : Parse Stmt}, Sites Stmt.Grounded p →
      Sites (fun found => ∀ s, found = some s → s.Grounded) (p >>= fun s => Pure.pure (some s)) :=
    fun hp => hp.bind fun s hs => .pure (hsome hs)
  have hexpression := hread (h.expressionStatement nesting)
  rw [statement, counted_eq]
  refine sites_current.bind fun t ht => ?_
  cases t.kind with
  | sign s =>
      cases s with
      | semicolon => exact .pure fun _ h => by cases h
      | _ => exact hexpression
  | keyword k =>
      cases k with
      | fnWord =>
          refine sites_get.bind fun r _ => .ite (fun _ => ?_) (fun _ => hexpression)
          exact (h.function _).bind fun fn hfn =>
            .pure (hsome (.intro hfn.position (List.forall_mem_singleton.mpr hfn.body)))
      | classWord => exact hread (h.classStatement _)
      | ifWord => exact hread (h.choice _ ht (List.forall_mem_nil _))
      | whileWord =>
          refine sites_advance.bind fun _ _ => (h.expression _ _).bind fun _ hcondition => ?_
          exact (sites_expect _).bind fun _ _ => (h.block _).bind fun _ hbody =>
            .pure (hsome (.intro ht (forall_mem_two hcondition hbody)))
      | forWord =>
          refine sites_expectName.bind fun item _ => sites_get.bind fun r _ =>
            .ite (fun _ => ?_) fun _ => ?_
          · refine sites_advance.bind fun _ _ => sites_advance.bind fun _ _ => ?_
            refine (h.expression _ _).bind fun _ hsource => (sites_expect _).bind fun _ _ => ?_
            exact (h.block _).bind fun _ hbody =>
              .pure (hsome (.intro ht (forall_mem_two hsource hbody)))
          · exact sites_refuseAhead _
      | returnWord =>
          have hnone : Stmt.Grounded (.giveBack t.position none) :=
            .intro ht (List.forall_mem_nil _)
          refine sites_get.bind fun r _ => .ite (fun _ => ?_) fun _ =>
            .ite (fun _ => .pure (hsome hnone)) fun _ => ?_
          · exact sites_advance.bind fun _ _ => .pure (hsome hnone)
          · refine sites_advance.bind fun _ _ => (h.expression _ _).bind fun _ hvalue => ?_
            exact sites_endStatement.bind fun _ _ =>
              .pure (hsome (.intro ht (List.forall_mem_singleton.mpr hvalue)))
      | breakWord =>
          exact sites_endStatement.bind fun _ _ =>
            .pure (hsome (.intro ht (List.forall_mem_nil _)))
      | continueWord =>
          exact sites_endStatement.bind fun _ _ =>
            .pure (hsome (.intro ht (List.forall_mem_nil _)))
      | _ => exact hexpression
  | _ => exact hexpression

theorem sites_assignTo (start : Token) {equals : Position} {target value : Expr}
    (hequals : equals.isKnown = true) (htarget : target.Grounded) (hvalue : value.Grounded) :
    Sites Stmt.Grounded (assignTo start equals target value) := by
  cases target with
  | name ident => exact .pure (.intro hequals (List.forall_mem_singleton.mpr hvalue))
  | index bracket object subscript =>
      refine .pure (.intro hequals (List.forall_mem_cons.mpr ⟨?_, forall_mem_two ?_ hvalue⟩))
      · exact htarget.child List.mem_cons_self
      · exact htarget.child (List.mem_cons_of_mem _ List.mem_cons_self)
  | _ => exact sites_refuse _ _

theorem siting_expressionStatement (h : Siting limit fuel) (nesting : Nat) :
    Sites Stmt.Grounded (expressionStatement limit (fuel + 1) nesting) := by
  rw [expressionStatement]
  refine sites_current.bind fun start hstart => (h.expression _ _).bind fun found hfound => ?_
  refine sites_get.bind fun r _ => .ite (fun _ => ?_) (fun _ => ?_)
  · refine sites_advance.bind fun _ _ => sites_current.bind fun equals hequals =>
      .ite (fun _ => ?_) (fun _ => sites_refuse _ _)
    refine sites_advance.bind fun _ _ => (h.expression _ _).bind fun value hvalue => ?_
    exact sites_endStatement.bind fun _ _ => sites_assignTo start hequals hfound hvalue
  · exact sites_endStatement.bind fun _ _ =>
      .pure (.intro hstart (List.forall_mem_singleton.mpr hfound))

theorem siting_function (h : Siting limit fuel) (nesting : Nat) :
    Sites Func.Grounded (function limit (fuel + 1) nesting) := by
  rw [function]
  refine sites_current.bind fun keyword hkeyword => sites_expectName.bind fun ident _ => ?_
  refine (sites_expect _).bind fun _ _ => (sites_params fuel).bind fun ps _ => ?_
  refine sites_optionalHint.bind fun hint _ => (sites_expect _).bind fun _ _ => ?_
  exact (h.block _).bind fun _ hbody => .pure ⟨hkeyword, hbody⟩

theorem siting_classStatement (h : Siting limit fuel) (nesting : Nat) :
    Sites Stmt.Grounded (classStatement limit (fuel + 1) nesting) := by
  rw [classStatement]
  refine sites_current.bind fun keyword hkeyword => sites_expectName.bind fun ident _ => ?_
  refine Sites.bind (P := fun _ => True) ?_ fun fields _ => ?_
  · refine sites_get.bind fun r _ => .ite (fun _ => ?_) (fun _ => .pure trivial)
    exact sites_advance.bind fun _ _ => sites_params fuel
  refine sites_get.bind fun r _ => .ite (fun _ => ?_) (fun _ => ?_)
  · refine sites_advance.bind fun _ _ => sites_current.bind fun opening _ => ?_
    refine sites_advance.bind fun _ _ => ?_
    refine (h.classMethods _ _ (List.forall_mem_nil _)).bind fun methods hmethods => ?_
    exact .pure (.intro hkeyword (List.forall_mem_map.mpr fun f hf => (hmethods f hf).body))
  · exact sites_endStatement.bind fun _ _ => .pure (.intro hkeyword (List.forall_mem_nil _))

theorem siting_classMethods (h : Siting limit fuel) (nesting : Nat) (opened : Position)
    {done : List Func} (hdone : ∀ f ∈ done, f.Grounded) :
    Sites (fun fs => ∀ f ∈ fs, f.Grounded)
      (classMethods limit (fuel + 1) nesting opened done) := by
  rw [classMethods]
  refine sites_current.bind fun t _ => ?_
  cases t.kind with
  | sign s =>
      cases s with
      | rightBrace => exact .pure fun f hf => hdone f (List.mem_reverse.mp hf)
      | semicolon => exact sites_advance.bind fun _ _ => h.classMethods _ _ hdone
      | _ => exact sites_refuse _ _
  | keyword k =>
      cases k with
      | fnWord =>
          refine sites_get.bind fun r _ => .ite (fun _ => ?_) (fun _ => sites_refuseAhead _)
          exact (h.function _).bind fun _ hf => sites_advance.bind fun _ _ =>
            h.classMethods _ _ (List.forall_mem_cons.mpr ⟨hf, hdone⟩)
      | _ => exact sites_refuse _ _
  | _ => exact sites_refuse _ _

theorem siting_choice (h : Siting limit fuel) (nesting : Nat) {start : Position}
    {done : List Branch} (hstart : start.isKnown = true) (hdone : ∀ b ∈ done, b.Grounded) :
    Sites Stmt.Grounded (choice limit (fuel + 1) nesting start done) := by
  have hchosen : ∀ {branches : List Branch} (otherwise : Option Block),
      (∀ b ∈ branches, b.Grounded) → (∀ b ∈ otherwise, b.Grounded) →
      Stmt.Grounded (.choose start branches.reverse otherwise) := by
    intro branches otherwise hbranches hotherwise
    refine .intro hstart (List.forall_mem_append.mpr ⟨?_, ?_⟩)
    · exact List.forall_mem_flatMap.mpr fun b hb => hbranches b (List.mem_reverse.mp hb)
    · exact List.forall_mem_map.mpr fun b hb => hotherwise b (Option.mem_toList.mp hb)
  rw [choice]
  refine sites_current.bind fun keyword _ => sites_advance.bind fun _ _ => ?_
  refine (h.expression _ _).bind fun condition hcondition => (sites_expect _).bind fun _ _ => ?_
  refine (h.block _).bind fun body hbody => ?_
  have hbranches : ∀ b ∈ Branch.mk keyword.position condition body :: done, b.Grounded :=
    List.forall_mem_cons.mpr ⟨forall_mem_two hcondition hbody, hdone⟩
  refine sites_get.bind fun r _ => .ite (fun _ => ?_) fun _ => .ite (fun _ => ?_) fun _ => ?_
  · exact sites_advance.bind fun _ _ => h.choice _ hstart hbranches
  · refine sites_advance.bind fun _ _ => (sites_expect _).bind fun _ _ => ?_
    refine (h.block _).bind fun last hlast => .pure (hchosen _ hbranches ?_)
    rintro b ⟨⟩
    exact hlast
  · exact .pure (hchosen none hbranches (by simp))

theorem siting (limit : Nat) : ∀ fuel, Siting limit fuel
  | 0 => siting_zero limit
  | fuel + 1 =>
    have h := siting limit fuel
    { expression := siting_expression h
      operand := siting_operand h
      continued := siting_continued h
      extended := siting_extended h
      expressions := siting_expressions h
      moreExpressions := siting_moreExpressions h
      block := siting_block h
      blockStatements := siting_blockStatements h
      statement := siting_statement h
      expressionStatement := siting_expressionStatement h
      function := siting_function h
      classStatement := siting_classStatement h
      classMethods := siting_classMethods h
      choice := siting_choice h }

theorem sites_program (limit fuel : Nat) {done : List Stmt} (hdone : ∀ s ∈ done, s.Grounded) :
    Sites (fun statements => ∀ s ∈ statements, s.Grounded) (program limit fuel done) := by
  have hall : ∀ {done : List Stmt}, (∀ s ∈ done, s.Grounded) → ∀ s ∈ done.reverse, s.Grounded :=
    fun hdone s hs => hdone s (List.mem_reverse.mp hs)
  induction fuel generalizing done with
  | zero => exact .pure (hall hdone)
  | succ fuel ih =>
      rw [program_eq]
      refine sites_get.bind fun r _ => .ite (fun _ => .pure (hall hdone)) fun _ => ?_
      refine ((siting limit fuel).statement 0).attempt ?_ ?_
      · exact sites_recover.bind fun _ _ => sites_advance.bind fun _ _ => ih hdone
      · intro found hfound
        refine sites_advance.bind fun _ _ => ?_
        match found, hfound with
        | some (some s), hfound => exact ih (List.forall_mem_cons.mpr ⟨hfound _ rfl s rfl, hdone⟩)
        | some none, _ => exact ih hdone
        | none, _ => exact ih hdone

end Parser

namespace Lexer

theorem isKnown_after (p : Position) (c : Char) (h : p.isKnown = true) :
    (p.after c).isKnown = true := by
  unfold Position.after
  split
  · rfl
  · exact h

theorem isKnown_afterAll (p : Position) (cs : List Char) (h : p.isKnown = true) :
    (p.afterAll cs).isKnown = true := by
  induction cs generalizing p with
  | nil => exact h
  | cons c cs ih => exact ih (p.after c) (isKnown_after p c h)

theorem isKnown_skip (mode : Skipping) (p : Position) (cs : List Char) (h : p.isKnown = true) :
    (skip mode p cs).position.isKnown = true := by
  fun_induction skip mode p cs <;> simp_all [isKnown_after]

theorem isKnown_readString (done : List Char) (p : Position) (cs : List Char)
    (h : p.isKnown = true) : (readString done p cs).after.position.isKnown = true := by
  fun_induction readString done p cs <;> simp_all [isKnown_after]

def Cut (found : Token × Cursor) : Prop := found.1.Sited ∧ found.2.position.isKnown = true

theorem cut_word (kind : TokenKind) (word : List Char) {p : Position} (rest : List Char)
    (h : p.isKnown = true) : Cut (wordToken kind word p rest) :=
  ⟨h, isKnown_afterAll p word h⟩

theorem cut_number {p : Position} (cs : List Char) (h : p.isKnown = true) :
    Cut (numberToken p cs) := by
  unfold numberToken
  split
  · split <;> exact cut_word _ _ _ h
  · exact cut_word _ _ _ h

theorem cut_sign {p : Position} (c : Char) (cs : List Char) (h : p.isKnown = true) :
    Cut (signToken p c cs) := by
  unfold signToken
  split
  · split <;> exact cut_word _ _ _ h
  · split
    · exact cut_word _ _ _ h
    · split <;> exact cut_word _ _ _ h

theorem cut_tokenAt {cursor : Cursor} (h : cursor.position.isKnown = true) :
    Cut (tokenAt cursor) := by
  unfold tokenAt
  split
  · exact ⟨h, h⟩
  · split
    · exact ⟨h, h⟩
    · split
      · exact ⟨h, isKnown_readString _ _ _ (isKnown_after _ _ h)⟩
      · split
        · exact cut_word _ _ _ h
        · split
          · exact cut_number _ h
          · exact cut_sign _ _ h

theorem cut_next {cursor : Cursor} (h : cursor.position.isKnown = true) : Cut (next cursor) :=
  cut_tokenAt (isKnown_skip _ _ _ h)

/-- Every token of a source stands somewhere. -/
theorem sited_tokensFrom {cursor : Cursor} (h : cursor.position.isKnown = true) :
    ∀ t ∈ tokensFrom cursor, t.Sited := by
  fun_induction tokensFrom cursor with
  | case1 cursor t after heq hend =>
      have hcut := cut_next h
      rw [heq] at hcut
      exact List.forall_mem_singleton.mpr hcut.1
  | case2 cursor t after heq hend _ ih =>
      have hcut := cut_next h
      rw [heq] at hcut
      exact List.forall_mem_cons.mpr ⟨hcut.1, ih hcut.2⟩

theorem tokensFrom_ne_nil (cursor : Cursor) : tokensFrom cursor ≠ [] := by
  rw [tokensFrom]
  dsimp only
  split <;> exact List.cons_ne_nil _ _

end Lexer

theorem Reader.sited_ofTokens {tokens : List Token} (hne : tokens ≠ [])
    (h : ∀ t ∈ tokens, t.Sited) :
    (Reader.ofTokens tokens).Sited := by
  unfold Reader.ofTokens
  split
  · exact absurd rfl hne
  · have ht := List.forall_mem_singleton.mp h
    exact ⟨ht, ht, List.forall_mem_nil _⟩
  · obtain ⟨ht, hrest⟩ := List.forall_mem_cons.mp h
    exact ⟨ht, List.forall_mem_cons.mp hrest⟩

/-- Every node that is read of a source stands somewhere. -/
theorem Parser.parse_grounded (source : Text) : ∀ s ∈ (parse source).1, s.Grounded := by
  have htokens : (Reader.ofTokens (Lexer.tokens source)).Sited :=
    Reader.sited_ofTokens (Lexer.tokensFrom_ne_nil _) (Lexer.sited_tokensFrom rfl)
  have hread := sites_program maxNesting (callsFor (Lexer.tokens source).length)
    (List.forall_mem_nil Stmt.Grounded) _ htokens
  exact hread.2 _ rfl

/-- Every expression that is read as a statement of a source stands somewhere. -/
theorem Parser.parse_sited (source : Text) : ∀ s ∈ (parse source).1, s.Sited :=
  fun s hs => (parse_grounded source s hs).sited

end Scriptlet
