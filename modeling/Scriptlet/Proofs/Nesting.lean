/-
How deep expressions may nest.  Reading yields only legible trees.  Where it finds
no fault while expressions may nest deeply, it finds the same while they may not,
unless its first fault is that they nest too deeply.
-/
import Scriptlet.Proofs.Agreement

namespace Scriptlet

namespace Parser

open Parse

theorem agree_optionalHint : Agree HintLegible optionalHint optionalHint := by
  refine agree_get.bind fun r _ => .ite (fun _ => ?_) (fun _ => ?_)
  · refine agree_advance.bind fun _ _ => agree_expectName.bind fun i hi => .pure ?_
    rintro j ⟨⟩
    exact hi
  · exact .pure fun i h => nomatch h

theorem agree_moreParams (fuel : Nat) {done : List Param} (hdone : ParamsLegible done) :
    Agree ParamsLegible (moreParams fuel done) (moreParams fuel done) := by
  induction fuel generalizing done with
  | zero => exact agree_fail
  | succ fuel ih =>
      rw [moreParams]
      refine agree_expectName.bind fun ident hident => .ite (fun _ => ?_) (fun hfresh => ?_)
      · exact (agree_refuse (P := fun _ => False) _ _).bind fun _ h => h.elim
      refine agree_optionalHint.bind fun hint hhint => ?_
      have hparams : ParamsLegible (done ++ [⟨ident, hint⟩]) := by
        constructor
        · intro p hp
          rcases List.mem_append.mp hp with hp | hp
          · exact hdone.1 p hp
          · rw [List.mem_singleton.mp hp]
            exact ⟨hident, hhint⟩
        · rw [List.map_append, List.map_singleton]
          refine List.nodup_append.mpr ⟨hdone.2, List.nodup_cons.mpr ⟨List.not_mem_nil, .nil⟩, ?_⟩
          intro n hn m hm heq
          obtain ⟨p, hp, rfl⟩ := List.mem_map.mp hn
          rw [List.mem_singleton.mp hm] at heq
          exact hfresh (List.any_eq_true.mpr ⟨p, hp, beq_iff_eq.mpr heq⟩)
      refine agree_get.bind fun r _ => .ite (fun _ => ?_) (fun _ => ?_)
      · refine agree_advance.bind fun _ _ => agree_get.bind fun r _ =>
          .ite (fun _ => ?_) (fun _ => ih hparams)
        exact agree_advance.bind fun _ _ => .pure hparams
      · exact (agree_expect _).bind fun _ _ => .pure hparams

theorem agree_params (fuel : Nat) : Agree ParamsLegible (params fuel) (params fuel) := by
  have hnone : ParamsLegible [] := ⟨fun p hp => absurd hp List.not_mem_nil, List.nodup_nil⟩
  rw [params]
  refine agree_get.bind fun r _ => .ite (fun _ => ?_) (fun _ => agree_moreParams fuel hnone)
  exact agree_advance.bind fun _ _ => .pure hnone

/-- Whether all readings with a number of calls agree, where expressions may nest
`few` deep in the first and `many` deep in the second. -/
structure Agreed (few many fuel : Nat) : Prop where
  expression : ∀ {nesting : Nat} (precedence : Nat), nesting + fuel ≤ many →
    Agree Expr.Legible (expression few fuel nesting precedence)
      (expression many fuel nesting precedence)
  operand : ∀ {nesting : Nat}, nesting + fuel ≤ many →
    Agree Expr.Legible (operand few fuel nesting) (operand many fuel nesting)
  continued : ∀ {nesting : Nat} (precedence : Nat) {left : Expr}, left.Legible →
    nesting + fuel ≤ many →
    Agree Expr.Legible (continued few fuel nesting precedence left)
      (continued many fuel nesting precedence left)
  extended : ∀ {nesting : Nat} {left : Expr}, left.Legible → nesting + fuel ≤ many →
    Agree Expr.Legible (extended few fuel nesting left) (extended many fuel nesting left)
  expressions : ∀ {nesting : Nat} (closing : Sign), nesting + fuel ≤ many →
    Agree ExprsLegible (expressions few fuel nesting closing)
      (expressions many fuel nesting closing)
  moreExpressions : ∀ {nesting : Nat} (closing : Sign) {done : List Expr},
    (∀ e ∈ done, e.Legible) → nesting + fuel ≤ many →
    Agree ExprsLegible (moreExpressions few fuel nesting closing done)
      (moreExpressions many fuel nesting closing done)
  block : ∀ {nesting : Nat}, nesting + fuel ≤ many →
    Agree Block.Legible (block few fuel nesting) (block many fuel nesting)
  blockStatements : ∀ {nesting : Nat} (opened : Position) {done : List Stmt},
    (∀ s ∈ done, s.Legible) → nesting + fuel ≤ many →
    Agree StmtsLegible (blockStatements few fuel nesting opened done)
      (blockStatements many fuel nesting opened done)
  statement : ∀ {nesting : Nat}, nesting + fuel ≤ many →
    Agree (fun found => ∀ s, found = some s → s.Legible) (statement few fuel nesting)
      (statement many fuel nesting)
  expressionStatement : ∀ {nesting : Nat}, nesting + fuel ≤ many →
    Agree Stmt.Legible (expressionStatement few fuel nesting)
      (expressionStatement many fuel nesting)
  function : ∀ {nesting : Nat}, nesting + fuel ≤ many →
    Agree Func.Legible (function few fuel nesting) (function many fuel nesting)
  classStatement : ∀ {nesting : Nat}, nesting + fuel ≤ many →
    Agree Stmt.Legible (classStatement few fuel nesting) (classStatement many fuel nesting)
  classMethods : ∀ {nesting : Nat} (opened : Position) {done : List Func},
    (∀ fn ∈ done, fn.Legible) → nesting + fuel ≤ many →
    Agree FuncsLegible (classMethods few fuel nesting opened done)
      (classMethods many fuel nesting opened done)
  choice : ∀ {nesting : Nat} (start : Position) {done : List Branch},
    (∀ b ∈ done, b.Legible) → nesting + fuel ≤ many →
    Agree Stmt.Legible (choice few fuel nesting start done) (choice many fuel nesting start done)

theorem agreed_zero (few many : Nat) : Agreed few many 0 where
  expression _ _ := agree_fail
  operand _ := agree_fail
  continued _ _ _ _ := agree_fail
  extended _ _ := agree_fail
  expressions _ _ := agree_fail
  moreExpressions _ _ _ _ := agree_fail
  block _ := agree_fail
  blockStatements _ _ _ _ := agree_fail
  statement _ := agree_fail
  expressionStatement _ := agree_fail
  function _ := agree_fail
  classStatement _ := agree_fail
  classMethods _ _ _ _ := agree_fail
  choice _ _ _ _ := agree_fail

variable {few many fuel : Nat}

theorem agreed_operand (h : Agreed few many fuel) {nesting : Nat}
    (hroom : nesting + (fuel + 1) ≤ many) :
    Agree Expr.Legible (operand few (fuel + 1) nesting) (operand many (fuel + 1) nesting) := by
  have hfuel : nesting + fuel ≤ many := by omega
  rw [operand, operand]
  refine agree_current.bind fun t ht => ?_
  unfold Token.Legible at ht
  cases hkind : t.kind with
  | name capital =>
      rw [hkind] at ht
      exact .pure ht
  | int value =>
      rw [hkind] at ht
      exact .pure ht
  | float value =>
      rw [hkind] at ht
      exact .pure ht
  | str => exact .pure trivial
  | illegal reason => exact agree_refuseToken t
  | eof => exact agree_refuseToken t
  | keyword k =>
      cases k with
      | trueWord => exact .pure trivial
      | falseWord => exact .pure trivial
      | nullWord => exact .pure trivial
      | fnWord =>
          refine (agree_expect _).bind fun _ _ => (agree_params fuel).bind fun ps hps => ?_
          refine (agree_expect _).bind fun _ _ => (h.block hfuel).bind fun body hbody => ?_
          exact .pure ⟨hps, hbody⟩
      | _ => exact agree_refuseToken t
  | sign s =>
      cases s with
      | leftBracket => exact (h.expressions _ hfuel).bind fun items hitems => .pure hitems
      | leftParen =>
          refine agree_advance.bind fun _ _ => (h.expression _ hfuel).bind fun e he => ?_
          exact (agree_expect _).bind fun _ _ => .pure he
      | bang => exact agree_advance.bind fun _ _ => (h.expression _ hfuel).bind fun e he => .pure he
      | minus =>
          exact agree_advance.bind fun _ _ => (h.expression _ hfuel).bind fun e he => .pure he
      | plus => exact agree_advance.bind fun _ _ => (h.expression _ hfuel).bind fun e he => .pure he
      | _ => exact agree_refuseToken t

theorem agreed_expression (h : Agreed few many fuel) {nesting : Nat} (precedence : Nat)
    (hroom : nesting + (fuel + 1) ≤ many) :
    Agree Expr.Legible (expression few (fuel + 1) nesting precedence)
      (expression many (fuel + 1) nesting precedence) := by
  have hfuel : nesting + 1 + fuel ≤ many := by omega
  intro r hr
  have hmany := congrFun (expression_parts (show ¬many ≤ nesting by omega) fuel precedence) r
  have hparts := (h.operand hfuel).bind fun left hleft => h.continued precedence hleft hfuel
  obtain ⟨hkeeps, hkeeps', hsame⟩ := hparts r hr
  by_cases hdeep : few ≤ nesting
  · have hfew : expression few (fuel + 1) nesting precedence r =
        (none, (r.record .tooDeep r.current.position).skipToBoundary) :=
      congrFun (expression_refused hdeep fuel precedence) r
    have hdiagnostics : (expression few (fuel + 1) nesting precedence r).2.diagnostics.toList =
        r.diagnostics.toList ++ [SyntaxFault.tooDeep.diagnose r.current.position] := by
      rw [hfew, Reader.diagnostics_skipToBoundary]
      exact Array.toList_push
    refine ⟨⟨?_, ⟨_, hdiagnostics⟩, ?_⟩, hkeeps'.congr hmany, fun _ => Or.inr ?_⟩
    · rw [hfew]
      exact (hr.record _ _).skipToBoundary
    · intro e he
      rw [hfew] at he
      exact nomatch he
    · exact ⟨_, [], hdiagnostics, rfl⟩
  · have hfew := congrFun (expression_parts hdeep fuel precedence) r
    refine ⟨hkeeps.congr hfew, hkeeps'.congr hmany, ?_⟩
    rw [hmany, hfew]
    exact hsame

theorem agreed_continued (h : Agreed few many fuel) {nesting : Nat} (precedence : Nat)
    {left : Expr} (hleft : left.Legible) (hroom : nesting + (fuel + 1) ≤ many) :
    Agree Expr.Legible (continued few (fuel + 1) nesting precedence left)
      (continued many (fuel + 1) nesting precedence left) := by
  have hfuel : nesting + fuel ≤ many := by omega
  rw [continued, continued]
  refine agree_get.bind fun r _ => .ite (fun _ => ?_) (fun _ => .pure hleft)
  refine agree_advance.bind fun _ _ => (h.extended hleft hfuel).bind fun longer hlonger => ?_
  exact h.continued precedence hlonger hfuel

theorem agreed_extended (h : Agreed few many fuel) {nesting : Nat} {left : Expr}
    (hleft : left.Legible) (hroom : nesting + (fuel + 1) ≤ many) :
    Agree Expr.Legible (extended few (fuel + 1) nesting left)
      (extended many (fuel + 1) nesting left) := by
  have hfuel : nesting + fuel ≤ many := by omega
  rw [extended, extended]
  refine agree_current.bind fun t _ => ?_
  cases hkind : t.kind with
  | sign s =>
      have hbinary : ∀ op, Agree Expr.Legible
          (advance >>= fun _ => expression few fuel nesting op.precedence >>= fun right =>
            Pure.pure (.binary t.position op left right))
          (advance >>= fun _ => expression many fuel nesting op.precedence >>= fun right =>
            Pure.pure (.binary t.position op left right)) := fun op =>
        agree_advance.bind fun _ _ => (h.expression _ hfuel).bind fun right hright =>
          .pure ⟨hleft, hright⟩
      cases s with
      | leftParen =>
          exact (h.expressions _ hfuel).bind fun args hargs => .pure ⟨hleft, hargs⟩
      | leftBracket =>
          refine agree_advance.bind fun _ _ => (h.expression _ hfuel).bind fun e he => ?_
          exact (agree_expect _).bind fun _ _ => .pure ⟨hleft, he⟩
      | dot =>
          refine agree_expectName.bind fun field hfield => agree_get.bind fun r _ =>
            .ite (fun _ => ?_) (fun _ => .pure ⟨hleft, hfield⟩)
          exact agree_advance.bind fun _ _ => (h.expressions _ hfuel).bind fun args hargs =>
            .pure ⟨hleft, hfield, hargs⟩
      | _ => first | exact hbinary _ | exact agree_refuseToken t
  | _ => exact agree_refuseToken t

theorem agreed_expressions (h : Agreed few many fuel) {nesting : Nat} (closing : Sign)
    (hroom : nesting + (fuel + 1) ≤ many) :
    Agree ExprsLegible (expressions few (fuel + 1) nesting closing)
      (expressions many (fuel + 1) nesting closing) := by
  have hfuel : nesting + fuel ≤ many := by omega
  rw [expressions, expressions]
  refine agree_get.bind fun r _ => .ite (fun _ => ?_) (fun _ => ?_)
  · exact agree_advance.bind fun _ _ => .pure trivial
  · refine agree_advance.bind fun _ _ => (h.expression _ hfuel).bind fun first hfirst => ?_
    refine h.moreExpressions closing ?_ hfuel
    intro e he
    rw [List.mem_singleton.mp he]
    exact hfirst

theorem agreed_moreExpressions (h : Agreed few many fuel) {nesting : Nat} (closing : Sign)
    {done : List Expr} (hdone : ∀ e ∈ done, e.Legible) (hroom : nesting + (fuel + 1) ≤ many) :
    Agree ExprsLegible (moreExpressions few (fuel + 1) nesting closing done)
      (moreExpressions many (fuel + 1) nesting closing done) := by
  have hfuel : nesting + fuel ≤ many := by omega
  have hall : ExprsLegible done.reverse := by
    rw [exprsLegible_iff]
    intro e he
    exact hdone e (List.mem_reverse.mp he)
  rw [moreExpressions, moreExpressions]
  refine agree_get.bind fun r _ => .ite (fun _ => ?_) (fun _ => ?_)
  · refine agree_advance.bind fun _ _ => agree_get.bind fun r _ =>
      .ite (fun _ => ?_) (fun _ => ?_)
    · exact agree_advance.bind fun _ _ => .pure hall
    · refine agree_advance.bind fun _ _ => (h.expression _ hfuel).bind fun item hitem => ?_
      refine h.moreExpressions closing ?_ hfuel
      intro e he
      rcases List.mem_cons.mp he with rfl | he
      · exact hitem
      · exact hdone e he
  · exact (agree_expect _).bind fun _ _ => .pure hall

theorem agreed_block (h : Agreed few many fuel) {nesting : Nat}
    (hroom : nesting + (fuel + 1) ≤ many) :
    Agree Block.Legible (block few (fuel + 1) nesting) (block many (fuel + 1) nesting) := by
  rw [block, block, counted_eq, counted_eq]
  refine agree_current.bind fun opening _ => agree_advance.bind fun _ _ => ?_
  exact (h.blockStatements opening.position (fun s hs => absurd hs List.not_mem_nil)
    (by omega)).bind fun statements hstatements => .pure hstatements

theorem agreed_blockStatements (h : Agreed few many fuel) {nesting : Nat} (opened : Position)
    {done : List Stmt} (hdone : ∀ s ∈ done, s.Legible) (hroom : nesting + (fuel + 1) ≤ many) :
    Agree StmtsLegible (blockStatements few (fuel + 1) nesting opened done)
      (blockStatements many (fuel + 1) nesting opened done) := by
  have hfuel : nesting + fuel ≤ many := by omega
  have hall : StmtsLegible done.reverse := by
    rw [stmtsLegible_iff]
    intro s hs
    exact hdone s (List.mem_reverse.mp hs)
  rw [blockStatements, blockStatements]
  refine agree_current.bind fun t _ => .ite (fun _ => .pure hall) fun _ =>
    .ite (fun _ => agree_refuse _ _) fun _ => ?_
  refine (h.statement hfuel).attempt ?_ ?_
  · refine agree_recover.bind fun _ _ => agree_get.bind fun r _ =>
      .ite (fun _ => .pure hall) fun _ => ?_
    exact agree_advance.bind fun _ _ => h.blockStatements opened hdone hfuel
  · intro found hfound
    refine agree_advance.bind fun _ _ => ?_
    match found, hfound with
    | some (some s), hfound =>
        refine h.blockStatements opened ?_ hfuel
        intro r hr
        rcases List.mem_cons.mp hr with rfl | hr
        · exact hfound _ rfl _ rfl
        · exact hdone r hr
    | some none, _ => exact h.blockStatements opened hdone hfuel
    | none, _ => exact h.blockStatements opened hdone hfuel

theorem agreed_statement (h : Agreed few many fuel) {nesting : Nat}
    (hroom : nesting + (fuel + 1) ≤ many) :
    Agree (fun found => ∀ s, found = some s → s.Legible) (statement few (fuel + 1) nesting)
      (statement many (fuel + 1) nesting) := by
  have hfuel : nesting + fuel ≤ many := by omega
  have hsome : ∀ {p q : Parse Stmt}, Agree Stmt.Legible p q →
      Agree (fun found => ∀ s, found = some s → s.Legible) (p >>= fun s => Pure.pure (some s))
        (q >>= fun s => Pure.pure (some s)) := by
    intro p q hpq
    refine hpq.bind fun s hs => .pure ?_
    rintro r ⟨⟩
    exact hs
  have hlegible : ∀ {s : Stmt}, s.Legible → ∀ r, some s = some r → r.Legible := by
    rintro s hs r ⟨⟩
    exact hs
  have hexpression := hsome (h.expressionStatement hfuel)
  rw [statement, statement, counted_eq, counted_eq]
  refine agree_current.bind fun t _ => ?_
  cases hkind : t.kind with
  | sign s =>
      cases s with
      | semicolon => exact .pure fun s hs => nomatch hs
      | _ => exact hexpression
  | keyword k =>
      cases k with
      | fnWord =>
          refine agree_get.bind fun r _ => .ite (fun _ => ?_) (fun _ => hexpression)
          exact (h.function hfuel).bind fun fn hfn => .pure (hlegible hfn)
      | classWord => exact hsome (h.classStatement hfuel)
      | ifWord => exact hsome (h.choice _ (fun b hb => absurd hb List.not_mem_nil) hfuel)
      | whileWord =>
          refine agree_advance.bind fun _ _ => (h.expression _ hfuel).bind fun e he => ?_
          refine (agree_expect _).bind fun _ _ => (h.block hfuel).bind fun body hbody => ?_
          exact .pure (hlegible ⟨he, hbody⟩)
      | forWord =>
          refine agree_expectName.bind fun item hitem => agree_get.bind fun r _ =>
            .ite (fun _ => ?_) fun _ => ?_
          · refine agree_advance.bind fun _ _ => agree_advance.bind fun _ _ => ?_
            refine (h.expression _ hfuel).bind fun e he => (agree_expect _).bind fun _ _ => ?_
            exact (h.block hfuel).bind fun body hbody => .pure (hlegible ⟨hitem, he, hbody⟩)
          · exact agree_refuseAhead _
      | returnWord =>
          refine agree_get.bind fun r _ =>
            .ite (fun _ => ?_) (fun _ => .ite (fun _ => .pure (hlegible trivial)) fun _ => ?_)
          · exact agree_advance.bind fun _ _ => .pure (hlegible trivial)
          · refine agree_advance.bind fun _ _ => (h.expression _ hfuel).bind fun e he => ?_
            exact agree_endStatement.bind fun _ _ => .pure (hlegible he)
      | breakWord => exact agree_endStatement.bind fun _ _ => .pure (hlegible trivial)
      | continueWord => exact agree_endStatement.bind fun _ _ => .pure (hlegible trivial)
      | _ => exact hexpression
  | _ => exact hexpression

theorem agree_assignTo (start : Token) (equals : Position) {target value : Expr}
    (htarget : target.Legible) (hvalue : value.Legible) :
    Agree Stmt.Legible (assignTo start equals target value)
      (assignTo start equals target value) := by
  cases target with
  | name ident => exact .pure ⟨htarget, hvalue⟩
  | index bracket object subscript => exact .pure ⟨htarget.1, htarget.2, hvalue⟩
  | _ => exact agree_refuse _ _

theorem agreed_expressionStatement (h : Agreed few many fuel) {nesting : Nat}
    (hroom : nesting + (fuel + 1) ≤ many) :
    Agree Stmt.Legible (expressionStatement few (fuel + 1) nesting)
      (expressionStatement many (fuel + 1) nesting) := by
  have hfuel : nesting + fuel ≤ many := by omega
  rw [expressionStatement, expressionStatement]
  refine agree_current.bind fun start _ => (h.expression _ hfuel).bind fun found hfound => ?_
  refine agree_get.bind fun r _ => .ite (fun _ => ?_) (fun _ => ?_)
  · refine agree_advance.bind fun _ _ => agree_current.bind fun equals _ =>
      .ite (fun _ => ?_) (fun _ => agree_refuse _ _)
    refine agree_advance.bind fun _ _ => (h.expression _ hfuel).bind fun value hvalue => ?_
    exact agree_endStatement.bind fun _ _ => agree_assignTo start equals.position hfound hvalue
  · exact agree_endStatement.bind fun _ _ => .pure hfound

theorem agreed_function (h : Agreed few many fuel) {nesting : Nat}
    (hroom : nesting + (fuel + 1) ≤ many) :
    Agree Func.Legible (function few (fuel + 1) nesting) (function many (fuel + 1) nesting) := by
  have hfuel : nesting + fuel ≤ many := by omega
  rw [function, function]
  refine agree_current.bind fun keyword _ => agree_expectName.bind fun ident hident => ?_
  refine (agree_expect _).bind fun _ _ => (agree_params fuel).bind fun ps hps => ?_
  refine agree_optionalHint.bind fun hint hhint => (agree_expect _).bind fun _ _ => ?_
  exact (h.block hfuel).bind fun body hbody => .pure ⟨hident, hps, hhint, hbody⟩

theorem agreed_classStatement (h : Agreed few many fuel) {nesting : Nat}
    (hroom : nesting + (fuel + 1) ≤ many) :
    Agree Stmt.Legible (classStatement few (fuel + 1) nesting)
      (classStatement many (fuel + 1) nesting) := by
  have hfuel : nesting + fuel ≤ many := by omega
  have hnone : ParamsLegible [] := ⟨fun p hp => absurd hp List.not_mem_nil, List.nodup_nil⟩
  rw [classStatement, classStatement]
  refine agree_current.bind fun keyword _ => agree_expectName.bind fun ident hident => ?_
  refine Agree.bind (P := ParamsLegible) ?_ fun fields hfields => ?_
  · refine agree_get.bind fun r _ => .ite (fun _ => ?_) (fun _ => .pure hnone)
    exact agree_advance.bind fun _ _ => agree_params fuel
  refine agree_get.bind fun r _ => .ite (fun _ => ?_) (fun _ => ?_)
  · refine agree_advance.bind fun _ _ => agree_current.bind fun opening _ => ?_
    refine agree_advance.bind fun _ _ => ?_
    exact (h.classMethods opening.position (fun fn hfn => absurd hfn List.not_mem_nil)
      hfuel).bind fun methods hmethods => .pure ⟨hident, hfields, hmethods⟩
  · exact agree_endStatement.bind fun _ _ => .pure ⟨hident, hfields, trivial⟩

theorem agreed_classMethods (h : Agreed few many fuel) {nesting : Nat} (opened : Position)
    {done : List Func} (hdone : ∀ fn ∈ done, fn.Legible) (hroom : nesting + (fuel + 1) ≤ many) :
    Agree FuncsLegible (classMethods few (fuel + 1) nesting opened done)
      (classMethods many (fuel + 1) nesting opened done) := by
  have hfuel : nesting + fuel ≤ many := by omega
  have hall : FuncsLegible done.reverse := by
    rw [funcsLegible_iff]
    intro fn hfn
    exact hdone fn (List.mem_reverse.mp hfn)
  rw [classMethods, classMethods]
  refine agree_current.bind fun t _ => ?_
  cases hkind : t.kind with
  | sign s =>
      cases s with
      | rightBrace => exact .pure hall
      | semicolon => exact agree_advance.bind fun _ _ => h.classMethods opened hdone hfuel
      | _ => exact agree_refuse _ _
  | keyword k =>
      cases k with
      | fnWord =>
          refine agree_get.bind fun r _ => .ite (fun _ => ?_) (fun _ => agree_refuseAhead _)
          refine (h.function hfuel).bind fun fn hfn => agree_advance.bind fun _ _ => ?_
          refine h.classMethods opened ?_ hfuel
          intro r hr
          rcases List.mem_cons.mp hr with rfl | hr
          · exact hfn
          · exact hdone r hr
      | _ => exact agree_refuse _ _
  | _ => exact agree_refuse _ _

theorem agreed_choice (h : Agreed few many fuel) {nesting : Nat} (start : Position)
    {done : List Branch} (hdone : ∀ b ∈ done, b.Legible) (hroom : nesting + (fuel + 1) ≤ many) :
    Agree Stmt.Legible (choice few (fuel + 1) nesting start done)
      (choice many (fuel + 1) nesting start done) := by
  have hfuel : nesting + fuel ≤ many := by omega
  rw [choice, choice]
  refine agree_current.bind fun keyword _ => agree_advance.bind fun _ _ => ?_
  refine (h.expression _ hfuel).bind fun condition hcondition => (agree_expect _).bind fun _ _ => ?_
  refine (h.block hfuel).bind fun body hbody => ?_
  have hbranches : ∀ b ∈ Branch.mk keyword.position condition body :: done, b.Legible := by
    intro b hb
    rcases List.mem_cons.mp hb with rfl | hb
    · exact ⟨hcondition, hbody⟩
    · exact hdone b hb
  have hall : BranchesLegible (Branch.mk keyword.position condition body :: done).reverse := by
    rw [branchesLegible_iff]
    intro b hb
    exact hbranches b (List.mem_reverse.mp hb)
  have hne : (Branch.mk keyword.position condition body :: done).reverse ≠ [] := by simp
  refine agree_get.bind fun r _ => .ite (fun _ => ?_) fun _ => .ite (fun _ => ?_) fun _ => ?_
  · exact agree_advance.bind fun _ _ => h.choice start hbranches hfuel
  · refine agree_advance.bind fun _ _ => (agree_expect _).bind fun _ _ => ?_
    exact (h.block hfuel).bind fun otherwise hotherwise => .pure ⟨hne, hall, hotherwise⟩
  · exact .pure ⟨hne, hall, trivial⟩

/-- Where expressions may nest as deeply as there are calls, all readings agree
with those where they may nest less deeply. -/
theorem agreed (few many : Nat) : ∀ fuel, Agreed few many fuel
  | 0 => agreed_zero few many
  | fuel + 1 =>
    have h := agreed few many fuel
    { expression := agreed_expression h
      operand := agreed_operand h
      continued := agreed_continued h
      extended := agreed_extended h
      expressions := agreed_expressions h
      moreExpressions := agreed_moreExpressions h
      block := agreed_block h
      blockStatements := agreed_blockStatements h
      statement := agreed_statement h
      expressionStatement := agreed_expressionStatement h
      function := agreed_function h
      classStatement := agreed_classStatement h
      classMethods := agreed_classMethods h
      choice := agreed_choice h }

def program (limit fuel : Nat) (done : List Stmt) : Parse (List Stmt) := fun r =>
  (some (programStatements limit fuel done r).1, (programStatements limit fuel done r).2)

theorem program_eq (limit fuel : Nat) (done : List Stmt) :
    program limit (fuel + 1) done =
      (get >>= fun r =>
        if r.current.isEof then Pure.pure done.reverse
        else attempt (statement limit fuel 0)
          (recover >>= fun _ => advance >>= fun _ => program limit fuel done)
          (fun found => advance >>= fun _ =>
            match found with
            | some (some s) => program limit fuel (s :: done)
            | _ => program limit fuel done)) := by
  funext r
  rw [get_bind, program, programStatements]
  by_cases heof : r.current.isEof = true
  · rw [if_pos heof, if_pos heof]
    rfl
  rw [if_neg heof, if_neg heof]
  unfold attempt
  rcases statement limit fuel 0 r with ⟨found, after⟩
  by_cases hsize : r.diagnostics.size < after.diagnostics.size
  · simp only [hsize, if_true]
    rfl
  · simp only [hsize, if_false]
    rcases found with _ | _ | s
    · rfl
    · rfl
    · rfl

theorem agree_program (few many : Nat) (fuel : Nat) {done : List Stmt}
    (hdone : ∀ s ∈ done, s.Legible) (hroom : fuel ≤ many) :
    Agree StmtsLegible (program few fuel done) (program many fuel done) := by
  have hall : ∀ {done : List Stmt}, (∀ s ∈ done, s.Legible) → StmtsLegible done.reverse := by
    intro done hdone
    rw [stmtsLegible_iff]
    intro s hs
    exact hdone s (List.mem_reverse.mp hs)
  induction fuel generalizing done with
  | zero => exact .pure (hall hdone)
  | succ fuel ih =>
      have hfuel : fuel ≤ many := by omega
      rw [program_eq, program_eq]
      refine agree_get.bind fun r _ => .ite (fun _ => .pure (hall hdone)) fun _ => ?_
      refine ((agreed few many fuel).statement (by omega)).attempt ?_ ?_
      · exact agree_recover.bind fun _ _ => agree_advance.bind fun _ _ => ih hdone hfuel
      · intro found hfound
        refine agree_advance.bind fun _ _ => ?_
        match found, hfound with
        | some (some s), hfound =>
            refine ih ?_ hfuel
            intro r hr
            rcases List.mem_cons.mp hr with rfl | hr
            · exact hfound _ rfl _ rfl
            · exact hdone r hr
        | some none, _ => exact ih hdone hfuel
        | none, _ => exact ih hdone hfuel

theorem legible_ofTokens {tokens : List Token} (h : ∀ t ∈ tokens, t.Legible) :
    (Reader.ofTokens tokens).Legible := by
  unfold Reader.ofTokens
  split
  · exact ⟨trivial, trivial, fun t ht => absurd ht List.not_mem_nil⟩
  · rename_i t
    have ht := h t List.mem_cons_self
    exact ⟨ht, ht, fun t ht => absurd ht List.not_mem_nil⟩
  · rename_i t u rest
    have hrest : ∀ v ∈ u :: rest, v.Legible := fun v hv => h v (List.mem_cons_of_mem t hv)
    exact ⟨h t List.mem_cons_self, hrest u List.mem_cons_self,
      fun v hv => hrest v (List.mem_cons_of_mem u hv)⟩

/-- Reading yields only legible trees. -/
theorem statementsWithin_legible (limit : Nat) {tokens : List Token}
    (h : ∀ t ∈ tokens, t.Legible) : StmtsLegible (statementsWithin limit tokens).1 := by
  obtain ⟨hkeeps, -⟩ := agree_program limit _ (callsFor tokens.length)
    (fun s hs => absurd hs List.not_mem_nil) (Nat.le_refl _) _ (legible_ofTokens h)
  exact hkeeps.value _ rfl

/-- Where nothing is wrong while expressions may nest deeply, the same is read
while they may not, or the first fault is that they nest too deeply. -/
theorem statementsWithin_agree (few : Nat) {many : Nat} {tokens : List Token}
    (h : ∀ t ∈ tokens, t.Legible) (hmany : callsFor tokens.length ≤ many)
    (hquiet : (statementsWithin many tokens).2 = []) :
    statementsWithin few tokens = statementsWithin many tokens ∨
      ∃ d ds, (statementsWithin few tokens).2 = d :: ds ∧ d.code = "P005" := by
  obtain ⟨-, -, hagree⟩ := agree_program few many (callsFor tokens.length)
    (fun s hs => absurd hs List.not_mem_nil) hmany _ (legible_ofTokens h)
  have hstart : (Reader.ofTokens tokens).diagnostics = #[] := by
    unfold Reader.ofTokens
    split <;> rfl
  have hsame : (program many (callsFor tokens.length) [] (Reader.ofTokens tokens)).2.diagnostics =
      (Reader.ofTokens tokens).diagnostics := by
    rw [hstart]
    exact Array.toList_inj.mp hquiet
  rcases hagree hsame with heq | ⟨d, ds, hds, hd⟩
  · left
    obtain ⟨hfound, hafter⟩ := Prod.mk.inj heq
    exact Prod.ext (Option.some.inj hfound) (congrArg (·.diagnostics.toList) hafter)
  · right
    rw [hstart] at hds
    exact ⟨d, ds, hds, hd⟩

end Parser

namespace Lexer

theorem legible_word {c : Char} (hc : isLetter c = true) (cs : List Char) (p : Position) :
    Token.Legible ⟨wordKind ((c :: cs).takeWhile isNameChar),
      String.ofList ((c :: cs).takeWhile isNameChar), p⟩ := by
  have hfirst : isNameChar c = true := by simp [isNameChar, hc]
  cases hkeyword : Keyword.ofString? (String.ofList ((c :: cs).takeWhile isNameChar)) with
  | some k => simp [Token.Legible, wordKind, hkeyword]
  | none =>
      have hname : IsName (String.ofList ((c :: cs).takeWhile isNameChar)) := by
        have hothers : ∀ d ∈ cs.takeWhile isNameChar, isNameChar d = true :=
          List.all_eq_true.mp List.all_takeWhile
        refine ⟨⟨c, cs.takeWhile isNameChar, ?_, hc, hothers⟩, hkeyword⟩
        rw [String.toList_ofList, List.takeWhile_cons, if_pos hfirst]
      simpa [Token.Legible, wordKind, hkeyword] using hname

theorem legible_int (digits : List Char) (lexeme : String) (p : Position) :
    Token.Legible ⟨intKind digits, lexeme, p⟩ := by
  unfold intKind
  by_cases h : numeral digits ≤ greatestInt
  · simp only [h, if_true]
    change (0 : Int64) ≤ Int64.ofNat (numeral digits)
    have hvalue := Int64.toInt_ofNat_of_lt (show numeral digits < 2 ^ 63 by
      rw [greatestInt] at h
      omega)
    rw [Int64.le_iff_toInt_le, hvalue]
    exact Int.natCast_nonneg _
  · simp only [h, if_false]
    trivial

theorem legible_float (whole fraction : List Char) (lexeme : String) (p : Position) :
    Token.Legible ⟨floatKind whole fraction, lexeme, p⟩ := by
  unfold floatKind
  split
  · rename_i x hx
    exact ⟨_, _, hx⟩
  · trivial

theorem legible_number (p : Position) (cs : List Char) : (numberToken p cs).1.Legible := by
  unfold numberToken
  split
  · split
    · exact legible_float _ _ _ _
    · exact legible_int _ _ _
  · exact legible_int _ _ _

theorem legible_sign (p : Position) (c : Char) (cs : List Char) : (signToken p c cs).1.Legible := by
  unfold signToken
  split
  · split <;> trivial
  · split
    · trivial
    · split <;> trivial

theorem legible_tokenAt (cursor : Cursor) : (tokenAt cursor).1.Legible := by
  unfold tokenAt
  split
  · trivial
  · rename_i c cs _
    by_cases hnul : c = '\x00'
    · rw [if_pos hnul]
      trivial
    by_cases hquote : c = '"'
    · rw [if_neg hnul, if_pos hquote]
      simp only [stringToken, Token.Legible]
      cases (readString [] (cursor.position.after '"') cs).closed <;> trivial
    by_cases hletter : isLetter c = true
    · rw [if_neg hnul, if_neg hquote, if_pos hletter]
      exact legible_word hletter cs cursor.position
    by_cases hdigit : isDigit c = true
    · rw [if_neg hnul, if_neg hquote, if_neg hletter, if_pos hdigit]
      exact legible_number cursor.position (c :: cs)
    · rw [if_neg hnul, if_neg hquote, if_neg hletter, if_neg hdigit]
      exact legible_sign cursor.position c cs

/-- Every name and every number among the tokens of a source can be written. -/
theorem legible_tokensFrom (cursor : Cursor) : ∀ t ∈ tokensFrom cursor, t.Legible := by
  have hnext : ∀ cursor, (next cursor).1.Legible := fun cursor => legible_tokenAt _
  fun_induction tokensFrom cursor with
  | case1 cursor t after heq hend =>
      intro u hu
      have ht := hnext cursor
      rw [heq] at ht
      rw [List.mem_singleton.mp hu]
      exact ht
  | case2 cursor t after heq hend _ ih =>
      intro u hu
      have ht := hnext cursor
      rw [heq] at ht
      rcases List.mem_cons.mp hu with rfl | hu
      · exact ht
      · exact ih u hu

end Lexer

/-- Reading a source yields only legible trees. -/
theorem Parser.parse_legible (source : Text) : StmtsLegible (parse source).1 :=
  statementsWithin_legible maxNesting (Lexer.legible_tokensFrom _)

end Scriptlet
