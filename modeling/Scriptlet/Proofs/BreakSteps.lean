/-
Reading in step the same tokens at other places, one function of the parser after
the other, and then whole programs.
-/
import Scriptlet.Proofs.Breaks
import Scriptlet.Proofs.Candid

namespace Scriptlet.Parser

open Reader Parse

variable {w : Leeway} {D : Reader → Prop}

theorem exists_of_bind {α β : Type} {p : Parse α} {f : α → Parse β} {r after : Reader} {b : β}
    (h : (p >>= f) r = (some b, after)) :
    ∃ a mid, p r = (some a, mid) ∧ f a mid = (some b, after) := by
  rcases hp : p r with ⟨_ | a, mid⟩
  · rw [bind_none hp] at h
    cases h
  · rw [bind_some hp] at h
    exact ⟨a, mid, rfl, h⟩

theorem current_of_expect {s : Sign} {r after : Reader} {u : Unit}
    (h : expect s r = (some u, after)) : after.current.isSign s = true := by
  unfold expect at h
  split at h
  · rename_i hsign
    obtain ⟨-, rfl⟩ := Prod.mk.inj h
    rw [current_advance]
    exact hsign
  · cases h

theorem current_of_expectName {r after : Reader} {i : Ident}
    (h : expectName r = (some i, after)) : after.current.isName = true := by
  unfold expectName at h
  split at h
  · rename_i hname
    obtain ⟨-, rfl⟩ := Prod.mk.inj h
    rw [current_advance]
    exact hname
  · cases h

theorem current_of_moreParams {fuel : Nat} {done ps : List Param} {r after : Reader}
    (h : moreParams fuel done r = (some ps, after)) :
    after.current.isSign .rightParen = true := by
  induction fuel generalizing done r with
  | zero => cases h
  | succ fuel ih =>
      rw [moreParams] at h
      obtain ⟨ident, mid, -, h⟩ := exists_of_bind h
      -- A parameter that is there already is refused.
      have hrest : ∀ {mid : Reader}, (optionalHint >>= fun hint => get >>= fun r =>
          if r.ahead.isSign .comma then advance >>= fun _ => get >>= fun r =>
            if r.ahead.isSign .rightParen then
              advance >>= fun _ => Pure.pure (done ++ [(⟨ident, hint⟩ : Param)])
            else moreParams fuel (done ++ [⟨ident, hint⟩])
          else expect .rightParen >>= fun _ => Pure.pure (done ++ [⟨ident, hint⟩])) mid =
          (some ps, after) → after.current.isSign .rightParen = true := by
        intro mid h
        obtain ⟨hint, mid, -, h⟩ := exists_of_bind h
        rw [get_bind] at h
        split at h
        · rw [advance_bind, get_bind] at h
          split at h
          · rename_i hclose
            obtain ⟨-, rfl⟩ := Prod.mk.inj h
            rw [current_advance]
            exact hclose
          · exact ih h
        · obtain ⟨_, mid, hexpect, h⟩ := exists_of_bind h
          obtain ⟨-, rfl⟩ := Prod.mk.inj h
          exact current_of_expect hexpect
      split at h
      · cases h
      · exact hrest h

theorem current_of_params {fuel : Nat} {ps : List Param} {r after : Reader}
    (h : params fuel r = (some ps, after)) : after.current.isSign .rightParen = true := by
  rw [params, get_bind] at h
  split at h
  · rename_i hclose
    obtain ⟨-, rfl⟩ := Prod.mk.inj h
    rw [current_advance]
    exact hclose
  · exact current_of_moreParams h

variable {limit fuel : Nat}

/-- An expression goes on for as long as members of it follow. -/
theorem ahead_of_continued {nesting : Nat} {left e : Expr} {r after : Reader}
    (h : continued limit fuel nesting loosest left r = (some e, after)) :
    after.ahead.isSign .dot = false := by
  induction fuel generalizing left r with
  | zero => cases h
  | succ fuel ih =>
      rw [continued, get_bind] at h
      split at h
      · rw [advance_bind] at h
        obtain ⟨longer, mid, -, h⟩ := exists_of_bind h
        exact ih h
      · rename_i hstops
        obtain ⟨-, rfl⟩ := Prod.mk.inj h
        refine Bool.eq_false_iff.mpr fun hdot => hstops ?_
        have hbinds : precedenceOf r.ahead = suffixPrecedence := by
          rw [precedenceOf, kind_of_isSign hdot]
        rw [continuesAt, hbinds, hdot, Bool.or_true]
        rfl

theorem ahead_of_expression {nesting : Nat} {e : Expr} {r after : Reader}
    (h : expression limit fuel nesting loosest r = (some e, after)) :
    after.ahead.isSign .dot = false := by
  cases fuel with
  | zero => cases h
  | succ fuel =>
      by_cases hdeep : limit ≤ nesting
      · rw [expression_refused hdeep] at h
        cases h
      · rw [expression_parts hdeep] at h
        obtain ⟨left, mid, -, h⟩ := exists_of_bind h
        exact ahead_of_continued h

theorem offMember_of_expression {nesting : Nat} {r : Reader} {e : Expr} {after : Reader}
    (h : expression limit fuel nesting loosest r = (some e, after)) : after.OffMember :=
  fun _ => ahead_of_expression h

/-- What is the same one by one is so in the other order. -/
theorem map_reverse_congr {α β : Type} {f : α → β} {xs ys : List α} (h : xs.map f = ys.map f) :
    xs.reverse.map f = ys.reverse.map f := by
  rw [List.map_reverse, List.map_reverse, h]

theorem matches_optionalHint :
    Matches w D (Guise.hint .placeless) optionalHint optionalHint :=
  .ifSign .colon (.advance (Matches.expectName.map fun _ _ h => congrArg some h)) (.pure rfl)

theorem matches_moreParams (fuel : Nat) {done done' : List Param}
    (h : done.map (Param.recast .placeless) = done'.map (Param.recast .placeless)) :
    Matches w D (List.map (Param.recast .placeless)) (moreParams fuel done)
      (moreParams fuel done') := by
  induction fuel generalizing D done done' with
  | zero => exact .fail
  | succ fuel ih =>
      rw [moreParams, moreParams]
      refine Matches.expectName.bind fun ident ident' hident => ?_
      have hname : ident.name = ident'.name := (Ident.mk.inj hident).1
      have hany : (done.any fun p => p.name.name == ident.name) =
          done'.any fun p => p.name.name == ident'.name := by
        have hsame := congrArg (List.any · fun p => p.name.name == ident.name) h
        rw [List.any_map, List.any_map] at hsame
        rw [← hname]
        exact hsame
      rw [hany]
      refine .unlessRefused (matches_optionalHint.bind fun hint hint' hhint => ?_)
      have hparams : (done ++ [(⟨ident, hint⟩ : Param)]).map (Param.recast .placeless) =
          (done' ++ [(⟨ident', hint'⟩ : Param)]).map (Param.recast .placeless) := by
        rw [List.map_append, List.map_append, h, List.map_singleton, List.map_singleton,
          Param.recast, Param.recast, hident, hhint]
      refine .ifSign .comma (.advance ?_) ((Matches.expect _).map fun _ _ _ => hparams)
      exact .ifSign .rightParen (.advance (.pure hparams)) (ih hparams)

theorem matches_params (fuel : Nat) :
    Matches w D (List.map (Param.recast .placeless)) (params fuel) (params fuel) :=
  .ifSign .rightParen (.advance (.pure rfl)) (matches_moreParams fuel rfl)

/-- Before anything is read both lists are empty. -/
theorem map_nil_congr {α β : Type} {f : α → β} : ([] : List α).map f = [].map f := rfl

/-- Whether all readings with a number of calls go in step. -/
structure Matched (w : Leeway) (limit fuel : Nat) : Prop where
  expression : ∀ {D : Reader → Prop} (nesting precedence : Nat),
    Matches w D (Expr.recast .placeless) (expression limit fuel nesting precedence)
      (expression limit fuel nesting precedence)
  operand : ∀ {D : Reader → Prop} (nesting : Nat),
    Matches w D (Expr.recast .placeless) (operand limit fuel nesting) (operand limit fuel nesting)
  continued : ∀ {D : Reader → Prop} (nesting precedence : Nat) {left left' : Expr},
    left.recast .placeless = left'.recast .placeless →
    Matches w D (Expr.recast .placeless) (continued limit fuel nesting precedence left)
      (continued limit fuel nesting precedence left')
  extended : ∀ {D : Reader → Prop} (nesting : Nat) {left left' : Expr},
    left.recast .placeless = left'.recast .placeless →
    Matches w D (Expr.recast .placeless) (extended limit fuel nesting left)
      (extended limit fuel nesting left')
  expressions : ∀ {D : Reader → Prop} (nesting : Nat) (closing : Sign),
    Matches w D (List.map (Expr.recast .placeless)) (expressions limit fuel nesting closing)
      (expressions limit fuel nesting closing)
  moreExpressions : ∀ {D : Reader → Prop} (nesting : Nat) (closing : Sign) {done done' : List Expr},
    done.map (Expr.recast .placeless) = done'.map (Expr.recast .placeless) →
    Matches w D (List.map (Expr.recast .placeless))
      (moreExpressions limit fuel nesting closing done)
      (moreExpressions limit fuel nesting closing done')
  block : ∀ {D : Reader → Prop} (nesting : Nat),
    Matches w D (Block.recast .placeless) (block limit fuel nesting) (block limit fuel nesting)
  blockStatements : ∀ {D : Reader → Prop} (nesting : Nat) (opened opened' : Position)
    {done done' : List Stmt},
    done.map (Stmt.recast .placeless) = done'.map (Stmt.recast .placeless) →
    Matches w D (List.map (Stmt.recast .placeless))
      (blockStatements limit fuel nesting opened done)
      (blockStatements limit fuel nesting opened' done')
  statement : ∀ {D : Reader → Prop} (nesting : Nat),
    Matches w D (Option.map (Stmt.recast .placeless)) (statement limit fuel nesting)
      (statement limit fuel nesting)
  expressionStatement : ∀ {D : Reader → Prop} (nesting : Nat),
    Matches w D (Stmt.recast .placeless) (expressionStatement limit fuel nesting)
      (expressionStatement limit fuel nesting)
  function : ∀ {D : Reader → Prop} (nesting : Nat),
    Matches w D (Func.recast .placeless) (function limit fuel nesting) (function limit fuel nesting)
  classStatement : ∀ {D : Reader → Prop} (nesting : Nat),
    Matches w D (Stmt.recast .placeless) (classStatement limit fuel nesting)
      (classStatement limit fuel nesting)
  classMethods : ∀ {D : Reader → Prop} (nesting : Nat) (opened opened' : Position)
    {done done' : List Func},
    done.map (Func.recast .placeless) = done'.map (Func.recast .placeless) →
    Matches w D (List.map (Func.recast .placeless)) (classMethods limit fuel nesting opened done)
      (classMethods limit fuel nesting opened' done')
  choice : ∀ {D : Reader → Prop} (nesting : Nat) (start start' : Position)
    {done done' : List Branch},
    done.map (Branch.recast .placeless) = done'.map (Branch.recast .placeless) →
    Matches w D (Stmt.recast .placeless) (choice limit fuel nesting start done)
      (choice limit fuel nesting start' done')

theorem matched_zero (w : Leeway) (limit : Nat) : Matched w limit 0 where
  expression _ _ := .fail
  operand _ := .fail
  continued _ _ _ _ _ := .fail
  extended _ _ _ _ := .fail
  expressions _ _ := .fail
  moreExpressions _ _ _ _ _ := .fail
  block _ := .fail
  blockStatements _ _ _ _ _ _ := .fail
  statement _ := .fail
  expressionStatement _ := .fail
  function _ := .fail
  classStatement _ := .fail
  classMethods _ _ _ _ _ _ := .fail
  choice _ _ _ _ _ _ := .fail

theorem matched_expression (h : Matched w limit fuel) (nesting precedence : Nat) :
    Matches w D (Expr.recast .placeless) (expression limit (fuel + 1) nesting precedence)
      (expression limit (fuel + 1) nesting precedence) := by
  by_cases hdeep : limit ≤ nesting
  · have hread : expression limit (fuel + 1) nesting precedence = (Parse.current >>= fun t =>
        Parse.attempt (refuse .tooDeep t.position : Parse Unit)
          (recover >>= fun _ => Parse.fail) fun _ => Parse.fail) := by
      funext r
      rw [expression_refused hdeep, current_bind, attempt_bad _ _ (refuse_grows _ _ r)]
      rfl
    rw [hread]
    refine .current fun t t' _ => (Matches.refuse (φ := id) _ _).attempt ?_ fun _ _ _ => .fail
    exact Matches.recover.bind fun _ _ _ => .fail
  · rw [expression_parts hdeep]
    exact (h.operand (nesting + 1)).bind fun _ _ hleft => h.continued (nesting + 1) precedence hleft

theorem matched_operand (h : Matched w limit fuel) (nesting : Nat) :
    Matches w D (Expr.recast .placeless) (operand limit (fuel + 1) nesting)
      (operand limit (fuel + 1) nesting) := by
  rw [operand]
  refine .current fun t t' hsame => ?_
  have hunary : ∀ {D : Reader → Prop} (op : UnaryOp) (p p' : Position),
      Matches w D (Expr.recast .placeless)
      (advance >>= fun _ => expression limit fuel nesting unaryPrecedence >>= fun e =>
        Pure.pure (.unary p op e))
      (advance >>= fun _ => expression limit fuel nesting unaryPrecedence >>= fun e =>
        Pure.pure (.unary p' op e)) := fun op p p' =>
    .advance ((h.expression _ _).map fun _ _ he => by
      rw [Expr.recast, Expr.recast, he]
      rfl)
  obtain ⟨kind, lexeme, p⟩ := t
  obtain ⟨kind', lexeme', p'⟩ := t'
  obtain ⟨rfl, rfl⟩ := hsame
  cases kind with
  | name capital => exact .pure rfl
  | int value => exact .pure rfl
  | float value => exact .pure rfl
  | str => exact .pure rfl
  | illegal reason => exact .refuseToken ⟨rfl, rfl⟩
  | eof => exact .refuseToken ⟨rfl, rfl⟩
  | keyword k =>
      cases k with
      | trueWord => exact .pure rfl
      | falseWord => exact .pure rfl
      | nullWord => exact .pure rfl
      | fnWord =>
          refine (Matches.expect _).bind fun _ _ _ =>
            (matches_params fuel).bind fun ps ps' hps => ?_
          refine (Matches.expect _).bind fun _ _ _ => (h.block _).map fun body body' hbody => ?_
          rw [Expr.recast, Expr.recast, hps, hbody]
          rfl
      | _ => exact .refuseToken ⟨rfl, rfl⟩
  | sign sign =>
      cases sign with
      | leftBracket =>
          refine (h.expressions _ _).map fun items items' hitems => ?_
          rw [Expr.recast, Expr.recast, exprsRecast_eq_map, exprsRecast_eq_map, hitems]
          rfl
      | leftParen =>
          refine .advance ((h.expression _ _).bind fun inner inner' hinner => ?_)
          exact (Matches.expect _).map fun _ _ _ => hinner
      | bang => exact hunary _ p p'
      | minus => exact hunary _ p p'
      | plus => exact hunary _ p p'
      | _ => exact .refuseToken ⟨rfl, rfl⟩

theorem matched_continued (h : Matched w limit fuel) (nesting precedence : Nat) {left left' : Expr}
    (hleft : left.recast .placeless = left'.recast .placeless) :
    Matches w D (Expr.recast .placeless) (continued limit (fuel + 1) nesting precedence left)
      (continued limit (fuel + 1) nesting precedence left') := by
  rw [continued, continued]
  refine .ifContinues precedence (.advance ?_) (.pure hleft)
  exact (h.extended _ hleft).bind fun _ _ hlonger => h.continued _ _ hlonger

theorem matched_extended (h : Matched w limit fuel) (nesting : Nat) {left left' : Expr}
    (hleft : left.recast .placeless = left'.recast .placeless) :
    Matches w D (Expr.recast .placeless) (extended limit (fuel + 1) nesting left)
      (extended limit (fuel + 1) nesting left') := by
  rw [extended, extended]
  refine .current fun t t' hsame => ?_
  have hbinary : ∀ {D : Reader → Prop} (op : BinaryOp) (p p' : Position),
      Matches w D (Expr.recast .placeless)
      (advance >>= fun _ => expression limit fuel nesting op.precedence >>= fun right =>
        Pure.pure (.binary p op left right))
      (advance >>= fun _ => expression limit fuel nesting op.precedence >>= fun right =>
        Pure.pure (.binary p' op left' right)) := fun op p p' =>
    .advance ((h.expression _ _).map fun _ _ hright => by
      rw [Expr.recast, Expr.recast, hleft, hright]
      rfl)
  obtain ⟨kind, lexeme, p⟩ := t
  obtain ⟨kind', lexeme', p'⟩ := t'
  obtain ⟨rfl, rfl⟩ := hsame
  cases kind with
  | sign sign =>
      cases sign with
      | leftParen =>
          refine (h.expressions _ _).map fun args args' hargs => ?_
          rw [Expr.recast, Expr.recast, exprsRecast_eq_map, exprsRecast_eq_map, hargs, hleft]
          rfl
      | leftBracket =>
          refine .advance ((h.expression _ _).bind fun subscript subscript' hsubscript => ?_)
          refine (Matches.expect _).map fun _ _ _ => ?_
          rw [Expr.recast, Expr.recast, hleft, hsubscript]
          rfl
      | dot =>
          refine Matches.expectName.bind fun field field' hfield => ?_
          refine .ifCall (.advance ?_) (.pure ?_)
          · refine (h.expressions _ _).map fun args args' hargs => ?_
            rw [Expr.recast, Expr.recast, exprsRecast_eq_map, exprsRecast_eq_map, hargs, hleft,
              hfield]
            rfl
          · rw [Expr.recast, Expr.recast, hleft, hfield]
            rfl
      | _ => first | exact hbinary _ p p' | exact .refuseToken ⟨rfl, rfl⟩
  | _ => exact .refuseToken ⟨rfl, rfl⟩

theorem matched_expressions (h : Matched w limit fuel) (nesting : Nat) (closing : Sign) :
    Matches w D (List.map (Expr.recast .placeless)) (expressions limit (fuel + 1) nesting closing)
      (expressions limit (fuel + 1) nesting closing) := by
  rw [expressions]
  refine .ifSign closing (.advance (.pure rfl)) (.advance ?_)
  exact (h.expression _ _).bind fun _ _ hfirst =>
    h.moreExpressions _ _ (congrArg (fun e => [e]) hfirst)

theorem matched_moreExpressions (h : Matched w limit fuel) (nesting : Nat) (closing : Sign)
    {done done' : List Expr}
    (hdone : done.map (Expr.recast .placeless) = done'.map (Expr.recast .placeless)) :
    Matches w D (List.map (Expr.recast .placeless))
      (moreExpressions limit (fuel + 1) nesting closing done)
      (moreExpressions limit (fuel + 1) nesting closing done') := by
  rw [moreExpressions, moreExpressions]
  have hreverse := map_reverse_congr hdone
  refine .ifSign .comma (.advance ?_) ((Matches.expect _).map fun _ _ _ => hreverse)
  refine .ifSign closing (.advance (.pure hreverse)) (.advance ?_)
  exact (h.expression _ _).bind fun _ _ hitem =>
    h.moreExpressions _ _ (by rw [List.map_cons, List.map_cons, hitem, hdone])

theorem matched_block (h : Matched w limit fuel) (nesting : Nat) :
    Matches w D (Block.recast .placeless) (block limit (fuel + 1) nesting)
      (block limit (fuel + 1) nesting) := by
  rw [block, counted_eq]
  refine .current fun opening opening' _ => .advance ?_
  refine (h.blockStatements _ opening.position opening'.position map_nil_congr).map
    fun statements statements' hstatements => ?_
  rw [Block.recast, Block.recast, stmtsRecast_eq_map, stmtsRecast_eq_map, hstatements]
  rfl

/-- The same statement, if one was read, is put behind the same ones. -/
theorem recast_kept {found found' : Option (Option Stmt)} {done done' : List Stmt}
    (h : found.map (Option.map (Stmt.recast .placeless)) =
      found'.map (Option.map (Stmt.recast .placeless)))
    (hdone : done.map (Stmt.recast .placeless) = done'.map (Stmt.recast .placeless)) :
    (found.join.toList ++ done).map (Stmt.recast .placeless) =
      (found'.join.toList ++ done').map (Stmt.recast .placeless) := by
  have hjoin := congrArg Option.join h
  rw [Option.join_map_eq_map_join, Option.join_map_eq_map_join] at hjoin
  rw [List.map_append, List.map_append, hdone, ← Option.toList_map, ← Option.toList_map, hjoin]

theorem matched_blockStatements (h : Matched w limit fuel) (nesting : Nat)
    (opened opened' : Position) {done done' : List Stmt}
    (hdone : done.map (Stmt.recast .placeless) = done'.map (Stmt.recast .placeless)) :
    Matches w D (List.map (Stmt.recast .placeless))
      (blockStatements limit (fuel + 1) nesting opened done)
      (blockStatements limit (fuel + 1) nesting opened' done') := by
  have hreverse := map_reverse_congr hdone
  rw [blockStatements, blockStatements]
  refine .current fun t t' hsame => ?_
  rw [hsame.isSign, hsame.isEof]
  split
  · exact .pure hreverse
  split
  · exact .refuse _ _
  refine (h.statement nesting).attempt ?_ fun found found' hfound => .advance ?_
  · refine Matches.recover.bind fun _ _ _ => ?_
    exact .branch (fun _ _ _ halike => halike.current.isSign _) (.pure hreverse)
      (.advance (h.blockStatements nesting opened opened' hdone))
  · have hnext : Matches w Anywhere (List.map (Stmt.recast .placeless)) _ _ :=
      h.blockStatements nesting opened opened' (recast_kept hfound hdone)
    rcases found with _ | _ | s <;> rcases found' with _ | _ | s' <;> exact hnext

theorem isTarget_recast (g : Guise) (e : Expr) : isTarget (e.recast g) = isTarget e := by
  cases e <;> rfl

theorem matches_assignTo (start start' : Token) (p p' : Position)
    {target target' value value' : Expr} (hassigns : isTarget target = true)
    (htarget : target.recast .placeless = target'.recast .placeless)
    (hvalue : value.recast .placeless = value'.recast .placeless) :
    Matches w D (Stmt.recast .placeless) (assignTo start p target value)
      (assignTo start' p' target' value') := by
  cases target with
  | name ident =>
      cases target' with
      | name ident' =>
          refine .pure ?_
          rw [Stmt.recast, Stmt.recast, Expr.name.inj htarget, hvalue]
          rfl
      | _ => cases htarget
  | index bracket object subscript =>
      cases target' with
      | index bracket' object' subscript' =>
          obtain ⟨-, hobject, hsubscript⟩ := Expr.index.inj htarget
          refine .pure ?_
          rw [Stmt.recast, Stmt.recast, hobject, hsubscript, hvalue]
          rfl
      | _ => cases htarget
  | _ => cases hassigns

theorem matched_expressionStatement (h : Matched w limit fuel) (nesting : Nat) :
    Matches w D (Stmt.recast .placeless) (expressionStatement limit (fuel + 1) nesting)
      (expressionStatement limit (fuel + 1) nesting) := by
  rw [expressionStatement]
  refine .current fun start start' hstart => ?_
  refine (h.expression nesting loosest).bind_at (fun _ _ _ _ => offMember_of_expression)
    fun found found' hfound => ?_
  refine .ifSign .assign (.advance (.current fun equals equals' _ => ?_))
    (Matches.endStatement.map fun _ _ _ => ?_)
  · have hsame : isTarget found' = isTarget found := by
      rw [← isTarget_recast .placeless found, ← isTarget_recast .placeless found', hfound]
    rw [hsame]
    split
    · rename_i hassigns
      refine .advance ?_
      refine (h.expression nesting loosest).bind_at (fun _ _ _ _ => offMember_of_expression)
        fun value value' hvalue => ?_
      exact Matches.endStatement.bind fun _ _ _ =>
        matches_assignTo start start' _ _ hassigns hfound hvalue
    · exact .refuse _ _
  · rw [Stmt.recast, Stmt.recast, hstart.lexeme, hfound]
    rfl

theorem matched_function (h : Matched w limit fuel) (nesting : Nat) :
    Matches w D (Func.recast .placeless) (function limit (fuel + 1) nesting)
      (function limit (fuel + 1) nesting) := by
  rw [function]
  refine .current fun keyword keyword' _ => ?_
  refine Matches.expectName.bind fun ident ident' hident => (Matches.expect _).bind fun _ _ _ => ?_
  refine (matches_params fuel).bind fun ps ps' hps => ?_
  refine matches_optionalHint.bind fun hint hint' hhint => (Matches.expect _).bind fun _ _ _ => ?_
  refine (h.block nesting).map fun body body' hbody => ?_
  rw [Func.recast, Func.recast, hident, hps, hhint, hbody]
  rfl

theorem matched_choice (h : Matched w limit fuel) (nesting : Nat) (start start' : Position)
    {done done' : List Branch}
    (hdone : done.map (Branch.recast .placeless) = done'.map (Branch.recast .placeless)) :
    Matches w D (Stmt.recast .placeless) (choice limit (fuel + 1) nesting start done)
      (choice limit (fuel + 1) nesting start' done') := by
  rw [choice, choice]
  refine .current fun keyword keyword' _ => .advance ?_
  refine (h.expression nesting loosest).bind fun condition condition' hcondition => ?_
  refine (Matches.expect _).bind fun _ _ _ => (h.block nesting).bind fun body body' hbody => ?_
  have hbranches : (Branch.mk keyword.position condition body :: done).map
      (Branch.recast .placeless) =
      (Branch.mk keyword'.position condition' body' :: done').map (Branch.recast .placeless) := by
    rw [List.map_cons, List.map_cons, Branch.recast, Branch.recast, hcondition, hbody, hdone]
    rfl
  have hreverse : branchesRecast .placeless
      (Branch.mk keyword.position condition body :: done).reverse =
      branchesRecast .placeless
        (Branch.mk keyword'.position condition' body' :: done').reverse := by
    rw [branchesRecast_eq_map, branchesRecast_eq_map]
    exact map_reverse_congr hbranches
  dsimp only
  rw [get_again, get_again]
  refine .ifKeyword .elifWord (.advance (h.choice nesting start start' hbranches)) ?_
  refine .ifKeyword .elseWord (.advance ?_) (.pure ?_)
  · refine (Matches.expect _).bind fun _ _ _ => ?_
    refine (h.block nesting).map fun otherwise otherwise' hotherwise => ?_
    rw [Stmt.recast, Stmt.recast, hreverse, hotherwise]
    rfl
  · rw [Stmt.recast, Stmt.recast, hreverse]
    rfl

theorem matched_classMethods (h : Matched w limit fuel) (nesting : Nat)
    (opened opened' : Position) {done done' : List Func}
    (hdone : done.map (Func.recast .placeless) = done'.map (Func.recast .placeless)) :
    Matches w D (List.map (Func.recast .placeless))
      (classMethods limit (fuel + 1) nesting opened done)
      (classMethods limit (fuel + 1) nesting opened' done') := by
  rw [classMethods, classMethods]
  refine .current fun t t' hsame => ?_
  obtain ⟨kind, lexeme, p⟩ := t
  obtain ⟨kind', lexeme', p'⟩ := t'
  obtain ⟨rfl, rfl⟩ := hsame
  cases kind with
  | sign sign =>
      cases sign with
      | rightBrace => exact .pure (map_reverse_congr hdone)
      | semicolon => exact .advance (h.classMethods nesting opened opened' hdone)
      | _ => exact .refuse _ _
  | keyword k =>
      cases k with
      | fnWord =>
          refine .ifName ((h.function nesting).bind fun f f' hf => .advance ?_) (.refuseAhead _)
          refine h.classMethods nesting opened opened' ?_
          rw [List.map_cons, List.map_cons, hf, hdone]
      | _ => exact .refuse _ _
  | _ => exact .refuse _ _

theorem matched_classStatement (h : Matched w limit fuel) (nesting : Nat) :
    Matches w D (Stmt.recast .placeless) (classStatement limit (fuel + 1) nesting)
      (classStatement limit (fuel + 1) nesting) := by
  rw [classStatement]
  refine .current fun keyword keyword' _ => ?_
  have hname : ∀ (r : Reader) (i : Ident) (after : Reader), expectName r = (some i, after) →
      after.current.isName = true := fun _ _ _ hread => current_of_expectName hread
  refine Matches.expectName.bind_at (fun r _ => hname r) fun ident ident' hident => ?_
  -- Behind the fields stands their closing parenthesis, and without them the name.
  have hfields : ∀ (r : Reader), r.current.isName = true → ∀ (fields : List Param) (after : Reader),
      (Parse.get >>= fun r => if r.ahead.isSign .leftParen then advance >>= fun _ => params fuel
        else Pure.pure []) r = (some fields, after) → after.OffMember := by
    intro r hr fields after hread hstr
    rw [get_bind] at hread
    split at hread
    · have hparen := current_of_params hread
      rw [Token.isSign, hstr] at hparen
      cases hparen
    · obtain ⟨-, rfl⟩ := Prod.mk.inj hread
      rw [Token.isName, hstr] at hr
      cases hr
  refine Matches.bind_at (.ifSign .leftParen (.advance (matches_params fuel)) (.pure rfl)) hfields
    fun fields fields' hfields => ?_
  refine .ifSign .leftBrace (.advance (.current fun opening opening' _ => .advance ?_))
    (Matches.endStatement.map fun _ _ _ => ?_)
  · refine (h.classMethods nesting opening.position opening'.position map_nil_congr).map
      fun methods methods' hmethods => ?_
    rw [Stmt.recast, Stmt.recast, funcsRecast_eq_map, funcsRecast_eq_map, hident, hfields, hmethods]
    rfl
  · rw [Stmt.recast, Stmt.recast, hident, hfields]
    rfl

theorem matched_statement (h : Matched w limit fuel) (nesting : Nat) :
    Matches w D (Option.map (Stmt.recast .placeless)) (statement limit (fuel + 1) nesting)
      (statement limit (fuel + 1) nesting) := by
  have hexpression : ∀ {D : Reader → Prop}, Matches w D (Option.map (Stmt.recast .placeless))
      (expressionStatement limit fuel nesting >>= fun s => Pure.pure (some s))
      (expressionStatement limit fuel nesting >>= fun s => Pure.pure (some s)) :=
    (h.expressionStatement nesting).map fun _ _ hs => congrArg some hs
  rw [statement, counted_eq]
  refine .current fun t t' hsame => ?_
  obtain ⟨kind, lexeme, p⟩ := t
  obtain ⟨kind', lexeme', p'⟩ := t'
  obtain ⟨rfl, rfl⟩ := hsame
  cases kind with
  | sign sign =>
      cases sign with
      | semicolon => exact .pure rfl
      | _ => exact hexpression
  | keyword k =>
      -- Behind a keyword lines matter to both readings in the same way.
      have hword : ∀ r : Reader, D r ∧ r.current = ⟨.keyword k, lexeme, p⟩ →
          r.current.kind ≠ .str := fun r hr hstr => by
        rw [hr.2] at hstr
        cases hstr
      cases k with
      | fnWord =>
          exact .ifName ((h.function nesting).map fun _ _ hf => congrArg (some ∘ Stmt.declare) hf)
            hexpression
      | classWord => exact (h.classStatement nesting).map fun _ _ hs => congrArg some hs
      | ifWord => exact (h.choice nesting p p' map_nil_congr).map fun _ _ hs => congrArg some hs
      | whileWord =>
          refine .advance ((h.expression nesting loosest).bind
            fun condition condition' hcondition => ?_)
          refine (Matches.expect _).bind fun _ _ _ =>
            (h.block nesting).map fun body body' hbody => ?_
          rw [Option.map_some, Option.map_some, Stmt.recast, Stmt.recast, hcondition, hbody]
          rfl
      | forWord =>
          refine Matches.expectName.bind fun item item' hitem => ?_
          refine .branch (fun r r' _ halike => ?_) (.advance (.advance ?_)) (.refuseAhead _)
          · rw [halike.ahead.isKeyword, halike.ahead.isSign]
          refine (h.expression nesting loosest).bind fun source source' hsource => ?_
          refine (Matches.expect _).bind fun _ _ _ =>
            (h.block nesting).map fun body body' hbody => ?_
          rw [Option.map_some, Option.map_some, Stmt.recast, Stmt.recast, hitem, hsource, hbody]
          rfl
      | returnWord =>
          dsimp only
          rw [get_again, get_again]
          refine .ifSign .semicolon (.advance (.pure rfl)) ?_
          refine .branch (fun r r' hr halike => halike.endsAhead (hword r hr)) (.pure rfl)
            (.advance ?_)
          refine (h.expression nesting loosest).bind_at (fun _ _ _ _ => offMember_of_expression)
            fun value value' hvalue => ?_
          refine Matches.endStatement.map fun _ _ _ => ?_
          rw [Option.map_some, Option.map_some, Stmt.recast, Stmt.recast, hvalue]
          rfl
      | breakWord =>
          exact .of_imp (E := OffMember) (Matches.endStatement.map fun _ _ _ => rfl)
            fun r hr hstr => absurd hstr (hword r hr)
      | continueWord =>
          exact .of_imp (E := OffMember) (Matches.endStatement.map fun _ _ _ => rfl)
            fun r hr hstr => absurd hstr (hword r hr)
      | _ => exact hexpression
  | _ => exact hexpression

theorem matched (w : Leeway) (limit : Nat) : ∀ fuel, Matched w limit fuel
  | 0 => matched_zero w limit
  | fuel + 1 =>
    have h := matched w limit fuel
    { expression := matched_expression h
      operand := matched_operand h
      continued := matched_continued h
      extended := matched_extended h
      expressions := matched_expressions h
      moreExpressions := matched_moreExpressions h
      block := matched_block h
      blockStatements := matched_blockStatements h
      statement := matched_statement h
      expressionStatement := matched_expressionStatement h
      function := matched_function h
      classStatement := matched_classStatement h
      classMethods := matched_classMethods h
      choice := matched_choice h }

theorem matches_program (w : Leeway) (limit fuel : Nat) {done done' : List Stmt}
    (hdone : done.map (Stmt.recast .placeless) = done'.map (Stmt.recast .placeless)) :
    Matches w D (List.map (Stmt.recast .placeless)) (program limit fuel done)
      (program limit fuel done') := by
  induction fuel generalizing D done done' with
  | zero => exact .pure (map_reverse_congr hdone)
  | succ fuel ih =>
      rw [program_eq, program_eq]
      refine .branch (fun _ _ _ halike => halike.current.isEof) (.pure (map_reverse_congr hdone)) ?_
      refine ((matched w limit fuel).statement 0).attempt ?_ fun found found' hfound => .advance ?_
      · exact Matches.recover.bind fun _ _ _ => .advance (ih hdone)
      · have hnext : Matches w Anywhere (List.map (Stmt.recast .placeless)) _ _ :=
          ih (recast_kept hfound hdone)
        rcases found with _ | _ | s <;> rcases found' with _ | _ | s' <;> exact hnext

end Scriptlet.Parser
