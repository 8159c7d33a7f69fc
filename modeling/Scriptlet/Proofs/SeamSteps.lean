/-
Reading in step at a seam, one function of the parser after the other, and then
whole programs.
-/
import Scriptlet.Proofs.Seams
import Scriptlet.Proofs.Nesting

namespace Scriptlet.Seam

open Reader Parse Scriptlet.Parser

variable {s : Seam} {room : Nat}

theorem tracks_optionalHint :
    Tracks s false Standing (Guise.below s.lines).hint room optionalHint optionalHint := by
  refine .ifSign rfl (fun _ h => h.ne_nil) (.advance_going ?_) (.pure rfl)
  exact .expectName_bind (fun _ h => h.ne_nil) fun i => .of_imp (.pure rfl) fun _ h => h.1

theorem tracks_moreParams (more : Nat) {fuel room : Nat} (hroom : 8 * room ≤ fuel + 7)
    (done : List Param) :
    Tracks s false Standing (List.map (Param.recast (.below s.lines))) room
      (moreParams fuel done)
        (moreParams (more + fuel) (done.map (Param.recast (.below s.lines)))) := by
  induction fuel generalizing room done with
  | zero => exact .of_room_zero (fun _ => Nat.le_refl _) (by omega)
  | succ fuel ih =>
      change Tracks s false Standing _ room _ (moreParams (more + fuel + 1) _)
      rw [moreParams, moreParams]
      refine .expectName_bind (fun _ h => h.ne_nil) fun ident => .of_imp ?_ fun _ h => h.1
      have hany : ((done.map (Param.recast (.below s.lines))).any fun p =>
          p.name.name == (ident.recast (.below s.lines)).name) =
            done.any fun p => p.name.name == ident.name := by
        rw [List.any_map]
        rfl
      rw [hany]
      have hparams : ∀ hint,
        (done ++ [(⟨ident, hint⟩ : Param)]).map (Param.recast (.below s.lines)) =
          done.map (Param.recast (.below s.lines)) ++
            [⟨ident.recast (.below s.lines), (Guise.below s.lines).hint hint⟩] := fun hint => by
        rw [List.map_append]
        rfl
      refine .unlessRefused (tracks_optionalHint.bind fun hint => ?_)
      dsimp only
      rw [← hparams]
      refine .ifSign rfl (fun _ h => h.ne_nil) (.advance_going ?_)
        ((Tracks.expect _).map fun _ => rfl)
      exact .ifSign rfl (fun _ h => h.ne_nil) (.advance_going (.pure rfl)) (ih (by omega) _)

theorem tracks_params (more : Nat) {fuel : Nat} (hroom : 8 * room ≤ fuel + 7) :
    Tracks s false Standing (List.map (Param.recast (.below s.lines))) room (params fuel)
      (params (more + fuel)) :=
  .ifSign rfl (fun _ h => h.ne_nil) (.advance_going (.pure rfl)) (tracks_moreParams more hroom [])

/-- Whether all readings with a number of calls go in step with those with more
calls, at as many tokens as the calls are enough for. -/
structure Tracked (s : Seam) (limit more fuel : Nat) : Prop where
  expression : ∀ {n : Nat} (nesting precedence : Nat), 8 * n ≤ fuel + 5 →
    Tracks s false (fun _ => True) (Expr.recast (.below s.lines)) n
      (expression limit fuel nesting precedence) (expression limit (more + fuel) nesting precedence)
  operand : ∀ {n : Nat} (nesting : Nat), 8 * n ≤ fuel + 6 →
    Tracks s false (fun _ => True) (Expr.recast (.below s.lines)) n
      (operand limit fuel nesting) (operand limit (more + fuel) nesting)
  continued : ∀ {n : Nat} (nesting precedence : Nat) (left : Expr), 8 * n ≤ fuel + 6 →
    Tracks s false Standing (Expr.recast (.below s.lines)) n
      (continued limit fuel nesting precedence left)
      (continued limit (more + fuel) nesting precedence (left.recast (.below s.lines)))
  extended : ∀ {n : Nat} (nesting : Nat) (left : Expr), 8 * n ≤ fuel + 6 →
    Tracks s false Standing (Expr.recast (.below s.lines)) n (extended limit fuel nesting left)
      (extended limit (more + fuel) nesting (left.recast (.below s.lines)))
  expressions : ∀ {n : Nat} (nesting : Nat) {closing : Sign}, closing.begins = false →
    8 * n ≤ fuel + 7 →
    Tracks s false Standing (List.map (Expr.recast (.below s.lines))) n
      (expressions limit fuel nesting closing) (expressions limit (more + fuel) nesting closing)
  moreExpressions : ∀ {n : Nat} (nesting : Nat) {closing : Sign} (done : List Expr),
    closing.begins = false → 8 * n ≤ fuel + 7 →
    Tracks s false Standing (List.map (Expr.recast (.below s.lines))) n
      (moreExpressions limit fuel nesting closing done)
      (moreExpressions limit (more + fuel) nesting closing
        (done.map (Expr.recast (.below s.lines))))
  block : ∀ {n : Nat} (nesting : Nat), 8 * n ≤ fuel + 7 →
    Tracks s false Standing (Block.recast (.below s.lines)) n (block limit fuel nesting)
      (block limit (more + fuel) nesting)
  blockStatements : ∀ {n : Nat} (nesting : Nat) (opened : Position) (done : List Stmt),
    8 * n ≤ fuel + 2 →
    Tracks s false (fun _ => True) (List.map (Stmt.recast (.below s.lines))) n
      (blockStatements limit fuel nesting opened done)
      (blockStatements limit (more + fuel) nesting (opened.below s.lines)
        (done.map (Stmt.recast (.below s.lines))))
  statement : ∀ {n : Nat} (nesting : Nat), 8 * n ≤ fuel + 3 →
    Tracks s true (fun _ => True) (Option.map (Stmt.recast (.below s.lines))) n
      (statement limit fuel nesting) (statement limit (more + fuel) nesting)
  expressionStatement : ∀ {n : Nat} (nesting : Nat), 8 * n ≤ fuel + 4 →
    Tracks s true (fun _ => True) (Stmt.recast (.below s.lines)) n
      (expressionStatement limit fuel nesting) (expressionStatement limit (more + fuel) nesting)
  function : ∀ {n : Nat} (nesting : Nat), 8 * n ≤ fuel + 4 →
    Tracks s false Standing (Func.recast (.below s.lines)) n (function limit fuel nesting)
      (function limit (more + fuel) nesting)
  classStatement : ∀ {n : Nat} {t : Token} (nesting : Nat), t.isKeyword .classWord = true →
    8 * n ≤ fuel + 4 →
    Tracks s true (fun us => us.head? = some t) (Stmt.recast (.below s.lines)) n
      (classStatement limit fuel nesting) (classStatement limit (more + fuel) nesting)
  classMethods : ∀ {n : Nat} (nesting : Nat) (opened : Position) (done : List Func),
    8 * n ≤ fuel + 3 →
    Tracks s false (fun _ => True) (List.map (Func.recast (.below s.lines))) n
      (classMethods limit fuel nesting opened done)
      (classMethods limit (more + fuel) nesting (opened.below s.lines)
        (done.map (Func.recast (.below s.lines))))
  choice : ∀ {n : Nat} (nesting : Nat) (start : Position) (done : List Branch),
    8 * n ≤ fuel + 4 →
    Tracks s false Standing (Stmt.recast (.below s.lines)) n
      (choice limit fuel nesting start done)
      (choice limit (more + fuel) nesting (start.below s.lines)
        (done.map (Branch.recast (.below s.lines))))

variable {limit more fuel : Nat}

/-- With no calls left nothing is read, and there is no room for tokens. -/
theorem tracks_fail {α β : Type} {ends : Bool} {P : List Token → Prop} {φ : α → β} {q : Parse β}
    (h : 8 * room ≤ 7) : Tracks s ends P φ room fail q :=
  .of_room_zero (fun _ => Nat.le_refl _) (by omega)

theorem tracked_zero (s : Seam) (limit more : Nat) : Tracked s limit more 0 where
  expression _ _ h := tracks_fail (by omega)
  operand _ h := tracks_fail (by omega)
  continued _ _ _ h := tracks_fail (by omega)
  extended _ _ h := tracks_fail (by omega)
  expressions _ _ _ h := tracks_fail (by omega)
  moreExpressions _ _ _ _ h := tracks_fail (by omega)
  block _ h := tracks_fail (by omega)
  blockStatements _ _ _ h := tracks_fail (by omega)
  statement _ h := tracks_fail (by omega)
  expressionStatement _ h := tracks_fail (by omega)
  function _ h := tracks_fail (by omega)
  classStatement _ _ h := tracks_fail (by omega)
  classMethods _ _ _ h := tracks_fail (by omega)
  choice _ _ _ h := tracks_fail (by omega)

theorem tracked_expression (h : Tracked s limit more fuel) (nesting precedence : Nat)
    (hroom : 8 * room ≤ fuel + 1 + 5) :
    Tracks s false (fun _ => True) (Expr.recast (.below s.lines)) room
      (expression limit (fuel + 1) nesting precedence)
      (expression limit (more + fuel + 1) nesting precedence) := by
  have hread := (h.operand (n := room) (nesting + 1) (by omega)).bind fun left =>
    h.continued (nesting + 1) precedence left (by omega)
  have hdeep : ∀ r : Reader, r.diagnostics.size <
      (r.record .tooDeep r.current.position).skipToBoundary.diagnostics.size := fun r => by
    rw [diagnostics_skipToBoundary]
    exact refuse_grows (α := Expr) _ _ r
  by_cases hroom : limit ≤ nesting
  · rw [expression_refused hroom, expression_refused hroom]
    refine ⟨fun r => Nat.le_of_lt (hdeep r), fun us _ _ _ ds _ => Or.inl ?_⟩
    have hbad := hdeep (s.alone us ds)
    rw [diagnostics_alone] at hbad
    exact hbad
  · rw [expression_parts hroom, expression_parts hroom]
    exact hread

theorem tracked_operand (h : Tracked s limit more fuel) (nesting : Nat)
    (hroom : 8 * room ≤ fuel + 1 + 6) :
    Tracks s false (fun _ => True) (Expr.recast (.below s.lines)) room
      (operand limit (fuel + 1) nesting) (operand limit (more + fuel + 1) nesting) := by
  rw [operand, operand]
  refine .currentAny (fun _ ds => ?_) fun t => ?_
  · rw [s.final_kind]
    exact diagnostics_alone s [] ds ▸ refuseToken_grows _ _
  have hunary : ∀ {t : Token} (op : UnaryOp), Tracks s false Standing (Expr.recast (.below s.lines))
      room
      (advance >>= fun _ => expression limit fuel nesting unaryPrecedence >>= fun e =>
        Pure.pure (.unary t.position op e))
      (advance >>= fun _ => expression limit (more + fuel) nesting unaryPrecedence >>= fun e =>
        Pure.pure (.unary (t.below s.lines).position op e)) := fun op =>
    .advance ((h.expression _ _ (by omega)).map fun _ => rfl)
  obtain ⟨kind, lexeme, position⟩ := t
  cases kind with
  | name capital => exact .of_imp (.pure rfl) (standing_of_head rfl)
  | int value => exact .of_imp (.pure rfl) (standing_of_head rfl)
  | float value => exact .of_imp (.pure rfl) (standing_of_head rfl)
  | str => exact .of_imp (.pure rfl) (standing_of_head rfl)
  | illegal reason => exact .refuseToken _
  | eof => exact .refuseToken _
  | keyword k =>
      cases k with
      | trueWord => exact .of_imp (.pure rfl) (standing_of_head rfl)
      | falseWord => exact .of_imp (.pure rfl) (standing_of_head rfl)
      | nullWord => exact .of_imp (.pure rfl) (standing_of_head rfl)
      | fnWord =>
          refine .of_imp ?_ (standing_of_head rfl)
          refine (Tracks.expect _).bind fun _ => (tracks_params more (by omega)).bind fun ps => ?_
          refine (Tracks.expect _).bind fun _ => (h.block _ (by omega)).map fun body => rfl
      | _ => exact .refuseToken _
  | sign sign =>
      cases sign with
      | leftBracket =>
          refine .of_imp ?_ (standing_of_head rfl)
          refine (h.expressions _ rfl (by omega)).map fun items => ?_
          rw [Expr.recast, exprsRecast_eq_map]
          rfl
      | leftParen =>
          refine .of_imp (.advance ?_) (standing_of_head rfl)
          refine (h.expression _ _ (by omega)).bind fun inner => ?_
          exact (Tracks.expect _).map fun _ => rfl
      | bang => exact .of_imp (hunary _) (standing_of_head rfl)
      | minus => exact .of_imp (hunary _) (standing_of_head rfl)
      | plus => exact .of_imp (hunary _) (standing_of_head rfl)
      | _ => exact .refuseToken _

theorem tracked_continued (h : Tracked s limit more fuel) (nesting precedence : Nat) (left : Expr)
    (hroom : 8 * room ≤ fuel + 1 + 6) :
    Tracks s false Standing (Expr.recast (.below s.lines)) room
      (continued limit (fuel + 1) nesting precedence left)
      (continued limit (more + fuel + 1) nesting precedence (left.recast (.below s.lines))) := by
  rw [continued, continued]
  refine .ifContinues precedence (.advance_going ?_) (.pure rfl)
  exact (h.extended _ _ (by omega)).bind fun longer => h.continued _ _ _ (by omega)

theorem tracked_extended (h : Tracked s limit more fuel) (nesting : Nat) (left : Expr)
    (hroom : 8 * room ≤ fuel + 1 + 6) :
    Tracks s false Standing (Expr.recast (.below s.lines)) room
      (extended limit (fuel + 1) nesting left)
      (extended limit (more + fuel + 1) nesting (left.recast (.below s.lines))) := by
  rw [extended, extended]
  refine .current (fun _ h => h.ne_nil) fun t => .of_imp ?_ fun _ h => h.1
  have hbinary : ∀ op : BinaryOp, Tracks s false Standing (Expr.recast (.below s.lines)) room
      (advance >>= fun _ => expression limit fuel nesting op.precedence >>= fun right =>
        Pure.pure (.binary t.position op left right))
      (advance >>= fun _ => expression limit (more + fuel) nesting op.precedence >>= fun right =>
        Pure.pure (.binary (t.below s.lines).position op (left.recast (.below s.lines)) right)) :=
    fun op => .advance ((h.expression _ _ (by omega)).map fun _ => rfl)
  rw [Token.kind_below]
  cases t.kind with
  | sign sign =>
      cases sign with
      | leftParen =>
          refine (h.expressions _ rfl (by omega)).map fun args => ?_
          rw [Expr.recast, exprsRecast_eq_map]
          rfl
      | leftBracket =>
          refine .advance ((h.expression _ _ (by omega)).bind fun subscript => ?_)
          exact (Tracks.expect _).map fun _ => rfl
      | dot =>
          refine .expectName_bind (fun _ h => h.ne_nil) fun field => .of_imp ?_ fun _ h => h.1
          refine .ifCall (.advance_going ?_) (.pure rfl)
          refine (h.expressions _ rfl (by omega)).map fun args => ?_
          rw [Expr.recast, exprsRecast_eq_map]
          rfl
      | _ => first | exact hbinary _ | exact .refuseToken _
  | _ => exact .refuseToken _

theorem tracked_expressions (h : Tracked s limit more fuel) (nesting : Nat) {closing : Sign}
    (hclosing : closing.begins = false) (hroom : 8 * room ≤ fuel + 1 + 7) :
    Tracks s false Standing (List.map (Expr.recast (.below s.lines))) room
      (expressions limit (fuel + 1) nesting closing)
      (expressions limit (more + fuel + 1) nesting closing) := by
  rw [expressions, expressions]
  refine .ifSign hclosing (fun _ h => h.ne_nil) (.advance_going (.pure rfl)) (.advance ?_)
  exact (h.expression _ _ (by omega)).bind fun first =>
    h.moreExpressions _ [first] hclosing (by omega)

theorem tracked_moreExpressions (h : Tracked s limit more fuel) (nesting : Nat) {closing : Sign}
    (done : List Expr) (hclosing : closing.begins = false) (hroom : 8 * room ≤ fuel + 1 + 7) :
    Tracks s false Standing (List.map (Expr.recast (.below s.lines))) room
      (moreExpressions limit (fuel + 1) nesting closing done)
      (moreExpressions limit (more + fuel + 1) nesting closing
        (done.map (Expr.recast (.below s.lines)))) := by
  rw [moreExpressions, moreExpressions]
  refine .ifSign rfl (fun _ h => h.ne_nil) (.advance_going ?_)
    ((Tracks.expect _).map fun _ => List.map_reverse)
  refine .ifSign hclosing (fun _ h => h.ne_nil) (.advance_going (.pure List.map_reverse))
    (.advance ?_)
  exact (h.expression _ _ (by omega)).bind fun item =>
    h.moreExpressions _ (item :: done) hclosing (by omega)

theorem tracked_block (h : Tracked s limit more fuel) (nesting : Nat)
    (hroom : 8 * room ≤ fuel + 1 + 7) :
    Tracks s false Standing (Block.recast (.below s.lines)) room (block limit (fuel + 1) nesting)
      (block limit (more + fuel + 1) nesting) := by
  rw [block, block, counted_eq, counted_eq]
  refine .current (fun _ h => h.ne_nil) fun opening => .of_imp (.advance ?_) fun _ h => h.1
  refine (h.blockStatements _ opening.position [] (by omega)).map fun statements => ?_
  rw [Block.recast, stmtsRecast_eq_map]
  rfl

/-- A statement of a block, and what is read behind it.  A fault is in the first
reading for good; where the second has gone beyond the tokens, none are left for
the first, which needs some. -/
theorem tracks_attempt {α β γ δ : Type} {ends : Bool} {P : List Token → Prop} {φ : α → β}
    {ψ : γ → δ} {p : Parse α} {q : Parse β} {bad : Parse γ} {bad' : Parse δ}
    {f : Option α → Parse γ} {g : Option β → Parse δ} (h : Tracks s true P φ room p q)
    (hbad : ∀ r, r.diagnostics.size ≤ (bad r).2.diagnostics.size)
    (hnone : ∀ r, r.diagnostics.size ≤ (f none r).2.diagnostics.size)
    (hf : ∀ a, Tracks s ends (fun _ => True) ψ (room - 1) (f (some a)) (g (some (φ a)))) :
    Tracks s ends P ψ room (attempt p bad fun found => advance >>= fun _ => f found)
      (attempt q bad' fun found => advance >>= fun _ => g found) := by
  constructor
  · intro r
    by_cases hsize : r.diagnostics.size < (p r).2.diagnostics.size
    · rw [attempt_bad _ _ hsize]
      exact Nat.le_trans (Nat.le_of_lt hsize) (hbad _)
    · rw [attempt_good _ _ hsize, advance_bind]
      refine Nat.le_trans (h.grows r) ?_
      rw [← diagnostics_advance (p r).2]
      cases (p r).1 with
      | none => exact hnone _
      | some a => exact (hf a).grows _
  · intro us hus hin hlen ds ds'
    rcases h.tracks us hus hin hlen ds ds' with
      hfault | ⟨a, us', r, hp, hq, hlands, hstands, hsuffix⟩
    · have hsize : (s.alone us ds).diagnostics.size < (p (s.alone us ds)).2.diagnostics.size := by
        rw [diagnostics_alone]
        exact hfault
      rw [attempt_bad _ _ hsize]
      exact Or.inl (Nat.lt_of_lt_of_le hfault (hbad _))
    obtain ⟨t, ts, rfl, -⟩ := hstands
    have hsame : r.diagnostics = ds' := by
      rcases hlands with rfl | ⟨-, -, -, rfl⟩
      · exact diagnostics_joined ..
      · exact diagnostics_on ..
    have hgood : attempt p bad (fun found => advance >>= fun _ => f found) (s.alone us ds) =
        f (some a) (s.alone ts ds) := by
      rw [attempt_good _ _
        (by rw [hp, diagnostics_alone, diagnostics_alone]; exact Nat.lt_irrefl _),
        hp, advance_bind, advance_alone]
    have hgood' : attempt q bad' (fun found => advance >>= fun _ => g found) (s.joined us ds') =
        g (some (φ a)) r.advance := by
      rw [attempt_good _ _ (by rw [hq, hsame, diagnostics_joined]; exact Nat.lt_irrefl _), hq,
        advance_bind]
    have hshort := hsuffix.length_le
    rw [List.length_cons] at hshort
    rw [hgood, hgood']
    rcases hlands with rfl | ⟨-, hlast, -, rfl⟩
    · have hinner := (List.suffix_cons t ts).trans hsuffix
      rw [advance_joined]
      refine ((hf a).tracks ts trivial (hinner.trans hin) (by omega) ds ds').imp_right ?_
      rintro ⟨b, us'', r, hb, hb', hlands, hstands, hsuffix'⟩
      exact ⟨b, us'', r, hb, hb', hlands, hstands, hsuffix'.trans hinner⟩
    · obtain rfl := List.length_eq_zero_iff.mp (Nat.succ.inj hlast)
      exact Or.inl ((hf a).fails_nil (by omega) ds)

/-- What is done where a statement of a block has a fault. -/
def afterFault (limit fuel nesting : Nat) (opened : Position) (done : List Stmt) :
    Parse (List Stmt) :=
  recover >>= fun _ => Parse.get >>= fun boundary =>
    if boundary.current.isSign .rightBrace then Pure.pure done.reverse
    else advance >>= fun _ => blockStatements limit fuel nesting opened done

def afterStatement (limit fuel nesting : Nat) (opened : Position) (done : List Stmt) :
    Option (Option Stmt) → Parse (List Stmt)
  | some (some s) => blockStatements limit fuel nesting opened (s :: done)
  | _ => blockStatements limit fuel nesting opened done

theorem tracked_blockStatements (h : Tracked s limit more fuel) (nesting : Nat)
    (opened : Position) (done : List Stmt) (hroom : 8 * room ≤ fuel + 1 + 2) :
    Tracks s false (fun _ => True) (List.map (Stmt.recast (.below s.lines))) room
      (blockStatements limit (fuel + 1) nesting opened done)
      (blockStatements limit (more + fuel + 1) nesting (opened.below s.lines)
        (done.map (Stmt.recast (.below s.lines)))) := by
  have hgrows : ∀ r, r.diagnostics.size ≤
      (blockStatements limit fuel nesting opened done r).2.diagnostics.size :=
    (h.blockStatements (n := 0) nesting opened done (by omega)).grows
  have hrest : Tracks s false (fun _ => True) (List.map (Stmt.recast (.below s.lines))) room
      (attempt (statement limit fuel nesting) (afterFault limit fuel nesting opened done)
        fun found => advance >>= fun _ => afterStatement limit fuel nesting opened done found)
      (attempt (statement limit (more + fuel) nesting)
        (afterFault limit (more + fuel) nesting (opened.below s.lines)
          (done.map (Stmt.recast (.below s.lines))))
        fun found => advance >>= fun _ => afterStatement limit (more + fuel) nesting
          (opened.below s.lines) (done.map (Stmt.recast (.below s.lines))) found) := by
    refine tracks_attempt (h.statement nesting (by omega)) (fun r => ?_) hgrows fun found => ?_
    · change r.diagnostics.size ≤ ((Parse.get >>= fun boundary =>
        if boundary.current.isSign .rightBrace then Pure.pure done.reverse
        else advance >>= fun _ => blockStatements limit fuel nesting opened done)
          r.skipToBoundary).2.diagnostics.size
      rw [← diagnostics_skipToBoundary r, get_bind]
      split
      · exact Nat.le_refl _
      · rw [advance_bind, ← diagnostics_advance]
        exact hgrows _
    · cases found with
      | none => exact h.blockStatements nesting opened done (by omega)
      | some b => exact h.blockStatements nesting opened (b :: done) (by omega)
  rw [blockStatements, blockStatements]
  refine .currentAny (fun _ ds => ?_) fun t => ?_
  · rw [s.final_isSign, s.final_eof, if_neg Bool.false_ne_true, if_pos rfl]
    exact diagnostics_alone s [] ds ▸ refuse_grows _ _ _
  · rw [Token.isSign_below, Token.isEof_below]
    split
    · exact .of_imp (.pure List.map_reverse) (standing_of_head (Token.stops_of_isSign ‹_›))
    · split
      · exact .refuse _ _
      · exact .of_imp hrest fun _ _ => trivial

theorem tracked_expressionStatement (h : Tracked s limit more fuel) (nesting : Nat)
    (hroom : 8 * room ≤ fuel + 1 + 4) :
    Tracks s true (fun _ => True) (Stmt.recast (.below s.lines)) room
      (expressionStatement limit (fuel + 1) nesting)
      (expressionStatement limit (more + fuel + 1) nesting) := by
  rw [expressionStatement, expressionStatement]
  have hbody : ∀ start : Token, Tracks s true (fun _ => True) (Stmt.recast (.below s.lines)) room
      (expression limit fuel nesting loosest >>= fun found => Parse.get >>= fun r =>
        if r.ahead.isSign .assign then advance >>= fun _ => current >>= fun equals =>
          if isTarget found then advance >>= fun _ =>
            expression limit fuel nesting loosest >>= fun value => endStatement >>= fun _ =>
              assignTo start equals.position found value
          else refuse (.badTarget start.describe) start.position
        else endStatement >>= fun _ => Pure.pure (.expr start.position start.lexeme found))
      (expression limit (more + fuel) nesting loosest >>= fun found => Parse.get >>= fun r =>
        if r.ahead.isSign .assign then advance >>= fun _ => current >>= fun equals =>
          if isTarget found then advance >>= fun _ =>
            expression limit (more + fuel) nesting loosest >>= fun value =>
              endStatement >>= fun _ =>
              assignTo (start.below s.lines) equals.position found value
          else refuse (.badTarget (start.below s.lines).describe) (start.below s.lines).position
        else endStatement >>= fun _ =>
          Pure.pure (.expr (start.below s.lines).position (start.below s.lines).lexeme found)) := by
    intro start
    refine (h.expression _ _ (by omega)).bind fun found => ?_
    refine .ifSign rfl (fun _ h => h.ne_nil) (.advance_going ?_)
      (Tracks.endStatement.map fun _ => rfl)
    refine .current (fun _ h => h.ne_nil) fun equals => .of_imp ?_ fun _ h => h.1
    cases found with
    | name ident =>
        refine .advance ((h.expression _ _ (by omega)).bind fun value => ?_)
        exact Tracks.endStatement.map fun _ => rfl
    | index bracket object subscript =>
        refine .advance ((h.expression _ _ (by omega)).bind fun value => ?_)
        exact Tracks.endStatement.map fun _ => rfl
    | _ => exact .refuse _ _
  exact .currentAny (fun hroom ds => (hbody s.final).fails_nil hroom ds) fun start =>
    .of_imp (hbody start) fun _ _ => trivial

theorem tracked_function (h : Tracked s limit more fuel) (nesting : Nat)
    (hroom : 8 * room ≤ fuel + 1 + 4) :
    Tracks s false Standing (Func.recast (.below s.lines)) room (function limit (fuel + 1) nesting)
      (function limit (more + fuel + 1) nesting) := by
  rw [function, function]
  refine .current (fun _ h => h.ne_nil) fun keyword => .of_imp ?_ fun _ h => h.1
  refine .expectName_bind (fun _ h => h.ne_nil) fun ident => .of_imp ?_ fun _ h => h.1
  refine (Tracks.expect _).bind fun _ => (tracks_params more (by omega)).bind fun ps => ?_
  refine tracks_optionalHint.bind fun hint => (Tracks.expect _).bind fun _ => ?_
  exact (h.block _ (by omega)).map fun body => rfl

theorem tracked_choice (h : Tracked s limit more fuel) (nesting : Nat) (start : Position)
    (done : List Branch) (hroom : 8 * room ≤ fuel + 1 + 4) :
    Tracks s false Standing (Stmt.recast (.below s.lines)) room
      (choice limit (fuel + 1) nesting start done)
      (choice limit (more + fuel + 1) nesting (start.below s.lines)
        (done.map (Branch.recast (.below s.lines)))) := by
  rw [choice, choice]
  refine .current (fun _ h => h.ne_nil) fun keyword => .of_imp (.advance ?_) fun _ h => h.1
  refine (h.expression _ _ (by omega)).bind fun condition => (Tracks.expect _).bind fun _ => ?_
  refine (h.block _ (by omega)).bind fun body => ?_
  refine .again (.ifKeyword (k := .elifWord) rfl (.advance_going ?_)
    (.ifKeyword (k := .elseWord) rfl (.advance_going ?_) (.pure ?_)))
  · exact h.choice _ start (.mk keyword.position condition body :: done) (by omega)
  · refine (Tracks.expect _).bind fun _ => (h.block _ (by omega)).map fun otherwise => ?_
    rw [Stmt.recast, branchesRecast_eq_map, List.map_reverse]
    rfl
  · rw [Stmt.recast, branchesRecast_eq_map, List.map_reverse]
    rfl

/-- Where no expression begins no statement made of one does. -/
theorem expressionStatement_fails {r : Reader} {nesting : Nat}
    (h : (operand limit (fuel + 1) (nesting + 1) r).1 = none)
    (hbad : r.diagnostics.size < (operand limit (fuel + 1) (nesting + 1) r).2.diagnostics.size) :
    r.diagnostics.size < (expressionStatement limit (fuel + 3) nesting r).2.diagnostics.size := by
  rcases hread : expression limit (fuel + 2) nesting loosest r with ⟨found, after'⟩
  have hfails : found = none ∧ r.diagnostics.size < after'.diagnostics.size := by
    by_cases hdeep : limit ≤ nesting
    · rw [expression_refused hdeep] at hread
      obtain ⟨rfl, rfl⟩ := Prod.mk.inj hread
      rw [diagnostics_skipToBoundary]
      exact ⟨rfl, refuse_grows (α := Expr) .tooDeep _ r⟩
    · rw [expression_parts hdeep] at hread
      obtain ⟨rfl, rfl⟩ := Prod.mk.inj (hread.symm.trans (bind_none (Prod.ext h rfl) _))
      exact ⟨rfl, hbad⟩
  obtain ⟨rfl, hfails⟩ := hfails
  rw [expressionStatement, current_bind, bind_none hread]
  exact hfails

/-- Without a parenthesis behind it a function keyword begins no statement. -/
theorem lone_function {t : Token} (ht : t.kind = .keyword .fnWord) (limit nesting : Nat)
    {fuel : Nat} (hfuel : 3 ≤ fuel) (ds : Array Diagnostic) :
    ds.size < (expressionStatement limit fuel nesting (s.alone [t] ds)).2.diagnostics.size := by
  obtain ⟨fuel, rfl⟩ : ∃ n, fuel = n + 3 := ⟨fuel - 3, by omega⟩
  have hoperand : operand limit (fuel + 1) (nesting + 1) (s.alone [t] ds) =
      Parse.refuseAhead (Sign.text .leftParen) (s.alone [t] ds) := by
    rw [operand, current_bind, current_alone, ht]
    refine bind_none ?_ _
    rw [Parse.expect, ahead_alone_last, s.final_isSign, if_neg Bool.false_ne_true]
    rfl
  have hgrown := refuseAhead_grows (α := Expr) (Sign.text .leftParen) (s.alone [t] ds)
  rw [← hoperand] at hgrown
  have hbad := expressionStatement_fails (congrArg Prod.fst hoperand) hgrown
  rw [diagnostics_alone] at hbad
  exact hbad

theorem tracked_statement (h : Tracked s limit more fuel) (nesting : Nat)
    (hroom : 8 * room ≤ fuel + 1 + 3) :
    Tracks s true (fun _ => True) (Option.map (Stmt.recast (.below s.lines))) room
      (statement limit (fuel + 1) nesting) (statement limit (more + fuel + 1) nesting) := by
  rw [statement, statement, counted_eq, counted_eq]
  have hexpression : Tracks s true (fun _ => True) (Option.map (Stmt.recast (.below s.lines))) room
      (expressionStatement limit fuel nesting >>= fun s => Pure.pure (some s))
      (expressionStatement limit (more + fuel) nesting >>= fun s => Pure.pure (some s)) :=
    (h.expressionStatement _ (by omega)).map fun _ => rfl
  refine .currentAny (fun hroom ds => ?_) fun t => ?_
  · rw [s.final_kind]
    exact hexpression.fails_nil hroom ds
  rw [Token.kind_below]
  cases hkind : t.kind with
  | sign sign =>
      cases sign with
      | semicolon =>
          refine .of_imp (.pure rfl) (standing_of_head (t := t) ?_)
          rw [Token.stops, Token.isEof, Token.isIllegal, hkind]
          rfl
      | _ => exact .of_imp hexpression fun _ _ => trivial
  | keyword k =>
      have hstands : ∀ us, us.head? = some t → Standing us := by
        refine standing_of_head ?_
        rw [Token.stops, Token.isEof, Token.isIllegal, hkind]
        rfl
      cases k with
      | fnWord =>
          refine .ifName ne_nil_of_head ?_ ?_ (.of_imp hexpression fun _ _ => trivial)
          · intro u ds hu hroom
            obtain rfl := Option.some.inj hu
            rw [map_reader]
            exact lone_function hkind limit nesting (by omega) ds
          · refine .of_imp ?_ hstands
            exact (h.function _ (by omega)).loosen.map fun _ => rfl
      | classWord =>
          have hword : t.isKeyword .classWord = true := isKeyword_of_kind hkind .classWord
          exact (h.classStatement nesting hword (by omega)).map fun _ => rfl
      | ifWord =>
          refine .of_imp ?_ hstands
          exact (h.choice _ t.position [] (by omega)).loosen.map fun _ => rfl
      | whileWord =>
          refine .of_imp (.advance ?_) hstands
          refine (h.expression _ _ (by omega)).bind fun condition =>
            (Tracks.expect _).bind fun _ => ?_
          exact (h.block _ (by omega)).loosen.map fun _ => rfl
      | forWord =>
          refine .of_imp (.expectName_bind (fun _ h => h.ne_nil) fun item =>
            .of_imp ?_ fun _ h => h.1)
            hstands
          refine .branch (fun us hus _ => ?_) (fun us hus => ?_) (.advance_going (.advance ?_))
            (.refuseAhead _)
          · refine s.ahead_same (c := fun t => t.isKeyword .inWord || t.isSign .colon)
              (fun _ => rfl) ?_ hus.ne_nil
            rw [s.final_isKeyword, s.final_isSign, s.next_isKeyword rfl, s.next_isSign rfl]
          · refine s.going_of_ahead (c := fun t => t.isKeyword .inWord || t.isSign .colon)
              (fun t ht => ?_) ?_ hus.ne_nil
            · exact (Bool.or_eq_true_iff.mp ht).elim Token.stops_of_isKeyword Token.stops_of_isSign
            · rw [s.final_isKeyword, s.final_isSign]
              rfl
          · refine (h.expression _ _ (by omega)).bind fun source =>
              (Tracks.expect _).bind fun _ => ?_
            exact (h.block _ (by omega)).loosen.map fun _ => rfl
      | returnWord =>
          refine .of_imp (.unlessEnds rfl (.advance ?_)) hstands
          refine (h.expression _ _ (by omega)).bind fun value => ?_
          exact Tracks.endStatement.map fun _ => rfl
      | breakWord => exact .of_imp (Tracks.endStatement.map fun _ => rfl) hstands
      | continueWord => exact .of_imp (Tracks.endStatement.map fun _ => rfl) hstands
      | _ => exact .of_imp hexpression fun _ _ => trivial
  | _ => exact .of_imp hexpression fun _ _ => trivial

theorem tracked_classStatement (h : Tracked s limit more fuel) {t : Token} (nesting : Nat)
    (ht : t.isKeyword .classWord = true) (hroom : 8 * room ≤ fuel + 1 + 4) :
    Tracks s true (fun us => us.head? = some t) (Stmt.recast (.below s.lines)) room
      (classStatement limit (fuel + 1) nesting)
        (classStatement limit (more + fuel + 1) nesting) := by
  rw [classStatement, classStatement]
  refine .current ne_nil_of_head fun keyword => ?_
  refine .expectName_bind (fun us hus => ne_nil_of_head us hus.1) fun ident => ?_
  refine Tracks.bind (φ := List.map (Param.recast (.below s.lines))) ?_ fun fields => ?_
  · refine .branch ?_ ?_ (.advance_going (tracks_params more (by omega)))
      (.of_imp (.pure rfl) fun _ h => h.1)
    · rintro us ⟨⟨n, ts, rfl, -⟩, c, ⟨hc, -⟩, hin⟩ - ds ds'
      cases ts with
      | nil =>
          obtain rfl := Option.some.inj hc
          obtain ⟨before, hbefore⟩ := hin
          rw [ahead_alone_last, ahead_joined_last, s.final_isSign, Eq.comm]
          refine Bool.eq_false_iff.mpr fun hparen => ?_
          rw [s.no_header hparen before c n hbefore.symm] at ht
          cases ht
      | cons u ts => rfl
    · exact fun us hus => s.going_of_ahead (c := fun t => t.isSign .leftParen)
        (fun _ => Token.stops_of_isSign) (s.final_isSign _) hus.1.ne_nil
  refine .ifSign rfl (fun _ h => h.ne_nil) (.advance_going ?_)
    (Tracks.endStatement.map fun _ => rfl)
  refine .current (fun _ h => h.ne_nil) fun opening => .of_imp (.advance ?_) fun _ h => h.1
  refine (h.classMethods _ opening.position [] (by omega)).loosen.map fun methods => ?_
  rw [Stmt.recast, funcsRecast_eq_map]
  rfl

theorem tracked_classMethods (h : Tracked s limit more fuel) (nesting : Nat) (opened : Position)
    (done : List Func) (hroom : 8 * room ≤ fuel + 1 + 3) :
    Tracks s false (fun _ => True) (List.map (Func.recast (.below s.lines))) room
      (classMethods limit (fuel + 1) nesting opened done)
      (classMethods limit (more + fuel + 1) nesting (opened.below s.lines)
        (done.map (Func.recast (.below s.lines)))) := by
  rw [classMethods, classMethods]
  refine .currentAny (fun _ ds => ?_) fun t => ?_
  · rw [s.final_kind]
    exact diagnostics_alone s [] ds ▸ refuse_grows _ _ _
  obtain ⟨kind, lexeme, position⟩ := t
  cases kind with
  | sign sign =>
      cases sign with
      | rightBrace => exact .of_imp (.pure List.map_reverse) (standing_of_head rfl)
      | semicolon =>
          exact .of_imp (.advance (h.classMethods _ _ _ (by omega))) (standing_of_head rfl)
      | _ => exact .refuse _ _
  | keyword k =>
      cases k with
      | fnWord =>
          refine .ifName ne_nil_of_head (fun t ds _ _ => ?_) ?_ (.refuseAhead _)
          · exact diagnostics_alone s [t] ds ▸ refuseAhead_grows _ _
          · refine .of_imp ((h.function _ (by omega)).bind fun f => .advance ?_)
              (standing_of_head rfl)
            exact h.classMethods _ _ (f :: done) (by omega)
      | _ => exact .refuse _ _
  | _ => exact .refuse _ _

theorem tracked (s : Seam) (limit more : Nat) : ∀ fuel, Tracked s limit more fuel
  | 0 => tracked_zero s limit more
  | fuel + 1 =>
    have h := tracked s limit more fuel
    { expression := tracked_expression h
      operand := tracked_operand h
      continued := tracked_continued h
      extended := tracked_extended h
      expressions := tracked_expressions h
      moreExpressions := tracked_moreExpressions h
      block := tracked_block h
      blockStatements := tracked_blockStatements h
      statement := tracked_statement h
      expressionStatement := tracked_expressionStatement h
      function := tracked_function h
      classStatement := tracked_classStatement h
      classMethods := tracked_classMethods h
      choice := tracked_choice h }

/-- A statement begins with a token that may begin one. -/
theorem begins_of_statement {r : Reader} {nesting : Nat} (hfuel : 4 ≤ fuel)
    (h : (statement limit fuel nesting r).2.diagnostics.size ≤ r.diagnostics.size) :
    r.current.begins = true := by
  refine Bool.not_eq_false _ ▸ fun hno => absurd h (Nat.not_le.mpr ?_)
  obtain ⟨fuel, rfl⟩ : ∃ n, fuel = n + 4 := ⟨fuel - 4, by omega⟩
  have hoperand : operand limit (fuel + 1) (nesting + 1) r = Parse.refuseToken r.current r := by
    rw [operand, current_bind]
    unfold Token.begins at hno
    cases hkind : r.current.kind with
    | sign sign => cases sign <;> first | rfl | (rw [hkind] at hno; cases hno)
    | keyword k => cases k <;> first | rfl | (rw [hkind] at hno; cases hno)
    | illegal reason => rfl
    | eof => rfl
    | _ =>
        rw [hkind] at hno
        cases hno
  have hgrown := refuseToken_grows (α := Expr) r.current r
  rw [← hoperand] at hgrown
  have hbad := expressionStatement_fails
    ((congrArg Prod.fst hoperand).trans (refuseToken_none r.current r)) hgrown
  have hread : statement limit (fuel + 4) nesting r =
      (expressionStatement limit (fuel + 3) nesting >>= fun s => Pure.pure (some s)) r := by
    rw [statement, counted_eq, current_bind]
    unfold Token.begins at hno
    cases hkind : r.current.kind with
    | sign sign => cases sign <;> first | rfl | (rw [hkind] at hno; cases hno)
    | keyword k => cases k <;> first | rfl | (rw [hkind] at hno; cases hno)
    | _ => rfl
  rw [hread, map_reader]
  exact hbad

theorem programStatements_eof {κ : Type} [Account κ] {r : Reader κ} (h : r.current.isEof = true)
    (fuel : Nat) (done : List Stmt) : programStatements limit fuel done r = (done.reverse, r) := by
  cases fuel with
  | zero => rfl
  | succ fuel => rw [programStatements, if_pos h]

theorem programStatements_fault {κ : Type} [Account κ] {r : Reader κ}
    (heof : r.current.isEof = false)
    (h : r.diagnostics.size < (statement limit fuel 0 r).2.diagnostics.size) (done : List Stmt) :
    programStatements limit (fuel + 1) done r =
      programStatements limit fuel done (statement limit fuel 0 r).2.skipToBoundary.advance := by
  rw [programStatements, heof, if_neg Bool.false_ne_true]
  exact if_pos h

theorem programStatements_found {κ : Type} [Account κ] {r after : Reader κ}
    {found : Option (Option Stmt)} (heof : r.current.isEof = false)
    (hread : statement limit fuel 0 r = (found, after))
    (h : ¬ r.diagnostics.size < after.diagnostics.size) (done : List Stmt) :
    programStatements limit (fuel + 1) done r =
      programStatements limit fuel (found.join.toList ++ done) after.advance := by
  rw [programStatements, heof, if_neg Bool.false_ne_true, hread]
  refine (if_neg h).trans ?_
  rcases found with _ | _ | b <;> rfl

/-- Faults of a program are not taken back. -/
theorem programStatements_grows (limit fuel : Nat) (done : List Stmt) (r : Reader) :
    r.diagnostics.size ≤ (programStatements limit fuel done r).2.diagnostics.size := by
  induction fuel generalizing done r with
  | zero => exact Nat.le_refl _
  | succ fuel ih =>
      have hstatement : r.diagnostics.size ≤ (statement limit fuel 0 r).2.diagnostics.size :=
        ((tracked default limit 0 fuel).statement (n := 0) 0 (by omega)).grows r
      by_cases heof : r.current.isEof = true
      · have hread : programStatements limit (fuel + 1) done r = (done.reverse, r) :=
          programStatements_eof heof (fuel + 1) done
        exact Nat.le_of_eq (congrArg (fun x => x.2.diagnostics.size) hread).symm
      have heof := Bool.eq_false_iff.mpr heof
      by_cases hsize : r.diagnostics.size < (statement limit fuel 0 r).2.diagnostics.size
      · rw [programStatements_fault heof hsize]
        have hrest := ih done (statement limit fuel 0 r).2.skipToBoundary.advance
        rw [diagnostics_advance, diagnostics_skipToBoundary] at hrest
        exact Nat.le_trans hstatement hrest
      · rw [programStatements_found heof rfl hsize]
        have hrest := ih ((statement limit fuel 0 r).1.join.toList ++ done)
          (statement limit fuel 0 r).2.advance
        rw [diagnostics_advance] at hrest
        exact Nat.le_trans hstatement hrest

/-- The first token of what follows, if it is a semicolon, is passed over. -/
theorem programStatements_semicolon (hsemicolon : s.next.isSign .semicolon = true) (fuel : Nat)
    (done : List Stmt) (ds : Array Diagnostic) :
    programStatements limit (fuel + 1) done (on (s.next :: s.later) ds) =
      programStatements limit fuel done (on (s.next :: s.later) ds).advance := by
  have hkind := kind_of_isSign hsemicolon
  have heof : (on (s.next :: s.later) ds).current.isEof = false := by
    rw [current_on, Token.isEof, hkind]
  cases fuel with
  | zero => exact programStatements_found heof rfl (Nat.lt_irrefl _) done
  | succ fuel =>
      have hread : statement limit (fuel + 1) 0 (on (s.next :: s.later) ds) =
          (some none, on (s.next :: s.later) ds) := by
        rw [statement, counted_eq, current_bind, current_on, hkind]
        rfl
      exact programStatements_found heof hread (Nat.lt_irrefl _) done

theorem getLast?_of_suffix {us us' : List Token} (h : us' <:+ us) (hne : us' ≠ []) :
    us.getLast? = us'.getLast? := by
  obtain ⟨before, rfl⟩ := h
  rw [List.getLast?_append, List.getLast?_eq_some_getLast hne]
  rfl

/-- A fault in a statement is reported to the end. -/
theorem programStatements_reports {r : Reader} (heof : r.current.isEof = false)
    (h : r.diagnostics.size < (statement limit fuel 0 r).2.diagnostics.size) (done : List Stmt) :
    r.diagnostics.size < (programStatements limit (fuel + 1) done r).2.diagnostics.size := by
  have hgrows := programStatements_grows limit fuel done
    (statement limit fuel 0 r).2.skipToBoundary.advance
  rw [diagnostics_advance, diagnostics_skipToBoundary] at hgrows
  rw [programStatements_fault heof h]
  exact Nat.lt_of_lt_of_le h hgrows

/-- Where statements are kept the latest first, one found before others is kept right before
those of an earlier text. -/
theorem reverse_map_found (g : Stmt → Stmt) (found : Option Stmt) (ss done : List Stmt) :
    ((found.toList ++ ss).map g).reverse ++ done =
      (ss.map g).reverse ++ ((found.map g).toList ++ done) := by
  cases found with
  | none => rfl
  | some st =>
      rw [Option.toList_some, List.singleton_append, List.map_cons, List.reverse_cons,
        List.append_assoc]
      rfl

/-- The statements of a text by itself are read as well where another text
follows, and reading comes to that text; the last token is one that can be read. -/
theorem programStatements_joined (s : Seam) (limit more : Nat)
    (hreal : ∀ t ∈ s.tokens, t.isEof = false) {fuel : Nat} {us : List Token}
    (hus : us <:+ s.tokens) (hfuel : 8 * us.length + 6 ≤ fuel) (done : List Stmt)
    (ds ds' : Array Diagnostic)
    (hclean : (programStatements limit fuel done (s.alone us ds)).2.diagnostics.size ≤ ds.size) :
    ∃ ss left, (programStatements limit fuel done (s.alone us ds)).1 = done.reverse ++ ss ∧
      more + fuel ≤ left + us.length ∧ (∀ t, us.getLast? = some t → t.stops = false) ∧
      ∀ done', programStatements limit (more + fuel) done' (s.joined us ds') =
        programStatements limit left ((ss.map (Stmt.recast (.below s.lines))).reverse ++ done')
          (on (s.next :: s.later) ds') := by
  -- By induction on the calls left for the first text alone: the clean reading of it leads, and
  -- the joined one keeps in step.
  induction fuel generalizing us done with
  | zero => omega
  | succ fuel ih =>
      cases us with
      | nil =>
          have heof : (s.alone [] ds).current.isEof = true := s.final_eof
          refine ⟨[], more + (fuel + 1), ?_, Nat.le_refl _, (fun _ h => by cases h), fun _ => rfl⟩
          rw [programStatements_eof heof, List.append_nil]
      | cons t ts =>
          have hread := hreal t (hus.subset List.mem_cons_self)
          have heof : (s.alone (t :: ts) ds).current.isEof = false := by
            rw [current_alone]
            exact hread
          have heof' : (s.joined (t :: ts) ds').current.isEof = false := by
            rw [current_joined, Token.isEof_below]
            exact hread
          rw [List.length_cons] at hfuel
          have hstep := ((tracked s limit more fuel).statement
            (n := (t :: ts).length + 1) 0 (by rw [List.length_cons]; omega)).tracks _ trivial hus
              (Nat.lt_succ_self _) ds ds'
          rcases hstep with hbad | ⟨found, us', r, hp, hq, hlands, hstands, hsuffix⟩
          · have hsize : (s.alone (t :: ts) ds).diagnostics.size <
                (statement limit fuel 0 (s.alone (t :: ts) ds)).2.diagnostics.size := by
              rw [diagnostics_alone]
              exact hbad
            have hreports := programStatements_reports heof hsize done
            rw [diagnostics_alone] at hreports
            exact absurd hclean (Nat.not_le_of_lt hreports)
          obtain ⟨u, rest, rfl, hu⟩ := hstands
          have hinner := (List.suffix_cons u rest).trans hsuffix
          have hshort := hsuffix.length_le
          rw [List.length_cons, List.length_cons] at hshort
          have hkept : ¬ (s.alone (t :: ts) ds).diagnostics.size <
              (s.alone (u :: rest) ds).diagnostics.size := by
            rw [diagnostics_alone, diagnostics_alone]
            exact Nat.lt_irrefl _
          have hfound := fun done => programStatements_found heof hp hkept done
          simp only [advance_alone] at hfound
          rw [hfound] at hclean ⊢
          have hsame : ¬ (s.joined (t :: ts) ds').diagnostics.size < r.diagnostics.size := by
            rcases hlands with rfl | ⟨-, -, -, rfl⟩
            · rw [diagnostics_joined, diagnostics_joined]
              exact Nat.lt_irrefl _
            · rw [diagnostics_joined, diagnostics_on]
              exact Nat.lt_irrefl _
          have hfound' := fun done' => programStatements_found heof' hq hsame done'
          -- Either both stop inside the first text, or this statement was its last.
          rcases hlands with rfl | ⟨-, hone, hsemicolon, rfl⟩
          · obtain ⟨ss, left, hss, hleft, hlast, hjoined⟩ :=
              ih (hinner.trans hus) (by omega) _ hclean
            refine ⟨found.toList ++ ss, left, ?_,
              by rw [List.length_cons]; omega, ?_, fun done' => ?_⟩
            · rw [hss]
              cases found <;> simp
            · intro t' ht'
              rw [getLast?_of_suffix hsuffix (List.cons_ne_nil _ _)] at ht'
              cases rest with
              | nil =>
                  obtain rfl := Option.some.inj ht'
                  exact hu
              | cons v vs => exact hlast t' ht'
            · rw [reverse_map_found, ← hjoined]
              refine (hfound' done').trans ?_
              rw [advance_joined]
              rfl
          · obtain rfl := List.length_eq_zero_iff.mp (Nat.succ.inj hone)
            refine ⟨found.toList, more + fuel + 1, ?_, by omega, ?_, fun done' => ?_⟩
            · rw [programStatements_eof
                (show (s.alone [] ds).current.isEof = true from s.final_eof)]
              cases found <;> simp
            · intro t' ht'
              rw [getLast?_of_suffix hsuffix (List.cons_ne_nil _ _)] at ht'
              obtain rfl := Option.some.inj ht'
              exact hu
            · have hnone := reverse_map_found (Stmt.recast (.below s.lines)) found [] done'
              rw [List.append_nil] at hnone
              rw [hnone, programStatements_semicolon hsemicolon]
              exact hfound' done'

end Scriptlet.Seam
