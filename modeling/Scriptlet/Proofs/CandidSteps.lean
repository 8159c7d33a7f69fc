/-
The functions of the parser are candid, each with calls enough for the tokens that
are left: an induction on the number of calls, with one lemma for each function.
-/
import Scriptlet.Proofs.Candid

namespace Scriptlet.Parser

open Parse Seam Reader

variable {n : Nat}

theorem candid_optionalHint : Candid n (Behind HintSpelt) optionalHint optionalHint := by
  refine .branch (fun r => Candid.isEof_of_isSign) (fun hn => .advance (by omega) ?_)
    fun _ => .pure fun r => ⟨[], rfl, .none⟩
  refine .expectName_bind fun _ i => .pure ?_
  intro m m' hname hi hcoming r hmoves hcolon
  refine ⟨[m'.current, m.current], ?_, ?_⟩
  · rw [hmoves.coming (Candid.isEof_of_isSign hcolon), hcoming]
    rfl
  · rw [hi]
    exact .some (by rw [hmoves.current]; exact hcolon) hname

theorem candid_moreParams (more : Nat) {fuel : Nat} (hfuel : 8 * n ≤ fuel + 7) (done : List Param) :
    Candid n (Behind fun ps ts => ∃ qs, ps = done ++ qs ∧ ParamsSpelt qs ts)
      (moreParams fuel done) (moreParams (more + fuel) done) := by
  induction fuel generalizing n done with
  | zero => exact .of_zero (by omega)
  | succ fuel ih =>
      change Candid n _ _ (moreParams (more + fuel + 1) _)
      rw [moreParams, moreParams]
      refine .expectName_bind fun _ ident => ?_
      refine .ite (fun _ => .refuse_bind _ _ _) fun _ => candid_optionalHint.bind fun hint => ?_
      dsimp only
      refine .branch (fun r => Candid.isEof_of_isSign) (fun hn => .advance (by omega) ?_)
        fun _ => (Candid.expect _).bind fun _ => .pure ?_
      · refine .branch (fun r => Candid.isEof_of_isSign)
          (fun hn => .advance (by omega) (.pure ?_)) fun _ => (ih (by omega) _).imp ?_
        · intro m₄ m₃ hclose hparen m₂ hcomma hsign m₁ hhint r hname hi hcoming
          obtain ⟨hs, hhs, hspelt⟩ := hhint
          refine ⟨m₁.current :: (hs ++ m₃.current :: [m₄.current]), ?_, [⟨ident, hint⟩], rfl, ?_⟩
          · rw [hcoming, hhs, hcomma.coming (Candid.isEof_of_isSign hsign),
              hclose.coming (Candid.isEof_of_isSign hparen)]
            simp
          · rw [hi]
            refine .more hname hspelt ?_ (.close ?_)
            · rw [hcomma.current]
              exact hsign
            · rw [hclose.current]
              exact hparen
        · intro m₃ ps r' hmore m₂ hcomma hsign m₁ hhint r hname hi hcoming
          obtain ⟨hs, hhs, hspelt⟩ := hhint
          obtain ⟨ts, hts, qs, hps, hqs⟩ := hmore
          refine ⟨m₁.current :: (hs ++ m₃.current :: ts), ?_, ⟨ident, hint⟩ :: qs, ?_, ?_⟩
          · rw [hcoming, hhs, hcomma.coming (Candid.isEof_of_isSign hsign), hts]
            simp
          · rw [hps, List.append_assoc]
            rfl
          · rw [hi]
            exact .more hname hspelt (by rw [hcomma.current]; exact hsign) hqs
      · intro m₃ m₂ hclose m₁ hhint r hname hi hcoming
        obtain ⟨hs, hhs, hspelt⟩ := hhint
        refine ⟨m₁.current :: (hs ++ [m₃.current]), ?_, [⟨ident, hint⟩], rfl, ?_⟩
        · rw [hcoming, hhs, hclose.2]
          simp
        · rw [hi]
          exact .last hname hspelt hclose.1

theorem candid_params (more : Nat) {fuel : Nat} (hfuel : 8 * n ≤ fuel + 7) :
    Candid n (Behind ParamsSpelt) (params fuel) (params (more + fuel)) := by
  refine .branch (fun _ => Candid.isEof_of_isSign) (fun hn => .advance (by omega) (.pure ?_))
    fun _ => (candid_moreParams more hfuel []).imp ?_
  · intro m r hmoves hsign
    refine ⟨[m.current], hmoves.coming (Candid.isEof_of_isSign hsign), .close ?_⟩
    rw [hmoves.current]
    exact hsign
  · rintro r ps r' ⟨ts, hts, qs, rfl, hqs⟩
    exact ⟨ts, hts, hqs⟩

/-- What has been read from the current token on, where that is as `c` says. -/
def At {α : Type} (c : Token → Bool) (S : α → List Token → Prop) (r : Reader) (a : α)
    (r' : Reader) : Prop :=
  c r.current = true → ∃ ts, r.coming = ts ++ r'.coming ∧ S a (r.current :: ts)

/-- What has been read of a choice from the keyword of a branch on. -/
def ChoiceAt (start : Position) (done : List Branch) (r : Reader) (s : Stmt) (r' : Reader) : Prop :=
  ∀ k, r.current.isKeyword k = true → ∃ bs otherwise ts us,
    s = .choose start (done.reverse ++ bs) otherwise ∧ r.coming = ts ++ us ++ r'.coming ∧
      BranchesSpelt k bs (r.current :: ts) ∧ ElseSpelt otherwise us

/-- Whether all readings with a number of calls are candid, and come to the same
with more calls, at as many tokens as the calls are enough for. -/
structure AllCandid (limit more fuel : Nat) : Prop where
  expression : ∀ {n : Nat} (nesting precedence : Nat), 8 * n ≤ fuel + 5 →
    Candid n (From ExprSpelt) (expression limit fuel nesting precedence)
      (expression limit (more + fuel) nesting precedence)
  operand : ∀ {n : Nat} (nesting : Nat), 8 * n ≤ fuel + 6 →
    Candid n (From ExprSpelt) (operand limit fuel nesting) (operand limit (more + fuel) nesting)
  continued : ∀ {n : Nat} (nesting precedence : Nat) (left : Expr), 8 * n ≤ fuel + 6 →
    Candid n (Behind fun e ts => ∀ us, ExprSpelt left us → ExprSpelt e (us ++ ts))
      (continued limit fuel nesting precedence left)
      (continued limit (more + fuel) nesting precedence left)
  extended : ∀ {n : Nat} (nesting : Nat) (left : Expr), 8 * n ≤ fuel + 6 →
    Candid n (From fun e ts => ∀ us, ExprSpelt left us → ExprSpelt e (us ++ ts))
      (extended limit fuel nesting left) (extended limit (more + fuel) nesting left)
  expressions : ∀ {n : Nat} (nesting : Nat) (closing : Sign), 1 < n → 8 * n ≤ fuel + 7 →
    Candid n (Behind (ItemsSpelt closing)) (expressions limit fuel nesting closing)
      (expressions limit (more + fuel) nesting closing)
  moreExpressions : ∀ {n : Nat} (nesting : Nat) (closing : Sign) (done : List Expr),
    8 * n ≤ fuel + 7 →
    Candid n (Behind fun es ts => ∃ es', es = done.reverse ++ es' ∧
        ∀ e us, ExprSpelt e us → ItemsSpelt closing (e :: es') (us ++ ts))
      (moreExpressions limit fuel nesting closing done)
      (moreExpressions limit (more + fuel) nesting closing done)
  block : ∀ {n : Nat} (nesting : Nat), 1 < n → 8 * n ≤ fuel + 7 →
    Candid n (At (·.isSign .leftBrace) BlockSpelt) (block limit fuel nesting)
      (block limit (more + fuel) nesting)
  blockStatements : ∀ {n : Nat} (nesting : Nat) (opened : Position) (done : List Stmt),
    8 * n ≤ fuel + 2 →
    Candid n (Inside fun ss ts => ∃ ss', ss = done.reverse ++ ss' ∧ LinesSpelt ss' ts)
      (blockStatements limit fuel nesting opened done)
      (blockStatements limit (more + fuel) nesting opened done)
  statement : ∀ {n : Nat} (nesting : Nat), 8 * n ≤ fuel + 3 →
    Candid n (From fun found ts => LinesSpelt found.toList ts) (statement limit fuel nesting)
      (statement limit (more + fuel) nesting)
  expressionStatement : ∀ {n : Nat} (nesting : Nat), 8 * n ≤ fuel + 4 →
    Candid n (From StmtSpelt) (expressionStatement limit fuel nesting)
      (expressionStatement limit (more + fuel) nesting)
  function : ∀ {n : Nat} (nesting : Nat), 8 * n ≤ fuel + 4 →
    Candid n (At (·.isKeyword .fnWord) FuncSpelt) (function limit fuel nesting)
      (function limit (more + fuel) nesting)
  classStatement : ∀ {n : Nat} (nesting : Nat), 8 * n ≤ fuel + 4 →
    Candid n (At (·.isKeyword .classWord) StmtSpelt) (classStatement limit fuel nesting)
      (classStatement limit (more + fuel) nesting)
  classMethods : ∀ {n : Nat} (nesting : Nat) (opened : Position) (done : List Func),
    8 * n ≤ fuel + 3 →
    Candid n (Inside fun fs ts => ∃ fs', fs = done.reverse ++ fs' ∧ MethodsSpelt fs' ts)
      (classMethods limit fuel nesting opened done)
      (classMethods limit (more + fuel) nesting opened done)
  choice : ∀ {n : Nat} (nesting : Nat) (start : Position) (done : List Branch), 1 < n →
    8 * n ≤ fuel + 4 →
    Candid n (ChoiceAt start done) (choice limit fuel nesting start done)
      (choice limit (more + fuel) nesting start done)

variable {limit more fuel : Nat}

theorem allCandid_zero (limit more : Nat) : AllCandid limit more 0 where
  expression _ _ h := .of_zero (by omega)
  operand _ h := .of_zero (by omega)
  continued _ _ _ h := .of_zero (by omega)
  extended _ _ h := .of_zero (by omega)
  expressions _ _ _ h := .of_zero (by omega)
  moreExpressions _ _ _ h := .of_zero (by omega)
  block _ _ h := .of_zero (by omega)
  blockStatements _ _ _ h := .of_zero (by omega)
  statement _ h := .of_zero (by omega)
  expressionStatement _ h := .of_zero (by omega)
  function _ h := .of_zero (by omega)
  classStatement _ h := .of_zero (by omega)
  classMethods _ _ _ h := .of_zero (by omega)
  choice _ _ _ _ h := .of_zero (by omega)

theorem candid_expression (h : AllCandid limit more fuel) (nesting precedence : Nat)
    (hfuel : 8 * n ≤ fuel + 1 + 5) :
    Candid n (From ExprSpelt) (expression limit (fuel + 1) nesting precedence)
      (expression limit (more + fuel + 1) nesting precedence) := by
  intro r hr hroom
  by_cases hdeep : limit ≤ nesting
  · rw [expression_refused hdeep, expression_refused hdeep]
    have hrecorded : (r.record .tooDeep r.current.position).Ends := hr
    have hskipped := Reader.Leads.skipToBoundary hrecorded ()
    have hgrown := refuse_grows (α := Expr) .tooDeep r.current.position r
    refine ⟨rfl, ⟨hskipped.behind, hskipped.room, ?_, fun _ => ?_⟩,
      fun _ _ hread _ => (Candid.unread hread).elim⟩
    · exact Nat.le_trans (Nat.le_of_lt hgrown) hskipped.grows
    · exact Nat.lt_of_lt_of_le hgrown hskipped.grows
  · rw [expression_parts hdeep, expression_parts hdeep]
    have hparts : Candid n (From ExprSpelt)
        (operand limit fuel (nesting + 1) >>= fun left =>
          continued limit fuel (nesting + 1) precedence left)
        (operand limit (more + fuel) (nesting + 1) >>= fun left =>
          continued limit (more + fuel) (nesting + 1) precedence left) := by
      refine (h.operand _ (by omega)).bind fun left => (h.continued _ _ left (by omega)).imp ?_
      rintro m e r' ⟨us, hus, hlonger⟩ r ⟨heof, ts, hts, hleft⟩
      refine ⟨heof, ts ++ us, ?_, hlonger _ hleft⟩
      rw [hts, hus, List.append_assoc]
    exact hparts r hr hroom

theorem candid_operand (h : AllCandid limit more fuel) (nesting : Nat)
    (hfuel : 8 * n ≤ fuel + 1 + 6) :
    Candid n (From ExprSpelt) (operand limit (fuel + 1) nesting)
      (operand limit (more + fuel + 1) nesting) := by
  rw [operand, operand]
  refine .current fun t ht => ?_
  have hword : ∀ {e : Expr}, t.isEof = false → ExprSpelt e [t] → Candid n
      (fun r b r' => r.current = t → From ExprSpelt r b r') (Pure.pure e) (Pure.pure e) := by
    intro e heof he
    refine .pure fun r hcurrent => ?_
    rw [← hcurrent] at heof he
    exact ⟨heof, [], rfl, he⟩
  -- The operand behind a sign is read with one call less, from the token behind it.
  have hunary : ∀ op : UnaryOp, t.isSign op.sign = true → Candid n
      (fun r b r' => r.current = t → From ExprSpelt r b r')
      (advance >>= fun _ => expression limit fuel nesting unaryPrecedence >>= fun e =>
        Pure.pure (Expr.unary t.position op e))
      (advance >>= fun _ => expression limit (more + fuel) nesting unaryPrecedence >>= fun e =>
        Pure.pure (Expr.unary t.position op e)) := by
    intro op hsign
    have heof := Candid.isEof_of_isSign hsign
    refine .advance (ht heof)
      ((h.expression _ _ (by have := ht heof; omega)).bind fun e => .pure ?_)
    rintro m₂ m₁ ⟨hstart, ts, hts, he⟩ r hmoves hcurrent
    rw [hmoves.current] at hstart he
    rw [← hcurrent] at heof hsign ⊢
    refine ⟨heof, r.ahead :: ts, ?_, .unary hsign he⟩
    rw [hmoves.coming hstart, hts, hmoves.current]
    rfl
  rw [Token.isEof] at ht
  cases hkind : t.kind with
  | name capital =>
      exact hword (by rw [Token.isEof, hkind]) (.name (t := t) (by rw [Token.isName, hkind]))
  | int value => exact hword (by rw [Token.isEof, hkind]) (.int hkind)
  | float value => exact hword (by rw [Token.isEof, hkind]) (.float hkind)
  | str => exact hword (by rw [Token.isEof, hkind]) (.str hkind)
  | illegal reason => exact .refuseToken t
  | eof => exact .refuseToken t
  | keyword k =>
      have heof : t.isEof = false := by rw [Token.isEof, hkind]
      cases k with
      | trueWord => exact hword heof (.trueWord (Candid.isKeyword_self hkind))
      | falseWord => exact hword heof (.falseWord (Candid.isKeyword_self hkind))
      | nullWord => exact hword heof (.nullWord (Candid.isKeyword_self hkind))
      | fnWord =>
          refine .expect_bind _ fun hn => (candid_params more (by omega)).bind fun ps => ?_
          refine .expect_bind _ fun hn' => (h.block _ (by omega) (by omega)).bind fun body => ?_
          refine .pure ?_
          intro m₄ m₃ hbody m₂ hbrace hopen m₁ hparams r hparen hcoming hcurrent
          obtain ⟨us, hus, hblock⟩ := hbody hbrace
          obtain ⟨ts, hts, hps⟩ := hparams
          subst hcurrent
          refine ⟨heof, m₁.current :: (ts ++ m₃.current :: us), ?_, ?_⟩
          · rw [hcoming, hts, hopen, hus]
            simp
          · exact .lambda (Candid.isKeyword_self hkind) hparen hps hblock
      | _ => exact .refuseToken t
  | sign s =>
      have hn : 1 < n := ht (by rw [hkind])
      have heof : t.isEof = false := by rw [Token.isEof, hkind]
      cases s with
      | leftBracket =>
          refine (h.expressions _ _ hn (by omega)).bind fun items => .pure ?_
          rintro m r ⟨ts, hts, hitems⟩ rfl
          exact ⟨heof, ts, hts, .list (isSign_self hkind) hitems⟩
      | leftParen =>
          refine .advance hn ((h.expression _ _ (by omega)).bind fun inner => ?_)
          refine (Candid.expect _).bind fun _ => .pure ?_
          rintro m₃ m₂ ⟨hclose, hthird⟩ m₁ ⟨hstart, ts, hts, he⟩ r hmoves rfl
          rw [hmoves.current] at hstart he
          refine ⟨heof, r.ahead :: (ts ++ [m₃.current]), ?_, ?_⟩
          · rw [hmoves.coming hstart, hts, hthird, hmoves.current]
            simp
          · exact .parens (isSign_self hkind) he hclose
      | bang => exact hunary .invert (isSign_self hkind)
      | minus => exact hunary .negate (isSign_self hkind)
      | plus => exact hunary .posit (isSign_self hkind)
      | _ => exact .refuseToken t

/-- An expression goes on only before a token other than the end of input. -/
theorem isEof_of_continuesAt {precedence : Nat} (r : Reader)
    (h : continuesAt precedence r = true) : r.ahead.isEof = false := by
  rw [continuesAt, Bool.and_eq_true, decide_eq_true_eq] at h
  have hstops := stops_of_precedence (Nat.lt_of_le_of_lt (Nat.zero_le _) h.1)
  rw [Token.stops, Bool.or_eq_false_iff] at hstops
  exact hstops.1

theorem candid_continued (h : AllCandid limit more fuel) (nesting precedence : Nat) (left : Expr)
    (hfuel : 8 * n ≤ fuel + 1 + 6) :
    Candid n (Behind fun e ts => ∀ us, ExprSpelt left us → ExprSpelt e (us ++ ts))
      (continued limit (fuel + 1) nesting precedence left)
      (continued limit (more + fuel + 1) nesting precedence left) := by
  rw [continued, continued]
  refine .branch isEof_of_continuesAt (fun hn => .advance (by omega) ?_) fun _ => .pure ?_
  · refine (h.extended _ _ (by omega)).bind fun longer => (h.continued _ _ longer (by omega)).imp ?_
    rintro m₂ e r' ⟨us, hus, hrest⟩ m₁ ⟨hstart, ts, hts, hlonger⟩ r hmoves -
    rw [hmoves.current] at hstart hlonger
    refine ⟨r.ahead :: (ts ++ us), ?_, fun vs hvs => ?_⟩
    · rw [hmoves.coming hstart, hts, hus, hmoves.current]
      simp
    · have hall := hrest _ (hlonger vs hvs)
      rwa [List.append_assoc] at hall
  · intro r
    refine ⟨[], rfl, fun us hus => ?_⟩
    rw [List.append_nil]
    exact hus

theorem candid_extended (h : AllCandid limit more fuel) (nesting : Nat) (left : Expr)
    (hfuel : 8 * n ≤ fuel + 1 + 6) :
    Candid n (From fun e ts => ∀ us, ExprSpelt left us → ExprSpelt e (us ++ ts))
      (extended limit (fuel + 1) nesting left) (extended limit (more + fuel + 1) nesting left) := by
  rw [extended, extended]
  refine .current fun t ht => ?_
  rw [Token.isEof] at ht
  cases hkind : t.kind with
  | sign s =>
      have hn : 1 < n := ht (by rw [hkind])
      have heof : t.isEof = false := by rw [Token.isEof, hkind]
      -- Tokens of what stood on the left come first, so they are appended to and not looked at.
      have hbinary : ∀ op : BinaryOp, t.isSign op.sign = true → Candid n
          (fun r b r' => r.current = t →
            From (fun e ts => ∀ us, ExprSpelt left us → ExprSpelt e (us ++ ts)) r b r')
          (advance >>= fun _ => expression limit fuel nesting op.precedence >>= fun right =>
            Pure.pure (Expr.binary t.position op left right))
          (advance >>= fun _ => expression limit (more + fuel) nesting op.precedence >>=
            fun right =>
            Pure.pure (Expr.binary t.position op left right)) := by
        intro op hsign
        refine .advance hn ((h.expression _ _ (by omega)).bind fun right => .pure ?_)
        rintro m₂ m₁ ⟨hstart, ts, hts, he⟩ r hmoves rfl
        rw [hmoves.current] at hstart he
        refine ⟨heof, r.ahead :: ts, ?_, fun us hus => .binary hus hsign he⟩
        rw [hmoves.coming hstart, hts, hmoves.current]
        rfl
      cases s with
      | leftParen =>
          refine (h.expressions _ _ hn (by omega)).bind fun args => .pure ?_
          rintro m r ⟨ts, hts, hargs⟩ rfl
          exact ⟨heof, ts, hts, fun us hus => .call hus (isSign_self hkind) hargs⟩
      | leftBracket =>
          refine .advance hn ((h.expression _ _ (by omega)).bind fun subscript => ?_)
          refine (Candid.expect _).bind fun _ => .pure ?_
          rintro m₃ m₂ ⟨hclose, hthird⟩ m₁ ⟨hstart, ts, hts, he⟩ r hmoves rfl
          rw [hmoves.current] at hstart he
          refine ⟨heof, r.ahead :: (ts ++ [m₃.current]), ?_, fun us hus => ?_⟩
          · rw [hmoves.coming hstart, hts, hthird, hmoves.current]
            simp
          · exact .index hus (isSign_self hkind) he hclose
      | dot =>
          refine .expectName_bind fun _ field => .branch (fun r hc => ?_) (fun hn' => ?_)
            fun _ => .pure ?_
          · exact Candid.isEof_of_isSign (Bool.and_eq_true_iff.mp hc).1
          · refine .advance (by omega) ?_
            refine (h.expressions _ _ (by omega) (by omega)).bind fun args => .pure ?_
            rintro m₃ m₂ ⟨ts, hts, hargs⟩ m₁ hmoves hc r hname hfield hcoming rfl
            have hparen := (Bool.and_eq_true_iff.mp hc).1
            refine ⟨heof, m₁.current :: m₁.ahead :: ts, ?_, fun us hus => ?_⟩
            · rw [hcoming, hmoves.coming (Candid.isEof_of_isSign hparen), hts, hmoves.current]
              rfl
            · rw [hfield]
              exact .method hus (isSign_self hkind) hname hparen hargs
          · intro m r hname hfield hcoming hcurrent
            subst hcurrent
            refine ⟨heof, [m.current], hcoming, fun us hus => ?_⟩
            rw [hfield]
            exact .member hus (isSign_self hkind) hname
      | plus => exact hbinary .add (isSign_self hkind)
      | minus => exact hbinary .sub (isSign_self hkind)
      | star => exact hbinary .mul (isSign_self hkind)
      | slash => exact hbinary .div (isSign_self hkind)
      | percent => exact hbinary .mod (isSign_self hkind)
      | less => exact hbinary .less (isSign_self hkind)
      | greater => exact hbinary .greater (isSign_self hkind)
      | lessEq => exact hbinary .lessEq (isSign_self hkind)
      | greaterEq => exact hbinary .greaterEq (isSign_self hkind)
      | equal => exact hbinary .equal (isSign_self hkind)
      | notEqual => exact hbinary .notEqual (isSign_self hkind)
      | both => exact hbinary .both (isSign_self hkind)
      | either => exact hbinary .either (isSign_self hkind)
      | _ => exact .refuseToken t
  | _ => exact .refuseToken t

theorem candid_expressions (h : AllCandid limit more fuel) (nesting : Nat) (closing : Sign)
    (hn : 1 < n) (hfuel : 8 * n ≤ fuel + 1 + 7) :
    Candid n (Behind (ItemsSpelt closing)) (expressions limit (fuel + 1) nesting closing)
      (expressions limit (more + fuel + 1) nesting closing) := by
  rw [expressions, expressions]
  refine .branch (fun r => Candid.isEof_of_isSign) (fun _ => .advance hn (.pure ?_)) fun _ =>
    .advance hn ?_
  · intro m r hmoves hsign
    refine ⟨[m.current], hmoves.coming (Candid.isEof_of_isSign hsign), .close ?_⟩
    rw [hmoves.current]
    exact hsign
  · refine (h.expression _ _ (by omega)).bind fun first =>
      (h.moreExpressions _ _ [first] (by omega)).imp ?_
    rintro m₂ es r' ⟨us, hus, es', rfl, hmore⟩ m₁ ⟨hstart, ts, hts, he⟩ r hmoves
    rw [hmoves.current] at hstart he
    refine ⟨r.ahead :: ts ++ us, ?_, hmore first _ he⟩
    rw [hmoves.coming hstart, hts, hus, hmoves.current]
    simp

theorem candid_moreExpressions (h : AllCandid limit more fuel) (nesting : Nat) (closing : Sign)
    (done : List Expr) (hfuel : 8 * n ≤ fuel + 1 + 7) :
    Candid n (Behind fun es ts => ∃ es', es = done.reverse ++ es' ∧
        ∀ e us, ExprSpelt e us → ItemsSpelt closing (e :: es') (us ++ ts))
      (moreExpressions limit (fuel + 1) nesting closing done)
      (moreExpressions limit (more + fuel + 1) nesting closing done) := by
  rw [moreExpressions, moreExpressions]
  refine .branch (fun r => Candid.isEof_of_isSign) (fun hn => .advance (by omega) ?_)
    fun _ => (Candid.expect _).bind fun _ => .pure ?_
  · refine .branch (fun r => Candid.isEof_of_isSign)
      (fun hn' => .advance (by omega) (.pure ?_)) fun _ => .advance (by omega) ?_
    · intro m₂ m₁ hclose hclosing r hcomma hsign
      refine ⟨[m₁.current, m₂.current], ?_, [], ?_, fun e us he => ?_⟩
      · rw [hcomma.coming (Candid.isEof_of_isSign hsign),
          hclose.coming (Candid.isEof_of_isSign hclosing)]
        rfl
      · rw [List.append_nil]
      · refine .more he ?_ (.close ?_)
        · rw [hcomma.current]
          exact hsign
        · rw [hclose.current]
          exact hclosing
    · refine (h.expression _ _ (by omega)).bind fun item =>
        (h.moreExpressions _ _ (item :: done) (by omega)).imp ?_
      rintro m₃ es r' ⟨us, hus, es', rfl, hmore⟩ m₂
        ⟨hstart, ts, hts, hitem⟩ m₁ hmoves r hcomma hsign
      rw [hmoves.current] at hstart hitem
      refine ⟨m₁.current :: m₁.ahead :: (ts ++ us), ?_, item :: es', ?_, fun e vs he => ?_⟩
      · rw [hcomma.coming (Candid.isEof_of_isSign hsign), hmoves.coming hstart, hts, hus,
          hmoves.current]
        simp
      · simp
      · exact .more he (by rw [hcomma.current]; exact hsign) (hmore item _ hitem)
  · rintro m r ⟨hclose, hcoming⟩
    refine ⟨[m.current], hcoming, [], ?_, fun e us he => .last he hclose⟩
    rw [List.append_nil]

theorem candid_block (h : AllCandid limit more fuel) (nesting : Nat) (hn : 1 < n)
    (hfuel : 8 * n ≤ fuel + 1 + 7) :
    Candid n (At (·.isSign .leftBrace) BlockSpelt) (block limit (fuel + 1) nesting)
      (block limit (more + fuel + 1) nesting) := by
  rw [block, block, counted_eq, counted_eq]
  refine .current fun opening _ => .advance hn ?_
  refine (h.blockStatements _ opening.position [] (by omega)).bind fun statements => .pure ?_
  rintro m₂ m₁ ⟨hstart, hclose, ts, hts, ss, rfl, hss⟩ r hmoves rfl hopen
  rw [hmoves.current] at hstart
  refine ⟨ts ++ [m₂.current], ?_, .mk hopen hss hclose⟩
  rw [hmoves.coming hstart, hts]
  simp

theorem candid_blockStatements (h : AllCandid limit more fuel) (nesting : Nat) (opened : Position)
    (done : List Stmt) (hfuel : 8 * n ≤ fuel + 1 + 2) :
    Candid n (Inside fun ss ts => ∃ ss', ss = done.reverse ++ ss' ∧ LinesSpelt ss' ts)
      (blockStatements limit (fuel + 1) nesting opened done)
      (blockStatements limit (more + fuel + 1) nesting opened done) := by
  rw [blockStatements, blockStatements]
  refine .look fun r₀ hn => .ite (fun hbrace => .pure ?_) fun _ =>
    .ite (fun _ => .refuse _ _) fun heof => ?_
  · rintro r rfl
    exact ⟨Candid.isEof_of_isSign hbrace, hbrace, [], rfl, [], (List.append_nil _).symm, .nil⟩
  have heof' := Bool.eq_false_iff.mpr heof
  have hbig := hn heof'
  have hpast : ∀ {m₁ m : Reader} {r : Reader} {ts : List Token} {r' : Reader} {us : List Token},
      r.coming = ts ++ m₁.coming → m₁.Moves m → m.current.isEof = false →
      m.current :: m.coming = us ++ r'.current :: r'.coming →
      r.current :: r.coming = r.current :: ts ++ us ++ r'.current :: r'.coming := by
    intro m₁ m r ts r' us hts hmoves hstart hus
    rw [hts, hmoves.coming (by rw [← hmoves.current]; exact hstart), hus]
    simp
  refine .attempt (h.statement _ (by omega)) (U := fun _ _ _ => True) ?_ fun found => ?_
  · refine Candid.recover.bind fun _ => .look fun boundary _ =>
      .ite (fun _ => .pure fun _ _ _ _ => trivial) fun _ => ?_
    exact .advance (by omega)
      ((h.blockStatements _ _ _ (by omega)).imp fun _ _ _ _ _ _ _ _ _ => trivial)
  · refine .advance (by omega) ?_
    cases found with
    | none =>
        refine (h.blockStatements _ _ _ (by omega)).imp ?_
        rintro m ss r' ⟨hstart, hclose, us, hus, ss', rfl, hss⟩ m₁ hmoves r ⟨-, ts, hts, hline⟩ rfl
        exact ⟨heof', hclose, r.current :: ts ++ us, hpast hts hmoves hstart hus, ss', rfl,
          hline.append hss⟩
    | some s =>
        refine (h.blockStatements _ _ _ (by omega)).imp ?_
        rintro m ss r' ⟨hstart, hclose, us, hus, ss', rfl, hss⟩ m₁ hmoves r ⟨-, ts, hts, hline⟩ rfl
        refine ⟨heof', hclose, r.current :: ts ++ us, hpast hts hmoves hstart hus, s :: ss', ?_,
          hline.append hss⟩
        simp

theorem candid_statement (h : AllCandid limit more fuel) (nesting : Nat)
    (hfuel : 8 * n ≤ fuel + 1 + 3) :
    Candid n (From fun found ts => LinesSpelt found.toList ts) (statement limit (fuel + 1) nesting)
      (statement limit (more + fuel + 1) nesting) := by
  rw [statement, statement, counted_eq, counted_eq]
  refine .current fun t ht => ?_
  -- What begins with no keyword of a statement is read as an expression.
  have hexpression : Candid n
      (fun r b r' => r.current = t → From (fun found ts => LinesSpelt found.toList ts) r b r')
      (expressionStatement limit fuel nesting >>= fun s => Pure.pure (some s))
      (expressionStatement limit (more + fuel) nesting >>= fun s => Pure.pure (some s)) := by
    refine (h.expressionStatement _ (by omega)).bind fun s => .pure ?_
    rintro m r ⟨heof, ts, hts, hs⟩ -
    exact ⟨heof, ts, hts, hs.line⟩
  rw [Token.isEof] at ht
  cases hkind : t.kind with
  | sign s =>
      cases s with
      | semicolon =>
          refine .pure ?_
          rintro r rfl
          exact ⟨by rw [Token.isEof, hkind], [], rfl, .empty (isSign_self hkind) .nil⟩
      | _ => exact hexpression
  | keyword k =>
      have hn : 1 < n := ht (by rw [hkind])
      have heof : t.isEof = false := by rw [Token.isEof, hkind]
      have hword : t.isKeyword k = true := Candid.isKeyword_self hkind
      cases k with
      | fnWord =>
          refine .look fun r _ => .ite (fun _ => ?_) fun _ => hexpression.imp fun _ _ _ hs _ => hs
          refine (h.function _ (by omega)).bind fun f => .pure ?_
          rintro m r hf - rfl
          obtain ⟨ts, hts, hspelt⟩ := hf hword
          exact ⟨heof, ts, hts, (StmtSpelt.declare hspelt).line⟩
      | classWord =>
          refine (h.classStatement _ (by omega)).bind fun s => .pure ?_
          rintro m r hs rfl
          obtain ⟨ts, hts, hspelt⟩ := hs hword
          exact ⟨heof, ts, hts, hspelt.line⟩
      | ifWord =>
          refine (h.choice _ _ _ hn (by omega)).bind fun s => .pure ?_
          rintro m r hs rfl
          obtain ⟨bs, otherwise, ts, us, rfl, hcoming, hbs, helse⟩ := hs _ hword
          exact ⟨heof, ts ++ us, hcoming, (StmtSpelt.choose hbs helse).line⟩
      | whileWord =>
          refine .advance hn ((h.expression _ _ (by omega)).bind fun condition => ?_)
          refine .expect_bind _ fun hn' => ?_
          refine (h.block _ (by omega) (by omega)).bind fun body => .pure ?_
          rintro m₄ m₃ hbody m₂ hbrace hopen m₁ ⟨hstart, ts, hts, he⟩ r hmoves rfl
          obtain ⟨us, hus, hblock⟩ := hbody hbrace
          rw [hmoves.current] at hstart he
          refine ⟨heof, r.ahead :: ts ++ m₃.current :: us, ?_,
            (StmtSpelt.repeatWhile hword he hblock).line⟩
          rw [hmoves.coming hstart, hts, hopen, hus, hmoves.current]
          simp
      | forWord =>
          refine .expectName_bind fun _ item => .branch (fun r hc => ?_) (fun hn' => ?_)
            fun _ => .refuseAhead _
          · rcases Bool.or_eq_true_iff.mp hc with hin | hcolon
            · exact Candid.isEof_of_isKeyword hin
            · exact Candid.isEof_of_isSign hcolon
          · refine .advance (by omega) (.advance (by omega) ?_)
            refine (h.expression _ _ (by omega)).bind fun source => .expect_bind _ fun hn'' => ?_
            refine (h.block _ (by omega) (by omega)).bind fun body => .pure ?_
            rintro m₆ m₅ hbody m₄ hbrace hopen m₃
              ⟨hstart, ts, hts, he⟩ m₂ hmoves m₁ hword' hc r hname
              hitem hcoming rfl
            obtain ⟨us, hus, hblock⟩ := hbody hbrace
            have hahead : m₁.ahead.isEof = false := by
              rcases Bool.or_eq_true_iff.mp hc with hin | hcolon
              · exact Candid.isEof_of_isKeyword hin
              · exact Candid.isEof_of_isSign hcolon
            rw [hmoves.current] at hstart he
            rw [hitem]
            refine ⟨heof, m₁.current :: m₂.current :: (m₂.ahead :: ts ++ m₅.current :: us), ?_,
              (StmtSpelt.forEach hword hname ?_ he hblock).line⟩
            · rw [hcoming, hword'.coming hahead, hmoves.coming hstart, hts, hopen, hus,
                hmoves.current]
              simp
            · rw [hword'.current]
              exact hc
      | returnWord =>
          refine .branch (fun r => Candid.isEof_of_isSign) (fun _ => .advance hn (.pure ?_))
            fun r => ?_
          · rintro m r hmoves hsign rfl
            refine ⟨heof, [m.current], hmoves.coming (Candid.isEof_of_isSign hsign),
              (StmtSpelt.giveBack hword (.semicolon ?_)).line⟩
            rw [hmoves.current]
            exact hsign
          · refine .ite (fun _ => .pure ?_) fun _ => .advance hn ?_
            · rintro r rfl
              exact ⟨heof, [], rfl, (StmtSpelt.giveBack hword .nothing).line⟩
            · refine (h.expression _ _ (by omega)).bind fun value => ?_
              refine Candid.endStatement.bind fun _ => .pure ?_
              rintro m₃ m₂ ⟨es, hes, hend⟩ m₁ ⟨hstart, ts, hts, he⟩ r hmoves rfl
              rw [hmoves.current] at hstart he
              refine ⟨heof, r.ahead :: ts ++ es, ?_, (StmtSpelt.giveBackValue hword he hend).line⟩
              rw [hmoves.coming hstart, hts, hes, hmoves.current]
              simp
      | breakWord =>
          refine Candid.endStatement.bind fun _ => .pure ?_
          rintro m r ⟨es, hes, hend⟩ rfl
          exact ⟨heof, es, hes, (StmtSpelt.leave hword hend).line⟩
      | continueWord =>
          refine Candid.endStatement.bind fun _ => .pure ?_
          rintro m r ⟨es, hes, hend⟩ rfl
          exact ⟨heof, es, hes, (StmtSpelt.skip hword hend).line⟩
      | _ => exact hexpression
  | _ => exact hexpression

/-- What is assigned to is as it was spelt. -/
theorem candid_assignTo (start : Token) (equals : Position) (target value : Expr) :
    Candid n (fun r s r' => r' = r ∧
        ∀ {t : Token} {ts us es : List Token}, t.position = equals → t.isSign .assign = true →
          ExprSpelt target ts → ExprSpelt value us → EndSpelt es →
          StmtSpelt s (ts ++ t :: (us ++ es)))
      (assignTo start equals target value) (assignTo start equals target value) := by
  cases target with
  | name ident =>
      refine .pure fun r => ⟨rfl, ?_⟩
      rintro t ts us es rfl hsign htarget hvalue hend
      exact .assign htarget hsign hvalue hend
  | index bracket object subscript =>
      refine .pure fun r => ⟨rfl, ?_⟩
      rintro t ts us es rfl hsign htarget hvalue hend
      exact .store htarget hsign hvalue hend
  | _ => exact .refuse _ _

theorem candid_expressionStatement (h : AllCandid limit more fuel) (nesting : Nat)
    (hfuel : 8 * n ≤ fuel + 1 + 4) :
    Candid n (From StmtSpelt) (expressionStatement limit (fuel + 1) nesting)
      (expressionStatement limit (more + fuel + 1) nesting) := by
  rw [expressionStatement, expressionStatement]
  refine .current fun start _ => (h.expression _ _ (by omega)).bind fun found => ?_
  refine .branch (fun r => Candid.isEof_of_isSign) (fun hn => ?_)
    fun _ => Candid.endStatement.bind fun _ => .pure ?_
  · refine .advance (by omega) (.current fun equals _ => .ite (fun _ => ?_) fun _ => .refuse _ _)
    refine .advance (by omega) ((h.expression _ _ (by omega)).bind fun value => ?_)
    refine Candid.endStatement.bind fun _ => (candid_assignTo _ _ _ _).imp ?_
    rintro m₅ s r' ⟨rfl, hs⟩ m₄ ⟨es, hes, hend⟩ m₃
      ⟨hstart', us, hus, hvalue⟩ m₂ hmoves' rfl m₁ hmoves
      hsign r ⟨hstart, ts, hts, htarget⟩ -
    rw [hmoves'.current] at hstart' hvalue
    have hequals : m₂.current.isSign .assign = true := by
      rw [hmoves.current]
      exact hsign
    refine ⟨hstart, ts ++ m₂.current :: (m₂.ahead :: us ++ es), ?_,
      hs rfl hequals htarget hvalue hend⟩
    rw [hts, hmoves.coming (Candid.isEof_of_isSign hsign), hmoves'.coming hstart', hus, hes,
      hmoves'.current]
    simp
  · rintro m₂ m₁ ⟨es, hes, hend⟩ r ⟨hstart, ts, hts, he⟩ rfl
    refine ⟨hstart, ts ++ es, ?_, .expr he hend⟩
    rw [hts, hes, List.append_assoc]

theorem candid_function (h : AllCandid limit more fuel) (nesting : Nat)
    (hfuel : 8 * n ≤ fuel + 1 + 4) :
    Candid n (At (·.isKeyword .fnWord) FuncSpelt) (function limit (fuel + 1) nesting)
      (function limit (more + fuel + 1) nesting) := by
  rw [function, function]
  refine .current fun keyword _ => .expectName_bind fun _ ident => .expect_bind _ fun _ => ?_
  refine (candid_params more (by omega)).bind fun ps => candid_optionalHint.bind fun hint => ?_
  refine .expect_bind _ fun hn => ?_
  refine (h.block _ (by omega) (by omega)).bind fun body => .pure ?_
  rintro m₆ m₅ hbody m₄ hbrace hopen m₃ ⟨hs, hhs, hhint⟩ m₂
    ⟨ts, hts, hps⟩ m₁ hparen hcoming' r hname
    hident hcoming rfl hword
  obtain ⟨us, hus, hblock⟩ := hbody hbrace
  rw [hident]
  refine ⟨m₁.current :: m₂.current :: (ts ++ hs ++ m₅.current :: us), ?_,
    .mk hword hname hparen hps hhint hblock⟩
  rw [hcoming, hcoming', hts, hhs, hopen, hus]
  simp

theorem candid_fields (more : Nat) {fuel : Nat} (hfuel : 8 * n ≤ fuel + 1 + 7) :
    Candid n (Behind FieldsSpelt)
      (get >>= fun r => if r.ahead.isSign .leftParen then advance >>= fun _ => params fuel
        else Pure.pure [])
      (get >>= fun r => if r.ahead.isSign .leftParen then advance >>= fun _ => params (more + fuel)
        else Pure.pure []) := by
  refine .branch (fun r => Candid.isEof_of_isSign) (fun hn => .advance (by omega) ?_)
    fun _ => .pure fun r => ⟨[], rfl, .none⟩
  refine (candid_params more (by omega)).imp ?_
  rintro m ps r' ⟨ts, hts, hps⟩ r hmoves hsign
  refine ⟨m.current :: ts, ?_, .some ?_ hps⟩
  · rw [hmoves.coming (Candid.isEof_of_isSign hsign), hts]
    rfl
  · rw [hmoves.current]
    exact hsign

theorem candid_classStatement (h : AllCandid limit more fuel) (nesting : Nat)
    (hfuel : 8 * n ≤ fuel + 1 + 4) :
    Candid n (At (·.isKeyword .classWord) StmtSpelt) (classStatement limit (fuel + 1) nesting)
      (classStatement limit (more + fuel + 1) nesting) := by
  rw [classStatement, classStatement]
  refine .current fun keyword _ => .expectName_bind fun _ ident =>
    .bind (candid_fields more (by omega)) fun fields => ?_
  refine .branch (fun r => Candid.isEof_of_isSign) (fun hn => .advance (by omega) ?_)
    fun _ => Candid.endStatement.bind fun _ => .pure ?_
  · refine .current fun opening _ => .advance (by omega) ?_
    refine (h.classMethods _ opening.position [] (by omega)).bind fun methods => .pure ?_
    rintro m₅ m₄ ⟨hstart, hclose, us, hus, fs, rfl, hfs⟩ m₃ hmoves' rfl m₂ hmoves hbrace m₁
      ⟨ts, hts, hfields⟩ r
      hname hident hcoming rfl hword
    rw [hmoves'.current] at hstart
    have hopen : m₃.current.isSign .leftBrace = true := by
      rw [hmoves.current]
      exact hbrace
    rw [hident]
    refine ⟨m₁.current :: (ts ++ m₃.current :: (us ++ [m₅.current])), ?_,
      .classDef hword hname hfields (.some hopen hfs hclose)⟩
    rw [hcoming, hts, hmoves.coming (Candid.isEof_of_isSign hbrace), hmoves'.coming hstart, hus]
    simp
  · rintro m₃ m₂ ⟨es, hes, hend⟩ m₁ ⟨ts, hts, hfields⟩ r hname hident hcoming rfl hword
    rw [hident]
    refine ⟨m₁.current :: (ts ++ es), ?_, .classDef hword hname hfields (.none hend)⟩
    rw [hcoming, hts, hes]
    simp

theorem candid_classMethods (h : AllCandid limit more fuel) (nesting : Nat) (opened : Position)
    (done : List Func) (hfuel : 8 * n ≤ fuel + 1 + 3) :
    Candid n (Inside fun fs ts => ∃ fs', fs = done.reverse ++ fs' ∧ MethodsSpelt fs' ts)
      (classMethods limit (fuel + 1) nesting opened done)
      (classMethods limit (more + fuel + 1) nesting opened done) := by
  rw [classMethods, classMethods]
  refine .current fun t ht => ?_
  rw [Token.isEof] at ht
  cases hkind : t.kind with
  | sign s =>
      have hn : 1 < n := ht (by rw [hkind])
      have heof : t.isEof = false := by rw [Token.isEof, hkind]
      cases s with
      | rightBrace =>
          refine .pure ?_
          rintro r rfl
          exact ⟨heof, isSign_self hkind, [], rfl, [], (List.append_nil _).symm, .nil⟩
      | semicolon =>
          refine .advance hn ((h.classMethods _ _ _ (by omega)).imp ?_)
          rintro m fs r' ⟨hstart, hclose, us, hus, fs', rfl, hfs⟩ r hmoves rfl
          rw [hmoves.current] at hstart
          refine ⟨heof, hclose, r.current :: us, ?_, fs', rfl, .empty (isSign_self hkind) hfs⟩
          rw [hmoves.coming hstart, hus]
          rfl
      | _ => exact .refuse _ _
  | keyword k =>
      have hn : 1 < n := ht (by rw [hkind])
      have heof : t.isEof = false := by rw [Token.isEof, hkind]
      cases k with
      | fnWord =>
          refine .look fun r _ => .ite (fun _ => ?_) fun _ => .refuseAhead _
          refine (h.function _ (by omega)).bind fun f => .advance hn ?_
          refine (h.classMethods _ _ _ (by omega)).imp ?_
          rintro m₂ fs r' ⟨hstart, hclose, us, hus, fs', rfl, hfs⟩ m₁ hmoves r hf - rfl
          obtain ⟨ts, hts, hspelt⟩ := hf (Candid.isKeyword_self hkind)
          rw [hmoves.current] at hstart
          refine ⟨heof, hclose, r.current :: ts ++ us, ?_, f :: fs', ?_, .cons hspelt hfs⟩
          · rw [hts, hmoves.coming hstart, hus]
            simp
          · simp
      | _ => exact .refuse _ _
  | _ => exact .refuse _ _

theorem candid_choice (h : AllCandid limit more fuel) (nesting : Nat) (start : Position)
    (done : List Branch) (hn : 1 < n) (hfuel : 8 * n ≤ fuel + 1 + 4) :
    Candid n (ChoiceAt start done) (choice limit (fuel + 1) nesting start done)
      (choice limit (more + fuel + 1) nesting start done) := by
  rw [choice, choice]
  refine .current fun keyword _ =>
    .advance hn ((h.expression _ _ (by omega)).bind fun condition => ?_)
  refine .expect_bind _ fun hn' => (h.block _ (by omega) (by omega)).bind fun body => ?_
  dsimp only
  refine .fork (fun r => Candid.isEof_of_isKeyword) (fun hn'' => .advance (by omega) ?_)
    fun r₀ => ?_
  · refine (h.choice _ _ _ (by omega) (by omega)).imp ?_
    rintro m₅ s r' hmore m₄ hmoves' helif m₃ hbody m₂ hbrace hopen m₁ ⟨hstart, ts, hts, he⟩ r hmoves
      rfl k hword
    obtain ⟨us, hus, hblock⟩ := hbody hbrace
    rw [hmoves.current] at hstart he
    obtain ⟨bs, otherwise, vs, ws, rfl, hcoming, hbs, helse⟩ :=
      hmore .elifWord (by rw [hmoves'.current]; exact helif)
    refine ⟨.mk r.current.position condition body :: bs, otherwise,
      r.ahead :: ts ++ m₃.current :: us ++ m₅.current :: vs, ws, ?_, ?_,
      .cons hword he hblock hbs, helse⟩
    · simp
    · rw [hmoves.coming hstart, hts, hopen, hus, hmoves'.coming (Candid.isEof_of_isKeyword helif),
        hcoming, hmoves.current]
      simp
  · refine .ite (fun helse => .advance (by omega) ?_) fun _ => .pure ?_
    · refine .expect_bind _ fun hn'' => ?_
      refine (h.block _ (by omega) (by omega)).bind fun otherwise => .pure ?_
      rintro m₇ m₆ hother m₅ hbrace' hopen' m₄ hmoves' rfl m₃ hbody m₂ hbrace hopen m₁
        ⟨hstart, ts, hts, he⟩ r hmoves rfl k hword
      obtain ⟨us, hus, hblock⟩ := hbody hbrace
      obtain ⟨vs, hvs, hblock'⟩ := hother hbrace'
      rw [hmoves.current] at hstart he
      refine ⟨[.mk r.current.position condition body], some otherwise,
        r.ahead :: ts ++ m₃.current :: us ++ [], m₅.current :: m₆.current :: vs, ?_, ?_,
        .cons hword he hblock .nil, .some ?_ hblock'⟩
      · rw [List.reverse_cons]
      · rw [hmoves.coming hstart, hts, hopen, hus, hmoves'.coming (Candid.isEof_of_isKeyword helse),
          hopen', hvs, hmoves.current]
        simp
      · rw [hmoves'.current]
        exact helse
    · rintro m₄ rfl m₃ hbody m₂ hbrace hopen m₁ ⟨hstart, ts, hts, he⟩ r hmoves rfl k hword
      obtain ⟨us, hus, hblock⟩ := hbody hbrace
      rw [hmoves.current] at hstart he
      refine ⟨[.mk r.current.position condition body], none,
        r.ahead :: ts ++ m₃.current :: us ++ [],
        [], ?_, ?_, .cons hword he hblock .nil, .none⟩
      · rw [List.reverse_cons]
      · rw [hmoves.coming hstart, hts, hopen, hus, hmoves.current]
        simp

theorem allCandid (limit more : Nat) : ∀ fuel, AllCandid limit more fuel
  | 0 => allCandid_zero limit more
  | fuel + 1 =>
    have h := allCandid limit more fuel
    { expression := candid_expression h
      operand := candid_operand h
      continued := candid_continued h
      extended := candid_extended h
      expressions := candid_expressions h
      moreExpressions := candid_moreExpressions h
      block := candid_block h
      blockStatements := candid_blockStatements h
      statement := candid_statement h
      expressionStatement := candid_expressionStatement h
      function := candid_function h
      classStatement := candid_classStatement h
      classMethods := candid_classMethods h
      choice := candid_choice h }

end Scriptlet.Parser
