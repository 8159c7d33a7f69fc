/-
Reading operands with operators between them.  Whatever tree the operators make
of the operands, all of their tokens are read, without a fault, where a token
follows that continues no expression.  Expressions do not nest more deeply than
they have tokens.
-/
import Scriptlet.Proofs.ReadingBlocks

namespace Scriptlet.Parser

open Parse Reader Layout Lexer

def opensExpression (t : Token) : Bool :=
  match t.kind with
  | .name _ | .int _ | .float _ | .str => true
  | .keyword k => begins (.keyword k)
  | .sign s => begins (.sign s)
  | .illegal _ | .eof => false

/-- Whether some tokens begin like an expression, on line `line`; behind the
keyword of a function without a name its parameters follow. -/
def OpensOn (line : Nat) (ts : List Token) : Prop :=
  ∃ t us, ts = t :: us ∧ t.position.line = line ∧ opensExpression t = true ∧
    (t.kind = .keyword .fnWord → ∃ o vs, us = o :: vs ∧ o.isName = false)

theorem OpensOn.append {line : Nat} {ts : List Token} (h : OpensOn line ts) (us : List Token) :
    OpensOn line (ts ++ us) := by
  obtain ⟨t, vs, rfl, hline, hopens, hfn⟩ := h
  refine ⟨t, vs ++ us, rfl, hline, hopens, fun hkind => ?_⟩
  obtain ⟨o, ws, rfl, ho⟩ := hfn hkind
  exact ⟨o, ws ++ us, rfl, ho⟩

/-- A token that begins an expression, other than the keyword of a function. -/
theorem opensOn_cons {line : Nat} {t : Token} (hline : t.position.line = line)
    (h : opensExpression t = true) (hfn : t.kind ≠ .keyword .fnWord) (us : List Token) :
    OpensOn line (t :: us) :=
  ⟨t, us, rfl, hline, h, fun hkind => absurd hkind hfn⟩

theorem opensOn_sign {line : Nat} {t : Token} {s : Sign} (hline : t.position.line = line)
    (ht : t.kind = .sign s) (hbegins : begins (.sign s) = true) (us : List Token) :
    OpensOn line (t :: us) := by
  refine opensOn_cons hline ?_ ?_ us
  · rw [opensExpression, ht]
    exact hbegins
  · rw [ht]
    exact TokenKind.noConfusion

theorem OpensOn.length_pos {line : Nat} {ts : List Token} (h : OpensOn line ts) :
    0 < ts.length := by
  obtain ⟨t, us, rfl, -⟩ := h
  exact Nat.succ_pos _

theorem isSign_of_opensExpression {t : Token} (h : opensExpression t = true) {s : Sign}
    (hs : begins (.sign s) = false) : t.isSign s = false := by
  refine Bool.eq_false_of_not_eq_true fun hsign => ?_
  rw [opensExpression, kind_of_isSign hsign] at h
  exact absurd (hs.symm.trans h) Bool.noConfusion

theorem isEof_of_opensExpression {t : Token} (h : opensExpression t = true) :
    t.isEof = false := by
  unfold opensExpression at h
  unfold Token.isEof
  split at h <;> simp_all

/-- Whether the tokens `ts` on line `line` are read as one operand, with the
signs before it and the calls, subscripts and members behind it. -/
structure Operand (limit line : Nat) (ts : List Token) : Prop where
  opens : OpensOn line ts
  reads : ∀ (fuel nesting precedence : Nat) {a : Token} (rest : List Token)
    (ds : Array Diagnostic), 8 * ts.length ≤ fuel + 5 → nesting + ts.length ≤ limit →
    precedence ≤ unaryPrecedence → follows unaryPrecedence a line = false →
    ∃ e last fuel', last.position.line = line ∧ fuel ≤ fuel' + ts.length ∧ fuel' ≤ fuel ∧
      primary limit fuel nesting precedence (on (ts ++ a :: rest) ds) =
        continued limit fuel' nesting precedence e (on (last :: a :: rest) ds)

/-- Operands on one line with operators between them. -/
inductive Chain (limit line : Nat) : List Token → Prop
  | one {ts : List Token} : Operand limit line ts → Chain limit line ts
  | more {ts us : List Token} {t : Token} {op : BinaryOp} :
      Operand limit line ts → t.kind = .sign op.sign → t.position.line = line →
      Chain limit line us → Chain limit line (ts ++ t :: us)

/-- What is left of a chain behind an operand: nothing, or an operator that binds
no more tightly than `precedence`, and a chain. -/
inductive Left (limit line precedence : Nat) : List Token → Prop
  | nothing : Left limit line precedence []
  | operator {t : Token} {op : BinaryOp} {us : List Token} :
      t.kind = .sign op.sign → t.position.line = line → op.precedence ≤ precedence →
      Chain limit line us → Left limit line precedence (t :: us)

variable {limit line : Nat}

theorem Chain.opens {ts : List Token} (h : Chain limit line ts) : OpensOn line ts := by
  cases h with
  | one h => exact h.opens
  | more h => exact h.opens.append _

theorem Chain.append {ts us : List Token} {t : Token} {op : BinaryOp} (h : Chain limit line ts)
    (ht : t.kind = .sign op.sign) (hline : t.position.line = line) (h' : Chain limit line us) :
    Chain limit line (ts ++ t :: us) := by
  induction h with
  | one h => exact .more h ht hline h'
  | more h hop hline' _ ih =>
      rw [List.append_assoc]
      exact .more h hop hline' ih

/-- A chain is an operand and what is left behind it. -/
theorem Chain.exists_left {ts : List Token} (h : Chain limit line ts) :
    ∃ us left, ts = us ++ left ∧ Operand limit line us ∧
      Left limit line unaryPrecedence left := by
  cases h with
  | one h => exact ⟨ts, [], (List.append_nil ts).symm, h, .nothing⟩
  | more h hop hline h' => exact ⟨_, _, rfl, h, .operator hop hline (binary_lt_unary _).le h'⟩

theorem Left.mono {precedence precedence' : Nat} {left : List Token}
    (h : Left limit line precedence left) (hle : precedence ≤ precedence') :
    Left limit line precedence' left := by
  cases h with
  | nothing => exact .nothing
  | operator hop hline hless h => exact .operator hop hline (hless.trans hle) h

/-- Nothing binds as loosely as a whole expression. -/
theorem Left.eq_nil {left : List Token} (h : Left limit line loosest left) : left = [] := by
  cases h with
  | nothing => rfl
  | @operator _ op _ _ _ hless _ => cases op <;> exact absurd hless (by decide)

/-- The token behind an operand does not belong to it. -/
theorem Left.stops {precedence : Nat} {left : List Token} {a : Token}
    (h : Left limit line precedence left) (ha : follows loosest a line = false)
    (rest : List Token) :
    ∃ b tail, left ++ a :: rest = b :: tail ∧ follows precedence b line = false := by
  cases h with
  | nothing => exact ⟨a, rest, rfl, follows_of_le (Nat.zero_le _) ha⟩
  | @operator t op us hop hline hless h =>
      refine ⟨t, us ++ a :: rest, rfl, ?_⟩
      rw [follows, precedenceOf_binary hop, decide_eq_false (Nat.not_lt.mpr hless), Bool.false_and]

/-- Whether what is left behind an operand is read as far as it binds more
tightly than a precedence. -/
def ContinuesOver (limit line : Nat) (left : List Token) : Prop :=
  ∀ (fuel nesting precedence : Nat) (e : Expr) {last a : Token} (rest : List Token)
    (ds : Array Diagnostic), 8 * left.length + 1 ≤ fuel → nesting + left.length ≤ limit →
    precedence ≤ unaryPrecedence → last.position.line = line → follows loosest a line = false →
    ∃ e' last' left', Left limit line precedence left' ∧ left'.length ≤ left.length ∧
      last'.position.line = line ∧
      continued limit fuel nesting precedence e (on (last :: (left ++ a :: rest)) ds) =
        (some e', on (last' :: (left' ++ a :: rest)) ds)

/-- A chain is read as far as it binds more tightly than a precedence, if what is
left behind its first operand is. -/
theorem Chain.expression_of {ts : List Token} (h : Chain limit line ts)
    (hleft : ∀ left, left.length < ts.length → Left limit line unaryPrecedence left →
      ContinuesOver limit line left)
    (fuel nesting precedence : Nat) {a : Token} (rest : List Token) (ds : Array Diagnostic)
    (hfuel : 8 * ts.length ≤ fuel + 4) (hlimit : nesting + ts.length < limit)
    (hprecedence : precedence ≤ unaryPrecedence) (ha : follows loosest a line = false) :
    ∃ e last left, Left limit line precedence left ∧ left.length < ts.length ∧
      last.position.line = line ∧
      expression limit fuel nesting precedence (on (ts ++ a :: rest) ds) =
        (some e, on (last :: (left ++ a :: rest)) ds) := by
  obtain ⟨us, left, rfl, hoperand, hrest⟩ := h.exists_left
  have hpos := hoperand.opens.length_pos
  rw [List.length_append] at hfuel hlimit hleft
  obtain ⟨fuel, rfl⟩ : ∃ k, fuel = k + 1 := ⟨fuel - 1, by omega⟩
  obtain ⟨b, tail, hb, hstop⟩ := hrest.stops ha rest
  obtain ⟨e, last, fuel', hlast, hspent, -, hread⟩ :=
    hoperand.reads fuel (nesting + 1) precedence tail ds (by omega) (by omega) hprecedence hstop
  obtain ⟨e', last', left', hleft', hless, hlast', hreads⟩ :=
    hleft left (by omega) hrest fuel' (nesting + 1) precedence e rest ds (by omega) (by omega)
      hprecedence hlast ha
  refine ⟨e', last', left', hleft', ?_, hlast', ?_⟩
  · rw [List.length_append]
    omega
  · rw [expression_succ (by omega), List.append_assoc, hb, hread, ← hb, hreads]

/-- What is left behind an operand is read: the operators that bind more tightly
take up their right sides, which are shorter. -/
theorem Left.continuesOver {left : List Token} (h : Left limit line unaryPrecedence left) :
    ContinuesOver limit line left := by
  induction hlen : left.length using Nat.strong_induction_on generalizing left with
  | _ n ih =>
      intro fuel nesting precedence e last a rest ds hfuel hlimit hprecedence hlast ha
      cases h with
      | nothing =>
          refine ⟨e, last, [], .nothing, Nat.le_refl _, hlast, ?_⟩
          exact continued_stops (by omega) hlast (follows_of_le (Nat.zero_le _) ha)
      | @operator t op us hop hline hless hchain =>
          rw [List.length_cons] at hfuel hlimit hlen
          by_cases htight : precedence < op.precedence
          · obtain ⟨fuel, rfl⟩ : ∃ k, fuel = k + 2 := ⟨fuel - 2, by omega⟩
            have hright : ∀ left, left.length < us.length → Left limit line unaryPrecedence left →
                ContinuesOver limit line left := fun left hlen' hleft =>
              ih left.length (by omega) hleft rfl
            obtain ⟨right, middle, left, hleft, hshort, hmiddle, hread⟩ :=
              hchain.expression_of hright fuel nesting op.precedence rest ds (by omega) (by omega)
                (binary_lt_unary op).le ha
            obtain ⟨e', last', left', hleft', hle, hlast', hreads⟩ :=
              hright left hshort (hleft.mono (binary_lt_unary op).le) (fuel + 1) nesting precedence
                (.binary t.position op e right) rest ds (by omega) (by omega) hprecedence hmiddle ha
            refine ⟨e', last', left', hleft', ?_, hlast', ?_⟩
            · rw [List.length_cons]
              omega
            · have hfollows : follows precedence t line = true := by
                rw [follows, precedenceOf_binary hop, hline, beq_self_eq_true, Bool.true_or,
                  Bool.and_true]
                exact decide_eq_true htight
              have hstep : extended limit (fuel + 1) nesting e (on (t :: (us ++ a :: rest)) ds) =
                  (some (.binary t.position op e right),
                    on (middle :: (left ++ a :: rest)) ds) := by
                rw [extended_binary hop, advance_on_append, bind_some hread]
                rfl
              exact (continued_extends hlast hfollows hstep).trans hreads
          · refine ⟨e, last, t :: us, .operator hop hline (Nat.not_lt.mp htight) hchain,
              Nat.le_refl _, hlast, ?_⟩
            refine continued_stops (by omega) hlast ?_
            rw [follows, precedenceOf_binary hop, decide_eq_false htight, Bool.false_and]

/-- A chain is read whole where nothing continues it. -/
theorem Chain.expression {ts : List Token} (h : Chain limit line ts) (fuel nesting : Nat)
    {a : Token} (rest : List Token) (ds : Array Diagnostic) (hfuel : 8 * ts.length ≤ fuel + 4)
    (hlimit : nesting + ts.length < limit) (ha : follows loosest a line = false) :
    ∃ e last, last.position.line = line ∧
      Parser.expression limit fuel nesting loosest (on (ts ++ a :: rest) ds) =
        (some e, on (last :: a :: rest) ds) := by
  obtain ⟨e, last, left, hleft, -, hlast, hread⟩ := h.expression_of
    (fun left _ hleft => hleft.continuesOver) fuel nesting loosest rest ds hfuel hlimit
    (Nat.zero_le _) ha
  obtain rfl := hleft.eq_nil
  exact ⟨e, last, hlast, hread⟩

/-- An operand that is a first part. -/
theorem operand_of_first {ts : List Token} (hopens : OpensOn line ts)
    (h : ∀ (fuel nesting : Nat) {a : Token} (rest : List Token) (ds : Array Diagnostic),
      8 * ts.length ≤ fuel + 5 → nesting + ts.length ≤ limit →
      follows unaryPrecedence a line = false → ∃ e last, last.position.line = line ∧
        operand limit fuel nesting (on (ts ++ a :: rest) ds) =
          (some e, on (last :: a :: rest) ds)) : Operand limit line ts := by
  refine ⟨hopens, fun fuel nesting precedence a rest ds hfuel hlimit _ ha => ?_⟩
  obtain ⟨e, last, hlast, hread⟩ := h fuel nesting rest ds hfuel hlimit ha
  exact ⟨e, last, fuel, hlast, Nat.le_add_right _ _, Nat.le_refl _, bind_some hread _⟩

def isSimple (t : Token) : Bool :=
  match t.kind with
  | .name _ | .int _ | .float _ | .str => true
  | .keyword k => k == .trueWord || k == .falseWord || k == .nullWord
  | .sign _ | .illegal _ | .eof => false

theorem operand_simple {t : Token} (ht : isSimple t = true) (hline : t.position.line = line) :
    Operand limit line [t] := by
  have hopens : opensExpression t = true := by
    unfold isSimple at ht
    unfold opensExpression
    cases hkind : t.kind with
    | keyword k => cases k <;> simp_all [begins]
    | _ => simp_all
  have hfn : t.kind ≠ .keyword .fnWord := by
    intro hkind
    rw [isSimple, hkind] at ht
    exact absurd ht Bool.noConfusion
  refine operand_of_first (opensOn_cons hline hopens hfn [])
    fun fuel nesting a rest ds hfuel _ _ => ?_
  rw [List.length_singleton] at hfuel
  obtain ⟨fuel, rfl⟩ : ∃ k, fuel = k + 1 := ⟨fuel - 1, by omega⟩
  have hread : ∃ e, operand limit (fuel + 1) nesting (on (t :: a :: rest) ds) =
      (some e, on (t :: a :: rest) ds) := by
    rw [operand, current_bind, current_on]
    unfold isSimple at ht
    cases hkind : t.kind with
    | name capital => exact ⟨_, rfl⟩
    | int value => exact ⟨_, rfl⟩
    | float value => exact ⟨_, rfl⟩
    | str => exact ⟨_, rfl⟩
    | keyword k =>
        rw [hkind] at ht
        cases k <;> first | exact absurd ht (by decide) | exact ⟨_, rfl⟩
    | _ =>
        rw [hkind] at ht
        exact absurd ht Bool.noConfusion
  obtain ⟨e, hread⟩ := hread
  exact ⟨e, t, hline, hread⟩

/-- A sign before an operand. -/
theorem operand_behind_sign {t : Token} {op : UnaryOp} {ts : List Token}
    (ht : t.kind = .sign op.sign) (hline : t.position.line = line) (h : Operand limit line ts) :
    Operand limit line (t :: ts) := by
  have hbegins : begins (.sign op.sign) = true := by cases op <;> rfl
  have hpos := h.opens.length_pos
  refine operand_of_first (opensOn_sign hline ht hbegins ts)
    fun fuel nesting a rest ds hfuel hlimit ha => ?_
  rw [List.length_cons] at hfuel hlimit
  obtain ⟨fuel, rfl⟩ : ∃ k, fuel = k + 2 := ⟨fuel - 2, by omega⟩
  obtain ⟨e, last, fuel', hlast, hspent, -, hread⟩ :=
    h.reads fuel (nesting + 1) unaryPrecedence rest ds (by omega) (by omega) (Nat.le_refl _) ha
  have hexpression : expression limit (fuel + 1) nesting unaryPrecedence
      (on (ts ++ a :: rest) ds) = (some e, on (last :: a :: rest) ds) := by
    rw [expression_succ (by omega), hread, continued_stops (by omega) hlast ha]
  refine ⟨.unary t.position op e, last, hlast, ?_⟩
  rw [operand, List.cons_append, current_bind, current_on, ht]
  cases op
  all_goals
    simp only [UnaryOp.sign, advance_bind, advance_on_append]
    rw [bind_some hexpression]
    rfl

/-- A sign before a chain goes with its first operand. -/
theorem Chain.behind_sign {t : Token} {op : UnaryOp} {ts : List Token}
    (ht : t.kind = .sign op.sign) (hline : t.position.line = line) (h : Chain limit line ts) :
    Chain limit line (t :: ts) := by
  cases h with
  | one h => exact .one (operand_behind_sign ht hline h)
  | more h hop hline' h' => exact .more (operand_behind_sign ht hline h) hop hline' h'

/-- A chain between parentheses. -/
theorem operand_parens {o c : Token} {ts : List Token} (ho : o.kind = .sign .leftParen)
    (hc : c.kind = .sign .rightParen) (hline : o.position.line = line)
    (hline' : c.position.line = line) (h : Chain limit line ts) :
    Operand limit line (o :: ts ++ [c]) := by
  refine operand_of_first ((opensOn_sign hline ho rfl ts).append [c])
    fun fuel nesting a rest ds hfuel hlimit ha => ?_
  simp only [List.length_append, List.length_cons, List.length_nil] at hfuel hlimit
  obtain ⟨fuel, rfl⟩ : ∃ k, fuel = k + 1 := ⟨fuel - 1, by omega⟩
  obtain ⟨e, last, -, hread⟩ := h.expression fuel nesting (a :: rest) ds (by omega) (by omega)
    (follows_of_loose (precedenceOf_closing hc rfl) loosest line)
  refine ⟨e, c, hline', ?_⟩
  rw [operand, List.append_assoc, List.cons_append, current_bind, current_on, ho]
  simp only [advance_bind, List.singleton_append, advance_on_append]
  rw [bind_some hread, expect_bind hc]
  rfl

/-- Chains with commas between them. -/
inductive Items (limit line : Nat) : List Token → Prop
  | one {ts : List Token} : Chain limit line ts → Items limit line ts
  | more {ts us : List Token} {comma : Token} :
      Chain limit line ts → comma.kind = .sign .comma → Items limit line us →
      Items limit line (ts ++ comma :: us)

theorem Items.opens {ts : List Token} (h : Items limit line ts) : OpensOn line ts := by
  cases h with
  | one h => exact h.opens
  | more h => exact h.opens.append _

/-- Whether some tokens may stand between brackets as arguments or items. -/
def Enclosed (limit line : Nat) (ts : List Token) : Prop := ts = [] ∨ Items limit line ts

theorem loose_of_comma {t : Token} (h : t.kind = .sign .comma) : precedenceOf t = loosest := by
  rw [precedenceOf, h]
  rfl

theorem isSign_of_opensOn {ts : List Token} (h : OpensOn line ts) {closing : Sign}
    (hcloses : (Word.sign closing).closes = true) (t : Token) (rest : List Token)
    (ds : Array Diagnostic) : (on (t :: (ts ++ rest)) ds).ahead.isSign closing = false := by
  obtain ⟨u, us, rfl, -, hopens, -⟩ := h
  exact isSign_of_opensExpression hopens (opens_of_closes hcloses)

/-- Behind the last expression the bracket closes. -/
theorem moreExpressions_close {c : Token} {closing : Sign} (hc : c.kind = .sign closing)
    (hcloses : (Word.sign closing).closes = true) {fuel : Nat} (hfuel : 0 < fuel) (nesting : Nat)
    (last : Token) (done : List Expr) (rest : List Token) (ds : Array Diagnostic) :
    moreExpressions limit fuel nesting closing done (on (last :: c :: rest) ds) =
      (some done.reverse, on (c :: rest) ds) := by
  obtain ⟨fuel, rfl⟩ := Nat.exists_eq_succ_of_ne_zero hfuel.ne'
  have hcomma : c.isSign .comma = false := by
    rw [isSign_of_kind hc]
    cases closing <;> simp_all [Word.closes]
  rw [moreExpressions, get_bind, ahead_on, hcomma, if_neg Bool.false_ne_true, expect_bind hc]
  rfl

/-- Behind a comma the next expression is read. -/
theorem moreExpressions_comma {ts : List Token} {comma : Token} {closing : Sign}
    (hcomma : comma.kind = .sign .comma) (hcloses : (Word.sign closing).closes = true)
    (h : Chain limit line ts) (fuel nesting : Nat) (last : Token) (done : List Expr) {a : Token}
    (rest : List Token) (ds : Array Diagnostic) (hfuel : 8 * ts.length ≤ fuel + 4)
    (hlimit : nesting + ts.length < limit) (ha : precedenceOf a = loosest) :
    ∃ e last', moreExpressions limit (fuel + 1) nesting closing done
        (on (last :: comma :: (ts ++ a :: rest)) ds) =
      moreExpressions limit fuel nesting closing (e :: done) (on (last' :: a :: rest) ds) := by
  obtain ⟨e, last', -, hread⟩ :=
    h.expression fuel nesting rest ds hfuel hlimit (follows_of_loose ha loosest line)
  refine ⟨e, last', ?_⟩
  rw [moreExpressions, get_bind, ahead_on, if_pos (isSign_self hcomma), advance_bind, advance_on,
    get_bind, isSign_of_opensOn h.opens hcloses, if_neg Bool.false_ne_true]
  simp only [advance_bind, advance_on_append]
  exact bind_some hread _

theorem Items.moreExpressions {ts : List Token} (h : Items limit line ts) {comma c : Token}
    {closing : Sign} (hcomma : comma.kind = .sign .comma) (hc : c.kind = .sign closing)
    (hcloses : (Word.sign closing).closes = true) (fuel nesting : Nat) (last : Token)
    (done : List Expr) (rest : List Token) (ds : Array Diagnostic)
    (hfuel : 8 * ts.length + 1 ≤ fuel) (hlimit : nesting + ts.length < limit) :
    ∃ es, Parser.moreExpressions limit fuel nesting closing done
        (on (last :: comma :: (ts ++ c :: rest)) ds) = (some es, on (c :: rest) ds) := by
  have hpos := h.opens.length_pos
  obtain ⟨fuel, rfl⟩ : ∃ k, fuel = k + 1 := ⟨fuel - 1, by omega⟩
  induction h generalizing fuel comma last done with
  | one h =>
      obtain ⟨e, last', hread⟩ := moreExpressions_comma hcomma hcloses h fuel nesting last done
        rest ds (by omega) hlimit (precedenceOf_closing hc hcloses)
      exact ⟨_, hread.trans (moreExpressions_close hc hcloses (by omega) nesting last' _ rest ds)⟩
  | @more ts us comma' h hcomma' hrest ih =>
      rw [List.length_append, List.length_cons] at hfuel hlimit
      obtain ⟨e, last', hread⟩ := moreExpressions_comma hcomma hcloses h fuel nesting last done
        (us ++ c :: rest) ds (by omega) (by omega) (loose_of_comma hcomma')
      obtain ⟨fuel, rfl⟩ : ∃ k, fuel = k + 1 := ⟨fuel - 1, by omega⟩
      obtain ⟨es, hreads⟩ := ih hcomma' last' (e :: done) (by omega) hrest.opens.length_pos fuel
        (by omega)
      exact ⟨es, by rw [List.append_assoc, List.cons_append, hread, hreads]⟩

/-- Expressions between brackets, behind the opening one. -/
theorem Enclosed.expressions {ts : List Token} (h : Enclosed limit line ts) {c : Token}
    {closing : Sign} (hc : c.kind = .sign closing) (hcloses : (Word.sign closing).closes = true)
    (fuel nesting : Nat) (t : Token) (rest : List Token) (ds : Array Diagnostic)
    (hfuel : 8 * ts.length + 1 ≤ fuel) (hlimit : nesting + ts.length < limit) :
    ∃ es, Parser.expressions limit fuel nesting closing (on (t :: (ts ++ c :: rest)) ds) =
      (some es, on (c :: rest) ds) := by
  obtain ⟨fuel, rfl⟩ : ∃ k, fuel = k + 1 := ⟨fuel - 1, by omega⟩
  rcases h with rfl | h
  · refine ⟨[], ?_⟩
    rw [Parser.expressions, get_bind, List.nil_append, ahead_on, if_pos (isSign_self hc),
      advance_bind, advance_on]
    rfl
  · have hpos := h.opens.length_pos
    have hfirst : ∀ {us : List Token} (e : Expr) (last : Token) (tail : List Token),
        OpensOn line us → Parser.expression limit fuel nesting loosest (on (us ++ tail) ds) =
          (some e, on (last :: tail) ds) →
        Parser.expressions limit (fuel + 1) nesting closing (on (t :: (us ++ tail)) ds) =
          Parser.moreExpressions limit fuel nesting closing [e] (on (last :: tail) ds) := by
      intro us e last tail hopens hread
      have hahead := isSign_of_opensOn hopens hcloses t tail ds
      obtain ⟨u, vs, rfl, -⟩ := hopens
      rw [Parser.expressions, get_bind, hahead, if_neg Bool.false_ne_true, List.cons_append,
        advance_bind, advance_on]
      exact bind_some hread _
    cases h with
    | one h =>
        obtain ⟨e, last, -, hread⟩ := h.expression fuel nesting rest ds (by omega) hlimit
          (follows_of_loose (precedenceOf_closing hc hcloses) loosest line)
        exact ⟨_, (hfirst e last _ h.opens hread).trans
          (moreExpressions_close hc hcloses (by omega) nesting last _ rest ds)⟩
    | @more ts us comma h hcomma hrest =>
        rw [List.length_append, List.length_cons] at hfuel hlimit
        obtain ⟨e, last, -, hread⟩ := h.expression fuel nesting (us ++ c :: rest) ds (by omega)
          (by omega) (follows_of_loose (loose_of_comma hcomma) loosest line)
        obtain ⟨es, hreads⟩ := hrest.moreExpressions hcomma hc hcloses fuel nesting last [e] rest ds
          (by omega) (by omega)
        refine ⟨es, ?_⟩
        rw [List.append_assoc, List.cons_append, hfirst e last _ h.opens hread, hreads]

/-- A list. -/
theorem operand_list {o c : Token} {ts : List Token} (ho : o.kind = .sign .leftBracket)
    (hc : c.kind = .sign .rightBracket) (hline : o.position.line = line)
    (hline' : c.position.line = line) (h : Enclosed limit line ts) :
    Operand limit line (o :: ts ++ [c]) := by
  refine operand_of_first ((opensOn_sign hline ho rfl ts).append [c])
    fun fuel nesting a rest ds hfuel hlimit ha => ?_
  simp only [List.length_append, List.length_cons, List.length_nil] at hfuel hlimit
  obtain ⟨fuel, rfl⟩ : ∃ k, fuel = k + 1 := ⟨fuel - 1, by omega⟩
  obtain ⟨es, hread⟩ :=
    h.expressions hc rfl fuel nesting o (a :: rest) ds (by omega) (by omega)
  refine ⟨.list o.position es, c, hline', ?_⟩
  rw [operand, List.append_assoc, List.cons_append, current_bind, current_on, ho]
  exact bind_some hread _

theorem exists_kind_of_isName {n : Token} (hn : n.isName = true) :
    ∃ capital, n.kind = .name capital := by
  unfold Token.isName at hn
  split at hn
  · exact ⟨_, ‹_›⟩
  · exact absurd hn Bool.noConfusion

theorem opensOn_name {n : Token} (hn : n.isName = true) (hline : n.position.line = line)
    (us : List Token) : OpensOn line (n :: us) := by
  obtain ⟨capital, hkind⟩ := exists_kind_of_isName hn
  refine opensOn_cons hline ?_ ?_ us
  · rw [opensExpression, hkind]
  · rw [hkind]
    exact TokenKind.noConfusion

variable (limit) in
theorem operand_name {n : Token} {capital : Bool} (hn : n.kind = .name capital)
    (fuel nesting : Nat) (rest : List Token) (ds : Array Diagnostic) :
    operand limit (fuel + 1) nesting (on (n :: rest) ds) =
      (some (.name ⟨n.lexeme, n.position⟩), on (n :: rest) ds) := by
  rw [operand, current_bind, current_on, hn]
  rfl

theorem follows_suffix {b : Token} {s : Sign} {precedence : Nat} (hb : b.kind = .sign s)
    (hs : isSuffix s = true) (hline : b.position.line = line)
    (hprecedence : precedence ≤ unaryPrecedence) : follows precedence b line = true := by
  rw [follows, precedenceOf_suffix hs hb, hline, beq_self_eq_true, Bool.true_or, Bool.and_true]
  exact decide_eq_true (Nat.lt_of_le_of_lt hprecedence (by decide))

/-- A name with a call, a subscript or a member. -/
theorem operand_extended {n b : Token} {s : Sign} {us : List Token} (hn : n.isName = true)
    (hb : b.kind = .sign s) (hs : isSuffix s = true) (hline : n.position.line = line)
    (hline' : b.position.line = line)
    (h : ∀ (fuel nesting : Nat) (e : Expr) {a : Token} (rest : List Token)
      (ds : Array Diagnostic), 8 * us.length + 1 ≤ fuel → nesting + us.length < limit →
      ∃ e' last, last.position.line = line ∧
        extended limit (fuel + 1) nesting e (on (b :: (us ++ a :: rest)) ds) =
          (some e', on (last :: a :: rest) ds)) : Operand limit line (n :: b :: us) := by
  obtain ⟨capital, hkind⟩ := exists_kind_of_isName hn
  refine ⟨opensOn_name hn hline _,
    fun fuel nesting precedence a rest ds hfuel hlimit hprecedence ha => ?_⟩
  simp only [List.length_cons] at hfuel hlimit ⊢
  obtain ⟨fuel, rfl⟩ : ∃ k, fuel = k + 2 := ⟨fuel - 2, by omega⟩
  obtain ⟨e', last, hlast, hread⟩ :=
    h fuel nesting (.name ⟨n.lexeme, n.position⟩) rest ds (by omega) (by omega)
  have hname := operand_name limit hkind (fuel + 1) nesting (b :: (us ++ a :: rest)) ds
  have hfollows := follows_suffix hb hs hline' hprecedence
  refine ⟨e', last, fuel + 1, hlast, by omega, by omega, ?_⟩
  exact (bind_some hname _).trans (continued_extends hline hfollows hread)

/-- The call of a name. -/
theorem operand_call {n b c : Token} {ts : List Token} (hn : n.isName = true)
    (hb : b.kind = .sign .leftParen) (hc : c.kind = .sign .rightParen)
    (hline : n.position.line = line) (hline' : b.position.line = line)
    (hline'' : c.position.line = line) (h : Enclosed limit line ts) :
    Operand limit line (n :: b :: (ts ++ [c])) := by
  refine operand_extended hn hb rfl hline hline' fun fuel nesting e a rest ds hfuel hlimit => ?_
  rw [List.length_append, List.length_singleton] at hfuel hlimit
  obtain ⟨es, hread⟩ :=
    h.expressions hc rfl fuel nesting b (a :: rest) ds (by omega) (by omega)
  refine ⟨.call b.position e es, c, hline'', ?_⟩
  rw [extended, List.append_assoc, current_bind, current_on, hb]
  exact bind_some hread _

/-- A subscript behind the part before it. -/
theorem extended_index {b c : Token} {ts : List Token} (hb : b.kind = .sign .leftBracket)
    (hc : c.kind = .sign .rightBracket) (h : Chain limit line ts) (fuel nesting : Nat) (e : Expr)
    (rest : List Token) (ds : Array Diagnostic) (hfuel : 8 * ts.length ≤ fuel + 4)
    (hlimit : nesting + ts.length < limit) :
    ∃ e', extended limit (fuel + 1) nesting e (on (b :: (ts ++ c :: rest)) ds) =
      (some (.index b.position e e'), on (c :: rest) ds) := by
  obtain ⟨e', last, -, hread⟩ := h.expression fuel nesting rest ds hfuel hlimit
    (follows_of_loose (precedenceOf_closing hc rfl) loosest line)
  refine ⟨e', ?_⟩
  rw [extended, current_bind, current_on, hb]
  simp only [advance_bind, advance_on_append]
  rw [bind_some hread, expect_bind hc]
  rfl

/-- A subscript of a name. -/
theorem operand_index {n b c : Token} {ts : List Token} (hn : n.isName = true)
    (hb : b.kind = .sign .leftBracket) (hc : c.kind = .sign .rightBracket)
    (hline : n.position.line = line) (hline' : b.position.line = line)
    (hline'' : c.position.line = line) (h : Chain limit line ts) :
    Operand limit line (n :: b :: (ts ++ [c])) := by
  refine operand_extended hn hb rfl hline hline' fun fuel nesting e a rest ds hfuel hlimit => ?_
  rw [List.length_append, List.length_singleton] at hfuel hlimit
  obtain ⟨e', hread⟩ := extended_index hb hc h fuel nesting e (a :: rest) ds (by omega) (by omega)
  exact ⟨_, c, hline'', by rw [List.append_assoc, List.singleton_append, hread]⟩

/-- The call of a method of a name. -/
theorem operand_method {n b m o c : Token} {ts : List Token} (hn : n.isName = true)
    (hb : b.kind = .sign .dot) (hm : m.isName = true) (ho : o.kind = .sign .leftParen)
    (hc : c.kind = .sign .rightParen) (hline : n.position.line = line)
    (hlineB : b.position.line = line) (hlineM : m.position.line = line)
    (hlineO : o.position.line = line) (hlineC : c.position.line = line)
    (h : Enclosed limit line ts) : Operand limit line (n :: b :: m :: o :: (ts ++ [c])) := by
  refine operand_extended hn hb rfl hline hlineB fun fuel nesting e a rest ds hfuel hlimit => ?_
  simp only [List.length_cons, List.length_append, List.length_nil] at hfuel hlimit
  obtain ⟨es, hread⟩ :=
    h.expressions hc rfl fuel nesting o (a :: rest) ds (by omega) (by omega)
  have hparen : ((on (m :: o :: (ts ++ c :: a :: rest)) ds).ahead.isSign .leftParen &&
      !(on (m :: o :: (ts ++ c :: a :: rest)) ds).breaksAhead) = true := by
    rw [ahead_on, breaksAhead_on, isSign_self ho, hlineO, hlineM, bne_self_eq_false]
    rfl
  refine ⟨.method b.position e ⟨m.lexeme, m.position⟩ es, c, hlineC, ?_⟩
  rw [extended, current_bind, current_on, hb]
  simp only [List.cons_append, List.append_assoc, List.nil_append]
  rw [expectName_bind hm, get_bind, if_pos hparen, advance_bind, advance_on]
  exact bind_some hread _

end Scriptlet.Parser
