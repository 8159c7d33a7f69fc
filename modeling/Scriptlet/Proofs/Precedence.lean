/-
Operators between operands.  The tokens of a chain spell many trees; just one of them
is grouped by precedence, from the left where precedences are equal, and that is the
tree which is read.  Reading nests by as many levels as there are precedences, and by
the operators before one operand, however long the chain is.
-/
import Scriptlet.Proofs.Chains
import Scriptlet.Proofs.Grammar

namespace Scriptlet.Parser

open Parse Reader Layout

/-- Whether some tokens are an operand with at most `n` operators before it. -/
inductive Prefixed : Nat → List Token → Prop
  | operand {n : Nat} {t : Token} : isSimple t = true → Prefixed n [t]
  | sign {n : Nat} {t : Token} {op : UnaryOp} {ts : List Token} : t.isSign op.sign = true →
      Prefixed n ts → Prefixed (n + 1) (t :: ts)

/-- The most operators that may stand before an operand. -/
def maxSigns : Nat := 400

/-- Whether some tokens are operands with operators between them. -/
inductive OperatorChain : List Token → Prop
  | one {ts : List Token} : Prefixed maxSigns ts → OperatorChain ts
  | more {ts us : List Token} {t : Token} {op : BinaryOp} : Prefixed maxSigns ts →
      t.isSign op.sign = true → OperatorChain us → OperatorChain (ts ++ t :: us)

/-- How tightly an expression holds together: as its operator binds, if that stands
between operands. -/
def tightness : Expr → Nat
  | .binary _ op _ _ => op.precedence
  | _ => unaryPrecedence

/-- Whether an expression has its operator between operands. -/
def isInfix : Expr → Bool
  | .binary _ _ _ _ => true
  | _ => false

/-- Whether the operands and operators of an expression are grouped by precedence:
to the left of an operator nothing is looser than it, to the right everything is
tighter, and an operator before an operand takes no other. -/
def IsGrouped : Expr → Prop
  | .binary _ op left right => IsGrouped left ∧ IsGrouped right ∧
      op.precedence ≤ tightness left ∧ op.precedence < tightness right
  | .unary _ _ operand => IsGrouped operand ∧ isInfix operand = false
  | _ => True

def simpleExpr (t : Token) : Expr :=
  match t.kind with
  | .name _ => .name t.ident
  | .int value => .int t.position t.lexeme value
  | .float value => .float t.position t.lexeme value
  | .str => .str t.position t.lexeme
  | .keyword .trueWord => .bool t.position true
  | .keyword .falseWord => .bool t.position false
  | _ => .null t.position

inductive InOrder : Expr → List Token → Prop
  | operand {t : Token} : isSimple t = true → InOrder (simpleExpr t) [t]
  | unary {t : Token} {op : UnaryOp} {e : Expr} {ts : List Token} : t.isSign op.sign = true →
      InOrder e ts → InOrder (.unary t.position op e) (t :: ts)
  | binary {t : Token} {op : BinaryOp} {left right : Expr} {ts us : List Token} :
      InOrder left ts → t.isSign op.sign = true → InOrder right us →
      InOrder (.binary t.position op left right) (ts ++ t :: us)

theorem isSimple_of_isSign {t : Token} {s : Sign} (h : t.isSign s = true) : isSimple t = false := by
  rw [isSimple, kind_of_isSign h]

theorem simpleExpr_spelt {t : Token} (h : isSimple t = true) : ExprSpelt (simpleExpr t) [t] := by
  unfold isSimple at h
  unfold simpleExpr
  cases hkind : t.kind with
  | name capital => exact .name (by rw [Token.isName, hkind])
  | int value => exact .int hkind
  | float value => exact .float hkind
  | str => exact .str hkind
  | keyword k =>
      rw [hkind] at h
      cases k with
      | trueWord => exact .trueWord (by rw [isKeyword_of_kind hkind]; rfl)
      | falseWord => exact .falseWord (by rw [isKeyword_of_kind hkind]; rfl)
      | nullWord => exact .nullWord (by rw [isKeyword_of_kind hkind]; rfl)
      | _ => exact Bool.noConfusion h
  | _ =>
      rw [hkind] at h
      exact Bool.noConfusion h

theorem InOrder.spelt {e : Expr} {ts : List Token} (h : InOrder e ts) : ExprSpelt e ts := by
  induction h with
  | operand ht => exact simpleExpr_spelt ht
  | unary hsign _ ih => exact .unary hsign ih
  | binary _ hsign _ ihleft ihright => exact .binary ihleft hsign ihright

/-- Whether a token may stand in a chain. -/
def isPlain (t : Token) : Bool :=
  match t.kind with
  | .sign s => (BinaryOp.ofSign? s).isSome || s == .bang
  | _ => isSimple t

theorem isPlain_of_isSign {t : Token} {s : Sign} (h : t.isSign s = true) :
    isPlain t = ((BinaryOp.ofSign? s).isSome || s == .bang) := by
  rw [isPlain, kind_of_isSign h]

theorem isPlain_of_isSimple {t : Token} (h : isSimple t = true) : isPlain t = true := by
  unfold isPlain
  split
  · rename_i s hkind
    rw [isSimple, hkind] at h
    exact Bool.noConfusion h
  · exact h

theorem isPlain_unary {t : Token} {op : UnaryOp} (h : t.isSign op.sign = true) :
    isPlain t = true := by
  rw [isPlain_of_isSign h]
  cases op <;> rfl

theorem isPlain_binary {t : Token} {op : BinaryOp} (h : t.isSign op.sign = true) :
    isPlain t = true := by
  rw [isPlain_of_isSign h]
  cases op <;> rfl

theorem Prefixed.isPlain {n : Nat} {ts : List Token} (h : Prefixed n ts) :
    ∀ t ∈ ts, isPlain t = true := by
  induction h with
  | operand ht =>
      intro u hu
      rw [List.mem_singleton.mp hu]
      exact isPlain_of_isSimple ht
  | sign hsign _ ih => exact List.forall_mem_cons.mpr ⟨isPlain_unary hsign, ih⟩

theorem OperatorChain.isPlain {ts : List Token} (h : OperatorChain ts) :
    ∀ t ∈ ts, isPlain t = true := by
  induction h with
  | one h => exact h.isPlain
  | more h hsign _ ih =>
      exact List.forall_mem_append.mpr
        ⟨h.isPlain, List.forall_mem_cons.mpr ⟨isPlain_binary hsign, ih⟩⟩

theorem not_isPlain {t : Token} {s : Sign} {ts : List Token} (h : t.isSign s = true)
    (hs : ((BinaryOp.ofSign? s).isSome || s == .bang) = false) (hmem : t ∈ ts)
    (hplain : ∀ t ∈ ts, isPlain t = true) : False := by
  have ht := hplain t hmem
  rw [isPlain_of_isSign h, hs] at ht
  exact Bool.noConfusion ht

theorem InOrder.of_simple {e : Expr} {t : Token} (ht : isSimple t = true) (he : simpleExpr t = e) :
    InOrder e [t] :=
  he ▸ .operand ht

/-- Whatever the tokens of a chain spell reads, in order, as the chain. -/
theorem inOrder_of_spelt {e : Expr} {ts : List Token} (h : ExprSpelt e ts)
    (hplain : ∀ t ∈ ts, isPlain t = true) : InOrder e ts := by
  induction hlength : ts.length using Nat.strong_induction_on generalizing e ts with
  | h n ih =>
  subst hlength
  cases h with
  | name h =>
      obtain ⟨capital, hkind⟩ := exists_kind_of_isName h
      exact .of_simple (by rw [isSimple, hkind]) (by rw [simpleExpr, hkind])
  | int hkind => exact .of_simple (by rw [isSimple, hkind]) (by rw [simpleExpr, hkind])
  | float hkind => exact .of_simple (by rw [isSimple, hkind]) (by rw [simpleExpr, hkind])
  | str hkind => exact .of_simple (by rw [isSimple, hkind]) (by rw [simpleExpr, hkind])
  | trueWord h =>
      have hkind := kind_of_isKeyword h
      exact .of_simple (by rw [isSimple, hkind]; rfl) (by rw [simpleExpr, hkind])
  | falseWord h =>
      have hkind := kind_of_isKeyword h
      exact .of_simple (by rw [isSimple, hkind]; rfl) (by rw [simpleExpr, hkind])
  | nullWord h =>
      have hkind := kind_of_isKeyword h
      exact .of_simple (by rw [isSimple, hkind]; rfl) (by rw [simpleExpr, hkind])
  | unary hsign h =>
      exact .unary hsign (ih _ (Nat.lt_succ_self _) h (List.forall_mem_cons.mp hplain).2 rfl)
  | @binary t op left right ls rs hleft hsign hright =>
      obtain ⟨hplainleft, hplainright⟩ := List.forall_mem_append.mp hplain
      have hlength : (ls ++ t :: rs).length = ls.length + rs.length + 1 := by simp; omega
      exact .binary (ih _ (by omega) hleft hplainleft rfl) hsign
        (ih _ (by omega) hright (List.forall_mem_cons.mp hplainright).2 rfl)
  | parens ho _ _ => exact (not_isPlain ho rfl List.mem_cons_self hplain).elim
  | list ho _ => exact (not_isPlain ho rfl List.mem_cons_self hplain).elim
  | lambda _ ho _ _ =>
      exact (not_isPlain ho rfl (List.mem_cons_of_mem _ List.mem_cons_self) hplain).elim
  | call _ h _ | member _ h _ | method _ h _ _ _ | index _ h _ _ =>
      exact (not_isPlain h rfl (List.mem_append_right _ List.mem_cons_self) hplain).elim

/-- What reads in order ends with an operand. -/
theorem InOrder.ends {e : Expr} {ts : List Token} (h : InOrder e ts) :
    ∃ us x, ts = us ++ [x] ∧ isSimple x = true := by
  induction h with
  | @operand t ht => exact ⟨[], t, rfl, ht⟩
  | @unary t _ _ _ _ _ ih =>
      obtain ⟨us, x, rfl, hx⟩ := ih
      exact ⟨t :: us, x, rfl, hx⟩
  | @binary t _ _ _ ts _ _ _ _ _ ih =>
      obtain ⟨us, x, rfl, hx⟩ := ih
      exact ⟨ts ++ t :: us, x, by simp, hx⟩

/-- Nothing stands behind the operand of some operators. -/
theorem Prefixed.eq_nil {n : Nat} {ts us vs : List Token} {x : Token} (h : Prefixed n ts)
    (hts : ts = us ++ x :: vs) (hx : isSimple x = true) : vs = [] := by
  induction h generalizing us with
  | operand _ =>
      cases us with
      | nil => exact (List.cons.inj hts).2.symm
      | cons _ _ => simp at hts
  | sign hsign _ ih =>
      cases us with
      | nil =>
          obtain ⟨rfl, -⟩ := List.cons.inj hts
          rw [isSimple_of_isSign hsign] at hx
          exact Bool.noConfusion hx
      | cons _ us => exact ih (List.cons.inj hts).2

/-- A chain splits behind each of its operands. -/
theorem OperatorChain.split {ts us vs : List Token} {x t : Token} (h : OperatorChain ts)
    (hts : ts = us ++ x :: t :: vs) (hx : isSimple x = true) :
    OperatorChain (us ++ [x]) ∧ OperatorChain vs := by
  induction h generalizing us with
  | one h => exact absurd (h.eq_nil hts hx) (List.cons_ne_nil _ _)
  | @more xs ys s op hxs hs hys ih =>
      rcases List.append_eq_append_iff.mp hts with ⟨as, rfl, has⟩ | ⟨as, rfl, has⟩
      · -- The operand stands behind the first operator.
        cases as with
        | nil =>
            obtain ⟨rfl, -⟩ := List.cons.inj has
            rw [isSimple_of_isSign hs] at hx
            exact Bool.noConfusion hx
        | cons s' as =>
            obtain ⟨rfl, htail⟩ := List.cons.inj has
            obtain ⟨hleft, hright⟩ := ih htail
            rw [List.append_assoc]
            exact ⟨.more hxs hs hleft, hright⟩
      · cases as with
        | nil =>
            obtain ⟨rfl, -⟩ := List.cons.inj has
            rw [isSimple_of_isSign hs] at hx
            exact Bool.noConfusion hx
        | cons x' as =>
            obtain ⟨rfl, htail⟩ := List.cons.inj has
            obtain rfl := hxs.eq_nil rfl hx
            obtain ⟨rfl, rfl⟩ := List.cons.inj htail
            exact ⟨.one hxs, hys⟩

/-- The two sides of an operator in a chain are chains. -/
theorem OperatorChain.sides {left : Expr} {ts us : List Token} {t : Token}
    (h : OperatorChain (ts ++ t :: us)) (hleft : InOrder left ts) :
    OperatorChain ts ∧ OperatorChain us := by
  obtain ⟨vs, x, rfl, hx⟩ := hleft.ends
  exact h.split (by rw [List.append_assoc]; rfl) hx

/-- An operator before an operand, and what it applies to. -/
theorem InOrder.behind_sign {e : Expr} {t : Token} {ts : List Token} (h : InOrder e (t :: ts))
    (hsingle : isInfix e = false) (ht : isSimple t = false) :
    ∃ op operand, e = .unary t.position op operand ∧ t.isSign op.sign = true ∧
      InOrder operand ts := by
  generalize hus : t :: ts = us at h
  cases h with
  | operand hu =>
      obtain ⟨rfl, -⟩ := List.cons.inj hus
      rw [ht] at hu
      exact Bool.noConfusion hu
  | unary hsign hoperand =>
      obtain ⟨rfl, rfl⟩ := List.cons.inj hus
      exact ⟨_, _, rfl, hsign, hoperand⟩
  | binary _ _ _ => exact Bool.noConfusion hsingle

/-- What begins with an operand and has no operator between operands is that operand. -/
theorem InOrder.of_isSimple {e : Expr} {t : Token} {ts : List Token} (h : InOrder e (t :: ts))
    (hsingle : isInfix e = false) (ht : isSimple t = true) : e = simpleExpr t ∧ ts = [] := by
  generalize hus : t :: ts = us at h
  cases h with
  | operand _ =>
      obtain ⟨rfl, rfl⟩ := List.cons.inj hus
      exact ⟨rfl, rfl⟩
  | unary hsign _ =>
      obtain ⟨rfl, -⟩ := List.cons.inj hus
      rw [isSimple_of_isSign hsign] at ht
      exact Bool.noConfusion ht
  | binary _ _ _ => exact Bool.noConfusion hsingle

/-- An expression that is grouped and has no operator between operands is one operand
with the operators before it. -/
theorem Prefixed.not_more {n : Nat} {xs us : List Token} {t : Token} (h : Prefixed n xs)
    {e : Expr} (he : InOrder e (xs ++ t :: us)) (hgrouped : IsGrouped e)
    (hsingle : isInfix e = false) : False := by
  induction h generalizing e with
  | operand hx => exact List.cons_ne_nil _ _ (he.of_isSimple hsingle hx).2
  | sign hsign _ ih =>
      obtain ⟨op, operand, rfl, -, hoperand⟩ := he.behind_sign hsingle (isSimple_of_isSign hsign)
      exact ih hoperand hgrouped.1 hgrouped.2

theorem OperatorChain.prefixed {e : Expr} {ts : List Token} (h : OperatorChain ts)
    (he : InOrder e ts) (hgrouped : IsGrouped e) (hsingle : isInfix e = false) :
    Prefixed maxSigns ts := by
  cases h with
  | one h => exact h
  | more hxs _ _ => exact (hxs.not_more he hgrouped hsingle).elim

theorem tightness_of_isInfix {e : Expr} (h : isInfix e = false) :
    tightness e = unaryPrecedence := by
  cases e with
  | binary p op left right => exact Bool.noConfusion h
  | _ => rfl

theorem isInfix_simpleExpr (t : Token) : isInfix (simpleExpr t) = false := by
  unfold simpleExpr
  cases t.kind with
  | keyword k => cases k <;> rfl
  | _ => rfl

theorem isGrouped_simpleExpr (t : Token) : IsGrouped (simpleExpr t) := by
  unfold simpleExpr
  cases t.kind with
  | keyword k => cases k <;> trivial
  | _ => trivial

theorem Prefixed.exists_grouped {n : Nat} {ts : List Token} (h : Prefixed n ts) :
    ∃ e, InOrder e ts ∧ IsGrouped e ∧ isInfix e = false := by
  induction h with
  | operand ht => exact ⟨_, .operand ht, isGrouped_simpleExpr _, isInfix_simpleExpr _⟩
  | sign hsign _ ih =>
      obtain ⟨e, he, hgrouped, hsingle⟩ := ih
      exact ⟨_, .unary hsign he, ⟨hgrouped, hsingle⟩, rfl⟩

/-- An operand and an operator before a grouped tree that binds more tightly. -/
theorem exists_grouped_before {x e : Expr} {ts us : List Token} {t : Token} {op : BinaryOp}
    (hx : InOrder x ts) (hgroupedx : IsGrouped x) (hsingle : isInfix x = false)
    (ht : t.isSign op.sign = true) (he : InOrder e us) (hgrouped : IsGrouped e)
    (hless : op.precedence < tightness e) :
    ∃ e', InOrder e' (ts ++ t :: us) ∧ IsGrouped e' ∧
      tightness e' = min op.precedence (tightness e) := by
  have hunary := binary_lt_unary op
  have htightx := tightness_of_isInfix hsingle
  refine ⟨.binary t.position op x e, .binary hx ht he, ⟨hgroupedx, hgrouped, ?_, hless⟩, ?_⟩
  · omega
  · exact (Nat.min_eq_left hless.le).symm

/-- An operand and an operator before a grouped tree belong to the part of it, leftmost,
that binds more tightly than the operator. -/
theorem exists_grouped_left {x e : Expr} {ts us : List Token} {t : Token} {op : BinaryOp}
    (hx : InOrder x ts) (hgroupedx : IsGrouped x) (hsingle : isInfix x = false)
    (ht : t.isSign op.sign = true) (he : InOrder e us) (hgrouped : IsGrouped e) :
    ∃ e', InOrder e' (ts ++ t :: us) ∧ IsGrouped e' ∧
      tightness e' = min op.precedence (tightness e) := by
  have hunary := binary_lt_unary op
  induction he with
  | @operand u hu =>
      refine exists_grouped_before hx hgroupedx hsingle ht (.operand hu) hgrouped ?_
      rw [tightness_of_isInfix (isInfix_simpleExpr u)]
      exact hunary
  | unary hsign hoperand _ =>
      exact exists_grouped_before hx hgroupedx hsingle ht (.unary hsign hoperand) hgrouped hunary
  | @binary u op' left right vs ws hleft hu hright ih _ =>
      by_cases hless : op.precedence < op'.precedence
      · exact exists_grouped_before hx hgroupedx hsingle ht (.binary hleft hu hright) hgrouped hless
      · obtain ⟨hgroupedleft, hgroupedright, hlooser, htighter⟩ := hgrouped
        obtain ⟨left', hleft', hgrouped', htight⟩ := ih hgroupedleft
        have hmin : op'.precedence ≤ tightness left' := by omega
        refine ⟨.binary u.position op' left' right, ?_,
          ⟨hgrouped', hgroupedright, hmin, htighter⟩, ?_⟩
        · have horder := InOrder.binary hleft' hu hright
          rwa [List.append_assoc] at horder
        · exact (Nat.min_eq_right (Nat.not_lt.mp hless)).symm

theorem OperatorChain.exists_grouped {ts : List Token} (h : OperatorChain ts) :
    ∃ e, InOrder e ts ∧ IsGrouped e := by
  induction h with
  | one h =>
      obtain ⟨e, he, hgrouped, -⟩ := h.exists_grouped
      exact ⟨e, he, hgrouped⟩
  | more hxs ht _ ih =>
      obtain ⟨x, hx, hgroupedx, hsingle⟩ := hxs.exists_grouped
      obtain ⟨e, he, hgrouped⟩ := ih
      obtain ⟨e', he', hgrouped', -⟩ :=
        exists_grouped_left hx hgroupedx hsingle ht he hgrouped
      exact ⟨e', he', hgrouped'⟩

variable {limit line : Nat}

theorem operand_isSimple {t : Token} (ht : isSimple t = true) (fuel nesting : Nat)
    (us : List Token) (ds : Array Diagnostic) :
    operand limit (fuel + 1) nesting (on (t :: us) ds) =
      (some (simpleExpr t), on (t :: us) ds) := by
  rw [operand, current_bind, current_on]
  unfold isSimple at ht
  unfold simpleExpr
  cases hkind : t.kind with
  | keyword k =>
      rw [hkind] at ht
      cases k with
      | trueWord => rfl
      | falseWord => rfl
      | nullWord => rfl
      | _ => exact Bool.noConfusion ht
  | sign s => rw [hkind] at ht; exact Bool.noConfusion ht
  | illegal reason => rw [hkind] at ht; exact Bool.noConfusion ht
  | eof => rw [hkind] at ht; exact Bool.noConfusion ht
  | _ => rfl

theorem operand_unary {t : Token} {op : UnaryOp} (ht : t.isSign op.sign = true) (fuel nesting : Nat)
    (us : List Token) (ds : Array Diagnostic) :
    operand limit (fuel + 1) nesting (on (t :: us) ds) =
      (expression limit fuel nesting unaryPrecedence >>= fun e =>
        pure (.unary t.position op e)) (on (t :: us) ds).advance := by
  rw [operand, current_bind, current_on, kind_of_isSign ht]
  cases op <;> rfl

theorem follows_eq_false {precedence : Nat} {a : Token} (h : precedenceOf a ≤ precedence)
    (line : Nat) :
    follows precedence a line = false := by
  rw [follows, decide_eq_false (Nat.not_lt.mpr h), Bool.false_and]

/-- Operators before an operand are read, one in another, as far as nesting allows. -/
theorem Prefixed.reads {n : Nat} {xs : List Token} (h : Prefixed n xs) {e : Expr}
    (he : InOrder e xs) (hgrouped : IsGrouped e) (hsingle : isInfix e = false)
    (fuel nesting : Nat) {a : Token} (rest : List Token) (ds : Array Diagnostic)
    (hfuel : 2 * xs.length ≤ fuel + 1) (hnesting : nesting + n < limit)
    (ha : precedenceOf a < unaryPrecedence) :
    ∃ last, xs.getLast? = some last ∧
      Parser.operand limit fuel nesting (on (xs ++ a :: rest) ds) =
        (some e, on (last :: a :: rest) ds) := by
  induction h generalizing e fuel nesting with
  | @operand _ t ht =>
      obtain ⟨rfl, -⟩ := he.of_isSimple hsingle ht
      rw [List.length_singleton] at hfuel
      obtain ⟨fuel, rfl⟩ : ∃ k, fuel = k + 1 := ⟨fuel - 1, by omega⟩
      exact ⟨t, rfl, operand_isSimple ht fuel nesting (a :: rest) ds⟩
  | @sign _ t op ts hsign h ih =>
      obtain ⟨op, e, rfl, hsign, he⟩ := he.behind_sign hsingle (isSimple_of_isSign hsign)
      rw [List.length_cons] at hfuel
      have hpos : 0 < ts.length := by
        cases h <;> exact Nat.succ_pos _
      obtain ⟨fuel, rfl⟩ : ∃ k, fuel = k + 2 := ⟨fuel - 2, by omega⟩
      obtain ⟨last, hlast, hread⟩ :=
        ih he hgrouped.1 hgrouped.2 fuel (nesting + 1) (by omega) (by omega)
      refine ⟨last, ?_, ?_⟩
      · rw [List.getLast?_cons, hlast]
        rfl
      · rw [List.cons_append, operand_unary hsign, advance_on_append]
        have hexpression : expression limit (fuel + 1) nesting unaryPrecedence
            (on (ts ++ a :: rest) ds) = (some e, on (last :: a :: rest) ds) := by
          rw [expression_succ (by omega), primary, bind_some hread]
          exact continued_stops (by omega) rfl (follows_eq_false (Nat.le_of_lt ha) _)
        rw [bind_some hexpression]
        rfl

/-- One operand with the operators before it is read as a first part. -/
theorem OperatorChain.reads_operand {e : Expr} {ts : List Token} (hchain : OperatorChain ts)
    (he : InOrder e ts) (hgrouped : IsGrouped e) (hsingle : isInfix e = false)
    (fuel nesting precedence : Nat) {a : Token} (rest : List Token) (ds : Array Diagnostic)
    (hfuel : 4 * ts.length ≤ fuel) (hnesting : nesting ≤ precedence + 1)
    (hprecedence : precedence < tightness e) (hunary : precedenceOf a < unaryPrecedence) :
    ∃ last, ts.getLast? = some last ∧
      primary maxNesting fuel nesting precedence (on (ts ++ a :: rest) ds) =
        continued maxNesting fuel nesting precedence e (on (last :: a :: rest) ds) := by
  have hdeep : nesting + maxSigns < maxNesting := by
    rw [tightness_of_isInfix hsingle] at hprecedence
    simp only [maxSigns, maxNesting, unaryPrecedence] at hprecedence ⊢
    omega
  obtain ⟨last, hlast, hread⟩ :=
    (hchain.prefixed he hgrouped hsingle).reads he hgrouped hsingle fuel
    nesting rest ds (by omega) hdeep hunary
  exact ⟨last, hlast, bind_some hread _⟩

/-- A grouped tree is read from the chain that spells it, where nothing tighter follows.
Each right operand is read at a higher precedence, so nesting keeps below it. -/
theorem InOrder.reads {e : Expr} {ts : List Token} (he : InOrder e ts) (hgrouped : IsGrouped e)
    (hchain : OperatorChain ts) (hline : ∀ t ∈ ts, t.position.line = line)
    (fuel nesting precedence : Nat) {a : Token} (rest : List Token) (ds : Array Diagnostic)
    (hfuel : 4 * ts.length ≤ fuel) (hnesting : nesting ≤ precedence + 1)
    (hprecedence : precedence < tightness e) (ha : precedenceOf a ≤ tightness e)
    (hunary : precedenceOf a < unaryPrecedence) :
    ∃ last fuel', ts.getLast? = some last ∧ fuel ≤ fuel' + ts.length ∧
      primary maxNesting fuel nesting precedence (on (ts ++ a :: rest) ds) =
        continued maxNesting fuel' nesting precedence e (on (last :: a :: rest) ds) := by
  -- By induction on the expression read in order: the left side is read in the same call, and the
  -- right side by one call more.
  induction he generalizing fuel nesting precedence a rest with
  | @operand t ht =>
      obtain ⟨last, hlast, hread⟩ := hchain.reads_operand (.operand ht) hgrouped
        (isInfix_simpleExpr t) fuel nesting precedence rest ds hfuel hnesting hprecedence hunary
      exact ⟨last, fuel, hlast, Nat.le_add_right _ _, hread⟩
  | unary hsign hoperand _ =>
      obtain ⟨last, hlast, hread⟩ := hchain.reads_operand (.unary hsign hoperand) hgrouped rfl fuel
        nesting precedence rest ds hfuel hnesting hprecedence hunary
      exact ⟨last, fuel, hlast, Nat.le_add_right _ _, hread⟩
  | @binary t op left right us vs hleft ht hright ihleft ihright =>
      obtain ⟨hgroupedl, hgroupedr, hlooser, htighter⟩ := hgrouped
      obtain ⟨hchainl, hchainr⟩ := hchain.sides hleft
      obtain ⟨hlinel, hliner⟩ := List.forall_mem_append.mp hline
      obtain ⟨hlinet, hliner⟩ := List.forall_mem_cons.mp hliner
      have hop : precedenceOf t = op.precedence := precedenceOf_binary (kind_of_isSign ht)
      have hbelow := binary_lt_unary op
      have hsix : unaryPrecedence < maxNesting := by decide
      change precedence < op.precedence at hprecedence
      change precedenceOf a ≤ op.precedence at ha
      rw [List.length_append, List.length_cons] at hfuel
      obtain ⟨middle, fuel₁, hmiddle, hspent, hreadleft⟩ := ihleft hgroupedl hchainl hlinel fuel
        nesting precedence (a := t) (vs ++ a :: rest) (by omega) hnesting (by omega) (by omega)
          (by omega)
      obtain ⟨k, rfl⟩ : ∃ k, fuel₁ = k + 3 := ⟨fuel₁ - 3, by omega⟩
      obtain ⟨last, fuel₂, hlast, hspent₂, hreadright⟩ := ihright hgroupedr hchainr hliner k
        (nesting + 1) op.precedence rest (by omega) (by omega) htighter (by omega) hunary
      have hmiddleline : middle.position.line = line := hlinel middle (List.mem_of_getLast? hmiddle)
      have hright : expression maxNesting (k + 1) nesting op.precedence (on (vs ++ a :: rest) ds) =
          (some right, on (last :: a :: rest) ds) := by
        rw [expression_succ (by omega), hreadright]
        exact continued_stops (by omega) rfl (follows_eq_false ha _)
      have hstep : extended maxNesting (k + 2) nesting left (on (t :: (vs ++ a :: rest)) ds) =
          (some (.binary t.position op left right), on (last :: a :: rest) ds) := by
        rw [extended_binary (kind_of_isSign ht), advance_on_append, bind_some hright]
        rfl
      have hfollows : follows precedence t line = true := by
        rw [follows, hop, hlinet, beq_self_eq_true, Bool.true_or, Bool.and_true]
        exact decide_eq_true hprecedence
      refine ⟨last, k + 2, ?_, ?_, ?_⟩
      · rw [List.getLast?_append, List.getLast?_cons, hlast]
        rfl
      · rw [List.length_append, List.length_cons]
        omega
      · rw [List.append_assoc, List.cons_append, hreadleft,
          continued_extends hmiddleline hfollows hstep]

/-- A whole chain is read as the grouped tree that it spells. -/
theorem expression_of_grouped {e : Expr} {ts : List Token} (he : InOrder e ts)
    (hgrouped : IsGrouped e) (hchain : OperatorChain ts)
    (hline : ∀ t ∈ ts, t.position.line = line) {stop : Token}
    (hstop : precedenceOf stop = loosest) (rest : List Token) (ds : Array Diagnostic) {fuel : Nat}
    (hfuel : callsFor ts.length ≤ fuel) :
    ∃ last, ts.getLast? = some last ∧
      expression maxNesting fuel 0 loosest (on (ts ++ stop :: rest) ds) =
        (some e, on (last :: stop :: rest) ds) := by
  have hcalls : 8 * (ts.length + 4) ≤ fuel := hfuel
  have htight : loosest < tightness e := by
    cases e with
    | binary p op left right => cases op <;> exact Nat.succ_pos _
    | _ => exact Nat.succ_pos _
  obtain ⟨fuel, rfl⟩ : ∃ k, fuel = k + 1 := ⟨fuel - 1, by omega⟩
  obtain ⟨last, fuel', hlast, hspent, hread⟩ :=
    he.reads hgrouped hchain hline fuel 1 loosest rest ds
    (by omega) (Nat.le_refl _) htight (by rw [hstop]; exact htight.le) (by rw [hstop]; decide)
  refine ⟨last, hlast, ?_⟩
  rw [expression_succ (by decide), hread]
  exact continued_stops (by omega) rfl (follows_of_loose hstop _ _)

/-- A chain of operands and operators on one line, before a semicolon or the end of
input, is read whole, without a fault, as the one tree that it spells and that is grouped
by precedence. -/
theorem expression_of_chain {ts : List Token} (hchain : OperatorChain ts) {line : Nat}
    (hline : ∀ t ∈ ts, t.position.line = line) {stop : Token}
    (hstop : stop.isSign .semicolon = true ∨ stop.isEof = true) (rest : List Token)
    (ds : Array Diagnostic) {fuel : Nat} (hfuel : callsFor ts.length ≤ fuel) :
    ∃ e last, ts.getLast? = some last ∧
      expression maxNesting fuel 0 loosest (on (ts ++ stop :: rest) ds) =
        (some e, on (last :: stop :: rest) ds) ∧
      ExprSpelt e ts ∧ IsGrouped e ∧ ∀ e', ExprSpelt e' ts → IsGrouped e' → e' = e := by
  have hloose : precedenceOf stop = loosest := by
    rcases hstop with hsign | heof
    · rw [precedenceOf, kind_of_isSign hsign]
      rfl
    · unfold Token.isEof at heof
      split at heof
      · rename_i hkind
        rw [precedenceOf, hkind]
      · exact Bool.noConfusion heof
  obtain ⟨e, he, hgrouped⟩ := hchain.exists_grouped
  obtain ⟨last, hlast, hread⟩ :=
    expression_of_grouped he hgrouped hchain hline hloose rest ds hfuel
  refine ⟨e, last, hlast, hread, he.spelt, hgrouped, fun e' he' hgrouped' => ?_⟩
  have horder := inOrder_of_spelt he' hchain.isPlain
  obtain ⟨last', -, hread'⟩ :=
    expression_of_grouped horder hgrouped' hchain hline hloose rest ds hfuel
  rw [hread] at hread'
  exact (Option.some.inj (Prod.mk.inj hread').1).symm

/-- A difference whose right operand has an operator before it, `x - -x`. -/
theorem expression_of_chain_minus :
    let x : Token := ⟨.name false, "x", ⟨1, 1⟩⟩
    let minus : Token := ⟨.sign .minus, "-", ⟨1, 2⟩⟩
    let stop : Token := ⟨.eof, "", ⟨2, 1⟩⟩
    let ts := [x, minus, minus, x]
    OperatorChain ts ∧ (∀ t ∈ ts, t.position.line = 1) ∧ stop.isEof = true ∧
      ∃ e last, ts.getLast? = some last ∧
        expression maxNesting (callsFor 4) 0 loosest (on (ts ++ [stop]) #[]) =
          (some e, on [last, stop] #[]) ∧
        ExprSpelt e ts ∧ IsGrouped e ∧ ∀ e', ExprSpelt e' ts → IsGrouped e' → e' = e := by
  intro x minus stop ts
  have hfirst : Prefixed maxSigns [x] := .operand rfl
  have hsecond : Prefixed maxSigns [minus, x] := @Prefixed.sign _ _ .negate _ rfl (.operand rfl)
  have hchain : OperatorChain ts := @OperatorChain.more _ _ _ .sub hfirst rfl (.one hsecond)
  have hline : ∀ t ∈ ts, t.position.line = 1 := by decide
  have hfuel : callsFor ts.length ≤ callsFor 4 := Nat.le_refl _
  exact ⟨hchain, hline, rfl, expression_of_chain hchain hline (.inr rfl) [] #[] hfuel⟩

end Scriptlet.Parser
