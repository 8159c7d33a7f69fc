/-
Reading the layout of an expression.  An expression that stands where it needs
no parentheses is read up to its last token, and reading goes on behind it as
behind any first part; a token that would bind more tightly than the expression
does must not follow.
-/
import Scriptlet.Proofs.Laid
import Scriptlet.Proofs.Readers

namespace Scriptlet.Parser

open Parse Reader Layout Lexer

/-- Whether a token behind one on line `line` continues an expression at a
precedence. -/
def follows (precedence : Nat) (t : Token) (line : Nat) : Bool :=
  precedence < precedenceOf t && (t.position.line == line || t.isSign .dot)

theorem continuesAt_on {line : Nat} {last : Token} (h : last.position.line = line)
    (precedence : Nat) (a : Token) (rest : List Token) (ds : Array Diagnostic) :
    continuesAt precedence (on (last :: a :: rest) ds) = follows precedence a line := by
  subst h
  rw [continuesAt, breaksAhead_on, follows, ahead_on]
  simp only [bne, Bool.not_not]

theorem follows_of_le {m n line : Nat} {t : Token} (hle : m ≤ n)
    (h : follows m t line = false) : follows n t line = false := by
  cases hn : follows n t line with
  | false => rfl
  | true =>
      simp only [follows, Bool.and_eq_true, decide_eq_true_eq] at hn
      have hm : follows m t line = true := by
        simp only [follows, Bool.and_eq_true, decide_eq_true_eq]
        exact ⟨by omega, hn.2⟩
      rw [hm] at h
      exact Bool.noConfusion h

theorem follows_of_loose {t : Token} (h : precedenceOf t = loosest) (precedence line : Nat) :
    follows precedence t line = false := by
  simp [follows, h, loosest]

/-- A first part and everything that continues it. -/
def primary (limit fuel nesting precedence : Nat) : Parse Expr := do
  let left ← operand limit fuel nesting
  continued limit fuel nesting precedence left

theorem expression_succ {limit nesting : Nat} (h : nesting < limit) (fuel precedence : Nat)
    (r : Reader) :
    expression limit (fuel + 1) nesting precedence r =
      primary limit fuel (nesting + 1) precedence r :=
  congrFun (expression_parts (Nat.not_le.mpr h) fuel precedence) r

/-- Whether an expression binds more tightly than a precedence. -/
def Fits (precedence : Nat) : Expr → Prop
  | .binary _ op _ _ => precedence < op.precedence
  | _ => True

/-- Whether an expression that ends on line `line` ends before a token, and the
token does not go with its last operand. -/
def EndsBefore (t : Token) (line : Nat) : Expr → Prop
  | .binary _ op _ _ => follows op.precedence t line = false
  | .unary _ _ _ => follows unaryPrecedence t line = false
  | .member _ _ _ => (t.isSign .leftParen && t.position.line == line) = false
  | _ => True

/-- Whether the tokens `ts` are read as an expression that is seen like `e`, whose
last token stands on line `line`; reading goes on with the token `a`. -/
def Found (f : String → String) (limit fuel nesting precedence : Nat) (e : Expr) (line : Nat)
    (ts : List Token) (a : Token) (rest : List Token) (ds : Array Diagnostic) : Prop :=
  ∃ e' last fuel', e'.seen .plain = e.seen ⟨f, true⟩ ∧ last.position.line = line ∧
    fuel ≤ fuel' + ts.length ∧ fuel' ≤ fuel ∧
    primary limit fuel nesting precedence (on (ts ++ a :: rest) ds) =
      continued limit fuel' nesting precedence e' (on (last :: a :: rest) ds)

/-- Whether some pieces are read as the expression they lay out. -/
def Reads (f : String → String) (limit : Nat) (e : Expr) (ps : List Piece) : Prop :=
  ∀ (fuel nesting precedence : Nat) {line : Nat} {ts : List Token} {a : Token}
    (rest : List Token) (ds : Array Diagnostic), Laid f line ps ts → 8 * ts.length ≤ fuel + 5 →
    nesting + fuel ≤ limit → precedence ≤ unaryPrecedence → Fits precedence e →
    EndsBefore a (line + linesIn ps) e →
    Found f limit fuel nesting precedence e (line + linesIn ps) ts a rest ds

variable {f : String → String} {limit : Nat}

/-- A continuation that does not come about. -/
theorem continued_stops {fuel nesting precedence line : Nat} {e : Expr} {last a : Token}
    {rest : List Token} {ds : Array Diagnostic} (hfuel : 0 < fuel)
    (hlast : last.position.line = line) (h : follows precedence a line = false) :
    continued limit fuel nesting precedence e (on (last :: a :: rest) ds) =
      (some e, on (last :: a :: rest) ds) := by
  obtain ⟨fuel, rfl⟩ := Nat.exists_eq_succ_of_ne_zero hfuel.ne'
  rw [continued, get_bind, continuesAt_on hlast, h]
  rfl

/-- A continuation by one operator, call, subscript or member. -/
theorem continued_extends {fuel nesting precedence line : Nat} {e e' : Expr} {last a : Token}
    {rest : List Token} {ds : Array Diagnostic} {r : Reader}
    (hlast : last.position.line = line) (h : follows precedence a line = true)
    (hstep : extended limit fuel nesting e (on (a :: rest) ds) = (some e', r)) :
    continued limit (fuel + 1) nesting precedence e (on (last :: a :: rest) ds) =
      continued limit fuel nesting precedence e' r := by
  rw [continued, get_bind, continuesAt_on hlast, h, if_pos rfl, advance_bind, advance_on]
  exact bind_some hstep _

/-- The whole of an expression, read where nothing continues it. -/
theorem Found.expression {fuel nesting precedence line : Nat} {e : Expr} {ts : List Token}
    {a : Token} {rest : List Token} {ds : Array Diagnostic}
    (h : Found f limit fuel (nesting + 1) precedence e line ts a rest ds)
    (hfuel : ts.length < fuel) (hlimit : nesting < limit)
    (hstop : follows precedence a line = false) :
    ∃ e' last, e'.seen .plain = e.seen ⟨f, true⟩ ∧ last.position.line = line ∧
      expression limit (fuel + 1) nesting precedence (on (ts ++ a :: rest) ds) =
        (some e', on (last :: a :: rest) ds) := by
  obtain ⟨e', last, fuel', hseen, hlast, hspent, -, hread⟩ := h
  refine ⟨e', last, hseen, hlast, ?_⟩
  rw [expression_succ hlimit, hread, continued_stops (by omega) hlast hstop]

/-- An expression that is a first part. -/
theorem found_of_operand {fuel nesting precedence line : Nat} {e e' : Expr} {ts : List Token}
    {a : Token} {rest : List Token} {ds : Array Diagnostic} (last : Token)
    (hseen : e'.seen .plain = e.seen ⟨f, true⟩) (hlast : last.position.line = line)
    (hread : operand limit fuel nesting (on (ts ++ a :: rest) ds) =
      (some e', on (last :: a :: rest) ds)) :
    Found f limit fuel nesting precedence e line ts a rest ds :=
  ⟨e', last, fuel, hseen, hlast, Nat.le_add_right _ _, Nat.le_refl _, bind_some hread _⟩

/-- An expression that extends another by the tokens `b :: us`. -/
theorem Found.extend {fuel nesting precedence line line' : Nat} {o e : Expr}
    {ts us : List Token} {a b : Token} {rest : List Token} {ds : Array Diagnostic}
    (h : Found f limit fuel nesting precedence o line ts b (us ++ a :: rest) ds)
    (hfuel : 8 * (ts ++ b :: us).length ≤ fuel + 5) (hlimit : nesting + fuel ≤ limit)
    (hb : follows precedence b line = true)
    (hstep : ∀ o' k, o'.seen .plain = o.seen ⟨f, true⟩ → 8 * us.length + 1 ≤ k →
      nesting + (k + 1) ≤ limit → ∃ e' last, e'.seen .plain = e.seen ⟨f, true⟩ ∧
        last.position.line = line' ∧
        extended limit (k + 1) nesting o' (on (b :: (us ++ a :: rest)) ds) =
          (some e', on (last :: a :: rest) ds)) :
    Found f limit fuel nesting precedence e line' (ts ++ b :: us) a rest ds := by
  obtain ⟨o', last, fuel', hseen, hlast, hspent, hle, hread⟩ := h
  simp only [List.length_append, List.length_cons] at hfuel
  obtain ⟨k, rfl⟩ : ∃ k, fuel' = k + 2 := ⟨fuel' - 2, by omega⟩
  obtain ⟨e', last', hseen', hlast', hextended⟩ := hstep o' k hseen (by omega) (by omega)
  refine ⟨e', last', k + 1, hseen', hlast', ?_, by omega, ?_⟩
  · simp only [List.length_append, List.length_cons]
    omega
  · rw [List.append_assoc, List.cons_append, hread, continued_extends hlast hb hextended]

theorem precedenceOf_closing {c : Token} {closing : Sign} (hc : c.kind = .sign closing)
    (h : (Word.sign closing).closes = true) : precedenceOf c = loosest := by
  rw [precedenceOf, hc]
  cases closing <;> simp_all [Word.closes, BinaryOp.ofSign?]

theorem fits_loosest (e : Expr) : Fits loosest e := by
  cases e with
  | binary p op left right => cases op <;> exact Nat.succ_pos _
  | _ => trivial

theorem laid_ne_nil {g : Gap} {ps : List Piece} {line : Nat} {ts : List Token}
    (hphrase : Phrase g ps) (h : Laid f line ps ts) : ts ≠ [] := by
  obtain ⟨w, v, -, -, hrow⟩ := hphrase
  obtain ⟨-, tail, rfl⟩ := Row.exists_tail hrow
  obtain ⟨t, rest, rfl, -⟩ := laid_cons_iff.mp h
  exact List.cons_ne_nil t rest

/-- An expression that binds more tightly than a precedence ends before a token
that does not continue it there. -/
theorem Fits.endsBefore {precedence line : Nat} {e : Expr} {t : Token} (h : Fits precedence e)
    (hle : precedence ≤ unaryPrecedence) (hstop : follows precedence t line = false) :
    EndsBefore t line e := by
  cases e with
  | binary p op left right => exact follows_of_le (Nat.le_of_lt h) hstop
  | unary p op operand => exact follows_of_le hle hstop
  | member p object field =>
      cases hparen : t.isSign .leftParen && t.position.line == line with
      | false => exact hparen
      | true =>
          simp only [Bool.and_eq_true, beq_iff_eq] at hparen
          have hkind := kind_of_isSign hparen.1
          have hfollows : follows precedence t line = true := by
            simp only [follows, precedenceOf, hkind, hparen.2, beq_self_eq_true, Bool.true_or,
              Bool.and_true, decide_eq_true_eq]
            exact Nat.lt_of_le_of_lt hle (by decide)
          rw [hfollows] at hstop
          exact Bool.noConfusion hstop
  | _ => trivial

/-- An expression behind which no operator follows. -/
theorem expression_reads {e : Expr} {g : Gap} {ps : List Piece} (h : Reads f limit e ps)
    (hphrase : Phrase g ps) (fuel nesting : Nat) {line : Nat} {ts : List Token} {a : Token}
    (rest : List Token) (ds : Array Diagnostic) (hlaid : Laid f line ps ts)
    (hfuel : 8 * ts.length ≤ fuel + 4) (hlimit : nesting + fuel ≤ limit)
    (hstop : follows loosest a (line + linesIn ps) = false) :
    ∃ e' last, e'.seen .plain = e.seen ⟨f, true⟩ ∧ last.position.line = line + linesIn ps ∧
      expression limit fuel nesting loosest (on (ts ++ a :: rest) ds) =
        (some e', on (last :: a :: rest) ds) := by
  have hlength := List.length_pos_iff.mpr (laid_ne_nil hphrase hlaid)
  obtain ⟨fuel, rfl⟩ : ∃ k, fuel = k + 1 := ⟨fuel - 1, by omega⟩
  have hends := (fits_loosest e).endsBefore (Nat.zero_le _) hstop
  have hfound := h fuel (nesting + 1) loosest rest ds hlaid (by omega) (by omega) (Nat.zero_le _)
    (fits_loosest e) hends
  exact hfound.expression (by omega) (by omega) hstop

/-- An expression that stands in parentheses where it needs them. -/
theorem found_wrapPieces {e : Expr} {g : Gap} {inner : Gap → List Piece} {needed : Bool}
    (hreads : ∀ g, Reads f limit e (inner g)) (hphrase : ∀ g, Phrase g (inner g))
    (fuel nesting precedence : Nat) {line : Nat} {ts : List Token} {a : Token}
    (rest : List Token) (ds : Array Diagnostic) (hlaid : Laid f line (wrapPieces needed g inner) ts)
    (hfuel : 8 * ts.length ≤ fuel + 5) (hlimit : nesting + fuel ≤ limit)
    (hprecedence : precedence ≤ unaryPrecedence) (hfits : needed = false → Fits precedence e)
    (hends : needed = false → EndsBefore a (line + linesIn (wrapPieces needed g inner)) e) :
    Found f limit fuel nesting precedence e (line + linesIn (wrapPieces needed g inner)) ts a
      rest ds := by
  cases needed with
  | false =>
      exact hreads g fuel nesting precedence rest ds hlaid hfuel hlimit hprecedence (hfits rfl)
        (hends rfl)
  | true =>
      simp only [wrapPieces, if_true] at hlaid ⊢
      obtain ⟨t, ts, rfl, ht, -, hlaid⟩ := laid_cons_iff.mp hlaid
      obtain ⟨us, _, rfl, hinner, hclose⟩ := laid_append_iff.mp hlaid
      obtain ⟨c, _, rfl, hc, hline, hnil⟩ := laid_cons_iff.mp hclose
      obtain rfl := laid_nil_iff.mp hnil
      simp only [List.length_cons, List.length_append, List.length_nil] at hfuel
      obtain ⟨fuel, rfl⟩ : ∃ k, fuel = k + 1 := ⟨fuel - 1, by omega⟩
      have hloose := follows_of_loose (precedenceOf_closing hc rfl) loosest
      obtain ⟨e', last, hseen, hlast, hread⟩ := expression_reads (hreads .nothing)
        (hphrase .nothing) fuel nesting (a :: rest) ds hinner (by omega) (by omega) (hloose _)
      refine found_of_operand c hseen ?_ ?_
      · rw [hline]
        simp only [linesIn_cons, linesIn_append, linesIn_nil]
        omega
      · simp only [List.cons_append, List.append_assoc, List.nil_append]
        rw [operand, current_bind, current_on, show t.kind = .sign .leftParen from ht]
        simp only [advance_bind, advance_on_append]
        rw [bind_some hread, expect_bind hc]
        rfl

/-- An operand behind its operator. -/
theorem expression_side {e : Expr} {g : Gap} {inner : Gap → List Piece} {needed : Bool}
    (hreads : ∀ g, Reads f limit e (inner g)) (hphrase : ∀ g, Phrase g (inner g))
    (fuel nesting precedence : Nat) {line : Nat} {ts : List Token} {a : Token}
    (rest : List Token) (ds : Array Diagnostic) (hlaid : Laid f line (wrapPieces needed g inner) ts)
    (hfuel : 8 * ts.length ≤ fuel + 4) (hlimit : nesting + fuel ≤ limit)
    (hprecedence : precedence ≤ unaryPrecedence) (hfits : needed = false → Fits precedence e)
    (hstop : follows precedence a (line + linesIn (wrapPieces needed g inner)) = false) :
    ∃ e' last, e'.seen .plain = e.seen ⟨f, true⟩ ∧
      last.position.line = line + linesIn (wrapPieces needed g inner) ∧
      expression limit fuel nesting precedence (on (ts ++ a :: rest) ds) =
        (some e', on (last :: a :: rest) ds) := by
  have hlength := List.length_pos_iff.mpr (laid_ne_nil (phrase_wrapPieces needed g hphrase) hlaid)
  obtain ⟨fuel, rfl⟩ : ∃ k, fuel = k + 1 := ⟨fuel - 1, by omega⟩
  have hfound := found_wrapPieces hreads hphrase fuel (nesting + 1) precedence rest ds hlaid
    (by omega) (by omega) hprecedence hfits (fun h => (hfits h).endsBefore hprecedence hstop)
  exact hfound.expression (by omega) (by omega) hstop

/-- A single word that is an expression. -/
theorem reads_word {e : Expr} {w : Word} (g : Gap)
    (h : ∀ t, ReadAs f t w → ∃ e', e'.seen .plain = e.seen ⟨f, true⟩ ∧
      ∀ fuel nesting (r : Reader), r.current = t →
        operand limit (fuel + 1) nesting r = (some e', r)) :
    Reads f limit e [⟨g, w⟩] := by
  intro fuel nesting precedence line ts a rest ds hlaid hfuel hlimit hprecedence hfits hends
  obtain ⟨t, _, rfl, ht, hline, hnil⟩ := laid_cons_iff.mp hlaid
  obtain rfl := laid_nil_iff.mp hnil
  simp only [List.length_cons, List.length_nil] at hfuel
  obtain ⟨fuel, rfl⟩ : ∃ k, fuel = k + 1 := ⟨fuel - 1, by omega⟩
  obtain ⟨e', hseen, hread⟩ := h t ht
  exact found_of_operand t hseen hline (hread fuel nesting _ (current_on t _ ds))

theorem needsSide_fits {e : Expr} (h : needsSide 100 false e = false) :
    Fits unaryPrecedence e := by
  cases e with
  | binary p op left right => cases op <;> simp [needsSide, BinaryOp.precedence] at h
  | _ => trivial

/-- An operator before its operand. -/
theorem reads_unary {operand : Expr} {depth : Nat} (g : Gap) (p : Position) (op : UnaryOp)
    (hreads : ∀ g, Reads f limit operand (exprPieces g depth operand))
    (hphrase : ∀ g, Phrase g (exprPieces g depth operand)) :
    Reads f limit (.unary p op operand) (exprPieces g depth (.unary p op operand)) := by
  intro fuel nesting precedence line ts a rest ds hlaid hfuel hlimit hprecedence hfits hends
  simp only [exprPieces] at hlaid hends ⊢
  obtain ⟨t, us, rfl, ht, hline, hlaid⟩ := laid_cons_iff.mp hlaid
  rw [linesIn_cons, ← Nat.add_assoc] at hends ⊢
  simp only [List.length_cons] at hfuel
  obtain ⟨fuel, rfl⟩ : ∃ k, fuel = k + 1 := ⟨fuel - 1, by omega⟩
  obtain ⟨o, last, hseen, hlast, hread⟩ := expression_side hreads hphrase fuel nesting
    unaryPrecedence rest ds hlaid (by omega) (by omega) (Nat.le_refl _) needsSide_fits hends
  have hwhole : Expr.seen .plain (.unary t.position op o) =
      (Expr.unary p op operand).seen ⟨f, true⟩ := by
    simp only [Expr.seen, hseen]
  refine found_of_operand last hwhole hlast ?_
  rw [Parser.operand, List.cons_append, current_bind, current_on,
    show t.kind = .sign op.sign from ht]
  cases op
  all_goals
    simp only [UnaryOp.sign, advance_bind, advance_on_append]
    rw [bind_some hread]
    rfl

theorem precedenceOf_binary {t : Token} {op : BinaryOp} (h : t.kind = .sign op.sign) :
    precedenceOf t = op.precedence := by
  rw [precedenceOf, h]
  cases op <;> rfl

theorem binary_lt_unary (op : BinaryOp) : op.precedence < unaryPrecedence := by
  cases op <;> decide

theorem extended_binary {fuel nesting : Nat} {left : Expr} {t : Token} {op : BinaryOp}
    {ts : List Token} {ds : Array Diagnostic} (ht : t.kind = .sign op.sign) :
    extended limit (fuel + 1) nesting left (on (t :: ts) ds) =
      (expression limit fuel nesting op.precedence >>= fun right =>
        pure (.binary t.position op left right)) (on (t :: ts) ds).advance := by
  rw [extended, current_bind, current_on, ht]
  cases op <;> rfl

theorem needsSide_right_fits {op : BinaryOp} {e : Expr}
    (h : needsSide op.precedence true e = false) : Fits op.precedence e := by
  cases e with
  | binary p op' left right =>
      simp only [needsSide, Bool.or_eq_false_iff, decide_eq_false_iff_not, Bool.and_true,
        beq_eq_false_iff_ne, not_lt] at h
      change op.precedence < op'.precedence
      omega
  | _ => trivial

theorem needsSide_left_fits {precedence : Nat} {op : BinaryOp} {e : Expr}
    (hop : precedence < op.precedence) (h : needsSide op.precedence false e = false) :
    Fits precedence e := by
  cases e with
  | binary p op' left right =>
      simp only [needsSide, Bool.or_eq_false_iff, decide_eq_false_iff_not, not_lt] at h
      exact Nat.lt_of_lt_of_le hop h.1
  | _ => trivial

/-- A left operand ends before its operator. -/
theorem needsSide_left_ends {op : BinaryOp} {e : Expr} {t : Token} (ht : t.kind = .sign op.sign)
    (h : needsSide op.precedence false e = false) (line : Nat) : EndsBefore t line e := by
  have hprecedence := precedenceOf_binary ht
  cases e with
  | binary p op' left right =>
      simp only [needsSide, Bool.or_eq_false_iff, decide_eq_false_iff_not, not_lt] at h
      have hle : ¬ op'.precedence < op.precedence := Nat.not_lt.mpr h.1
      simp [EndsBefore, follows, hprecedence, hle]
  | unary p op' operand =>
      have hle : ¬ unaryPrecedence < op.precedence := Nat.not_lt.mpr (binary_lt_unary op).le
      simp [EndsBefore, follows, hprecedence, hle]
  | member p object field =>
      have hparen : t.isSign .leftParen = false := by
        rw [isSign_of_kind ht]
        cases op <;> rfl
      simp [EndsBefore, hparen]
  | _ => trivial

/-- An operator between its operands. -/
theorem reads_binary {left right : Expr} {depth : Nat} (g : Gap) (p : Position) (op : BinaryOp)
    (hleft : ∀ g, Reads f limit left (exprPieces g depth left))
    (hleftPhrase : ∀ g, Phrase g (exprPieces g depth left))
    (hright : ∀ g, Reads f limit right (exprPieces g depth right))
    (hrightPhrase : ∀ g, Phrase g (exprPieces g depth right)) :
    Reads f limit (.binary p op left right) (exprPieces g depth (.binary p op left right)) := by
  intro fuel nesting precedence line ts a rest ds hlaid hfuel hlimit hprecedence hfits hends
  simp only [exprPieces] at hlaid hends ⊢
  obtain ⟨ts, _, rfl, hleftLaid, hlaid⟩ := laid_append_iff.mp hlaid
  obtain ⟨b, us, rfl, hb, hline, hlaid⟩ := laid_cons_iff.mp hlaid
  rw [linesIn_append, linesIn_cons] at hends ⊢
  simp only [Piece.apart, Gap.lines, Nat.add_zero, Nat.zero_add, ← Nat.add_assoc]
    at hb hline hlaid hends ⊢
  have hcount := hfuel
  simp only [List.length_append, List.length_cons] at hcount
  have hfound := found_wrapPieces hleft hleftPhrase fuel nesting precedence (us ++ a :: rest) ds
    hleftLaid (by omega) hlimit hprecedence (needsSide_left_fits hfits)
    (fun h => needsSide_left_ends hb h _)
  refine hfound.extend hfuel hlimit ?_ ?_
  · simp only [follows, precedenceOf_binary hb, hline, beq_self_eq_true, Bool.true_or,
      Bool.and_true, decide_eq_true_eq]
    exact hfits
  · intro o' k hseen hk hroom
    obtain ⟨e', last, hseen', hlast, hread⟩ := expression_side hright hrightPhrase k nesting
      op.precedence rest ds hlaid (by omega) (by omega) (binary_lt_unary op).le
      needsSide_right_fits hends
    refine ⟨.binary b.position op o' e', last, ?_, hlast, ?_⟩
    · simp only [Expr.seen, hseen, hseen']
    · rw [extended_binary hb, advance_on_append, bind_some hread]
      rfl

/-- Whether a sign begins a call, a subscript or a member. -/
def isSuffix : Sign → Bool
  | .leftParen | .leftBracket | .dot => true
  | _ => false

theorem precedenceOf_suffix {t : Token} {s : Sign} (hs : isSuffix s = true)
    (ht : t.kind = .sign s) : precedenceOf t = suffixPrecedence := by
  rw [precedenceOf, ht]
  cases s <;> simp_all [isSuffix]

/-- An expression that needs no parentheses there ends before a call, a
subscript or a member, unless the call would be that of a method. -/
theorem needsWrap_ends {e : Expr} {t : Token} {s : Sign} (ht : t.kind = .sign s)
    (h : needsWrap e = false) (hmember : s = .leftParen → e.isMember = false) (line : Nat) :
    EndsBefore t line e := by
  cases e with
  | binary p op left right => exact absurd h (by simp [needsWrap])
  | unary p op operand => exact absurd h (by simp [needsWrap])
  | member p object field =>
      have hparen : t.isSign .leftParen = false := by
        rw [isSign_of_kind ht, beq_eq_false_iff_ne]
        intro hs
        exact Bool.noConfusion (hmember hs)
      simp [EndsBefore, hparen]
  | _ => trivial

theorem needsWrap_fits {e : Expr} (h : needsWrap e = false) (precedence : Nat) :
    Fits precedence e := by
  cases e with
  | binary p op left right => exact absurd h (by simp [needsWrap])
  | _ => trivial

/-- An expression that a call, a subscript or a member makes of another. -/
theorem reads_suffix {o e : Expr} {depth : Nat} (g : Gap) {s : Sign} {tail : List Piece}
    (hs : isSuffix s = true) (hmember : s = .leftParen → o.isMember = false)
    (hreads : ∀ g, Reads f limit o (exprPieces g depth o))
    (hphrase : ∀ g, Phrase g (exprPieces g depth o))
    (hstep : ∀ {line k nesting : Nat} {o' : Expr} {b a : Token} {us : List Token}
      (rest : List Token) (ds : Array Diagnostic), o'.seen .plain = o.seen ⟨f, true⟩ →
      b.kind = .sign s → Laid f line tail us → EndsBefore a (line + linesIn tail) e →
      8 * us.length + 1 ≤ k → nesting + (k + 1) ≤ limit →
      ∃ e' last, e'.seen .plain = e.seen ⟨f, true⟩ ∧ last.position.line = line + linesIn tail ∧
        extended limit (k + 1) nesting o' (on (b :: (us ++ a :: rest)) ds) =
          (some e', on (last :: a :: rest) ds)) :
    Reads f limit e
      (wrapPieces (needsWrap o) g (fun g => exprPieces g depth o) ++ .close s :: tail) := by
  intro fuel nesting precedence line ts a rest ds hlaid hfuel hlimit hprecedence hfits hends
  obtain ⟨ts, _, rfl, hobject, hlaid⟩ := laid_append_iff.mp hlaid
  obtain ⟨b, us, rfl, hb, hline, hlaid⟩ := laid_cons_iff.mp hlaid
  rw [linesIn_append, linesIn_cons] at hends ⊢
  simp only [Piece.close, Gap.lines, Nat.add_zero, Nat.zero_add, ← Nat.add_assoc]
    at hb hline hlaid hends ⊢
  have hcount := hfuel
  simp only [List.length_append, List.length_cons] at hcount
  have hfound := found_wrapPieces hreads hphrase fuel nesting precedence (us ++ a :: rest) ds
    hobject (by omega) hlimit hprecedence (fun h => needsWrap_fits h _)
    (fun h => needsWrap_ends hb h hmember _)
  refine hfound.extend hfuel hlimit ?_ ?_
  · simp only [follows, precedenceOf_suffix hs hb, hline, beq_self_eq_true, Bool.true_or,
      Bool.and_true, decide_eq_true_eq]
    exact Nat.lt_of_le_of_lt hprecedence (by decide)
  · intro o' k hseen hk hroom
    exact hstep rest ds hseen hb hlaid hends hk hroom

/-- A subscript. -/
theorem reads_index {object subscript : Expr} {depth : Nat} (g : Gap) (p : Position)
    (hobject : ∀ g, Reads f limit object (exprPieces g depth object))
    (hobjectPhrase : ∀ g, Phrase g (exprPieces g depth object))
    (hsubscript : ∀ g, Reads f limit subscript (exprPieces g depth subscript))
    (hsubscriptPhrase : ∀ g, Phrase g (exprPieces g depth subscript)) :
    Reads f limit (.index p object subscript) (exprPieces g depth (.index p object subscript)) := by
  rw [exprPieces, List.append_assoc, List.cons_append]
  refine reads_suffix g rfl Sign.noConfusion hobject hobjectPhrase ?_
  intro line k nesting o' b a us rest ds hseen hb hlaid _ hk hroom
  obtain ⟨us, _, rfl, hinside, hclose⟩ := laid_append_iff.mp hlaid
  obtain ⟨c, _, rfl, hc, hline, hnil⟩ := laid_cons_iff.mp hclose
  obtain rfl := laid_nil_iff.mp hnil
  simp only [List.length_append, List.length_cons, List.length_nil] at hk
  have hloose := follows_of_loose (precedenceOf_closing hc rfl) loosest
  obtain ⟨e', last, hseen', -, hread⟩ := expression_reads (hsubscript .nothing)
    (hsubscriptPhrase .nothing) k nesting (a :: rest) ds hinside (by omega) (by omega) (hloose _)
  refine ⟨.index b.position o' e', c, ?_, ?_, ?_⟩
  · simp only [Expr.seen, hseen, hseen']
  · rw [hline, linesIn_append, linesIn_cons, linesIn_nil]
    omega
  · rw [extended, current_bind, current_on, hb]
    simp only [advance_bind, List.append_assoc, List.singleton_append, advance_on_append]
    rw [bind_some hread, expect_bind hc]
    rfl

/-- A member, which no parenthesis follows. -/
theorem reads_member {object : Expr} {depth : Nat} (g : Gap) (p : Position) (field : Ident)
    (hobject : ∀ g, Reads f limit object (exprPieces g depth object))
    (hphrase : ∀ g, Phrase g (exprPieces g depth object)) :
    Reads f limit (.member p object field) (exprPieces g depth (.member p object field)) := by
  rw [exprPieces]
  refine reads_suffix g rfl Sign.noConfusion hobject hphrase ?_
  intro line k nesting o' b a us rest ds hseen hb hlaid hends hk hroom
  obtain ⟨t, _, rfl, ht, hline, hnil⟩ := laid_cons_iff.mp hlaid
  obtain rfl := laid_nil_iff.mp hnil
  obtain ⟨hname, hlexeme⟩ := ht
  refine ⟨.member b.position o' ⟨t.lexeme, t.position⟩, t, ?_, hline, ?_⟩
  · simp only [Expr.seen, hseen, Ident.seen, hlexeme]
  · have hplain : ¬((on (t :: a :: rest) ds).ahead.isSign .leftParen &&
        !(on (t :: a :: rest) ds).breaksAhead) = true := by
      rw [ahead_on, breaksAhead_on, bne, Bool.not_not, hline, Bool.not_eq_true]
      exact hends
    rw [extended, current_bind, current_on, hb]
    simp only [List.cons_append, List.nil_append]
    rw [expectName_bind hname, get_bind, if_neg hplain]
    rfl

/-- Whether the tokens of some pieces are read as expressions between brackets. -/
def ItemsRead (f : String → String) (limit : Nat) (es : List Expr) (ps : List Piece) : Prop :=
  ∀ (fuel nesting : Nat) {line : Nat} {ts : List Token} {c : Token} {closing : Sign} (t : Token)
    (rest : List Token) (ds : Array Diagnostic), Laid f line ps ts → c.kind = .sign closing →
    (Word.sign closing).closes = true → 8 * ts.length + 1 ≤ fuel → nesting + fuel ≤ limit →
    ∃ es', exprsSeen .plain es' = exprsSeen ⟨f, true⟩ es ∧
      expressions limit fuel nesting closing (on (t :: (ts ++ c :: rest)) ds) =
        (some es', on (c :: rest) ds)

/-- Whether the tokens of some pieces are read as further expressions. -/
def MoreItemsRead (f : String → String) (limit : Nat) (es : List Expr) (ps : List Piece) :
    Prop :=
  ∀ (fuel nesting : Nat) {line : Nat} {ts : List Token} {c : Token} {closing : Sign} (t : Token)
    (done : List Expr) (rest : List Token) (ds : Array Diagnostic), Laid f line ps ts →
    c.kind = .sign closing → (Word.sign closing).closes = true → 8 * ts.length + 1 ≤ fuel →
    nesting + fuel ≤ limit →
    ∃ es', exprsSeen .plain es' = exprsSeen ⟨f, true⟩ es ∧
      moreExpressions limit fuel nesting closing done (on (t :: (ts ++ c :: rest)) ds) =
        (some (done.reverse ++ es'), on (c :: rest) ds)

/-- A token that begins an expression or a statement is no sign that begins none. -/
theorem isSign_of_opens {t : Token} {w : Word} (h : ReadAs f t w) (hw : w.opens = true)
    {s : Sign} (hs : (Word.sign s).opens = false) : t.isSign s = false := by
  cases hsign : t.isSign s with
  | false => rfl
  | true =>
      have hkind := kind_of_isSign hsign
      cases w with
      | sign s' =>
          obtain rfl : s' = s := by
            have hsame := (show t.kind = .sign s' from h).symm.trans hkind
            exact TokenKind.sign.inj hsame
          rw [hw] at hs
          exact Bool.noConfusion hs
      | name n => simp [Token.isName, hkind, ReadAs] at h
      | _ => simp [ReadAs, hkind] at h

/-- The first token of an expression or a statement. -/
theorem laid_opens {g : Gap} {ps : List Piece} {line : Nat} {ts : List Token}
    (hphrase : Phrase g ps) (h : Laid f line ps ts) :
    ∃ t rest, ts = t :: rest ∧ t.position.line = line + g.lines ∧ t.isEof = false ∧
      ∀ s, (Word.sign s).opens = false → t.isSign s = false := by
  obtain ⟨w, v, hopens, -, hrow⟩ := hphrase
  obtain ⟨-, tail, rfl⟩ := Row.exists_tail hrow
  obtain ⟨t, rest, rfl, ht, hline, -⟩ := laid_cons_iff.mp h
  exact ⟨t, rest, rfl, hline, isEof_of_readAs ht, fun s hs => isSign_of_opens ht hopens hs⟩

theorem opens_of_closes {s : Sign} (h : (Word.sign s).closes = true) :
    (Word.sign s).opens = false := by
  cases s <;> simp_all [Word.closes, Word.opens]

/-- Behind an expression between brackets a comma stands or the closing bracket. -/
theorem laid_moreItems_loose {depth line : Nat} {es : List Expr} {ts : List Token} {c : Token}
    (h : Laid f line (moreItemsPieces depth es) ts) (hc : precedenceOf c = loosest)
    (rest : List Token) : ∃ a tail, ts ++ c :: rest = a :: tail ∧ precedenceOf a = loosest := by
  cases es with
  | nil =>
      obtain rfl := laid_nil_iff.mp h
      exact ⟨c, rest, rfl, hc⟩
  | cons e es =>
      obtain ⟨comma, ts, rfl, hcomma, -⟩ := laid_cons_iff.mp h
      refine ⟨comma, ts ++ c :: rest, rfl, ?_⟩
      rw [precedenceOf, show comma.kind = .sign .comma from hcomma]
      rfl

theorem moreItemsRead_nil : MoreItemsRead f limit [] [] := by
  intro fuel nesting line ts c closing t done rest ds hlaid hc hcloses hfuel hlimit
  obtain rfl := laid_nil_iff.mp hlaid
  obtain ⟨fuel, rfl⟩ : ∃ k, fuel = k + 1 := ⟨fuel - 1, by omega⟩
  have hcomma : c.isSign .comma = false := by
    rw [isSign_of_kind hc]
    cases closing <;> simp_all [Word.closes]
  refine ⟨[], rfl, ?_⟩
  rw [List.nil_append, moreExpressions, get_bind, ahead_on, hcomma, if_neg Bool.false_ne_true,
    expect_bind hc, List.append_nil]
  rfl

theorem moreItemsRead_cons {depth : Nat} {e : Expr} {es : List Expr}
    (h : Reads f limit e (exprPieces .blank depth e))
    (hphrase : Phrase .blank (exprPieces .blank depth e))
    (hmore : MoreItemsRead f limit es (moreItemsPieces depth es)) :
    MoreItemsRead f limit (e :: es) (moreItemsPieces depth (e :: es)) := by
  intro fuel nesting line ts c closing t done rest ds hlaid hc hcloses hfuel hlimit
  obtain ⟨_, back, rfl, hfront, hback⟩ := laid_append_iff.mp hlaid
  obtain ⟨comma, front, rfl, hcomma, -, hfront⟩ := laid_cons_iff.mp hfront
  simp only [List.length_append, List.length_cons] at hfuel
  obtain ⟨fuel, rfl⟩ : ∃ k, fuel = k + 1 := ⟨fuel - 1, by omega⟩
  obtain ⟨a, tail, ha, hloose⟩ :=
    laid_moreItems_loose hback (precedenceOf_closing hc hcloses) rest
  obtain ⟨e', last, hseen, -, hread⟩ := expression_reads h hphrase fuel nesting tail ds hfront
    (by omega) (by omega) (follows_of_loose hloose _ _)
  obtain ⟨es', hseens, hreads⟩ := hmore fuel nesting last (e' :: done) rest ds hback hc hcloses
    (by omega) (by omega)
  obtain ⟨first, others, rfl, -, -, hopens⟩ := laid_opens hphrase hfront
  have hfirst := hopens closing (opens_of_closes hcloses)
  refine ⟨e' :: es', ?_, ?_⟩
  · simp only [exprsSeen, hseen, hseens]
  · rw [moreExpressions, get_bind]
    simp only [List.append_assoc, List.cons_append, ha] at hread hreads ⊢
    rw [ahead_on, if_pos (isSign_self hcomma)]
    simp only [advance_bind, get_bind, advance_on, ahead_on, hfirst]
    rw [if_neg Bool.false_ne_true]
    simp only [advance_bind, advance_on]
    rw [bind_some hread, hreads]
    simp

theorem itemsRead_nil : ItemsRead f limit [] [] := by
  intro fuel nesting line ts c closing t rest ds hlaid hc hcloses hfuel hlimit
  obtain rfl := laid_nil_iff.mp hlaid
  obtain ⟨fuel, rfl⟩ : ∃ k, fuel = k + 1 := ⟨fuel - 1, by omega⟩
  refine ⟨[], rfl, ?_⟩
  rw [List.nil_append, expressions, get_bind, ahead_on,
    if_pos (isSign_self hc), advance_bind, advance_on]
  rfl

theorem itemsRead_cons {depth : Nat} {e : Expr} {es : List Expr}
    (h : Reads f limit e (exprPieces .nothing depth e))
    (hphrase : Phrase .nothing (exprPieces .nothing depth e))
    (hmore : MoreItemsRead f limit es (moreItemsPieces depth es)) :
    ItemsRead f limit (e :: es) (itemsPieces depth (e :: es)) := by
  intro fuel nesting line ts c closing t rest ds hlaid hc hcloses hfuel hlimit
  obtain ⟨front, back, rfl, hfront, hback⟩ := laid_append_iff.mp hlaid
  have hlength := List.length_pos_iff.mpr (laid_ne_nil hphrase hfront)
  simp only [List.length_append] at hfuel
  obtain ⟨fuel, rfl⟩ : ∃ k, fuel = k + 1 := ⟨fuel - 1, by omega⟩
  obtain ⟨a, tail, ha, hloose⟩ :=
    laid_moreItems_loose hback (precedenceOf_closing hc hcloses) rest
  obtain ⟨e', last, hseen, -, hread⟩ := expression_reads h hphrase fuel nesting tail ds hfront
    (by omega) (by omega) (follows_of_loose hloose _ _)
  obtain ⟨es', hseens, hreads⟩ := hmore fuel nesting last [e'] rest ds hback hc hcloses
    (by omega) (by omega)
  obtain ⟨first, others, rfl, -, -, hopens⟩ := laid_opens hphrase hfront
  have hfirst := hopens closing (opens_of_closes hcloses)
  refine ⟨e' :: es', ?_, ?_⟩
  · simp only [exprsSeen, hseen, hseens]
  · rw [expressions, get_bind]
    simp only [List.append_assoc, List.cons_append, ha] at hread hreads ⊢
    rw [ahead_on, hfirst, if_neg Bool.false_ne_true]
    simp only [advance_bind, advance_on]
    rw [bind_some hread, hreads]
    rfl

/-- A list. -/
theorem reads_list {items : List Expr} {depth : Nat} (g : Gap) (p : Position)
    (hitems : ItemsRead f limit items (itemsPieces depth items)) :
    Reads f limit (.list p items) (exprPieces g depth (.list p items)) := by
  intro fuel nesting precedence line ts a rest ds hlaid hfuel hlimit hprecedence hfits hends
  simp only [exprPieces, List.cons_append] at hlaid ⊢
  obtain ⟨t, _, rfl, ht, -, hlaid⟩ := laid_cons_iff.mp hlaid
  obtain ⟨us, _, rfl, hinside, hclose⟩ := laid_append_iff.mp hlaid
  obtain ⟨c, _, rfl, hc, hline, hnil⟩ := laid_cons_iff.mp hclose
  obtain rfl := laid_nil_iff.mp hnil
  simp only [List.length_append, List.length_cons, List.length_nil] at hfuel
  obtain ⟨fuel, rfl⟩ : ∃ k, fuel = k + 1 := ⟨fuel - 1, by omega⟩
  obtain ⟨items', hseen, hread⟩ :=
    hitems fuel nesting t (a :: rest) ds hinside hc rfl (by omega) (by omega)
  have hwhole : Expr.seen .plain (.list t.position items') =
      (Expr.list p items).seen ⟨f, true⟩ := by
    simp only [Expr.seen, hseen]
  refine found_of_operand c hwhole ?_ ?_
  · rw [hline]
    simp only [linesIn_cons, linesIn_append, linesIn_nil]
    omega
  · rw [operand, List.cons_append, current_bind, current_on,
      show t.kind = .sign .leftBracket from ht]
    simp only [List.append_assoc, List.singleton_append]
    exact bind_some hread _

/-- The arguments of a call or a method. -/
theorem args_read {args : List Expr} {depth : Nat}
    (hargs : ItemsRead f limit args (itemsPieces depth args)) (k nesting : Nat) {line : Nat}
    {us : List Token} {a : Token} (t : Token) (rest : List Token) (ds : Array Diagnostic)
    (hlaid : Laid f line (itemsPieces depth args ++ [Piece.close .rightParen]) us)
    (hk : 8 * us.length ≤ k) (hroom : nesting + k ≤ limit) :
    ∃ args' c, exprsSeen .plain args' = exprsSeen ⟨f, true⟩ args ∧
      c.position.line = line + linesIn (itemsPieces depth args ++ [Piece.close .rightParen]) ∧
      expressions limit k nesting .rightParen (on (t :: (us ++ a :: rest)) ds) =
        (some args', on (c :: a :: rest) ds) := by
  obtain ⟨us, _, rfl, hinside, hclose⟩ := laid_append_iff.mp hlaid
  obtain ⟨c, _, rfl, hc, hline, hnil⟩ := laid_cons_iff.mp hclose
  obtain rfl := laid_nil_iff.mp hnil
  simp only [List.length_append, List.length_cons, List.length_nil] at hk
  obtain ⟨args', hseen, hread⟩ :=
    hargs k nesting t (a :: rest) ds hinside hc rfl (by omega) hroom
  refine ⟨args', c, hseen, ?_, ?_⟩
  · rw [hline]
    simp only [linesIn_cons, linesIn_append, linesIn_nil]
    omega
  · rw [List.append_assoc, List.singleton_append]
    exact hread

/-- The call of an expression that is no member. -/
theorem reads_call {callee : Expr} {args : List Expr} {depth : Nat} (g : Gap) (p : Position)
    (hmember : callee.isMember = false)
    (hcallee : ∀ g, Reads f limit callee (exprPieces g depth callee))
    (hphrase : ∀ g, Phrase g (exprPieces g depth callee))
    (hargs : ItemsRead f limit args (itemsPieces depth args)) :
    Reads f limit (.call p callee args) (exprPieces g depth (.call p callee args)) := by
  rw [exprPieces, List.append_assoc, List.cons_append]
  refine reads_suffix g rfl (fun _ => hmember) hcallee hphrase ?_
  intro line k nesting o' b a us rest ds hseen hb hlaid _ hk hroom
  obtain ⟨args', c, hseens, hline, hread⟩ :=
    args_read hargs k nesting (a := a) b rest ds hlaid (by omega) (by omega)
  refine ⟨.call b.position o' args', c, ?_, hline, ?_⟩
  · have hplain : (callee.seen ⟨f, true⟩).isMember = false := by
      rw [Expr.isMember_seen, hmember]
    simp only [Expr.seen, hseen, hseens]
    rw [View.call_of_not_member _ _ _ hplain, View.call_of_not_member _ _ _ hplain]
  · rw [extended, current_bind, current_on, hb]
    exact bind_some hread _

/-- The call of a method; the call of a member is laid out in the same way. -/
theorem reads_method {object e : Expr} {field : Ident} {args : List Expr} {depth : Nat} (g : Gap)
    (hseen : ∀ p, (Expr.method p object field args).seen ⟨f, true⟩ = e.seen ⟨f, true⟩)
    (hobject : ∀ g, Reads f limit object (exprPieces g depth object))
    (hphrase : ∀ g, Phrase g (exprPieces g depth object))
    (hargs : ItemsRead f limit args (itemsPieces depth args)) (p : Position) :
    Reads f limit e (exprPieces g depth (.method p object field args)) := by
  rw [exprPieces, List.append_assoc, List.cons_append]
  refine reads_suffix g rfl Sign.noConfusion hobject hphrase ?_
  intro line k nesting o' b a us rest ds hobjectSeen hb hlaid _ hk hroom
  obtain ⟨t, _, rfl, ht, hline, hlaid⟩ := laid_cons_iff.mp hlaid
  obtain ⟨u, us, rfl, hu, hline', hlaid⟩ := laid_cons_iff.mp hlaid
  simp only [List.length_cons] at hk
  obtain ⟨args', c, hseens, hend, hread⟩ :=
    args_read hargs k nesting (a := a) u rest ds hlaid (by omega) (by omega)
  obtain ⟨hname, hlexeme⟩ := ht
  have hwhole : Expr.seen .plain (.method b.position o' ⟨t.lexeme, t.position⟩ args') =
      e.seen ⟨f, true⟩ := by
    rw [← hseen p]
    simp only [Expr.seen, hobjectSeen, hseens, Ident.seen, hlexeme]
  have hparen : ((on (t :: u :: (us ++ a :: rest)) ds).ahead.isSign .leftParen &&
      !(on (t :: u :: (us ++ a :: rest)) ds).breaksAhead) = true := by
    rw [ahead_on, breaksAhead_on, isSign_of_kind hu, hline', hline]
    simp [Piece.close, Gap.lines]
  refine ⟨_, c, hwhole, ?_, ?_⟩
  · rw [hend]
    simp only [List.cons_append, linesIn_cons]
    omega
  · rw [extended, current_bind, current_on, hb]
    simp only [List.cons_append]
    rw [expectName_bind hname, get_bind, if_pos hparen, advance_bind, advance_on]
    exact bind_some hread _

end Scriptlet.Parser
