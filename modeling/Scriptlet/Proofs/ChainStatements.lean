/-
Reading statements made of chains.  A statement is read without a fault where
the next token closes its block or stands on another line, and so are statements
on lines of their own, between braces and to the end of input.
-/
import Scriptlet.Proofs.Chains
import Scriptlet.Proofs.ReadingTrees

namespace Scriptlet.Parser

open Parse Reader Layout Lexer

def startsStatement (t : Token) : Bool :=
  match t.kind with
  | .keyword k => starts (.keyword k)
  | _ => opensExpression t

theorem startsStatement_of_opens {t : Token} (h : opensExpression t = true) :
    startsStatement t = true := by
  unfold startsStatement
  cases hkind : t.kind with
  | keyword k =>
      rw [opensExpression, hkind] at h
      exact starts_of_begins h
  | _ => exact h

theorem isSign_of_startsStatement {t : Token} (h : startsStatement t = true) {s : Sign}
    (hs : begins (.sign s) = false) : t.isSign s = false := by
  refine Bool.eq_false_of_not_eq_true fun hsign => ?_
  rw [startsStatement, kind_of_isSign hsign] at h
  have hnot := isSign_of_opensExpression h hs
  exact absurd (hnot.symm.trans hsign) Bool.noConfusion

theorem isKeyword_of_startsStatement {t : Token} (h : startsStatement t = true) {k : Keyword}
    (hk : starts (.keyword k) = false) : t.isKeyword k = false := by
  refine Bool.eq_false_of_not_eq_true fun hkeyword => ?_
  rw [startsStatement, kind_of_isKeyword hkeyword] at h
  exact absurd (hk.symm.trans h) Bool.noConfusion

theorem isEof_of_startsStatement {t : Token} (h : startsStatement t = true) :
    t.isEof = false := by
  unfold startsStatement at h
  split at h
  · rename_i k hkind
    rw [Token.isEof, hkind]
  · exact isEof_of_opensExpression h

/-- Whether a token ends the statement before it, which ends on line `line`: it
closes a block, or begins another line. -/
def Closes (a : Token) (line : Nat) : Prop := a.kind = .sign .rightBrace ∨ EndsStatement a line

/-- A statement ends before one on another line. -/
theorem closes_of_starts {t : Token} {line : Nat} (h : startsStatement t = true)
    (hline : t.position.line ≠ line) : Closes t line :=
  Or.inr ⟨hline, isSign_of_startsStatement h rfl, isSign_of_startsStatement h rfl,
    isSign_of_startsStatement h rfl, isKeyword_of_startsStatement h rfl,
    isKeyword_of_startsStatement h rfl⟩

theorem Closes.stops {a : Token} {line : Nat} (h : Closes a line) :
    follows loosest a line = false := by
  rcases h with h | h
  · exact follows_of_loose (precedenceOf_closing h rfl) loosest line
  · exact h.stops loosest

theorem Closes.noSign {a : Token} {line : Nat} (h : Closes a line) :
    a.isSign .assign = false ∧ a.isSign .semicolon = false := by
  rcases h with h | h
  · exact ⟨isSign_of_kind h _, isSign_of_kind h _⟩
  · exact ⟨h.noAssign, h.noSemicolon⟩

theorem Closes.noKeyword {a : Token} {line : Nat} (h : Closes a line) :
    a.isKeyword .elifWord = false ∧ a.isKeyword .elseWord = false := by
  rcases h with h | h
  · rw [Token.isKeyword, Token.isKeyword, h]
    exact ⟨rfl, rfl⟩
  · exact ⟨h.noElif, h.noElse⟩

theorem Closes.endStatement_bind {α : Type} {a last : Token} {line : Nat} (h : Closes a line)
    (hlast : last.position.line = line) (f : Unit → Parse α) (rest : List Token)
    (ds : Array Diagnostic) :
    (endStatement >>= f) (on (last :: a :: rest) ds) = f () (on (last :: a :: rest) ds) := by
  have hcloses : ((on (last :: a :: rest) ds).closesAhead ||
      (on (last :: a :: rest) ds).breaksAhead) = true := by
    rw [closesAhead_on, breaksAhead_on, hlast]
    rcases h with h | h
    · rw [isSign_self h]
      rfl
    · rw [bne_iff_ne.mpr h.elsewhere, Bool.or_true]
  have hend : endStatement (on (last :: a :: rest) ds) = (some (), on (last :: a :: rest) ds) := by
    rw [endStatement, ahead_on, h.noSign.2, if_neg Bool.false_ne_true, if_pos hcloses]
  exact bind_some hend f

/-- Whether the tokens `ts`, from line `line` to line `line'`, are read as a
statement where expressions may nest `room` deep. -/
structure Statement (limit room line line' : Nat) (ts : List Token) : Prop where
  starts : ∃ t us, ts = t :: us ∧ t.position.line = line ∧ startsStatement t = true
  reads : ∀ (fuel nesting : Nat) {a : Token} (rest : List Token) (ds : Array Diagnostic),
    8 * ts.length ≤ fuel + 2 → nesting + room < limit → Closes a line' →
    ∃ s last, last.position.line = line' ∧
      statement limit fuel nesting (on (ts ++ a :: rest) ds) =
        (some (some s), on (last :: a :: rest) ds)

inductive Lines (limit room : Nat) : Nat → Nat → List Token → Prop
  | one {line line' : Nat} {ts : List Token} :
      Statement limit room line line' ts → Lines limit room line line' ts
  | more {line line' next last : Nat} {ts us : List Token} :
      Statement limit room line line' ts → line' < next → Lines limit room next last us →
      Lines limit room line last (ts ++ us)

inductive Braces (limit room line line' : Nat) : List Token → Prop
  | mk {o c : Token} {first last : Nat} {ts : List Token} :
      o.kind = .sign .leftBrace → o.position.line = line → c.kind = .sign .rightBrace →
      c.position.line = line' → Lines limit room first last ts →
      Braces limit room line line' (o :: (ts ++ [c]))

variable {limit room line line' : Nat}

theorem Statement.length_pos {ts : List Token} (h : Statement limit room line line' ts) :
    0 < ts.length := by
  obtain ⟨t, us, rfl, -⟩ := h.starts
  exact Nat.succ_pos _

theorem Lines.starts {ts : List Token} (h : Lines limit room line line' ts) :
    ∃ t us, ts = t :: us ∧ t.position.line = line ∧ startsStatement t = true := by
  cases h with
  | one h => exact h.starts
  | more h =>
      obtain ⟨t, us, rfl, hline, hstarts⟩ := h.starts
      exact ⟨t, us ++ _, rfl, hline, hstarts⟩

/-- One statement of a block. -/
theorem Statement.blockStatements_step {ts : List Token}
    (h : Statement limit room line line' ts) (fuel nesting : Nat) (opened : Position)
    (done : List Stmt) {a : Token} (rest : List Token) (ds : Array Diagnostic)
    (hfuel : 8 * ts.length ≤ fuel + 2) (hlimit : nesting + room < limit) (ha : Closes a line') :
    ∃ s, blockStatements limit (fuel + 1) nesting opened done (on (ts ++ a :: rest) ds) =
      blockStatements limit fuel nesting opened (s :: done) (on (a :: rest) ds) := by
  obtain ⟨s, last, -, hread⟩ := h.reads fuel nesting rest ds hfuel hlimit ha
  obtain ⟨t, us, rfl, -, hstarts⟩ := h.starts
  have hbrace : (on (t :: us ++ a :: rest) ds).current.isSign .rightBrace = false := by
    rw [List.cons_append, current_on, isSign_of_startsStatement hstarts rfl]
  have heof : (on (t :: us ++ a :: rest) ds).current.isEof = false := by
    rw [List.cons_append, current_on, isEof_of_startsStatement hstarts]
  have hsame : (on (last :: a :: rest) ds).diagnostics =
      (on (t :: us ++ a :: rest) ds).diagnostics := by
    rw [diagnostics_on, diagnostics_on]
  exact ⟨s, by rw [Parser.blockStatements_step hbrace heof hread hsame, advance_on]⟩

/-- The statements of a block up to its closing brace. -/
theorem Lines.blockStatements {ts : List Token} (h : Lines limit room line line' ts) {c : Token}
    (hc : c.kind = .sign .rightBrace) (fuel nesting : Nat) (opened : Position) (done : List Stmt)
    (rest : List Token) (ds : Array Diagnostic) (hfuel : 8 * ts.length + 1 ≤ fuel)
    (hlimit : nesting + room < limit) :
    ∃ ss, Parser.blockStatements limit fuel nesting opened done (on (ts ++ c :: rest) ds) =
      (some ss, on (c :: rest) ds) := by
  induction h generalizing fuel done with
  | one h =>
      have hpos := h.length_pos
      obtain ⟨fuel, rfl⟩ : ∃ k, fuel = k + 2 := ⟨fuel - 2, by omega⟩
      obtain ⟨s, hread⟩ := h.blockStatements_step (fuel + 1) nesting opened done rest ds (by omega)
        hlimit (Or.inl hc)
      refine ⟨(s :: done).reverse, hread.trans ?_⟩
      rw [Parser.blockStatements, current_bind, current_on, if_pos (isSign_self hc)]
      rfl
  | more h hless hrest ih =>
      have hpos := h.length_pos
      rw [List.length_append] at hfuel
      obtain ⟨fuel, rfl⟩ : ∃ k, fuel = k + 1 := ⟨fuel - 1, by omega⟩
      obtain ⟨t, us, rfl, hline, hstarts⟩ := hrest.starts
      obtain ⟨s, hread⟩ := h.blockStatements_step fuel nesting opened done (us ++ c :: rest) ds
        (by omega) hlimit (closes_of_starts hstarts (by omega))
      obtain ⟨ss, hreads⟩ := ih fuel (s :: done) (by omega)
      refine ⟨ss, ?_⟩
      rw [List.append_assoc]
      exact hread.trans hreads

theorem Braces.exists_cons {ts : List Token} (h : Braces limit room line line' ts) :
    ∃ o us, ts = o :: us ∧ o.kind = .sign .leftBrace ∧ o.position.line = line := by
  cases h with
  | mk ho hline => exact ⟨_, _, rfl, ho, hline⟩

/-- A block behind the token that must precede it. -/
theorem Braces.behind {ts : List Token} (h : Braces limit room line line' ts) (fuel nesting : Nat)
    (t : Token) {a : Token} (rest : List Token) (ds : Array Diagnostic)
    (hfuel : 8 * ts.length ≤ fuel + 8) (hlimit : nesting + room < limit) :
    ∃ b last, last.position.line = line' ∧ ∀ {α : Type} (k : Block → Parse α),
      (expect .leftBrace >>= fun _ => block limit fuel nesting >>= k)
        (on (t :: (ts ++ a :: rest)) ds) = k b (on (last :: a :: rest) ds) := by
  cases h with
  | @mk o c first last us ho _ hc hline hlines =>
      have hpos : 0 < us.length := by
        obtain ⟨u, vs, rfl, -⟩ := hlines.starts
        exact Nat.succ_pos _
      simp only [List.length_cons, List.length_append, List.length_nil] at hfuel
      obtain ⟨fuel, rfl⟩ : ∃ k, fuel = k + 1 := ⟨fuel - 1, by omega⟩
      obtain ⟨ss, hread⟩ := hlines.blockStatements hc fuel nesting o.position [] (a :: rest) ds
        (by omega) hlimit
      have hblock : block limit (fuel + 1) nesting (on (o :: (us ++ c :: a :: rest)) ds) =
          (some (.mk o.position ss), on (c :: a :: rest) ds) := by
        rw [block, counted_eq, current_bind, advance_bind, current_on, advance_on_append,
          bind_some hread]
        rfl
      refine ⟨.mk o.position ss, c, hline, fun k => ?_⟩
      rw [List.cons_append, List.append_assoc, List.singleton_append, expect_bind ho]
      exact bind_some hblock k

/-- A function without a name. -/
theorem operand_lambda {f : String → String} {t : Token} {ps : List Param}
    {us body : List Token} (ht : t.kind = .keyword .fnWord) (hline : t.position.line = line)
    (hparams : ParamsLegible ps) (hlaid : Laid f line (paramsPieces ps) us)
    (hbody : Braces limit room line' line body) (hroom : room < body.length) :
    Operand limit line (t :: (us ++ body)) := by
  obtain ⟨o, us, rfl, ho⟩ := laid_paramsPieces hlaid
  have hopens : opensExpression t = true := by
    rw [opensExpression, ht]
    rfl
  have hname : o.isName = false := by
    rw [Token.isName, ho]
  refine operand_of_first ⟨t, o :: us ++ body, rfl, hline, hopens, fun _ => ⟨o, _, rfl, hname⟩⟩
    fun fuel nesting a rest ds hfuel hlimit _ => ?_
  simp only [List.length_cons, List.length_append] at hfuel hlimit
  obtain ⟨fuel, rfl⟩ : ∃ k, fuel = k + 1 := ⟨fuel - 1, by omega⟩
  obtain ⟨b, bs, hb, -⟩ := hbody.exists_cons
  obtain ⟨ps', c, -, -, hread⟩ := params_read fuel b (bs ++ a :: rest) ds hparams hlaid
    (by rw [List.length_cons]; omega)
  obtain ⟨body', last, hlast, hblock⟩ := hbody.behind fuel nesting c (a := a) rest ds
    (by omega) (by omega)
  refine ⟨.lambda t.position ps' body', last, hlast, ?_⟩
  rw [operand, List.cons_append, current_bind, current_on, ht]
  rw [hb] at hblock ⊢
  simp only [List.cons_append, List.append_assoc] at hread hblock ⊢
  rw [expect_bind ho, bind_some hread]
  exact hblock _

/-- A statement that begins like an expression is read as one. -/
theorem statement_opens {ts : List Token} (h : OpensOn line ts) (fuel nesting : Nat)
    (a : Token) (rest : List Token) (ds : Array Diagnostic) :
    statement limit (fuel + 1) nesting (on (ts ++ a :: rest) ds) =
      (expressionStatement limit fuel nesting >>= fun s => pure (some s))
        (on (ts ++ a :: rest) ds) := by
  obtain ⟨t, us, rfl, -, hopens, hfn⟩ := h
  rw [statement, counted_eq, current_bind, List.cons_append, current_on]
  rw [opensExpression] at hopens
  cases hkind : t.kind with
  | sign s =>
      rw [hkind] at hopens
      cases s <;> first | exact absurd hopens (by decide) | rfl
  | keyword k =>
      rw [hkind] at hopens
      cases k with
      | fnWord =>
          obtain ⟨o, vs, rfl, ho⟩ := hfn hkind
          refine (get_bind _ _).trans ?_
          rw [List.cons_append, ahead_on, ho, if_neg Bool.false_ne_true]
      | _ => first | exact absurd hopens (by decide) | rfl
  | illegal reason | eof =>
      simp [hkind] at hopens
  | _ => rfl

theorem OpensOn.starts {ts : List Token} (h : OpensOn line ts) :
    ∃ t us, ts = t :: us ∧ t.position.line = line ∧ startsStatement t = true := by
  obtain ⟨t, us, rfl, hline, hopens, -⟩ := h
  exact ⟨t, us, rfl, hline, startsStatement_of_opens hopens⟩

/-- A chain that is a statement. -/
theorem statement_chain {ts : List Token} (h : Chain limit line ts) (hroom : ts.length ≤ room) :
    Statement limit room line line ts := by
  refine ⟨h.opens.starts, fun fuel nesting a rest ds hfuel hlimit ha => ?_⟩
  have hpos := h.opens.length_pos
  obtain ⟨fuel, rfl⟩ : ∃ k, fuel = k + 2 := ⟨fuel - 2, by omega⟩
  obtain ⟨e, last, hlast, hread⟩ :=
    h.expression fuel nesting rest ds (by omega) (by omega) ha.stops
  obtain ⟨t, us, rfl, -⟩ := h.opens
  have hstatement : expressionStatement limit (fuel + 1) nesting (on (t :: us ++ a :: rest) ds) =
      (some (.expr t.position t.lexeme e), on (last :: a :: rest) ds) := by
    rw [expressionStatement, current_bind, bind_some hread, get_bind, ahead_on, ha.noSign.1,
      if_neg Bool.false_ne_true, ha.endStatement_bind hlast, List.cons_append, current_on]
    rfl
  refine ⟨.expr t.position t.lexeme e, last, hlast, ?_⟩
  rw [statement_opens h.opens]
  exact bind_some hstatement _

/-- Whether some tokens are read as what an assignment assigns to. -/
structure Target (limit line : Nat) (ts : List Token) : Prop where
  opens : OpensOn line ts
  reads : ∀ (fuel nesting : Nat) {b : Token} (rest : List Token) (ds : Array Diagnostic),
    8 * ts.length ≤ fuel + 4 → nesting + ts.length < limit → b.kind = .sign .assign →
    ∃ e last, isTarget e = true ∧ expression limit fuel nesting loosest (on (ts ++ b :: rest) ds) =
      (some e, on (last :: b :: rest) ds)

theorem loose_of_assign {t : Token} (h : t.kind = .sign .assign) : precedenceOf t = loosest := by
  rw [precedenceOf, h]
  rfl

/-- A name, which is assigned to as a whole. -/
theorem target_name {n : Token} (hn : n.isName = true) (hline : n.position.line = line) :
    Target limit line [n] := by
  obtain ⟨capital, hkind⟩ := exists_kind_of_isName hn
  refine ⟨opensOn_name hn hline [], fun fuel nesting b rest ds hfuel hlimit hb => ?_⟩
  rw [List.length_singleton] at hfuel hlimit
  obtain ⟨fuel, rfl⟩ : ∃ k, fuel = k + 2 := ⟨fuel - 2, by omega⟩
  refine ⟨.name ⟨n.lexeme, n.position⟩, n, rfl, ?_⟩
  have hname := operand_name limit hkind fuel (nesting + 1) (b :: rest) ds
  rw [expression_succ (by omega)]
  refine (bind_some hname _).trans (continued_stops (by omega) hline ?_)
  exact follows_of_loose (loose_of_assign hb) loosest line

/-- A subscript of a name. -/
theorem target_index {n b c : Token} {ts : List Token} (hn : n.isName = true)
    (hb : b.kind = .sign .leftBracket) (hc : c.kind = .sign .rightBracket)
    (hline : n.position.line = line) (hline' : b.position.line = line)
    (hline'' : c.position.line = line) (h : Chain limit line ts) :
    Target limit line (n :: b :: (ts ++ [c])) := by
  obtain ⟨capital, hkind⟩ := exists_kind_of_isName hn
  refine ⟨opensOn_name hn hline _, fun fuel nesting a rest ds hfuel hlimit ha => ?_⟩
  simp only [List.length_cons, List.length_append, List.length_nil] at hfuel hlimit
  obtain ⟨fuel, rfl⟩ : ∃ k, fuel = k + 4 := ⟨fuel - 4, by omega⟩
  obtain ⟨e, hread⟩ := extended_index hb hc h (fuel + 1) (nesting + 1)
    (.name ⟨n.lexeme, n.position⟩) (a :: rest) ds (by omega) (by omega)
  refine ⟨.index b.position (.name ⟨n.lexeme, n.position⟩) e, c, rfl, ?_⟩
  have hname := operand_name limit hkind (fuel + 2) (nesting + 1)
    (b :: (ts ++ c :: a :: rest)) ds
  have hfollows : follows loosest b line = true := follows_suffix hb rfl hline' (Nat.zero_le _)
  rw [expression_succ (by omega)]
  simp only [List.cons_append, List.append_assoc, List.nil_append]
  refine (bind_some hname _).trans ((continued_extends hline hfollows hread).trans ?_)
  exact continued_stops (by omega) hline'' (follows_of_loose (loose_of_assign ha) loosest line)

theorem exists_assignTo {e : Expr} (h : isTarget e = true) (start : Token) (p : Position)
    (value : Expr) : ∃ s, assignTo start p e value = (pure s : Parse Stmt) := by
  cases e with
  | name i => exact ⟨_, rfl⟩
  | index p o s => exact ⟨_, rfl⟩
  | _ => exact absurd h Bool.noConfusion

/-- An assignment. -/
theorem statement_assign {ts us : List Token} {b : Token} (h : Target limit line ts)
    (hb : b.kind = .sign .assign) (h' : Chain limit line us) (hroom : ts.length ≤ room)
    (hroom' : us.length ≤ room) : Statement limit room line line (ts ++ b :: us) := by
  refine ⟨(h.opens.append _).starts, fun fuel nesting a rest ds hfuel hlimit ha => ?_⟩
  have hpos := h.opens.length_pos
  rw [List.length_append, List.length_cons] at hfuel
  obtain ⟨fuel, rfl⟩ : ∃ k, fuel = k + 2 := ⟨fuel - 2, by omega⟩
  obtain ⟨e, middle, htarget, hread⟩ :=
    h.reads fuel nesting (us ++ a :: rest) ds (by omega) (by omega) hb
  obtain ⟨value, last, hlast, hread'⟩ :=
    h'.expression fuel nesting rest ds (by omega) (by omega) ha.stops
  obtain ⟨t, ts, rfl, -⟩ := h.opens
  obtain ⟨s, hs⟩ := exists_assignTo htarget t b.position value
  have hstatement : expressionStatement limit (fuel + 1) nesting
      (on (t :: ts ++ b :: (us ++ a :: rest)) ds) = (some s, on (last :: a :: rest) ds) := by
    rw [expressionStatement, current_bind, bind_some hread, get_bind, ahead_on,
      if_pos (isSign_self hb), advance_bind, advance_on, current_bind, htarget, if_pos rfl,
      advance_bind, current_on, advance_on_append, bind_some hread', ha.endStatement_bind hlast,
      List.cons_append, current_on, hs]
    rfl
  refine ⟨s, last, hlast, ?_⟩
  have hsplit : t :: ts ++ b :: us ++ a :: rest = t :: ts ++ b :: (us ++ a :: rest) :=
    List.append_assoc _ _ _
  rw [hsplit, statement_opens h.opens]
  exact bind_some hstatement _

theorem startsStatement_keyword {t : Token} {k : Keyword} (ht : t.kind = .keyword k)
    (hk : starts (.keyword k) = true) : startsStatement t = true := by
  rw [startsStatement, ht]
  exact hk

/-- The end of a function with the value that it gives back. -/
theorem statement_return {t : Token} {ts : List Token} (ht : t.kind = .keyword .returnWord)
    (hline : t.position.line = line) (h : Chain limit line ts) (hroom : ts.length ≤ room) :
    Statement limit room line line (t :: ts) := by
  refine ⟨⟨t, ts, rfl, hline, startsStatement_keyword ht rfl⟩,
    fun fuel nesting a rest ds hfuel hlimit ha => ?_⟩
  rw [List.length_cons] at hfuel
  obtain ⟨fuel, rfl⟩ : ∃ k, fuel = k + 1 := ⟨fuel - 1, by omega⟩
  obtain ⟨e, last, hlast, hread⟩ :=
    h.expression fuel nesting rest ds (by omega) (by omega) ha.stops
  obtain ⟨u, us, rfl, huline, hopens, -⟩ := h.opens
  have hsemicolon := isSign_of_opensExpression hopens (s := .semicolon) rfl
  have hstays : ((on (t :: u :: (us ++ a :: rest)) ds).closesAhead ||
      (on (t :: u :: (us ++ a :: rest)) ds).breaksAhead) = false := by
    rw [closesAhead_on, breaksAhead_on, isSign_of_opensExpression hopens (s := .rightBrace) rfl,
      isEof_of_opensExpression hopens, huline, hline, bne_self_eq_false]
    rfl
  refine ⟨.giveBack t.position (some e), last, hlast, ?_⟩
  rw [List.cons_append] at hread
  rw [statement, counted_eq, current_bind, List.cons_append, List.cons_append, current_on, ht]
  refine (get_bind _ _).trans ?_
  simp only [ahead_on, hsemicolon, hstays, Bool.false_eq_true, if_false]
  rw [advance_bind, advance_on, bind_some hread, ha.endStatement_bind hlast]
  rfl

/-- A keyword that leaves a loop, or the present round of it. -/
theorem statement_leave {t : Token}
    (ht : t.kind = .keyword .breakWord ∨ t.kind = .keyword .continueWord)
    (hline : t.position.line = line) : Statement limit room line line [t] := by
  have hstarts : startsStatement t = true := by
    rcases ht with ht | ht <;> exact startsStatement_keyword ht rfl
  refine ⟨⟨t, [], rfl, hline, hstarts⟩, fun fuel nesting a rest ds hfuel hlimit ha => ?_⟩
  rw [List.length_singleton] at hfuel
  obtain ⟨fuel, rfl⟩ : ∃ k, fuel = k + 1 := ⟨fuel - 1, by omega⟩
  rcases ht with ht | ht
  · refine ⟨.leave t.position, t, hline, ?_⟩
    rw [statement, counted_eq, current_bind, List.singleton_append, current_on, ht]
    exact ha.endStatement_bind hline _ rest ds
  · refine ⟨.skip t.position, t, hline, ?_⟩
    rw [statement, counted_eq, current_bind, List.singleton_append, current_on, ht]
    exact ha.endStatement_bind hline _ rest ds

/-- A condition with its block, behind the current token. -/
theorem Chain.condition {ts us : List Token} (h : Chain limit line ts)
    (h' : Braces limit room line line' us) (fuel nesting : Nat) (t : Token) {a : Token}
    (rest : List Token) (ds : Array Diagnostic) (hfuel : 8 * (ts ++ us).length ≤ fuel + 4)
    (hlimit : nesting + room < limit) (hroom : ts.length ≤ room) :
    ∃ e b last, last.position.line = line' ∧ ∀ {α : Type} (k : Expr → Block → Parse α),
      (advance >>= fun _ => Parser.expression limit fuel nesting loosest >>= fun c =>
          expect .leftBrace >>= fun _ => block limit fuel nesting >>= fun body => k c body)
        (on (t :: (ts ++ us ++ a :: rest)) ds) = k e b (on (last :: a :: rest) ds) := by
  rw [List.length_append] at hfuel
  obtain ⟨o, vs, rfl, ho, -⟩ := h'.exists_cons
  have hloose : precedenceOf o = loosest := by
    rw [precedenceOf, ho]
    rfl
  obtain ⟨e, middle, -, hread⟩ := h.expression fuel nesting (vs ++ a :: rest) ds (by omega)
    (by omega) (follows_of_loose hloose loosest line)
  obtain ⟨b, last, hlast, hblock⟩ :=
    h'.behind fuel nesting middle (a := a) rest ds (by omega) hlimit
  refine ⟨e, b, last, hlast, fun k => ?_⟩
  rw [List.append_assoc, List.cons_append, advance_bind, advance_on_append, bind_some hread]
  exact hblock _

/-- A loop with a condition. -/
theorem statement_while {t : Token} {ts us : List Token} (ht : t.kind = .keyword .whileWord)
    (hline : t.position.line = line) (h : Chain limit line ts)
    (h' : Braces limit room line line' us) (hroom : ts.length ≤ room) :
    Statement limit room line line' (t :: (ts ++ us)) := by
  refine ⟨⟨t, ts ++ us, rfl, hline, startsStatement_keyword ht rfl⟩,
    fun fuel nesting a rest ds hfuel hlimit ha => ?_⟩
  rw [List.length_cons] at hfuel
  obtain ⟨fuel, rfl⟩ : ∃ k, fuel = k + 1 := ⟨fuel - 1, by omega⟩
  obtain ⟨e, b, last, hlast, hread⟩ :=
    h.condition h' fuel nesting t (a := a) rest ds (by omega) hlimit hroom
  refine ⟨.repeatWhile t.position e b, last, hlast, ?_⟩
  rw [statement, counted_eq, current_bind, List.cons_append, current_on, ht]
  exact hread _

/-- A loop over items. -/
theorem statement_for {t n i : Token} {ts us : List Token} (ht : t.kind = .keyword .forWord)
    (hn : n.isName = true) (hi : i.kind = .keyword .inWord) (hline : t.position.line = line)
    (h : Chain limit line ts) (h' : Braces limit room line line' us) (hroom : ts.length ≤ room) :
    Statement limit room line line' (t :: n :: i :: (ts ++ us)) := by
  refine ⟨⟨t, _, rfl, hline, startsStatement_keyword ht rfl⟩,
    fun fuel nesting a rest ds hfuel hlimit ha => ?_⟩
  simp only [List.length_cons] at hfuel
  obtain ⟨fuel, rfl⟩ : ∃ k, fuel = k + 1 := ⟨fuel - 1, by omega⟩
  obtain ⟨e, b, last, hlast, hread⟩ :=
    h.condition h' fuel nesting i (a := a) rest ds (by omega) hlimit hroom
  have hin : ((on (n :: i :: (ts ++ us ++ a :: rest)) ds).ahead.isKeyword .inWord ||
      (on (n :: i :: (ts ++ us ++ a :: rest)) ds).ahead.isSign .colon) = true := by
    rw [ahead_on, Token.isKeyword, hi]
    rfl
  refine ⟨.forEach t.position ⟨n.lexeme, n.position⟩ e b, last, hlast, ?_⟩
  rw [statement, counted_eq, current_bind, List.cons_append, current_on, ht]
  simp only [List.cons_append]
  rw [expectName_bind hn, get_bind, if_pos hin, advance_bind, advance_on]
  exact hread _

structure Function (limit room line line' : Nat) (ts : List Token) : Prop where
  opens : ∃ t n us, ts = t :: n :: us ∧ t.kind = .keyword .fnWord ∧ n.isName = true ∧
    t.position.line = line
  reads : ∀ (fuel nesting : Nat) {a : Token} (rest : List Token) (ds : Array Diagnostic),
    8 * ts.length ≤ fuel + 3 → nesting + room < limit →
    ∃ fn last, last.position.line = line' ∧
      function limit fuel nesting (on (ts ++ a :: rest) ds) =
        (some fn, on (last :: a :: rest) ds)

theorem function_named {f : String → String} {t n : Token} {ps : List Param}
    {us body : List Token} (ht : t.kind = .keyword .fnWord) (hn : n.isName = true)
    (hline : t.position.line = line) (hparams : ParamsLegible ps)
    (hlaid : Laid f line (paramsPieces ps) us) (hbody : Braces limit room line line' body) :
    Function limit room line line' (t :: n :: (us ++ body)) := by
  refine ⟨⟨t, n, _, rfl, ht, hn, hline⟩, fun fuel nesting a rest ds hfuel hlimit => ?_⟩
  obtain ⟨o, us, rfl, ho⟩ := laid_paramsPieces hlaid
  obtain ⟨b, bs, hbs, hb, -⟩ := hbody.exists_cons
  simp only [List.length_cons, List.length_append] at hfuel
  obtain ⟨fuel, rfl⟩ : ∃ k, fuel = k + 1 := ⟨fuel - 1, by omega⟩
  obtain ⟨ps', c, -, -, hread⟩ := params_read fuel b (bs ++ a :: rest) ds hparams hlaid
    (by rw [List.length_cons]; omega)
  have hnone : Laid f line (hintPieces none) [] := laid_nil_iff.mpr rfl
  obtain ⟨hint, middle, -, hhint⟩ := optionalHint_reads c (bs ++ a :: rest) ds hnone
    (isSign_of_kind hb _)
  obtain ⟨body', last, hlast, hblock⟩ :=
    hbody.behind fuel nesting middle (a := a) rest ds (by omega) hlimit
  refine ⟨.mk t.position ⟨n.lexeme, n.position⟩ ps' hint body', last, hlast, ?_⟩
  rw [function]
  rw [hbs] at hblock ⊢
  simp only [List.cons_append, List.append_assoc, List.nil_append] at hread hhint hblock ⊢
  rw [current_bind, current_on, expectName_bind hn, expect_bind ho, bind_some hread,
    bind_some hhint]
  exact hblock _

/-- A function with a name is a statement. -/
theorem Function.statement {ts : List Token} (h : Function limit room line line' ts) :
    Statement limit room line line' ts := by
  obtain ⟨t, n, us, rfl, ht, hn, hline⟩ := h.opens
  refine ⟨⟨t, _, rfl, hline, startsStatement_keyword ht rfl⟩,
    fun fuel nesting a rest ds hfuel hlimit _ => ?_⟩
  obtain ⟨fuel, rfl⟩ : ∃ k, fuel = k + 1 := by
    simp only [List.length_cons] at hfuel
    exact ⟨fuel - 1, by omega⟩
  obtain ⟨fn, last, hlast, hread⟩ := h.reads fuel nesting (a := a) rest ds (by omega) hlimit
  refine ⟨.declare fn, last, hlast, ?_⟩
  rw [Parser.statement, counted_eq, current_bind, List.cons_append, current_on, ht,
    List.cons_append]
  refine (get_bind _ _).trans ?_
  rw [ahead_on, hn, if_pos rfl]
  exact bind_some hread _

inductive Methods (limit room : Nat) : List Token → Prop
  | nil : Methods limit room []
  | cons {line line' : Nat} {ts us : List Token} :
      Function limit room line line' ts → Methods limit room us → Methods limit room (ts ++ us)

theorem Methods.classMethods {ts : List Token} (h : Methods limit room ts) {c : Token}
    (hc : c.kind = .sign .rightBrace) (fuel nesting : Nat) (opened : Position) (done : List Func)
    (rest : List Token) (ds : Array Diagnostic) (hfuel : 8 * ts.length + 1 ≤ fuel)
    (hlimit : nesting + room < limit) :
    ∃ fs, Parser.classMethods limit fuel nesting opened done (on (ts ++ c :: rest) ds) =
      (some fs, on (c :: rest) ds) := by
  induction h generalizing fuel done with
  | nil =>
      obtain ⟨fuel, rfl⟩ : ∃ k, fuel = k + 1 := ⟨fuel - 1, by omega⟩
      refine ⟨done.reverse, ?_⟩
      rw [Parser.classMethods, current_bind, List.nil_append, current_on, hc]
      rfl
  | @cons _ _ ts us h hrest ih =>
      obtain ⟨t, n, vs, rfl, ht, hn, -⟩ := h.opens
      simp only [List.length_append, List.length_cons] at hfuel
      obtain ⟨fuel, rfl⟩ : ∃ k, fuel = k + 1 := ⟨fuel - 1, by omega⟩
      obtain ⟨a, tail, ha⟩ := List.exists_cons_of_ne_nil (show us ++ c :: rest ≠ [] by simp)
      obtain ⟨fn, last, -, hread⟩ := h.reads fuel nesting (a := a) tail ds
        (by simp only [List.length_cons]; omega) hlimit
      obtain ⟨fs, hreads⟩ := ih fuel (fn :: done) (by omega)
      refine ⟨fs, ?_⟩
      simp only [List.append_assoc, List.cons_append, ha] at hread hreads ⊢
      rw [Parser.classMethods, current_bind, current_on, ht]
      refine (get_bind _ _).trans ?_
      rw [ahead_on, hn, if_pos rfl, bind_some hread, advance_bind, advance_on, hreads]

/-- A class without methods. -/
theorem statement_class_nil {f : String → String} {t c : Token} {ident : Ident} {ps : List Param}
    {us : List Token} (ht : t.kind = .keyword .classWord) (hline : t.position.line = line)
    (hparams : ParamsLegible ps)
    (hlaid : Laid f line (⟨.blank, .name ident.name⟩ :: paramsPieces ps) us)
    (hc : c.kind = .sign .semicolon) (hline' : c.position.line = line') :
    Statement limit room line line' (t :: (us ++ [c])) := by
  refine ⟨⟨t, _, rfl, hline, startsStatement_keyword ht rfl⟩,
    fun fuel nesting a rest ds hfuel hlimit _ => ?_⟩
  simp only [List.length_cons, List.length_append, List.length_nil] at hfuel
  obtain ⟨fuel, rfl⟩ : ∃ k, fuel = k + 2 := ⟨fuel - 2, by omega⟩
  obtain ⟨ident', fields, last, -, -, -, hread⟩ :=
    classStatement_head limit hparams fuel nesting t c (a :: rest) ds hlaid (by omega)
  have hahead : (on (last :: c :: a :: rest) ds).ahead.isSign .semicolon = true := isSign_self hc
  have hsemicolon : endStatement (on (last :: c :: a :: rest) ds) =
      (some (), on (c :: a :: rest) ds) := by
    rw [endStatement, if_pos hahead, Parse.advance, advance_on]
  have hclass : classStatement limit (fuel + 1) nesting (on (t :: (us ++ c :: a :: rest)) ds) =
      (some (.classDef t.position ident' fields []), on (c :: a :: rest) ds) := by
    rw [hread, get_bind, ahead_on, isSign_of_kind hc, if_neg (by decide), bind_some hsemicolon]
    rfl
  refine ⟨.classDef t.position ident' fields [], c, hline', ?_⟩
  rw [List.cons_append, List.append_assoc, statement_class ht]
  exact bind_some hclass _

/-- A class with methods between braces. -/
theorem statement_class_methods {f : String → String} {t o c : Token} {ident : Ident}
    {ps : List Param} {us vs : List Token} (ht : t.kind = .keyword .classWord)
    (hline : t.position.line = line) (hparams : ParamsLegible ps)
    (hlaid : Laid f line (⟨.blank, .name ident.name⟩ :: paramsPieces ps) us)
    (ho : o.kind = .sign .leftBrace) (h : Methods limit room vs)
    (hc : c.kind = .sign .rightBrace) (hline' : c.position.line = line') :
    Statement limit room line line' (t :: (us ++ o :: (vs ++ [c]))) := by
  refine ⟨⟨t, _, rfl, hline, startsStatement_keyword ht rfl⟩,
    fun fuel nesting a rest ds hfuel hlimit _ => ?_⟩
  simp only [List.length_cons, List.length_append, List.length_nil] at hfuel
  obtain ⟨fuel, rfl⟩ : ∃ k, fuel = k + 2 := ⟨fuel - 2, by omega⟩
  obtain ⟨ident', fields, last, -, -, -, hread⟩ :=
    classStatement_head limit hparams fuel nesting t o (vs ++ c :: a :: rest) ds hlaid (by omega)
  obtain ⟨methods, hmethods⟩ :=
    h.classMethods hc fuel nesting o.position [] (a :: rest) ds (by omega) hlimit
  have hclass : classStatement limit (fuel + 1) nesting
      (on (t :: (us ++ o :: (vs ++ c :: a :: rest))) ds) =
        (some (.classDef t.position ident' fields methods), on (c :: a :: rest) ds) := by
    rw [hread, get_bind, ahead_on, if_pos (isSign_self ho), advance_bind, advance_on,
      current_bind, current_on, advance_bind, advance_on_append, bind_some hmethods]
    rfl
  refine ⟨.classDef t.position ident' fields methods, c, hline', ?_⟩
  simp only [List.cons_append, List.append_assoc, List.nil_append]
  rw [statement_class ht]
  exact bind_some hclass _

/-- What stands behind the first branch of a choice: further branches, and what is
done otherwise. -/
inductive Further (limit room : Nat) : Nat → Nat → List Token → Prop
  | nothing {line : Nat} : Further limit room line line []
  | otherwise {line line' : Nat} {e : Token} {us : List Token} :
      e.kind = .keyword .elseWord → Braces limit room line line' us →
      Further limit room line line' (e :: us)
  | branch {line middle line' : Nat} {e : Token} {ts us vs : List Token} :
      e.kind = .keyword .elifWord → Chain limit line ts → ts.length ≤ room →
      Braces limit room line middle us → Further limit room middle line' vs →
      Further limit room line line' (e :: (ts ++ us ++ vs))

/-- A branch, and what stands behind it. -/
theorem Further.choice {vs : List Token} (h : Further limit room line line' vs)
    {first : Nat} {ts us : List Token} (hts : Chain limit first ts) (hroom : ts.length ≤ room)
    (hus : Braces limit room first line us) (fuel nesting : Nat) (start : Position)
    (done : List Branch) (t : Token) {a : Token} (rest : List Token) (ds : Array Diagnostic)
    (hfuel : 8 * (ts ++ us ++ vs).length ≤ fuel + 3) (hlimit : nesting + room < limit)
    (ha : Closes a line') :
    ∃ s last, last.position.line = line' ∧
      Parser.choice limit (fuel + 1) nesting start done
        (on (t :: (ts ++ us ++ vs ++ a :: rest)) ds) =
        (some s, on (last :: a :: rest) ds) := by
  have hpos : 0 < (ts ++ us).length := by
    have hts := hts.opens.length_pos
    rw [List.length_append]
    omega
  rw [List.length_append] at hfuel
  -- By induction on the branches that follow: each is read behind the one before it.
  induction h generalizing fuel done t first ts us with
  | nothing =>
      obtain ⟨c, b, last, hlast, hread⟩ :=
        hts.condition hus fuel nesting t (a := a) rest ds (by omega) hlimit hroom
      refine ⟨.choose start (.mk t.position c b :: done).reverse none, last, hlast, ?_⟩
      rw [Parser.choice, current_bind, List.append_nil, current_on]
      refine (hread _).trans ?_
      rw [get_bind, ahead_on, ha.noKeyword.1, if_neg Bool.false_ne_true, ha.noKeyword.2,
        if_neg Bool.false_ne_true]
      rfl
  | @otherwise _ _ e ws he hother =>
      rw [List.length_cons] at hfuel
      obtain ⟨c, b, middle, -, hread⟩ :=
        hts.condition hus fuel nesting t (a := e) (ws ++ a :: rest) ds (by omega) hlimit hroom
      obtain ⟨b', last, hlast, hblock⟩ :=
        hother.behind fuel nesting e (a := a) rest ds (by omega) hlimit
      have hkeyword : e.isKeyword .elifWord = false ∧ e.isKeyword .elseWord = true := by
        rw [Token.isKeyword, Token.isKeyword, he]
        exact ⟨rfl, rfl⟩
      refine ⟨.choose start (.mk t.position c b :: done).reverse (some b'), last, hlast, ?_⟩
      rw [Parser.choice, current_bind, List.append_assoc (ts ++ us), List.cons_append, current_on]
      refine (hread _).trans ?_
      rw [get_bind, ahead_on, hkeyword.1, if_neg Bool.false_ne_true, hkeyword.2, if_pos rfl,
        advance_bind, advance_on]
      exact hblock _
  | @branch _ _ _ e cs bs ws he hcs hroom' hbs _ ih =>
      have hpos' : 0 < (cs ++ bs).length := by
        have hcs := hcs.opens.length_pos
        rw [List.length_append]
        omega
      have hlength : (cs ++ bs ++ ws).length = (cs ++ bs).length + ws.length :=
        List.length_append
      rw [List.length_cons] at hfuel
      obtain ⟨fuel, rfl⟩ : ∃ k, fuel = k + 1 := ⟨fuel - 1, by omega⟩
      obtain ⟨c, b, middle, -, hread⟩ := hts.condition hus (fuel + 1) nesting t (a := e)
        (cs ++ bs ++ ws ++ a :: rest) ds (by omega) hlimit hroom
      obtain ⟨s, last, hlast, hreads⟩ :=
        ih hcs hroom' hbs fuel (.mk t.position c b :: done) e (by omega) ha hpos'
      have hkeyword : e.isKeyword .elifWord = true := by
        rw [Token.isKeyword, he]
        rfl
      refine ⟨s, last, hlast, ?_⟩
      rw [Parser.choice, current_bind, List.append_assoc (ts ++ us), List.cons_append, current_on]
      refine (hread _).trans ?_
      rw [get_bind, ahead_on, hkeyword, if_pos rfl, advance_bind, advance_on]
      exact hreads

/-- A choice. -/
theorem statement_choice {t : Token} {middle : Nat} {ts us vs : List Token}
    (ht : t.kind = .keyword .ifWord) (hline : t.position.line = line)
    (hts : Chain limit line ts) (hroom : ts.length ≤ room) (hus : Braces limit room line middle us)
    (hvs : Further limit room middle line' vs) :
    Statement limit room line line' (t :: (ts ++ us ++ vs)) := by
  refine ⟨⟨t, _, rfl, hline, startsStatement_keyword ht rfl⟩,
    fun fuel nesting a rest ds hfuel hlimit ha => ?_⟩
  have hpos := hts.opens.length_pos
  have hlength : (ts ++ us ++ vs).length = ts.length + us.length + vs.length := by
    rw [List.length_append, List.length_append]
  rw [List.length_cons] at hfuel
  obtain ⟨fuel, rfl⟩ : ∃ k, fuel = k + 2 := ⟨fuel - 2, by omega⟩
  obtain ⟨s, last, hlast, hread⟩ := hvs.choice hts hroom hus fuel nesting t.position [] t rest ds
    (by omega) hlimit ha
  refine ⟨s, last, hlast, ?_⟩
  rw [statement, counted_eq, current_bind, List.cons_append, current_on, ht]
  exact bind_some hread _

/-- One statement of a program. -/
theorem Statement.programStatements_step {ts : List Token}
    (h : Statement limit room line line' ts) (fuel : Nat) (done : List Stmt) {a : Token}
    (rest : List Token) (ds : Array Diagnostic) (hfuel : 8 * ts.length ≤ fuel + 2)
    (hlimit : room < limit) (ha : Closes a line') :
    ∃ s, programStatements limit (fuel + 1) done (on (ts ++ a :: rest) ds) =
      programStatements limit fuel (s :: done) (on (a :: rest) ds) := by
  obtain ⟨s, last, -, hread⟩ := h.reads fuel 0 rest ds hfuel (by omega) ha
  obtain ⟨t, us, rfl, -, hstarts⟩ := h.starts
  have heof : (on (t :: us ++ a :: rest) ds).current.isEof = false := by
    rw [List.cons_append, current_on, isEof_of_startsStatement hstarts]
  have hsame : (on (last :: a :: rest) ds).diagnostics =
      (on (t :: us ++ a :: rest) ds).diagnostics := by
    rw [diagnostics_on, diagnostics_on]
  exact ⟨s, by rw [Parser.programStatements_step heof hread hsame, advance_on]⟩

/-- Statements on lines of their own are read up to the end of input. -/
theorem Lines.programStatements {ts : List Token} (h : Lines limit room line line' ts)
    {final : Token} (hfinal : final.isEof = true) (hline : final.position.line ≠ line')
    (fuel : Nat) (done : List Stmt) (ds : Array Diagnostic) (hfuel : 8 * ts.length + 1 ≤ fuel)
    (hlimit : room < limit) :
    ∃ ss, Parser.programStatements limit fuel done (on (ts ++ [final]) ds) =
      (ss, on [final] ds) := by
  induction h generalizing fuel done with
  | one h =>
      have hpos := h.length_pos
      obtain ⟨fuel, rfl⟩ : ∃ k, fuel = k + 2 := ⟨fuel - 2, by omega⟩
      obtain ⟨s, hread⟩ := h.programStatements_step (fuel + 1) done [] ds (by omega) hlimit
        (Or.inr (endsStatement_of_eof hfinal hline))
      exact ⟨_, hread.trans (if_pos hfinal)⟩
  | more h hless hrest ih =>
      have hpos := h.length_pos
      rw [List.length_append] at hfuel
      obtain ⟨fuel, rfl⟩ : ∃ k, fuel = k + 1 := ⟨fuel - 1, by omega⟩
      obtain ⟨t, us, rfl, hstart, hstarts⟩ := hrest.starts
      obtain ⟨s, hread⟩ := h.programStatements_step fuel done (us ++ [final]) ds (by omega) hlimit
        (closes_of_starts hstarts (by omega))
      obtain ⟨ss, hreads⟩ := ih hline fuel (s :: done) (by omega)
      refine ⟨ss, ?_⟩
      rw [List.append_assoc]
      exact hread.trans hreads

/-- Statements on lines of their own are a program without a fault. -/
theorem Lines.statementsOf {ts : List Token} (h : Lines maxNesting room line line' ts)
    {final : Token} (hfinal : final.isEof = true) (hline : final.position.line ≠ line')
    (hroom : room < maxNesting) : (Parser.statementsOf (ts ++ [final])).2 = [] := by
  obtain ⟨ss, hread⟩ := h.programStatements hfinal hline (callsFor (ts ++ [final]).length) [] #[]
    (by rw [callsFor, List.length_append]; omega) hroom
  rw [Parser.statementsOf, statementsWithin, ofTokens_eq_on, hread]
  rfl

end Scriptlet.Parser
