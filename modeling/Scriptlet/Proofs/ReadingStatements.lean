/-
Reading the layout of statements, and of whole trees.  A statement is read up to
its last token where the next token ends it.
-/
import Scriptlet.Proofs.ReadingBlocks

namespace Scriptlet.Parser

open Parse Reader Layout Lexer

variable {f : String → String} {limit : Nat}

/-- Whether the tokens of some pieces are read as the statement they lay out. -/
def StmtReads (f : String → String) (limit : Nat) (s : Stmt) (ps : List Piece) : Prop :=
  ∀ (fuel nesting : Nat) {line : Nat} {ts : List Token} (a : Token) (rest : List Token)
    (ds : Array Diagnostic), Laid f line ps ts → 8 * ts.length ≤ fuel + 2 →
    nesting + fuel ≤ limit → EndsStatement a (line + linesIn ps) →
    ∃ s' last, s'.seen .plain = s.seen ⟨f, true⟩ ∧ last.position.line = line + linesIn ps ∧
      statement limit fuel nesting (on (ts ++ a :: rest) ds) =
        (some (some s'), on (last :: a :: rest) ds)

/-- The first token of a statement is one that begins a statement. -/
theorem laid_starts {g : Gap} {depth line : Nat} {s : Stmt} {ts : List Token} (h : s.Legible)
    (hlaid : Laid f line (stmtPieces g depth s) ts) :
    ∃ t us w, ts = t :: us ∧ ReadAs f t w ∧ starts w = true ∧
      t.position.line = line + g.lines := by
  obtain ⟨w, tail, hpieces, hw⟩ := starts_stmtPieces g depth h
  rw [hpieces] at hlaid
  obtain ⟨t, us, rfl, ht, hline, -⟩ := laid_cons_iff.mp hlaid
  exact ⟨t, us, w, rfl, ht, hw, hline⟩

/-- Behind a statement there stands a token that ends it. -/
theorem laid_lines_ends {depth line : Nat} {ss : List Stmt} {ts : List Token} {c : Token}
    (h : StmtsLegible ss) (hlaid : Laid f line (linesPieces depth ss) ts)
    (hc : EndsStatement c (line + linesIn (linesPieces depth ss))) (rest : List Token) :
    ∃ a tail, ts ++ c :: rest = a :: tail ∧ EndsStatement a line := by
  cases ss with
  | nil =>
      obtain rfl := laid_nil_iff.mp hlaid
      exact ⟨c, rest, rfl, hc⟩
  | cons s ss =>
      obtain ⟨front, back, rfl, hfront, -⟩ := laid_append_iff.mp hlaid
      obtain ⟨t, us, w, rfl, ht, hw, hline⟩ := laid_starts h.1 hfront
      refine ⟨t, us ++ back ++ c :: rest, rfl, endsStatement_of_starts ht hw ?_⟩
      rw [hline]
      exact Nat.succ_ne_self line

/-- A token that begins a statement ends neither a block nor the input. -/
theorem not_closing_of_starts {t : Token} {w : Word} (ht : ReadAs f t w) (hw : starts w = true) :
    t.isSign .rightBrace = false ∧ t.isEof = false := by
  refine ⟨?_, isEof_of_readAs ht⟩
  cases w with
  | sign s => exact isSign_of_opens ht hw rfl
  | _ => exact isSign_of_opens ht rfl rfl

theorem blockStatements_step {fuel nesting : Nat} {opened : Position} {done : List Stmt}
    {r after : Reader} {s : Stmt} (hbrace : r.current.isSign .rightBrace = false)
    (heof : r.current.isEof = false)
    (hread : statement limit fuel nesting r = (some (some s), after))
    (hsame : after.diagnostics = r.diagnostics) :
    blockStatements limit (fuel + 1) nesting opened done r =
      blockStatements limit fuel nesting opened (s :: done) after.advance := by
  have hquiet : ¬r.diagnostics.size < (statement limit fuel nesting r).2.diagnostics.size := by
    rw [hread, hsame]
    exact Nat.lt_irrefl _
  rw [blockStatements, current_bind, hbrace, if_neg Bool.false_ne_true, heof,
    if_neg Bool.false_ne_true, attempt_good _ _ hquiet, hread, advance_bind]

/-- The statements of a block, on lines of their own. -/
theorem blockStatements_read {depth : Nat} {ss : List Stmt}
    (h : ∀ s ∈ ss, StmtReads f limit s (stmtPieces (.line depth) depth s))
    (hlegible : StmtsLegible ss) (fuel nesting : Nat) (opened : Position) (done : List Stmt)
    {line : Nat} {ts : List Token} {c : Token} (rest : List Token) (ds : Array Diagnostic)
    (hlaid : Laid f line (linesPieces depth ss) ts) (hc : c.kind = .sign .rightBrace)
    (hline : ss = [] ∨ c.position.line ≠ line + linesIn (linesPieces depth ss))
    (hfuel : 8 * ts.length + 1 ≤ fuel) (hlimit : nesting + fuel ≤ limit) :
    ∃ ss', stmtsSeen .plain ss' = stmtsSeen ⟨f, true⟩ ss ∧
      blockStatements limit fuel nesting opened done (on (ts ++ c :: rest) ds) =
        (some (done.reverse ++ ss'), on (c :: rest) ds) := by
  induction ss generalizing fuel done line ts with
  | nil =>
      obtain rfl := laid_nil_iff.mp hlaid
      obtain ⟨fuel, rfl⟩ : ∃ k, fuel = k + 1 := ⟨fuel - 1, by omega⟩
      refine ⟨[], rfl, ?_⟩
      rw [blockStatements, List.append_nil, List.nil_append, current_bind, current_on,
        if_pos (isSign_self hc)]
      rfl
  | cons s ss ih =>
      obtain ⟨us, vs, rfl, hfirst, hothers⟩ := laid_append_iff.mp hlaid
      have hline := hline.resolve_left (List.cons_ne_nil s ss)
      rw [linesPieces, linesIn_append, ← Nat.add_assoc] at hline
      obtain ⟨a, tail, ha, hends⟩ :=
        laid_lines_ends hlegible.2 hothers (endsStatement_of_brace hc hline) rest
      obtain ⟨t, us, w, rfl, ht, hw, -⟩ := laid_starts hlegible.1 hfirst
      obtain ⟨hbrace, heof⟩ := not_closing_of_starts ht hw
      rw [List.length_append, List.length_cons] at hfuel
      obtain ⟨fuel, rfl⟩ : ∃ k, fuel = k + 1 := ⟨fuel - 1, by omega⟩
      obtain ⟨s', last, hseen, -, hread⟩ := h s List.mem_cons_self fuel nesting a tail ds hfirst
        (by rw [List.length_cons]; omega) (by omega) hends
      obtain ⟨ss', hseens, hreads⟩ := ih (fun r hr => h r (List.mem_cons_of_mem s hr)) hlegible.2
        fuel (s' :: done) hothers (Or.inr hline) (by omega) (by omega)
      refine ⟨s' :: ss', by simp only [stmtsSeen, hseen, hseens], ?_⟩
      rw [ha] at hreads
      rw [List.append_assoc, ha, blockStatements_step (by rw [List.cons_append, current_on, hbrace])
        (by rw [List.cons_append, current_on, heof]) hread (by rw [diagnostics_on, diagnostics_on]),
        advance_on, hreads, List.reverse_cons, List.append_assoc]
      rfl

/-- A block, from the readings of its statements. -/
theorem blockReads {depth : Nat} {b : Block}
    (h : ∀ s ∈ b.statements,
      StmtReads f limit s (stmtPieces (.line (depth + 1)) (depth + 1) s))
    (hlegible : b.Legible) : BlockReads f limit b (blockPieces depth b) := by
  intro fuel nesting line ts a rest ds hlaid hfuel hlimit
  obtain ⟨p, ss⟩ := b
  have hpieces : ∃ g, blockPieces depth (.mk p ss) =
      .apart .leftBrace :: linesPieces (depth + 1) ss ++ [Piece.mk g (.sign .rightBrace)] ∧
      (ss = [] ∨ g.lines = 1) := by
    cases ss with
    | nil => exact ⟨.nothing, by rw [blockPieces, linesPieces]; rfl, Or.inl rfl⟩
    | cons s ss => exact ⟨.line depth, by rw [blockPieces], Or.inr rfl⟩
  obtain ⟨g, hpieces, hgap⟩ := hpieces
  rw [hpieces] at hlaid ⊢
  obtain ⟨_, back, rfl, hfront, hback⟩ := laid_append_iff.mp hlaid
  obtain ⟨o, us, rfl, ho, -, hfront⟩ := laid_cons_iff.mp hfront
  obtain ⟨c, _, rfl, hc, hline, hnil⟩ := laid_cons_iff.mp hback
  obtain rfl := laid_nil_iff.mp hnil
  simp only [List.length_append, List.length_cons, List.length_nil] at hfuel
  obtain ⟨fuel, rfl⟩ : ∃ k, fuel = k + 1 := ⟨fuel - 1, by omega⟩
  have hbelow : ss = [] ∨ c.position.line ≠
      line + (Piece.apart .leftBrace).gap.lines + linesIn (linesPieces (depth + 1) ss) := by
    refine hgap.imp_right fun hlines => ?_
    rw [hline, linesIn_cons]
    change g.lines = 1 at hlines
    simp only [hlines]
    omega
  obtain ⟨ss', hseen, hread⟩ := blockStatements_read h hlegible fuel nesting o.position []
    (a :: rest) ds hfront hc hbelow (by omega) (by omega)
  refine ⟨.mk o.position ss', c, ?_, ?_, ?_⟩
  · simp only [Block.seen, Block.statements] at hseen ⊢
    rw [hseen]
  · rw [hline]
    simp only [linesIn_append, linesIn_cons, linesIn_nil]
    omega
  · rw [block, counted_eq, List.append_assoc, List.cons_append, current_bind, advance_bind,
      current_on]
    simp only [List.singleton_append, advance_on_append]
    exact bind_some hread _

/-- A statement that begins like an expression is read as one. -/
theorem statement_begins {g : Gap} {ps : List Piece} (hps : Begins g ps) (fuel nesting : Nat)
    {line : Nat} {ts : List Token} (a : Token) (rest : List Token) (ds : Array Diagnostic)
    (hlaid : Laid f line ps ts) :
    statement limit (fuel + 1) nesting (on (ts ++ a :: rest) ds) =
      (expressionStatement limit fuel nesting >>= fun s => pure (some s))
        (on (ts ++ a :: rest) ds) := by
  obtain ⟨w, tail, rfl, hw, hfn⟩ := hps
  obtain ⟨t, us, rfl, ht, -, hlaid⟩ := laid_cons_iff.mp hlaid
  rw [statement, counted_eq, current_bind, List.cons_append, current_on]
  cases w with
  | sign s =>
      rw [show t.kind = .sign s from ht]
      cases s <;> first | exact absurd hw (by decide) | rfl
  | keyword k =>
      have hkind : t.kind = .keyword k := ht
      cases k with
      | fnWord =>
          obtain ⟨others, rfl⟩ := hfn rfl
          obtain ⟨o, vs, rfl, ho, -⟩ := laid_cons_iff.mp hlaid
          have hname : o.isName = false := by
            rw [Token.isName, show o.kind = .sign .leftParen from ho]
          rw [hkind, List.cons_append]
          refine (get_bind _ _).trans ?_
          rw [ahead_on, hname, if_neg Bool.false_ne_true]
      | _ => first | exact absurd hw (by decide) | rw [hkind]
  | name n =>
      have hname := ht.1
      unfold Token.isName at hname
      split at hname
      · rename_i hkind
        rw [hkind]
      · exact absurd hname Bool.noConfusion
  | int v =>
      rw [show t.kind = .int v from ht]
  | float x =>
      rw [show t.kind = .float x from ht]
  | str r =>
      rw [show t.kind = .str from ht.1]

theorem breaks_of_ends {a last : Token} {line : Nat} (hends : EndsStatement a line)
    (hlast : last.position.line = line) (rest : List Token) (ds : Array Diagnostic) :
    (on (last :: a :: rest) ds).breaksAhead = true := by
  rw [breaksAhead_on, hlast]
  exact bne_iff_ne.mpr hends.elsewhere

/-- An expression that is a statement. -/
theorem stmtReads_expr {e : Expr} {g : Gap} {depth : Nat} (p : Position) (word : String)
    (h : Reads f limit e (exprPieces g depth e)) (hphrase : Phrase g (exprPieces g depth e)) :
    StmtReads f limit (.expr p word e) (stmtPieces g depth (.expr p word e)) := by
  intro fuel nesting line ts a rest ds hlaid hfuel hlimit hends
  rw [stmtPieces] at hlaid hends ⊢
  have hlength := List.length_pos_iff.mpr (laid_ne_nil hphrase hlaid)
  obtain ⟨fuel, rfl⟩ : ∃ k, fuel = k + 2 := ⟨fuel - 2, by omega⟩
  obtain ⟨e', last, hseen, hlast, hread⟩ := expression_reads h hphrase fuel nesting rest ds hlaid
    (by omega) (by omega) (hends.stops loosest)
  obtain ⟨t, us, rfl⟩ := List.exists_cons_of_ne_nil (laid_ne_nil hphrase hlaid)
  have hbreaks := breaks_of_ends hends hlast rest ds
  refine ⟨.expr t.position t.lexeme e', last, ?_, hlast, ?_⟩
  · simp only [Stmt.seen, hseen]
  · have hstatement : expressionStatement limit (fuel + 1) nesting (on (t :: us ++ a :: rest) ds) =
        (some (.expr t.position t.lexeme e'), on (last :: a :: rest) ds) := by
      rw [expressionStatement, current_bind, bind_some hread, get_bind, ahead_on, hends.noAssign,
        if_neg Bool.false_ne_true, endStatement_bind hends.noSemicolon hbreaks,
        List.cons_append, current_on]
      rfl
    rw [statement_begins (begins_exprPieces depth e g) _ _ _ _ _ hlaid]
    exact bind_some hstatement _

/-- An assignment, which `s` says what is made of. -/
theorem stmtReads_assignment {s : Stmt} {target value : Expr} {g : Gap} {depth : Nat}
    (htarget : Reads f limit target (exprPieces g depth target))
    (htargetPhrase : Phrase g (exprPieces g depth target))
    (hvalue : Reads f limit value (exprPieces .blank depth value))
    (hvaluePhrase : Phrase .blank (exprPieces .blank depth value))
    (hassign : ∀ (start : Token) (equals : Position) (target' value' : Expr),
      target'.seen .plain = target.seen ⟨f, true⟩ → value'.seen .plain = value.seen ⟨f, true⟩ →
      isTarget target' = true ∧ ∃ s', s'.seen .plain = s.seen ⟨f, true⟩ ∧
        assignTo start equals target' value' = (pure s' : Parse Stmt)) :
    StmtReads f limit s
      (exprPieces g depth target ++ .apart .assign :: exprPieces .blank depth value) := by
  intro fuel nesting line ts a rest ds hlaid hfuel hlimit hends
  rw [linesIn_append, linesIn_cons] at hends ⊢
  obtain ⟨ts, back, rfl, hfront, hback⟩ := laid_append_iff.mp hlaid
  obtain ⟨b, us, rfl, hb, -, hback⟩ := laid_cons_iff.mp hback
  simp only [Piece.apart, Gap.lines, Nat.add_zero, Nat.zero_add, ← Nat.add_assoc]
    at hb hback hends ⊢
  rw [List.length_append, List.length_cons] at hfuel
  obtain ⟨fuel, rfl⟩ : ∃ k, fuel = k + 2 := ⟨fuel - 2, by omega⟩
  have hloose : precedenceOf b = loosest := by
    rw [precedenceOf, show b.kind = .sign .assign from hb]
    rfl
  obtain ⟨target', middle, hseen, -, hread⟩ := expression_reads htarget htargetPhrase fuel nesting
    (us ++ a :: rest) ds hfront (by omega) (by omega) (follows_of_loose hloose _ _)
  obtain ⟨value', last, hseen', hlast, hread'⟩ := expression_reads hvalue hvaluePhrase fuel
    nesting rest ds hback (by omega) (by omega) (hends.stops loosest)
  obtain ⟨t, ts, rfl⟩ := List.exists_cons_of_ne_nil (laid_ne_nil htargetPhrase hfront)
  obtain ⟨hvalid, s', hwhole, hmade⟩ := hassign t b.position target' value' hseen hseen'
  have hbreaks := breaks_of_ends hends hlast rest ds
  refine ⟨s', last, hwhole, hlast, ?_⟩
  have hstatement : expressionStatement limit (fuel + 1) nesting
      (on (t :: ts ++ b :: (us ++ a :: rest)) ds) = (some s', on (last :: a :: rest) ds) := by
    rw [expressionStatement, current_bind, bind_some hread, get_bind, ahead_on,
      if_pos (isSign_self hb), advance_bind, advance_on, current_bind, hvalid, if_pos rfl,
      advance_bind, current_on, advance_on_append, bind_some hread',
      endStatement_bind hends.noSemicolon hbreaks, List.cons_append, current_on, hmade]
    rfl
  have hsplit : t :: ts ++ b :: us ++ a :: rest = t :: ts ++ b :: (us ++ a :: rest) :=
    List.append_assoc _ _ _
  rw [hsplit, statement_begins (begins_exprPieces depth target g) _ _ _ _ _ hfront]
  exact bind_some hstatement _

/-- Only a name is seen as a name. -/
theorem seen_plain_name {e : Expr} {i : Ident} (h : e.seen .plain = .name i) :
    ∃ i', e = .name i' ∧ i'.seen = i := by
  cases e with
  | name i' => exact ⟨i', rfl, Expr.name.inj h⟩
  | call p callee args =>
      simp only [Expr.seen, View.call, View.plain] at h
      exact Expr.noConfusion h
  | _ => simp only [Expr.seen] at h; exact Expr.noConfusion h

/-- Only a subscript is seen as a subscript. -/
theorem seen_plain_index {e o s : Expr} {p : Position} (h : e.seen .plain = .index p o s) :
    ∃ p' o' s', e = .index p' o' s' ∧ o'.seen .plain = o ∧ s'.seen .plain = s := by
  cases e with
  | index p' o' s' =>
      obtain ⟨-, ho, hs⟩ := Expr.index.inj h
      exact ⟨p', o', s', rfl, ho, hs⟩
  | call p callee args =>
      simp only [Expr.seen, View.call, View.plain] at h
      exact Expr.noConfusion h
  | _ => simp only [Expr.seen] at h; exact Expr.noConfusion h

theorem stmtReads_assign {target : Ident} {value : Expr} {g : Gap} {depth : Nat} (p : Position)
    (htarget : Reads f limit (.name target) (exprPieces g depth (.name target)))
    (hlegible : target.Legible) (hvalue : Reads f limit value (exprPieces .blank depth value))
    (hvaluePhrase : Phrase .blank (exprPieces .blank depth value)) :
    StmtReads f limit (.assign p target value) (stmtPieces g depth (.assign p target value)) := by
  refine stmtReads_assignment htarget (Phrase.name g hlegible) hvalue hvaluePhrase ?_
  intro start equals target' value' htarget hvalue
  obtain ⟨i, rfl, hi⟩ := seen_plain_name htarget
  exact ⟨rfl, .assign equals i value', by simp only [Stmt.seen, hi, hvalue], rfl⟩

theorem stmtReads_store {object subscript value : Expr} {g : Gap} {depth : Nat}
    (p bracket : Position)
    (htarget : Reads f limit (.index bracket object subscript)
      (exprPieces g depth (.index bracket object subscript)))
    (htargetPhrase : Phrase g (exprPieces g depth (.index bracket object subscript)))
    (hvalue : Reads f limit value (exprPieces .blank depth value))
    (hvaluePhrase : Phrase .blank (exprPieces .blank depth value)) :
    StmtReads f limit (.store p bracket object subscript value)
      (stmtPieces g depth (.store p bracket object subscript value)) := by
  have hpieces : stmtPieces g depth (.store p bracket object subscript value) =
      exprPieces g depth (.index bracket object subscript) ++
        .apart .assign :: exprPieces .blank depth value := by
    simp only [stmtPieces, exprPieces, List.append_assoc, List.cons_append, List.nil_append]
  rw [hpieces]
  refine stmtReads_assignment htarget htargetPhrase hvalue hvaluePhrase ?_
  intro start equals target' value' htarget hvalue
  obtain ⟨p', o, s, rfl, ho, hs⟩ := seen_plain_index htarget
  exact ⟨rfl, .store equals p' o s value', by simp only [Stmt.seen, ho, hs, hvalue], rfl⟩

/-- A condition with its block, behind the current token. -/
theorem condition_read {e : Expr} {b : Block} {depth : Nat}
    (h : Reads f limit e (exprPieces .blank depth e))
    (hphrase : Phrase .blank (exprPieces .blank depth e))
    (hbody : BlockReads f limit b (blockPieces depth b)) (fuel nesting : Nat) {line : Nat}
    {ts : List Token} (t a : Token) (rest : List Token) (ds : Array Diagnostic)
    (hlaid : Laid f line (exprPieces .blank depth e ++ blockPieces depth b) ts)
    (hfuel : 8 * ts.length ≤ fuel + 4) (hlimit : nesting + fuel ≤ limit) :
    ∃ e' b' last, e'.seen .plain = e.seen ⟨f, true⟩ ∧ b'.seen .plain = b.seen ⟨f, true⟩ ∧
      last.position.line =
        line + linesIn (exprPieces .blank depth e ++ blockPieces depth b) ∧
      ∀ {α : Type} (k : Expr → Block → Parse α),
        (advance >>= fun _ => expression limit fuel nesting loosest >>= fun c =>
            expect .leftBrace >>= fun _ => block limit fuel nesting >>= fun body => k c body)
          (on (t :: (ts ++ a :: rest)) ds) = k e' b' (on (last :: a :: rest) ds) := by
  obtain ⟨us, vs, rfl, hfront, hback⟩ := laid_append_iff.mp hlaid
  rw [List.length_append] at hfuel
  obtain ⟨o, vs, rfl, ho⟩ := laid_blockPieces hback
  have hloose : precedenceOf o = loosest := by
    rw [precedenceOf, ho]
    rfl
  obtain ⟨e', middle, hseen, -, hread⟩ := expression_reads h hphrase fuel nesting
    (vs ++ a :: rest) ds hfront (by omega) (by omega) (follows_of_loose hloose _ _)
  obtain ⟨b', last, hseen', hlast, hblock⟩ :=
    hbody.behind fuel nesting middle a rest ds hback (by omega) (by omega)
  refine ⟨e', b', last, hseen, hseen', ?_, ?_⟩
  · rw [hlast, linesIn_append]
    omega
  · intro α k
    rw [List.append_assoc, List.cons_append, advance_bind, advance_on_append, bind_some hread]
    exact hblock _

theorem stmtReads_repeatWhile {condition : Expr} {body : Block} {g : Gap} {depth : Nat}
    (p : Position) (h : Reads f limit condition (exprPieces .blank depth condition))
    (hphrase : Phrase .blank (exprPieces .blank depth condition))
    (hbody : BlockReads f limit body (blockPieces depth body)) :
    StmtReads f limit (.repeatWhile p condition body)
      (stmtPieces g depth (.repeatWhile p condition body)) := by
  intro fuel nesting line ts a rest ds hlaid hfuel hlimit _
  rw [stmtPieces, List.cons_append] at hlaid ⊢
  obtain ⟨t, us, rfl, ht, -, hlaid⟩ := laid_cons_iff.mp hlaid
  rw [List.length_cons] at hfuel
  obtain ⟨fuel, rfl⟩ : ∃ k, fuel = k + 1 := ⟨fuel - 1, by omega⟩
  obtain ⟨e', b', last, hseen, hseen', hlast, hread⟩ :=
    condition_read h hphrase hbody fuel nesting t a rest ds hlaid (by omega) (by omega)
  refine ⟨.repeatWhile t.position e' b', last, ?_, ?_, ?_⟩
  · simp only [Stmt.seen, hseen, hseen']
  · rw [hlast, linesIn_cons]
    omega
  · rw [statement, counted_eq, current_bind, List.cons_append, current_on,
      show t.kind = .keyword .whileWord from ht]
    exact hread _

theorem stmtReads_forEach {item : Ident} {source : Expr} {body : Block} {g : Gap} {depth : Nat}
    (p : Position) (h : Reads f limit source (exprPieces .blank depth source))
    (hphrase : Phrase .blank (exprPieces .blank depth source))
    (hbody : BlockReads f limit body (blockPieces depth body)) :
    StmtReads f limit (.forEach p item source body)
      (stmtPieces g depth (.forEach p item source body)) := by
  intro fuel nesting line ts a rest ds hlaid hfuel hlimit _
  simp only [stmtPieces, List.cons_append] at hlaid ⊢
  obtain ⟨t, us, rfl, ht, -, hlaid⟩ := laid_cons_iff.mp hlaid
  obtain ⟨n, us, rfl, ⟨hname, hlexeme⟩, -, hlaid⟩ := laid_cons_iff.mp hlaid
  obtain ⟨i, us, rfl, hi, -, hlaid⟩ := laid_cons_iff.mp hlaid
  simp only [List.length_cons] at hfuel
  obtain ⟨fuel, rfl⟩ : ∃ k, fuel = k + 1 := ⟨fuel - 1, by omega⟩
  obtain ⟨e', b', last, hseen, hseen', hlast, hread⟩ :=
    condition_read h hphrase hbody fuel nesting i a rest ds hlaid (by omega) (by omega)
  have hin : ((on (n :: i :: (us ++ a :: rest)) ds).ahead.isKeyword .inWord ||
      (on (n :: i :: (us ++ a :: rest)) ds).ahead.isSign .colon) = true := by
    rw [ahead_on, Token.isKeyword, show i.kind = .keyword .inWord from hi]
    rfl
  refine ⟨.forEach t.position ⟨n.lexeme, n.position⟩ e' b', last, ?_, ?_, ?_⟩
  · simp only [Stmt.seen, Ident.seen, hlexeme, hseen, hseen']
  · rw [hlast]
    simp only [linesIn_cons]
    omega
  · rw [statement, counted_eq, current_bind, List.cons_append, current_on,
      show t.kind = .keyword .forWord from ht]
    simp only [List.cons_append]
    rw [expectName_bind hname, get_bind, if_pos hin, advance_bind, advance_on]
    exact hread _

/-- A keyword that is a statement by itself. -/
theorem stmtReads_keyword {s : Stmt} {g : Gap} {k : Keyword}
    (h : ∀ (t : Token) (fuel nesting : Nat) (r : Reader), r.current = t → t.kind = .keyword k →
      r.ahead.isSign .semicolon = false → r.breaksAhead = true →
      ∃ s', s'.seen .plain = s.seen ⟨f, true⟩ ∧
        statement limit (fuel + 1) nesting r = (some (some s'), r)) :
    StmtReads f limit s [⟨g, .keyword k⟩] := by
  intro fuel nesting line ts a rest ds hlaid hfuel hlimit hends
  obtain ⟨t, _, rfl, ht, hline, hnil⟩ := laid_cons_iff.mp hlaid
  obtain rfl := laid_nil_iff.mp hnil
  simp only [List.length_cons, List.length_nil] at hfuel
  obtain ⟨fuel, rfl⟩ : ∃ k, fuel = k + 1 := ⟨fuel - 1, by omega⟩
  obtain ⟨s', hseen, hread⟩ := h t fuel nesting (on (t :: a :: rest) ds) (current_on _ _ _) ht
    hends.noSemicolon (breaks_of_ends hends hline rest ds)
  exact ⟨s', t, hseen, hline, hread⟩

theorem stmtReads_leave (g : Gap) (depth : Nat) (p : Position) :
    StmtReads f limit (.leave p) (stmtPieces g depth (.leave p)) := by
  refine stmtReads_keyword fun t fuel nesting r hcurrent ht hsemicolon hbreaks => ?_
  refine ⟨.leave t.position, rfl, ?_⟩
  rw [statement, counted_eq, current_bind, hcurrent, ht]
  exact endStatement_bind hsemicolon hbreaks _

theorem stmtReads_skip (g : Gap) (depth : Nat) (p : Position) :
    StmtReads f limit (.skip p) (stmtPieces g depth (.skip p)) := by
  refine stmtReads_keyword fun t fuel nesting r hcurrent ht hsemicolon hbreaks => ?_
  refine ⟨.skip t.position, rfl, ?_⟩
  rw [statement, counted_eq, current_bind, hcurrent, ht]
  exact endStatement_bind hsemicolon hbreaks _

theorem stmtReads_giveBack_none (g : Gap) (depth : Nat) (p : Position) :
    StmtReads f limit (.giveBack p none) (stmtPieces g depth (.giveBack p none)) := by
  refine stmtReads_keyword fun t fuel nesting r hcurrent ht hsemicolon hbreaks => ?_
  refine ⟨.giveBack t.position none, rfl, ?_⟩
  rw [statement, counted_eq, current_bind, hcurrent, ht]
  simp [hsemicolon, hbreaks]

theorem stmtReads_giveBack_some {e : Expr} {g : Gap} {depth : Nat} (p : Position)
    (h : Reads f limit e (exprPieces .blank depth e))
    (hphrase : Phrase .blank (exprPieces .blank depth e)) :
    StmtReads f limit (.giveBack p (some e)) (stmtPieces g depth (.giveBack p (some e))) := by
  intro fuel nesting line ts a rest ds hlaid hfuel hlimit hends
  rw [stmtPieces] at hlaid hends ⊢
  obtain ⟨t, us, rfl, ht, hline, hlaid⟩ := laid_cons_iff.mp hlaid
  rw [linesIn_cons, ← Nat.add_assoc] at hends ⊢
  rw [List.length_cons] at hfuel
  obtain ⟨fuel, rfl⟩ : ∃ k, fuel = k + 1 := ⟨fuel - 1, by omega⟩
  obtain ⟨e', last, hseen, hlast, hread⟩ := expression_reads h hphrase fuel nesting rest ds hlaid
    (by omega) (by omega) (hends.stops loosest)
  obtain ⟨u, us, rfl, huline, heof, hopens⟩ := laid_opens hphrase hlaid
  have hsame : (u.position.line != t.position.line) = false := by
    rw [huline, hline]
    simp [Gap.lines]
  have hstays : ((on (t :: u :: (us ++ a :: rest)) ds).closesAhead ||
      (on (t :: u :: (us ++ a :: rest)) ds).breaksAhead) = false := by
    rw [closesAhead_on, breaksAhead_on, hopens .rightBrace rfl, heof, hsame]
    rfl
  refine ⟨.giveBack t.position (some e'), last, ?_, hlast, ?_⟩
  · simp only [Stmt.seen, hseen]
  · rw [List.cons_append] at hread
    rw [statement, counted_eq, current_bind, List.cons_append, List.cons_append, current_on,
      show t.kind = .keyword .returnWord from ht]
    refine (get_bind _ _).trans ?_
    simp only [ahead_on, hopens .semicolon rfl, hstays, Bool.false_eq_true, if_false]
    rw [advance_bind, advance_on, bind_some hread,
      endStatement_bind hends.noSemicolon (breaks_of_ends hends hlast rest ds)]
    rfl

def FuncReads (f : String → String) (limit : Nat) (fn : Func) (ps : List Piece) : Prop :=
  ∀ (fuel nesting : Nat) {line : Nat} {ts : List Token} (a : Token) (rest : List Token)
    (ds : Array Diagnostic), Laid f line ps ts → 8 * ts.length ≤ fuel + 3 →
    nesting + fuel ≤ limit →
    ∃ fn' last, fn'.seen .plain = fn.seen ⟨f, true⟩ ∧ last.position.line = line + linesIn ps ∧
      function limit fuel nesting (on (ts ++ a :: rest) ds) =
        (some fn', on (last :: a :: rest) ds)

theorem funcReads {p : Position} {ident : Ident} {params : List Param} {hint : Option Ident}
    {body : Block} {g : Gap} {depth : Nat} (hparams : ParamsLegible params)
    (hbody : BlockReads f limit body (blockPieces depth body)) :
    FuncReads f limit (.mk p ident params hint body)
      (funcPieces g depth (.mk p ident params hint body)) := by
  intro fuel nesting line ts a rest ds hlaid hfuel hlimit
  have hpieces : funcPieces g depth (.mk p ident params hint body) =
      ⟨g, .keyword .fnWord⟩ :: ⟨.blank, .name ident.name⟩ :: (paramsPieces params ++
        (hintPieces hint ++ blockPieces depth body)) := by
    simp only [funcPieces, List.cons_append, List.append_assoc]
  rw [hpieces] at hlaid ⊢
  obtain ⟨t, us, rfl, ht, -, hlaid⟩ := laid_cons_iff.mp hlaid
  obtain ⟨n, us, rfl, ⟨hname, hlexeme⟩, -, hlaid⟩ := laid_cons_iff.mp hlaid
  obtain ⟨ps, us, rfl, hps, hlaid⟩ := laid_append_iff.mp hlaid
  obtain ⟨hs, bs, rfl, hhs, hbs⟩ := laid_append_iff.mp hlaid
  obtain ⟨o, ps, rfl, ho⟩ := laid_paramsPieces hps
  obtain ⟨b, bs, rfl, hb⟩ := laid_blockPieces hbs
  simp only [List.length_cons, List.length_append] at hfuel
  obtain ⟨fuel, rfl⟩ : ∃ k, fuel = k + 1 := ⟨fuel - 1, by omega⟩
  obtain ⟨d, tail, hd⟩ := List.exists_cons_of_ne_nil
    (show hs ++ b :: (bs ++ a :: rest) ≠ [] by simp)
  obtain ⟨params', c, hseens, -, hread⟩ := params_read fuel d tail ds hparams hps
    (show (o :: ps).length ≤ fuel by rw [List.length_cons]; omega)
  obtain ⟨hint', middle, hseen, hhint⟩ :=
    optionalHint_reads c (bs ++ a :: rest) ds hhs (isSign_of_kind hb _)
  obtain ⟨body', last, hseen', hlast, hblock⟩ := hbody.behind fuel nesting middle a rest ds hbs
    (by rw [List.length_cons]; omega) (by omega)
  refine ⟨.mk t.position ⟨n.lexeme, n.position⟩ params' hint' body', last, ?_, ?_, ?_⟩
  · simp only [Func.seen, Ident.seen, hlexeme, hseens, hseen, hseen']
  · rw [hlast]
    simp only [linesIn_cons, linesIn_append]
    omega
  · rw [function]
    simp only [List.cons_append, List.append_assoc] at hread hhint hblock ⊢
    rw [current_bind, current_on, expectName_bind hname, expect_bind ho, hd, bind_some hread, ← hd,
      bind_some hhint]
    exact hblock _

theorem laid_funcPieces {fn : Func} {g : Gap} {depth line : Nat} {ts : List Token}
    (hlaid : Laid f line (funcPieces g depth fn) ts) :
    ∃ t n us, ts = t :: n :: us ∧ t.kind = .keyword .fnWord ∧ n.isName = true := by
  obtain ⟨p, ident, params, hint, body⟩ := fn
  simp only [funcPieces, List.cons_append] at hlaid
  obtain ⟨t, us, rfl, ht, -, hlaid⟩ := laid_cons_iff.mp hlaid
  obtain ⟨n, us, rfl, hn, -⟩ := laid_cons_iff.mp hlaid
  exact ⟨t, n, us, rfl, ht, hn.1⟩

theorem stmtReads_declare {fn : Func} {g : Gap} {depth : Nat}
    (h : FuncReads f limit fn (funcPieces g depth fn)) :
    StmtReads f limit (.declare fn) (stmtPieces g depth (.declare fn)) := by
  intro fuel nesting line ts a rest ds hlaid hfuel hlimit _
  rw [stmtPieces] at hlaid ⊢
  obtain ⟨t, n, us, rfl, ht, hn⟩ := laid_funcPieces hlaid
  obtain ⟨fuel, rfl⟩ : ∃ k, fuel = k + 1 := by
    simp only [List.length_cons] at hfuel
    exact ⟨fuel - 1, by omega⟩
  obtain ⟨fn', last, hseen, hlast, hread⟩ := h fuel nesting a rest ds hlaid (by omega) (by omega)
  refine ⟨.declare fn', last, by simp only [Stmt.seen, hseen], hlast, ?_⟩
  rw [statement, counted_eq, current_bind, List.cons_append, current_on, ht, List.cons_append]
  refine (get_bind _ _).trans ?_
  rw [ahead_on, hn, if_pos rfl]
  exact bind_some hread _

theorem classMethods_read {depth : Nat} {fs : List Func}
    (h : ∀ fn ∈ fs, FuncReads f limit fn (funcPieces (.line depth) depth fn))
    (fuel nesting : Nat) (opened : Position) (done : List Func) {line : Nat} {ts : List Token}
    {c : Token} (rest : List Token) (ds : Array Diagnostic)
    (hlaid : Laid f line (methodsPieces depth fs) ts) (hc : c.kind = .sign .rightBrace)
    (hfuel : 8 * ts.length + 1 ≤ fuel) (hlimit : nesting + fuel ≤ limit) :
    ∃ fs', funcsSeen .plain fs' = funcsSeen ⟨f, true⟩ fs ∧
      classMethods limit fuel nesting opened done (on (ts ++ c :: rest) ds) =
        (some (done.reverse ++ fs'), on (c :: rest) ds) := by
  induction fs generalizing fuel done line ts with
  | nil =>
      obtain rfl := laid_nil_iff.mp hlaid
      obtain ⟨fuel, rfl⟩ : ∃ k, fuel = k + 1 := ⟨fuel - 1, by omega⟩
      refine ⟨[], rfl, ?_⟩
      rw [classMethods, current_bind, List.nil_append, current_on, hc, List.append_nil]
      rfl
  | cons fn fs ih =>
      obtain ⟨us, vs, rfl, hfirst, hothers⟩ := laid_append_iff.mp hlaid
      obtain ⟨t, n, us, rfl, ht, hn⟩ := laid_funcPieces hfirst
      simp only [List.length_append, List.length_cons] at hfuel
      obtain ⟨fuel, rfl⟩ : ∃ k, fuel = k + 1 := ⟨fuel - 1, by omega⟩
      obtain ⟨a, tail, ha⟩ := List.exists_cons_of_ne_nil (show vs ++ c :: rest ≠ [] by simp)
      obtain ⟨fn', last, hseen, -, hread⟩ := h fn List.mem_cons_self fuel nesting a tail ds hfirst
        (by simp only [List.length_cons]; omega) (by omega)
      obtain ⟨fs', hseens, hreads⟩ := ih (fun r hr => h r (List.mem_cons_of_mem fn hr)) fuel
        (fn' :: done) hothers (by omega) (by omega)
      refine ⟨fn' :: fs', by simp only [funcsSeen, hseen, hseens], ?_⟩
      simp only [List.append_assoc, List.cons_append, ha] at hread hreads ⊢
      rw [classMethods, current_bind, current_on, ht]
      refine (get_bind _ _).trans ?_
      rw [ahead_on, hn, if_pos rfl, bind_some hread, advance_bind, advance_on, hreads,
        List.reverse_cons, List.append_assoc]
      rfl

variable (limit) in
/-- The name and the fields of a class. -/
theorem classStatement_head {ident : Ident} {fields : List Param} (hfields : ParamsLegible fields)
    (fuel nesting : Nat) {line : Nat} {ts : List Token} (t a : Token) (rest : List Token)
    (ds : Array Diagnostic)
    (hlaid : Laid f line (⟨.blank, .name ident.name⟩ :: paramsPieces fields) ts)
    (hfuel : ts.length ≤ fuel) :
    ∃ ident' fields' last, ident'.seen = ident.seen ∧
      fields'.map Param.seen = fields.map Param.seen ∧
      last.position.line = line + linesIn (paramsPieces fields) ∧
      classStatement limit (fuel + 1) nesting (on (t :: (ts ++ a :: rest)) ds) =
        (get >>= fun r =>
          if r.ahead.isSign .leftBrace then
            advance >>= fun _ => current >>= fun opening => advance >>= fun _ =>
              classMethods limit fuel nesting opening.position [] >>= fun methods =>
                pure (.classDef t.position ident' fields' methods)
          else endStatement >>= fun _ => pure (.classDef t.position ident' fields' []))
          (on (last :: a :: rest) ds) := by
  obtain ⟨n, us, rfl, ⟨hname, hlexeme⟩, -, hlaid⟩ := laid_cons_iff.mp hlaid
  rw [List.length_cons] at hfuel
  obtain ⟨fields', last, hseens, hlast, hread⟩ :=
    params_read fuel a rest ds hfields hlaid (by omega)
  obtain ⟨o, us, rfl, ho⟩ := laid_paramsPieces hlaid
  refine ⟨⟨n.lexeme, n.position⟩, fields', last, ?_, hseens, hlast, ?_⟩
  · simp only [Ident.seen, hlexeme]
  · rw [List.cons_append] at hread
    have hparens : (get >>= fun r =>
        if r.ahead.isSign .leftParen then advance >>= fun _ => params fuel else pure [])
        (on (n :: o :: (us ++ a :: rest)) ds) = (some fields', on (last :: a :: rest) ds) := by
      rw [get_bind, ahead_on, if_pos (isSign_self ho), advance_bind, advance_on, hread]
    rw [classStatement, current_bind, current_on, List.cons_append, expectName_bind hname,
      List.cons_append]
    exact bind_some hparens _

theorem statement_class {fuel nesting : Nat} {t : Token} {ts : List Token}
    {ds : Array Diagnostic} (ht : t.kind = .keyword .classWord) :
    statement limit (fuel + 1) nesting (on (t :: ts) ds) =
      (classStatement limit fuel nesting >>= fun s => pure (some s)) (on (t :: ts) ds) := by
  rw [statement, counted_eq, current_bind, current_on, ht]

/-- A class without methods. -/
theorem stmtReads_classDef_nil {ident : Ident} {fields : List Param} {g : Gap} {depth : Nat}
    (p : Position) (hfields : ParamsLegible fields) :
    StmtReads f limit (.classDef p ident fields [])
      (stmtPieces g depth (.classDef p ident fields [])) := by
  intro fuel nesting line ts a rest ds hlaid hfuel hlimit _
  have hpieces : stmtPieces g depth (.classDef p ident fields []) =
      ⟨g, .keyword .classWord⟩ :: ((⟨.blank, .name ident.name⟩ :: paramsPieces fields) ++
        [Piece.close .semicolon]) := by
    rw [stmtPieces, List.cons_append]
  rw [hpieces] at hlaid ⊢
  obtain ⟨t, us, rfl, ht, -, hlaid⟩ := laid_cons_iff.mp hlaid
  obtain ⟨us, _, rfl, hhead, hclose⟩ := laid_append_iff.mp hlaid
  obtain ⟨c, _, rfl, hc, hline, hnil⟩ := laid_cons_iff.mp hclose
  obtain rfl := laid_nil_iff.mp hnil
  simp only [List.length_cons, List.length_append, List.length_nil] at hfuel
  obtain ⟨fuel, rfl⟩ : ∃ k, fuel = k + 2 := ⟨fuel - 2, by omega⟩
  obtain ⟨ident', fields', last, hseen, hseens, -, hread⟩ :=
    classStatement_head limit hfields fuel nesting t c (a :: rest) ds hhead (by omega)
  have hahead : (on (last :: c :: a :: rest) ds).ahead.isSign .semicolon = true := isSign_self hc
  have hsemicolon : endStatement (on (last :: c :: a :: rest) ds) =
      (some (), on (c :: a :: rest) ds) := by
    rw [endStatement, if_pos hahead, Parse.advance, advance_on]
  refine ⟨.classDef t.position ident' fields' [], c, ?_, ?_, ?_⟩
  · simp only [Stmt.seen, hseen, hseens, funcsSeen]
  · rw [hline]
    simp only [linesIn_cons, linesIn_append, linesIn_nil]
    omega
  · have hclass : classStatement limit (fuel + 1) nesting
        (on (t :: (us ++ c :: a :: rest)) ds) =
          (some (.classDef t.position ident' fields' []), on (c :: a :: rest) ds) := by
      rw [hread, get_bind, ahead_on, isSign_of_kind hc, if_neg (by decide), bind_some hsemicolon]
      rfl
    rw [List.cons_append, List.append_assoc, statement_class ht]
    exact bind_some hclass _

/-- A class with methods. -/
theorem stmtReads_classDef_cons {ident : Ident} {fields : List Param} {m : Func} {ms : List Func}
    {g : Gap} {depth : Nat} (p : Position) (hfields : ParamsLegible fields)
    (h : ∀ fn ∈ m :: ms, FuncReads f limit fn (funcPieces (.line (depth + 1)) (depth + 1) fn)) :
    StmtReads f limit (.classDef p ident fields (m :: ms))
      (stmtPieces g depth (.classDef p ident fields (m :: ms))) := by
  intro fuel nesting line ts a rest ds hlaid hfuel hlimit _
  have hpieces : stmtPieces g depth (.classDef p ident fields (m :: ms)) =
      ⟨g, .keyword .classWord⟩ :: ((⟨.blank, .name ident.name⟩ :: paramsPieces fields) ++
        .apart .leftBrace :: (methodsPieces (depth + 1) (m :: ms) ++
          [Piece.mk (.line depth) (.sign .rightBrace)])) := by
    simp only [stmtPieces, List.cons_append, List.append_assoc]
  rw [hpieces] at hlaid ⊢
  obtain ⟨t, us, rfl, ht, -, hlaid⟩ := laid_cons_iff.mp hlaid
  obtain ⟨us, _, rfl, hhead, hlaid⟩ := laid_append_iff.mp hlaid
  obtain ⟨o, vs, rfl, ho, -, hlaid⟩ := laid_cons_iff.mp hlaid
  obtain ⟨vs, _, rfl, hmethods, hclose⟩ := laid_append_iff.mp hlaid
  obtain ⟨c, _, rfl, hc, hline, hnil⟩ := laid_cons_iff.mp hclose
  obtain rfl := laid_nil_iff.mp hnil
  simp only [List.length_cons, List.length_append, List.length_nil] at hfuel
  obtain ⟨fuel, rfl⟩ : ∃ k, fuel = k + 2 := ⟨fuel - 2, by omega⟩
  obtain ⟨ident', fields', last, hseen, hseens, -, hread⟩ :=
    classStatement_head limit hfields fuel nesting t o (vs ++ c :: a :: rest) ds hhead
      (by omega)
  obtain ⟨methods', hmethodsSeen, hmethodsRead⟩ :=
    classMethods_read h fuel nesting o.position [] (a :: rest) ds hmethods hc (by omega) (by omega)
  refine ⟨.classDef t.position ident' fields' methods', c, ?_, ?_, ?_⟩
  · simp only [Stmt.seen, hseen, hseens, hmethodsSeen]
  · rw [hline]
    simp only [linesIn_cons, linesIn_append, linesIn_nil]
    omega
  · have hclass : classStatement limit (fuel + 1) nesting
        (on (t :: (us ++ o :: (vs ++ c :: a :: rest))) ds) =
          (some (.classDef t.position ident' fields' methods'), on (c :: a :: rest) ds) := by
      rw [hread, get_bind, ahead_on, if_pos (isSign_self ho), advance_bind, advance_on,
        current_bind, current_on, advance_bind, advance_on_append, bind_some hmethodsRead]
      rfl
    simp only [List.cons_append, List.append_assoc, List.nil_append]
    rw [statement_class ht]
    exact bind_some hclass _

def otherwisePieces (depth : Nat) : Option Block → List Piece
  | some b => ⟨.blank, .keyword .elseWord⟩ :: blockPieces depth b
  | none => []

def otherwiseSeen (v : View) : Option Block → Option Block
  | some b => some (b.seen v)
  | none => none

def BranchReads (f : String → String) (limit depth : Nat) : Branch → Prop
  | .mk _ condition body =>
    Reads f limit condition (exprPieces .blank depth condition) ∧
      Phrase .blank (exprPieces .blank depth condition) ∧
      BlockReads f limit body (blockPieces depth body)

/-- One branch, and what is done behind it. -/
theorem choice_step {depth : Nat} {p : Position} {condition : Expr} {body : Block}
    (h : BranchReads f limit depth (.mk p condition body)) (fuel nesting : Nat) (start : Position)
    (done : List Branch) {line : Nat} {ts : List Token} (t a : Token) (rest : List Token)
    (ds : Array Diagnostic)
    (hlaid : Laid f line (exprPieces .blank depth condition ++ blockPieces depth body) ts)
    (hfuel : 8 * ts.length ≤ fuel + 4) (hlimit : nesting + fuel ≤ limit) :
    ∃ c b last, c.seen .plain = condition.seen ⟨f, true⟩ ∧ b.seen .plain = body.seen ⟨f, true⟩ ∧
      last.position.line =
        line + linesIn (exprPieces .blank depth condition ++ blockPieces depth body) ∧
      choice limit (fuel + 1) nesting start done (on (t :: (ts ++ a :: rest)) ds) =
        (get >>= fun r =>
          if r.ahead.isKeyword .elifWord then
            advance >>= fun _ => choice limit fuel nesting start (.mk t.position c b :: done)
          else if r.ahead.isKeyword .elseWord then
            advance >>= fun _ => expect .leftBrace >>= fun _ => block limit fuel nesting >>=
              fun b' => pure (.choose start (.mk t.position c b :: done).reverse (some b'))
          else pure (.choose start (.mk t.position c b :: done).reverse none))
          (on (last :: a :: rest) ds) := by
  obtain ⟨c, b, last, hseen, hseen', hlast, hread⟩ :=
    condition_read h.1 h.2.1 h.2.2 fuel nesting t a rest ds hlaid hfuel hlimit
  refine ⟨c, b, last, hseen, hseen', hlast, ?_⟩
  rw [choice, current_bind, current_on]
  exact hread _

/-- The last branch of a choice, with what is done otherwise. -/
theorem choice_last {depth : Nat} {p : Position} {condition : Expr} {body : Block}
    {otherwise : Option Block} {g : Gap} {word : Keyword}
    (h : BranchReads f limit depth (.mk p condition body))
    (hotherwise : ∀ b, otherwise = some b → BlockReads f limit b (blockPieces depth b))
    (fuel nesting : Nat) (start : Position) (done : List Branch) {line : Nat} {ts : List Token}
    (a : Token) (rest : List Token) (ds : Array Diagnostic)
    (hlaid : Laid f line (branchesPieces g depth word [.mk p condition body] ++
      otherwisePieces depth otherwise) ts)
    (hfuel : 8 * ts.length ≤ fuel + 3) (hlimit : nesting + fuel ≤ limit)
    (hends : EndsStatement a (line + linesIn (branchesPieces g depth word
      [.mk p condition body] ++ otherwisePieces depth otherwise))) :
    ∃ bs' otherwise' last,
      branchesSeen .plain bs' = branchesSeen ⟨f, true⟩ [.mk p condition body] ∧
      otherwiseSeen .plain otherwise' = otherwiseSeen ⟨f, true⟩ otherwise ∧
      last.position.line = line + linesIn (branchesPieces g depth word
        [.mk p condition body] ++ otherwisePieces depth otherwise) ∧
      choice limit fuel nesting start done (on (ts ++ a :: rest) ds) =
        (some (.choose start (done.reverse ++ bs') otherwise'), on (last :: a :: rest) ds) := by
  have hpieces : branchesPieces g depth word [.mk p condition body] ++
      otherwisePieces depth otherwise = ⟨g, .keyword word⟩ ::
        ((exprPieces .blank depth condition ++ blockPieces depth body) ++
          otherwisePieces depth otherwise) := by
    simp only [branchesPieces, List.append_nil, List.cons_append, List.append_assoc]
  rw [hpieces] at hlaid hends ⊢
  rw [linesIn_cons, linesIn_append, ← Nat.add_assoc, ← Nat.add_assoc] at hends ⊢
  obtain ⟨t, us, rfl, -, -, hlaid⟩ := laid_cons_iff.mp hlaid
  obtain ⟨us, vs, rfl, hfirst, hrest⟩ := laid_append_iff.mp hlaid
  simp only [List.length_cons, List.length_append] at hfuel
  obtain ⟨fuel, rfl⟩ : ∃ k, fuel = k + 1 := ⟨fuel - 1, by omega⟩
  -- What ends the statement is neither of the two keywords that would go on with it.
  cases otherwise with
  | none =>
      obtain rfl := laid_nil_iff.mp hrest
      obtain ⟨c, b, last, hseen, hseen', hlast, hread⟩ :=
        choice_step h fuel nesting start done t a rest ds hfirst
          (by omega) (by omega)
      refine ⟨[.mk t.position c b], none, last, ?_, rfl, hlast, ?_⟩
      · simp only [branchesSeen, hseen, hseen']
      · rw [List.append_nil, List.cons_append, hread, get_bind, ahead_on, hends.noElif,
          if_neg Bool.false_ne_true, hends.noElse, if_neg Bool.false_ne_true,
          List.reverse_cons]
        rfl
  | some otherwise =>
      obtain ⟨e, vs, rfl, he, -, hrest⟩ := laid_cons_iff.mp hrest
      rw [List.length_cons] at hfuel
      obtain ⟨c, b, middle, hseen, hseen', -, hread⟩ :=
        choice_step h fuel nesting start done t e (vs ++ a :: rest) ds
          hfirst (by omega) (by omega)
      obtain ⟨o, last, hseenO, hlast, hblock⟩ := (hotherwise _ rfl).behind fuel nesting e a
        rest ds hrest (by omega) (by omega)
      have helse : e.isKeyword .elseWord = true ∧ e.isKeyword .elifWord = false := by
        rw [Token.isKeyword, Token.isKeyword, show e.kind = .keyword .elseWord from he]
        exact ⟨rfl, rfl⟩
      refine ⟨[.mk t.position c b], some o, last, ?_, ?_, ?_, ?_⟩
      · simp only [branchesSeen, hseen, hseen']
      · simp only [otherwiseSeen, hseenO]
      · rw [hlast, otherwisePieces, linesIn_cons]
        omega
      · simp only [List.cons_append, List.append_assoc]
        rw [hread, get_bind, ahead_on, helse.2, if_neg Bool.false_ne_true, helse.1, if_pos rfl,
          advance_bind, advance_on, hblock, List.reverse_cons]
        rfl

/-- The branches of a choice, by induction on those behind the first. -/
theorem choice_read {depth : Nat} {bs : List Branch} {p : Position} {condition : Expr}
    {body : Block} {otherwise : Option Block} {g : Gap} {word : Keyword}
    (h : ∀ b ∈ Branch.mk p condition body :: bs, BranchReads f limit depth b)
    (hotherwise : ∀ b, otherwise = some b → BlockReads f limit b (blockPieces depth b))
    (fuel nesting : Nat) (start : Position) (done : List Branch) {line : Nat} {ts : List Token}
    (a : Token) (rest : List Token) (ds : Array Diagnostic)
    (hlaid : Laid f line (branchesPieces g depth word (.mk p condition body :: bs) ++
      otherwisePieces depth otherwise) ts)
    (hfuel : 8 * ts.length ≤ fuel + 3) (hlimit : nesting + fuel ≤ limit)
    (hends : EndsStatement a (line + linesIn (branchesPieces g depth word
      (.mk p condition body :: bs) ++ otherwisePieces depth otherwise))) :
    ∃ bs' otherwise' last,
      branchesSeen .plain bs' = branchesSeen ⟨f, true⟩ (.mk p condition body :: bs) ∧
      otherwiseSeen .plain otherwise' = otherwiseSeen ⟨f, true⟩ otherwise ∧
      last.position.line = line + linesIn (branchesPieces g depth word
        (.mk p condition body :: bs) ++ otherwisePieces depth otherwise) ∧
      choice limit fuel nesting start done (on (ts ++ a :: rest) ds) =
        (some (.choose start (done.reverse ++ bs') otherwise'), on (last :: a :: rest) ds) := by
  induction bs generalizing p condition body g word fuel done line ts with
  | nil =>
      exact choice_last (h _ List.mem_cons_self) hotherwise fuel nesting start done a rest ds hlaid
        hfuel hlimit hends
  | cons b bs ih =>
      obtain ⟨q, condition', body'⟩ := b
      have hpieces : branchesPieces g depth word
          (.mk p condition body :: .mk q condition' body' :: bs) ++
          otherwisePieces depth otherwise = ⟨g, .keyword word⟩ ::
            ((exprPieces .blank depth condition ++ blockPieces depth body) ++
              (branchesPieces .blank depth .elifWord (.mk q condition' body' :: bs) ++
                otherwisePieces depth otherwise)) := by
        rw [branchesPieces]
        simp only [List.cons_append, List.append_assoc]
      rw [hpieces] at hlaid hends ⊢
      rw [linesIn_cons, linesIn_append, ← Nat.add_assoc, ← Nat.add_assoc] at hends ⊢
      obtain ⟨t, us, rfl, -, -, hlaid⟩ := laid_cons_iff.mp hlaid
      obtain ⟨us, vs, rfl, hfirst, hrest⟩ := laid_append_iff.mp hlaid
      simp only [List.length_cons, List.length_append] at hfuel
      obtain ⟨fuel, rfl⟩ : ∃ k, fuel = k + 1 := ⟨fuel - 1, by omega⟩
      obtain ⟨e, others, hvs, helif⟩ : ∃ e others, vs = e :: others ∧
          e.isKeyword .elifWord = true := by
        simp only [branchesPieces, List.cons_append] at hrest
        obtain ⟨e, others, rfl, he, -⟩ := laid_cons_iff.mp hrest
        refine ⟨e, others, rfl, ?_⟩
        rw [Token.isKeyword, show e.kind = .keyword .elifWord from he]
        rfl
      obtain ⟨c, b, middle, hseen, hseen', -, hread⟩ :=
        choice_step (h _ List.mem_cons_self) fuel nesting start done t e (others ++ a :: rest) ds
          hfirst (by omega) (by omega)
      obtain ⟨bs', otherwise', last, hseens, hseenO, hlast, hreads⟩ :=
        ih (fun b hb => h b (List.mem_cons_of_mem _ hb)) fuel (.mk t.position c b :: done) hrest
          (by omega) (by omega) hends
      refine ⟨.mk t.position c b :: bs', otherwise', last, ?_, hseenO, hlast, ?_⟩
      · rw [branchesSeen, hseens, hseen, hseen', ← branchesSeen]
      · rw [hvs] at hreads ⊢
        simp only [List.cons_append, List.append_assoc] at hreads ⊢
        rw [hread, get_bind, ahead_on, helif, if_pos rfl, advance_bind, advance_on, hreads,
          List.reverse_cons, List.append_assoc]
        rfl

/-- A choice. -/
theorem stmtReads_choose {bs : List Branch} {otherwise : Option Block} {g : Gap} {depth : Nat}
    (p : Position) (hne : bs ≠ []) (h : ∀ b ∈ bs, BranchReads f limit depth b)
    (hotherwise : ∀ b, otherwise = some b → BlockReads f limit b (blockPieces depth b)) :
    StmtReads f limit (.choose p bs otherwise)
      (stmtPieces g depth (.choose p bs otherwise)) := by
  intro fuel nesting line ts a rest ds hlaid hfuel hlimit hends
  have hpieces : stmtPieces g depth (.choose p bs otherwise) =
      branchesPieces g depth .ifWord bs ++ otherwisePieces depth otherwise := by
    cases otherwise <;> rfl
  rw [hpieces] at hlaid hends ⊢
  obtain ⟨⟨q, condition, body⟩, bs, rfl⟩ := List.exists_cons_of_ne_nil hne
  have hfirst : ∃ t us, ts = t :: us ∧ t.kind = .keyword .ifWord := by
    simp only [branchesPieces, List.cons_append] at hlaid
    obtain ⟨t, us, rfl, ht, -⟩ := laid_cons_iff.mp hlaid
    exact ⟨t, us, rfl, ht⟩
  obtain ⟨t, us, rfl, ht⟩ := hfirst
  obtain ⟨fuel, rfl⟩ : ∃ k, fuel = k + 1 := by
    rw [List.length_cons] at hfuel
    exact ⟨fuel - 1, by omega⟩
  obtain ⟨bs', otherwise', last, hseens, hseen, hlast, hread⟩ :=
    choice_read h hotherwise fuel nesting t.position [] a rest ds hlaid (by omega) (by omega) hends
  refine ⟨.choose t.position bs' otherwise', last, ?_, hlast, ?_⟩
  · cases otherwise <;> cases otherwise' <;> simp_all [Stmt.seen, otherwiseSeen]
  · rw [statement, counted_eq, current_bind, List.cons_append, current_on, ht]
    exact bind_some hread _

end Scriptlet.Parser
