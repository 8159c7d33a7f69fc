/-
Reading the layout of parameters and of functions without a name, how
statements begin, and which tokens end the statement before them.
-/
import Scriptlet.Proofs.Reading

namespace Scriptlet.Parser

open Parse Reader Layout Lexer

variable {f : String → String} {limit : Nat}

theorem optionalHint_reads {hint : Option Ident} {line : Nat} {ts : List Token} {a : Token}
    (t : Token) (rest : List Token) (ds : Array Diagnostic)
    (hlaid : Laid f line (hintPieces hint) ts) (ha : a.isSign .colon = false) :
    ∃ hint' last, hint'.map Ident.seen = hint.map Ident.seen ∧
      optionalHint (on (t :: (ts ++ a :: rest)) ds) = (some hint', on (last :: a :: rest) ds) := by
  cases hint with
  | none =>
      obtain rfl := laid_nil_iff.mp hlaid
      refine ⟨none, t, rfl, ?_⟩
      rw [optionalHint, get_bind, List.nil_append, ahead_on, ha, if_neg Bool.false_ne_true]
      rfl
  | some h =>
      obtain ⟨colon, _, rfl, hcolon, -, hlaid⟩ := laid_cons_iff.mp hlaid
      obtain ⟨n, _, rfl, ⟨hname, hlexeme⟩, -, hnil⟩ := laid_cons_iff.mp hlaid
      obtain rfl := laid_nil_iff.mp hnil
      refine ⟨some ⟨n.lexeme, n.position⟩, n, ?_, ?_⟩
      · simp only [Option.map_some, Ident.seen, hlexeme]
      · rw [optionalHint, get_bind, List.cons_append, ahead_on,
          if_pos (isSign_self hcolon), advance_bind, advance_on,
          List.cons_append, expectName_bind hname]
        rfl

theorem seen_name {p q : Param} (h : p.seen = q.seen) : p.name.name = q.name.name := by
  simp only [Param.seen, Ident.seen, Param.mk.injEq, Ident.mk.injEq, and_true] at h
  exact h.1

/-- What stands behind a parameter: another one, or the closing parenthesis. -/
def afterParam (fuel : Nat) (done : List Param) : Parse (List Param) := do
  if (← get).ahead.isSign .comma then
    advance
    if (← get).ahead.isSign .rightParen then
      advance
      return done
    moreParams fuel done
  else
    expect .rightParen
    return done

/-- One parameter, whose name none of those before has. -/
theorem moreParams_step {p : Param} {g : Gap} {line : Nat} {ts : List Token} {a : Token}
    {done : List Param} (fuel : Nat) (t : Token) (rest : List Token) (ds : Array Diagnostic)
    (hfresh : ∀ d ∈ done, d.name.name ≠ p.name.name) (hlaid : Laid f line (paramPieces g p) ts)
    (ha : a.isSign .colon = false) :
    ∃ (p' : Param) (last : Token), p'.seen = p.seen ∧
      moreParams (fuel + 1) done (on (t :: (ts ++ a :: rest)) ds) =
        afterParam fuel (done ++ [p']) (on (last :: a :: rest) ds) := by
  obtain ⟨n, us, rfl, ⟨hname, hlexeme⟩, -, hhint⟩ := laid_cons_iff.mp hlaid
  obtain ⟨hint', last, hseen, hread⟩ := optionalHint_reads n rest ds hhint ha
  have hnone : (done.any fun d => d.name.name == n.lexeme) = false := by
    rw [List.any_eq_false]
    intro d hd
    rw [hlexeme, beq_iff_eq]
    exact hfresh d hd
  refine ⟨⟨⟨n.lexeme, n.position⟩, hint'⟩, last, ?_, ?_⟩
  · simp only [Param.seen, Ident.seen, hseen, hlexeme]
  · rw [moreParams, List.cons_append, expectName_bind hname, hnone,
      if_neg Bool.false_ne_true]
    exact bind_some hread _

theorem moreParams_reads {ps : List Param} {p : Param} {g : Gap} {line fuel : Nat}
    {ts : List Token} {c t : Token} {done : List Param} (rest : List Token)
    (ds : Array Diagnostic) (hnodup : ((p :: ps).map fun q => q.name.name).Nodup)
    (hfresh : ∀ d ∈ done, ∀ q ∈ p :: ps, d.name.name ≠ q.name.name)
    (hlaid : Laid f line (paramPieces g p ++ moreParamPieces ps) ts) (hfuel : ts.length ≤ fuel)
    (hc : c.kind = .sign .rightParen) :
    ∃ ps', ps'.map Param.seen = (p :: ps).map Param.seen ∧
      moreParams fuel done (on (t :: (ts ++ c :: rest)) ds) =
        (some (done ++ ps'), on (c :: rest) ds) := by
  -- By induction on the parameters behind the first, whose names are new to those in `done`.
  induction ps generalizing p g line fuel ts t done with
  | nil =>
      rw [show paramPieces g p ++ moreParamPieces [] = paramPieces g p from List.append_nil _]
        at hlaid
      obtain ⟨fuel, rfl⟩ : ∃ k, fuel = k + 1 := by
        obtain ⟨n, us, rfl, -⟩ := laid_cons_iff.mp hlaid
        rw [List.length_cons] at hfuel
        exact ⟨fuel - 1, by omega⟩
      obtain ⟨p', last, hseen, hread⟩ := moreParams_step fuel t rest ds
        (fun d hd => hfresh d hd p List.mem_cons_self) hlaid (isSign_of_kind hc .colon)
      refine ⟨[p'], by rw [List.map_singleton, List.map_singleton, hseen], ?_⟩
      rw [hread, afterParam, get_bind, ahead_on, isSign_of_kind hc,
        if_neg (by decide), expect_bind hc]
      rfl
  | cons q qs ih =>
      have hsplit : paramPieces g p ++ moreParamPieces (q :: qs) =
          paramPieces g p ++ (.close .comma :: (paramPieces .blank q ++ moreParamPieces qs)) := rfl
      rw [hsplit] at hlaid
      obtain ⟨us, _, rfl, hfirst, hlaid⟩ := laid_append_iff.mp hlaid
      obtain ⟨comma, vs, rfl, hcomma, -, hrest⟩ := laid_cons_iff.mp hlaid
      rw [List.length_append, List.length_cons] at hfuel
      obtain ⟨fuel, rfl⟩ : ∃ k, fuel = k + 1 := ⟨fuel - 1, by omega⟩
      obtain ⟨p', last, hseen, hread⟩ := moreParams_step fuel t (vs ++ c :: rest) ds
        (fun d hd => hfresh d hd p List.mem_cons_self) hfirst (isSign_of_kind hcomma .colon)
      obtain ⟨hp, hnodup⟩ := List.nodup_cons.mp hnodup
      have hfresh' : ∀ d ∈ done ++ [p'], ∀ r ∈ q :: qs, d.name.name ≠ r.name.name := by
        intro d hd r hr
        rcases List.mem_append.mp hd with hd | hd
        · exact hfresh d hd r (List.mem_cons_of_mem p hr)
        · rw [List.mem_singleton.mp hd, seen_name hseen]
          intro heq
          exact hp (List.mem_map.mpr ⟨r, hr, heq.symm⟩)
      obtain ⟨ps', hseens, hreads⟩ := ih (t := comma) hnodup hfresh' hrest
        (show vs.length ≤ fuel by omega)
      have hname : ((on (comma :: (vs ++ c :: rest)) ds).ahead.isSign .rightParen) = false := by
        obtain ⟨n, vs, rfl, ⟨hn, -⟩, -⟩ := laid_cons_iff.mp hrest
        rw [List.cons_append, ahead_on, isSign_of_isName hn]
      have hwhole : (p' :: ps').map Param.seen = (p :: q :: qs).map Param.seen := by
        rw [List.map_cons, hseen, hseens]
        rfl
      refine ⟨p' :: ps', hwhole, ?_⟩
      rw [List.append_assoc, List.cons_append, hread, afterParam, get_bind, ahead_on,
        if_pos (isSign_self hcomma), advance_bind, advance_on,
        get_bind, hname, if_neg Bool.false_ne_true, hreads, List.append_assoc]
      rfl

theorem laid_paramsPieces {ps : List Param} {line : Nat} {ts : List Token}
    (hlaid : Laid f line (paramsPieces ps) ts) :
    ∃ o us, ts = o :: us ∧ o.kind = .sign .leftParen := by
  cases ps with
  | nil =>
      obtain ⟨o, us, rfl, ho, -⟩ := laid_cons_iff.mp hlaid
      exact ⟨o, us, rfl, ho⟩
  | cons p ps =>
      obtain ⟨o, us, rfl, ho, -⟩ := laid_cons_iff.mp hlaid
      exact ⟨o, us, rfl, ho⟩

/-- Parameters between parentheses. -/
theorem params_read {ps : List Param} {line : Nat} {ts : List Token} (fuel : Nat) (a : Token)
    (rest : List Token) (ds : Array Diagnostic) (h : ParamsLegible ps)
    (hlaid : Laid f line (paramsPieces ps) ts) (hfuel : ts.length ≤ fuel) :
    ∃ ps' c, ps'.map Param.seen = ps.map Param.seen ∧
      c.position.line = line + linesIn (paramsPieces ps) ∧
      params fuel (on (ts ++ a :: rest) ds) = (some ps', on (c :: a :: rest) ds) := by
  cases ps with
  | nil =>
      obtain ⟨o, _, rfl, -, -, hlaid⟩ := laid_cons_iff.mp hlaid
      obtain ⟨c, _, rfl, hc, hline, hnil⟩ := laid_cons_iff.mp hlaid
      obtain rfl := laid_nil_iff.mp hnil
      refine ⟨[], c, rfl, hline, ?_⟩
      rw [params, get_bind, List.cons_append, List.cons_append, ahead_on,
        if_pos (isSign_self hc), advance_bind, advance_on]
      rfl
  | cons p ps =>
      obtain ⟨_, back, rfl, hinside, hclose⟩ := laid_append_iff.mp hlaid
      obtain ⟨o, us, rfl, -, -, hinside⟩ := laid_cons_iff.mp hinside
      obtain ⟨c, _, rfl, hc, hline, hnil⟩ := laid_cons_iff.mp hclose
      obtain rfl := laid_nil_iff.mp hnil
      simp only [List.length_append, List.length_cons] at hfuel
      obtain ⟨ps', hseens, hread⟩ := moreParams_reads (t := o) (a :: rest) ds h.2
        (fun d hd => absurd hd List.not_mem_nil) hinside (show us.length ≤ fuel by omega) hc
      obtain ⟨n, us, rfl, ⟨hn, -⟩, -⟩ := laid_cons_iff.mp hinside
      refine ⟨ps', c, hseens, ?_, ?_⟩
      · rw [hline, paramsPieces]
        simp only [List.cons_append, linesIn_cons, linesIn_append, linesIn_nil]
        omega
      · rw [params, get_bind, List.append_assoc, List.cons_append, List.cons_append, ahead_on,
          isSign_of_isName hn, if_neg Bool.false_ne_true]
        exact hread

def BlockReads (f : String → String) (limit : Nat) (b : Block) (ps : List Piece) : Prop :=
  ∀ (fuel nesting : Nat) {line : Nat} {ts : List Token} (a : Token) (rest : List Token)
    (ds : Array Diagnostic), Laid f line ps ts → 8 * ts.length ≤ fuel + 8 →
    nesting + fuel ≤ limit →
    ∃ b' last, b'.seen .plain = b.seen ⟨f, true⟩ ∧ last.position.line = line + linesIn ps ∧
      block limit fuel nesting (on (ts ++ a :: rest) ds) = (some b', on (last :: a :: rest) ds)

theorem laid_blockPieces {depth line : Nat} {b : Block} {ts : List Token}
    (hlaid : Laid f line (blockPieces depth b) ts) :
    ∃ o us, ts = o :: us ∧ o.kind = .sign .leftBrace := by
  obtain ⟨p, _ | ⟨s, ss⟩⟩ := b
  all_goals
    simp only [blockPieces, List.cons_append] at hlaid
    obtain ⟨o, us, rfl, ho, -⟩ := laid_cons_iff.mp hlaid
    exact ⟨o, us, rfl, ho⟩

/-- A block behind the token that must precede it. -/
theorem BlockReads.behind {b : Block} {depth : Nat}
    (h : BlockReads f limit b (blockPieces depth b)) (fuel nesting : Nat) {line : Nat}
    {ts : List Token} (t a : Token) (rest : List Token) (ds : Array Diagnostic)
    (hlaid : Laid f line (blockPieces depth b) ts) (hfuel : 8 * ts.length ≤ fuel + 8)
    (hlimit : nesting + fuel ≤ limit) :
    ∃ b' last, b'.seen .plain = b.seen ⟨f, true⟩ ∧
      last.position.line = line + linesIn (blockPieces depth b) ∧
      ∀ {α : Type} (k : Block → Parse α),
        (expect .leftBrace >>= fun _ => block limit fuel nesting >>= k)
          (on (t :: (ts ++ a :: rest)) ds) = k b' (on (last :: a :: rest) ds) := by
  obtain ⟨b', last, hseen, hlast, hread⟩ := h fuel nesting a rest ds hlaid hfuel hlimit
  obtain ⟨o, us, rfl, ho⟩ := laid_blockPieces hlaid
  refine ⟨b', last, hseen, hlast, ?_⟩
  intro α k
  rw [List.cons_append, expect_bind ho, ← List.cons_append]
  exact bind_some hread k

/-- A function without a name. -/
theorem reads_lambda {params : List Param} {body : Block} {depth : Nat} (g : Gap) (p : Position)
    (hparams : ParamsLegible params) (hbody : BlockReads f limit body (blockPieces depth body)) :
    Reads f limit (.lambda p params body) (exprPieces g depth (.lambda p params body)) := by
  intro fuel nesting precedence line ts a rest ds hlaid hfuel hlimit hprecedence hfits hends
  simp only [exprPieces] at hlaid ⊢
  obtain ⟨_, back, rfl, hfront, hback⟩ := laid_append_iff.mp hlaid
  obtain ⟨t, us, rfl, ht, -, hfront⟩ := laid_cons_iff.mp hfront
  simp only [List.length_append, List.length_cons] at hfuel
  obtain ⟨fuel, rfl⟩ : ∃ k, fuel = k + 1 := ⟨fuel - 1, by omega⟩
  obtain ⟨o, vs, rfl, ho⟩ := laid_paramsPieces hfront
  obtain ⟨b, bs, rfl, hb⟩ := laid_blockPieces hback
  obtain ⟨params', c, hseens, -, hread⟩ := params_read fuel b (bs ++ a :: rest) ds hparams hfront
    (show (o :: vs).length ≤ fuel by omega)
  obtain ⟨body', last, hseen, hlast, hblock⟩ := hbody.behind fuel nesting c a rest ds hback
    (by omega) (by omega)
  have hwhole : Expr.seen .plain (.lambda t.position params' body') =
      (Expr.lambda p params body).seen ⟨f, true⟩ := by
    simp only [Expr.seen, hseens, hseen]
  refine found_of_operand last hwhole ?_ ?_
  · rw [hlast, linesIn_append]
    omega
  · rw [operand, List.append_assoc, List.cons_append, current_bind, current_on,
      show t.kind = .keyword .fnWord from ht]
    simp only [List.cons_append] at hread hblock ⊢
    rw [expect_bind ho, bind_some hread, hblock]
    rfl

def begins : Word → Bool
  | .sign s => (Word.sign s).opens
  | .keyword k =>
    match k with
    | .trueWord | .falseWord | .nullWord | .fnWord => true
    | _ => false
  | _ => true

/-- Whether some pieces begin like an expression; behind the keyword of a function
without a name its parameters follow. -/
def Begins (g : Gap) (ps : List Piece) : Prop :=
  ∃ w tail, ps = ⟨g, w⟩ :: tail ∧ begins w = true ∧
    (w = .keyword .fnWord → ∃ rest, tail = .close .leftParen :: rest)

theorem Begins.append {g : Gap} {ps : List Piece} (h : Begins g ps) (qs : List Piece) :
    Begins g (ps ++ qs) := by
  obtain ⟨w, tail, rfl, hw, hfn⟩ := h
  refine ⟨w, tail ++ qs, rfl, hw, ?_⟩
  intro heq
  obtain ⟨rest, rfl⟩ := hfn heq
  exact ⟨rest ++ qs, rfl⟩

theorem Begins.word (g : Gap) {w : Word} (hw : begins w = true) (hfn : w ≠ .keyword .fnWord)
    (tail : List Piece) : Begins g (⟨g, w⟩ :: tail) :=
  ⟨w, tail, rfl, hw, fun h => absurd h hfn⟩

theorem Begins.wrap {g : Gap} {inner : Gap → List Piece} (h : ∀ g, Begins g (inner g))
    (needed : Bool) : Begins g (wrapPieces needed g inner) := by
  cases needed with
  | false => exact h g
  | true => exact Begins.word g rfl Word.noConfusion _

theorem begins_exprPieces (depth : Nat) : (e : Expr) → ∀ g, Begins g (exprPieces g depth e)
  | .name _, g | .int _ _ _, g | .float _ _ _, g | .str _ _, g =>
    Begins.word g rfl Word.noConfusion []
  | .null _, g | .bool _ true, g | .bool _ false, g => Begins.word g rfl (by simp [boolWord]) []
  | .list _ items, g => by
    rw [exprPieces]
    exact Begins.word g rfl Word.noConfusion _
  | .unary _ op operand, g => by
    rw [exprPieces]
    exact Begins.word g (by cases op <;> rfl) Word.noConfusion _
  | .binary _ op left right, g => by
    rw [exprPieces]
    exact (Begins.wrap (begins_exprPieces depth left) _).append _
  | .call _ callee args, g => by
    rw [exprPieces, List.append_assoc]
    exact (Begins.wrap (begins_exprPieces depth callee) _).append _
  | .member _ object field, g => by
    rw [exprPieces]
    exact (Begins.wrap (begins_exprPieces depth object) _).append _
  | .method _ object field args, g => by
    rw [exprPieces, List.append_assoc]
    exact (Begins.wrap (begins_exprPieces depth object) _).append _
  | .index _ object subscript, g => by
    rw [exprPieces, List.append_assoc]
    exact (Begins.wrap (begins_exprPieces depth object) _).append _
  | .lambda _ params body, g => by
    rw [exprPieces]
    have hparams : ∃ rest, paramsPieces params = .close .leftParen :: rest := by
      cases params <;> exact ⟨_, rfl⟩
    obtain ⟨rest, hrest⟩ := hparams
    refine ⟨.keyword .fnWord, _, rfl, rfl, fun _ => ⟨rest ++ blockPieces depth body, ?_⟩⟩
    rw [hrest]
    rfl

/-- Whether a statement may begin with a word. -/
def starts : Word → Bool
  | .keyword k =>
    match k with
    | .inWord | .elifWord | .elseWord => false
    | _ => true
  | w => begins w

theorem starts_of_begins {w : Word} (h : begins w = true) : starts w = true := by
  cases w with
  | keyword k => cases k <;> simp_all [begins, starts]
  | _ => exact h

theorem starts_stmtPieces (g : Gap) (depth : Nat) {s : Stmt} (h : s.Legible) :
    ∃ w tail, stmtPieces g depth s = ⟨g, w⟩ :: tail ∧ starts w = true := by
  have hbegins : ∀ {ps : List Piece}, Begins g ps →
      ∃ w tail, ps = ⟨g, w⟩ :: tail ∧ starts w = true := by
    rintro ps ⟨w, tail, rfl, hw, -⟩
    exact ⟨w, tail, rfl, starts_of_begins hw⟩
  cases s with
  | expr p word value => exact hbegins (begins_exprPieces depth value g)
  | store p bracket object subscript value =>
      rw [stmtPieces, List.append_assoc]
      exact hbegins ((Begins.wrap (begins_exprPieces depth object) _).append _)
  | choose p branches otherwise =>
      cases otherwise
      all_goals
        obtain _ | ⟨⟨q, condition, body⟩, bs⟩ := branches
        · exact absurd rfl h.1
        · exact ⟨_, _, rfl, rfl⟩
  | declare fn =>
      obtain ⟨p, ident, params, hint, body⟩ := fn
      exact ⟨_, _, rfl, rfl⟩
  | classDef p ident fields methods =>
      cases methods <;> exact ⟨_, _, rfl, rfl⟩
  | giveBack p value => cases value <;> exact ⟨_, _, rfl, rfl⟩
  | _ => exact ⟨_, _, rfl, rfl⟩

structure EndsStatement (a : Token) (line : Nat) : Prop where
  elsewhere : a.position.line ≠ line
  noDot : a.isSign .dot = false
  noAssign : a.isSign .assign = false
  noSemicolon : a.isSign .semicolon = false
  noElif : a.isKeyword .elifWord = false
  noElse : a.isKeyword .elseWord = false

theorem EndsStatement.stops {a : Token} {line : Nat} (h : EndsStatement a line)
    (precedence : Nat) : follows precedence a line = false := by
  have hline : (a.position.line == line) = false := beq_eq_false_iff_ne.mpr h.elsewhere
  simp [follows, h.noDot, hline]

theorem endsStatement_of_brace {a : Token} {line : Nat} (ha : a.kind = .sign .rightBrace)
    (h : a.position.line ≠ line) : EndsStatement a line :=
  ⟨h, isSign_of_kind ha _, isSign_of_kind ha _, isSign_of_kind ha _,
    by rw [Token.isKeyword, ha], by rw [Token.isKeyword, ha]⟩

theorem endsStatement_of_eof {a : Token} {line : Nat} (ha : a.isEof = true)
    (h : a.position.line ≠ line) : EndsStatement a line := by
  have hkind : a.kind = .eof := by
    unfold Token.isEof at ha
    split at ha <;> simp_all
  constructor
  · exact h
  all_goals simp [Token.isSign, Token.isKeyword, hkind]

theorem word_of_sign {a : Token} {w : Word} {s : Sign} (ha : ReadAs f a w)
    (hs : a.isSign s = true) : w = .sign s := by
  have hkind := kind_of_isSign hs
  cases w with
  | sign s' => exact congrArg Word.sign (TokenKind.sign.inj (Eq.trans (Eq.symm ha) hkind))
  | keyword k => exact nomatch Eq.trans (Eq.symm ha) hkind
  | int v => exact nomatch Eq.trans (Eq.symm ha) hkind
  | float x => exact nomatch Eq.trans (Eq.symm ha) hkind
  | str v => exact nomatch ha.1.symm.trans hkind
  | name n =>
      have hname := isSign_of_isName ha.1 s
      exact absurd (hname.symm.trans hs) Bool.noConfusion

theorem word_of_keyword {a : Token} {w : Word} {k : Keyword} (ha : ReadAs f a w)
    (hk : a.isKeyword k = true) : w = .keyword k := by
  have hkind := kind_of_isKeyword hk
  cases w with
  | sign s => exact nomatch Eq.trans (Eq.symm ha) hkind
  | keyword k' => exact congrArg Word.keyword (TokenKind.keyword.inj (Eq.trans (Eq.symm ha) hkind))
  | int v => exact nomatch Eq.trans (Eq.symm ha) hkind
  | float x => exact nomatch Eq.trans (Eq.symm ha) hkind
  | str v => exact nomatch ha.1.symm.trans hkind
  | name n =>
      have hname := ha.1
      rw [Token.isName, hkind] at hname
      exact absurd hname Bool.noConfusion

/-- A statement ends before a word with which the next may begin. -/
theorem endsStatement_of_starts {a : Token} {w : Word} {line : Nat} (ha : ReadAs f a w)
    (hw : starts w = true) (h : a.position.line ≠ line) : EndsStatement a line := by
  have hsign : ∀ s, starts (.sign s) = false → a.isSign s = false := by
    intro s hnot
    refine Bool.eq_false_of_not_eq_true fun hs => ?_
    obtain rfl := word_of_sign ha hs
    exact absurd (hnot.symm.trans hw) Bool.noConfusion
  have hkeyword : ∀ k, starts (.keyword k) = false → a.isKeyword k = false := by
    intro k hnot
    refine Bool.eq_false_of_not_eq_true fun hk => ?_
    obtain rfl := word_of_keyword ha hk
    exact absurd (hnot.symm.trans hw) Bool.noConfusion
  exact ⟨h, hsign _ rfl, hsign _ rfl, hsign _ rfl, hkeyword _ rfl, hkeyword _ rfl⟩

end Scriptlet.Parser
