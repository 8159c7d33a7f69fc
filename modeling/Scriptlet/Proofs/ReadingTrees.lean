/-
Reading the layout of a tree.  The tokens of a legible tree's layout are read as
a tree that is seen like it, without a fault.
-/
import Scriptlet.Proofs.ReadingStatements

namespace Scriptlet.Parser

open Parse Reader Layout Lexer

variable {f : String → String} {limit : Nat}

/-- Whether an expression is read wherever it is laid out; of a member, so is the
object, since the call of a member is read as the call of a method. -/
def ExprReads (f : String → String) (limit : Nat) (e : Expr) : Prop :=
  (∀ g depth, Reads f limit e (exprPieces g depth e)) ∧
    ∀ p o i, e = .member p o i → o.Legible ∧ ∀ g depth, Reads f limit o (exprPieces g depth o)

theorem ExprReads.of_reads {e : Expr} (h : ∀ g depth, Reads f limit e (exprPieces g depth e))
    (hmember : e.isMember = false) : ExprReads f limit e := by
  refine ⟨h, ?_⟩
  rintro p o i rfl
  exact Bool.noConfusion hmember

/-- The call of an expression; that of a member is read as that of a method. -/
theorem reads_call_of {callee : Expr} {args : List Expr} {depth : Nat} (g : Gap) (p : Position)
    (hlegible : callee.Legible) (hcallee : ExprReads f limit callee)
    (hargs : ItemsRead f limit args (itemsPieces depth args)) :
    Reads f limit (.call p callee args) (exprPieces g depth (.call p callee args)) := by
  cases hmember : callee.isMember with
  | false =>
      exact reads_call g p hmember (fun g => hcallee.1 g depth)
        (fun g => phrase_exprPieces g depth callee hlegible) hargs
  | true =>
      cases callee with
      | member q object field =>
          obtain ⟨hobject, hreads⟩ := hcallee.2 q object field rfl
          have hpieces : exprPieces g depth (.call p (.member q object field) args) =
              exprPieces g depth (.method q object field args) :=
            (exprPieces_call .joined g depth p p (.member q object field) args).symm
          rw [hpieces]
          exact reads_method g (fun _ => rfl) (fun g => hreads g depth)
            (fun g => phrase_exprPieces g depth object hobject) hargs q
      | _ => exact Bool.noConfusion hmember

/-- A word that is an expression by what kind of token it is read as. -/
theorem exprReads_word {e : Expr} {w : Word} (hpieces : ∀ g depth, exprPieces g depth e = [⟨g, w⟩])
    (hmember : e.isMember = false)
    (h : ∀ t, ReadAs f t w → ∃ e', e'.seen .plain = e.seen ⟨f, true⟩ ∧
      ∀ fuel nesting (r : Reader), r.current = t →
        operand limit (fuel + 1) nesting r = (some e', r)) :
    ExprReads f limit e := by
  refine .of_reads (fun g depth => ?_) hmember
  rw [hpieces]
  exact reads_word g h

theorem exprReads_name (i : Ident) : ExprReads f limit (.name i) := by
  refine exprReads_word (w := .name i.name) (fun _ _ => rfl) rfl ?_
  rintro t ⟨hname, hlexeme⟩
  refine ⟨.name ⟨t.lexeme, t.position⟩, ?_, ?_⟩
  · simp only [Expr.seen, Ident.seen, hlexeme]
  · rintro fuel nesting r rfl
    unfold Token.isName at hname
    split at hname
    · rename_i hkind
      rw [operand, current_bind, hkind]
      rfl
    · exact absurd hname Bool.noConfusion

theorem exprReads_int (p : Position) (digits : String) (value : Int64) :
    ExprReads f limit (.int p digits value) := by
  refine exprReads_word (w := .int value) (fun _ _ => rfl) rfl fun t ht => ?_
  refine ⟨.int t.position t.lexeme value, rfl, ?_⟩
  rintro fuel nesting r rfl
  rw [operand, current_bind, show r.current.kind = .int value from ht]
  rfl

theorem exprReads_float (p : Position) (digits : String) (value : Float) :
    ExprReads f limit (.float p digits value) := by
  refine exprReads_word (w := .float value) (fun _ _ => rfl) rfl fun t ht => ?_
  refine ⟨.float t.position t.lexeme value, rfl, ?_⟩
  rintro fuel nesting r rfl
  rw [operand, current_bind, show r.current.kind = .float value from ht]
  rfl

theorem exprReads_str (p : Position) (value : String) : ExprReads f limit (.str p value) := by
  refine exprReads_word (w := .str value) (fun _ _ => rfl) rfl ?_
  rintro t ⟨hkind, hlexeme⟩
  refine ⟨.str t.position t.lexeme, ?_, ?_⟩
  · rw [hlexeme]
    rfl
  · rintro fuel nesting r rfl
    rw [operand, current_bind, hkind]
    rfl

theorem exprReads_bool (p : Position) (value : Bool) : ExprReads f limit (.bool p value) := by
  refine exprReads_word (w := boolWord value) (fun _ _ => rfl) rfl fun t ht => ?_
  refine ⟨.bool t.position value, rfl, ?_⟩
  rintro fuel nesting r rfl
  cases value with
  | true =>
      rw [operand, current_bind, show r.current.kind = .keyword .trueWord from ht]
      rfl
  | false =>
      rw [operand, current_bind, show r.current.kind = .keyword .falseWord from ht]
      rfl

theorem exprReads_null (p : Position) : ExprReads f limit (.null p) := by
  refine exprReads_word (w := .keyword .nullWord) (fun _ _ => rfl) rfl fun t ht => ?_
  refine ⟨.null t.position, rfl, ?_⟩
  rintro fuel nesting r rfl
  rw [operand, current_bind, show r.current.kind = .keyword .nullWord from ht]
  rfl

mutual

/-- A legible expression is read wherever it is laid out. -/
theorem exprReads : (e : Expr) → e.Legible → ExprReads f limit e
  | .name i, _ => exprReads_name i
  | .int p digits value, _ => exprReads_int p digits value
  | .float p digits value, _ => exprReads_float p digits value
  | .str p value, _ => exprReads_str p value
  | .bool p value, _ => exprReads_bool p value
  | .null p, _ => exprReads_null p
  | .list p items, h => .of_reads (fun g depth => reads_list g p (itemsRead depth items h)) rfl
  | .unary p op operand, h => by
    have hoperand := exprReads operand h
    exact .of_reads (fun g depth => reads_unary g p op (fun g => hoperand.1 g depth)
      (fun g => phrase_exprPieces g depth operand h)) rfl
  | .binary p op left right, h => by
    have hleft := exprReads left h.1
    have hright := exprReads right h.2
    exact .of_reads (fun g depth => reads_binary g p op (fun g => hleft.1 g depth)
      (fun g => phrase_exprPieces g depth left h.1) (fun g => hright.1 g depth)
      (fun g => phrase_exprPieces g depth right h.2)) rfl
  | .call p callee args, h => by
    have hcallee := exprReads callee h.1
    exact .of_reads (fun g depth =>
      reads_call_of g p h.1 hcallee (itemsRead depth args h.2)) rfl
  | .member p object field, h => by
    have hobject := exprReads object h.1
    refine ⟨fun g depth => reads_member g p field (fun g => hobject.1 g depth)
      (fun g => phrase_exprPieces g depth object h.1), ?_⟩
    rintro q o i heq
    cases heq
    exact ⟨h.1, hobject.1⟩
  | .method p object field args, h => by
    have hobject := exprReads object h.1
    exact .of_reads (fun g depth => reads_method g (fun _ => rfl) (fun g => hobject.1 g depth)
      (fun g => phrase_exprPieces g depth object h.1) (itemsRead depth args h.2.2) p) rfl
  | .index p object subscript, h => by
    have hobject := exprReads object h.1
    have hsubscript := exprReads subscript h.2
    exact .of_reads (fun g depth => reads_index g p (fun g => hobject.1 g depth)
      (fun g => phrase_exprPieces g depth object h.1) (fun g => hsubscript.1 g depth)
      (fun g => phrase_exprPieces g depth subscript h.2)) rfl
  | .lambda p params body, h =>
    .of_reads (fun g depth => reads_lambda g p h.1 (blocksRead depth body h.2)) rfl

theorem itemsRead (depth : Nat) : (es : List Expr) → ExprsLegible es →
    ItemsRead f limit es (itemsPieces depth es)
  | [], _ => itemsRead_nil
  | e :: es, h => itemsRead_cons ((exprReads e h.1).1 _ _)
    (phrase_exprPieces .nothing depth e h.1) (moreItemsRead depth es h.2)

theorem moreItemsRead (depth : Nat) : (es : List Expr) → ExprsLegible es →
    MoreItemsRead f limit es (moreItemsPieces depth es)
  | [], _ => moreItemsRead_nil
  | e :: es, h => moreItemsRead_cons ((exprReads e h.1).1 _ _)
    (phrase_exprPieces .blank depth e h.1) (moreItemsRead depth es h.2)

theorem blocksRead (depth : Nat) : (b : Block) → b.Legible →
    BlockReads f limit b (blockPieces depth b)
  | .mk _ _, h => blockReads (fun s hs => stmtsRead _ h s hs _ _) h

theorem stmtsRead : (ss : List Stmt) → StmtsLegible ss → ∀ s ∈ ss, ∀ g depth,
    StmtReads f limit s (stmtPieces g depth s)
  | [], _, _, hs, _, _ => absurd hs List.not_mem_nil
  | s :: ss, h, r, hr, g, depth => by
    have hs := stmtReads s h.1 g depth
    have hss := stmtsRead ss h.2 r
    rcases List.mem_cons.mp hr with rfl | hr
    · exact hs
    · exact hss hr g depth

theorem branchesRead (depth : Nat) : (bs : List Branch) → BranchesLegible bs → ∀ b ∈ bs,
    BranchReads f limit depth b
  | [], _, _, hb => absurd hb List.not_mem_nil
  | .mk p condition body :: bs, h, b, hb => by
    have hcondition := (exprReads condition h.1).1 .blank depth
    have hbody := blocksRead depth body h.2.1
    have hbs := branchesRead depth bs h.2.2 b
    rcases List.mem_cons.mp hb with rfl | hb
    · exact ⟨hcondition, phrase_exprPieces .blank depth condition h.1, hbody⟩
    · exact hbs hb

theorem funcRead (g : Gap) (depth : Nat) : (fn : Func) → fn.Legible →
    FuncReads f limit fn (funcPieces g depth fn)
  | .mk _ _ _ _ body, h => funcReads h.2.1 (blocksRead depth body h.2.2.2)

theorem funcsRead (g : Gap) (depth : Nat) : (fs : List Func) → FuncsLegible fs → ∀ fn ∈ fs,
    FuncReads f limit fn (funcPieces g depth fn)
  | [], _, _, hfn => absurd hfn List.not_mem_nil
  | fn :: fs, h, r, hr => by
    have hfirst := funcRead g depth fn h.1
    have hothers := funcsRead g depth fs h.2 r
    rcases List.mem_cons.mp hr with rfl | hr
    · exact hfirst
    · exact hothers hr

/-- A legible statement is read wherever it is laid out. -/
theorem stmtReads : (s : Stmt) → s.Legible → ∀ g depth, StmtReads f limit s (stmtPieces g depth s)
  | .expr p word value, h, g, depth =>
    stmtReads_expr p word ((exprReads value h).1 g depth) (phrase_exprPieces g depth value h)
  | .assign p target value, h, g, depth =>
    stmtReads_assign p ((exprReads_name target).1 g depth) h.1
      ((exprReads value h.2).1 .blank depth) (phrase_exprPieces .blank depth value h.2)
  | .store p bracket object subscript value, h, g, depth => by
    have hobject := exprReads object h.1
    have hsubscript := exprReads subscript h.2.1
    have htarget := reads_index g bracket (fun g => hobject.1 g depth)
      (fun g => phrase_exprPieces g depth object h.1) (fun g => hsubscript.1 g depth)
      (fun g => phrase_exprPieces g depth subscript h.2.1)
    exact stmtReads_store p bracket htarget
      (phrase_exprPieces g depth (.index bracket object subscript) ⟨h.1, h.2.1⟩)
      ((exprReads value h.2.2).1 .blank depth) (phrase_exprPieces .blank depth value h.2.2)
  | .choose p branches none, h, g, depth => by
    have hbranches := branchesRead depth branches h.2.1
    refine stmtReads_choose p h.1 hbranches ?_
    intro b hb
    cases hb
  | .choose p branches (some otherwise), h, g, depth => by
    have hbranches := branchesRead depth branches h.2.1
    have hotherwise := blocksRead depth otherwise h.2.2
    refine stmtReads_choose p h.1 hbranches ?_
    intro b hb
    cases hb
    exact hotherwise
  | .repeatWhile p condition body, h, g, depth =>
    stmtReads_repeatWhile p ((exprReads condition h.1).1 .blank depth)
      (phrase_exprPieces .blank depth condition h.1) (blocksRead depth body h.2)
  | .forEach p item source body, h, g, depth =>
    stmtReads_forEach p ((exprReads source h.2.1).1 .blank depth)
      (phrase_exprPieces .blank depth source h.2.1) (blocksRead depth body h.2.2)
  | .declare fn, h, g, depth => stmtReads_declare (funcRead g depth fn h)
  | .classDef p ident fields [], h, g, depth => stmtReads_classDef_nil p h.2.1
  | .classDef p ident fields (m :: ms), h, g, depth => by
    have hmethods := funcsRead (.line (depth + 1)) (depth + 1) (m :: ms) h.2.2
    exact stmtReads_classDef_cons p h.2.1 hmethods
  | .giveBack p none, _, g, depth => stmtReads_giveBack_none g depth p
  | .giveBack p (some e), h, g, depth =>
    stmtReads_giveBack_some p ((exprReads e h).1 .blank depth)
      (phrase_exprPieces .blank depth e h)
  | .leave p, _, g, depth => stmtReads_leave g depth p
  | .skip p, _, g, depth => stmtReads_skip g depth p

end

theorem programStatements_step {fuel : Nat} {done : List Stmt} {r after : Reader} {s : Stmt}
    (heof : r.current.isEof = false) (hread : statement limit fuel 0 r = (some (some s), after))
    (hsame : after.diagnostics = r.diagnostics) :
    programStatements limit (fuel + 1) done r =
      programStatements limit fuel (s :: done) after.advance := by
  rw [programStatements]
  simp [heof, hread, hsame]

/-- One statement of a program, with what follows it on lines of their own. -/
theorem programStatements_cons {s : Stmt} {ss : List Stmt} {g : Gap} (hs : s.Legible)
    (hss : StmtsLegible ss) (fuel : Nat) (done : List Stmt) {line : Nat} {us vs : List Token}
    {final : Token} (ds : Array Diagnostic) (hfirst : Laid f line (stmtPieces g 0 s) us)
    (hothers : Laid f (line + linesIn (stmtPieces g 0 s)) (linesPieces 0 ss) vs)
    (hfinal : final.isEof = true)
    (hline : final.position.line ≠
      line + linesIn (stmtPieces g 0 s) + linesIn (linesPieces 0 ss))
    (hfuel : 8 * us.length ≤ fuel + 2) (hlimit : fuel ≤ limit) :
    ∃ s', s'.seen .plain = s.seen ⟨f, true⟩ ∧
      programStatements limit (fuel + 1) done (on (us ++ (vs ++ [final])) ds) =
        programStatements limit fuel (s' :: done) (on (vs ++ [final]) ds) := by
  obtain ⟨a, tail, ha, hends⟩ :=
    laid_lines_ends hss hothers (endsStatement_of_eof hfinal hline) []
  obtain ⟨s', last, hseen, -, hread⟩ := stmtReads s hs g 0 fuel 0 a tail ds hfirst hfuel
    (show 0 + fuel ≤ limit by omega) hends
  obtain ⟨t, us, w, rfl, ht, hw, -⟩ := laid_starts hs hfirst
  refine ⟨s', hseen, ?_⟩
  have heof : (on (t :: us ++ a :: tail) ds).current.isEof = false := by
    rw [List.cons_append, current_on, isEof_of_readAs ht]
  have hsame : (on (last :: a :: tail) ds).diagnostics =
      (on (t :: us ++ a :: tail) ds).diagnostics := by
    rw [diagnostics_on, diagnostics_on]
  rw [ha, programStatements_step heof hread hsame, advance_on]

theorem programLines_read {ss : List Stmt} (h : StmtsLegible ss) (fuel : Nat) (done : List Stmt)
    {line : Nat} {ts : List Token} {final : Token} (ds : Array Diagnostic)
    (hlaid : Laid f line (linesPieces 0 ss) ts) (hfinal : final.isEof = true)
    (hline : final.position.line ≠ line + linesIn (linesPieces 0 ss))
    (hfuel : 8 * ts.length + 1 ≤ fuel) (hlimit : fuel ≤ limit) :
    ∃ ss', stmtsSeen .plain ss' = stmtsSeen ⟨f, true⟩ ss ∧
      programStatements limit fuel done (on (ts ++ [final]) ds) =
        (done.reverse ++ ss', on [final] ds) := by
  induction ss generalizing fuel done line ts with
  | nil =>
      obtain rfl := laid_nil_iff.mp hlaid
      obtain ⟨fuel, rfl⟩ : ∃ k, fuel = k + 1 := ⟨fuel - 1, by omega⟩
      refine ⟨[], rfl, ?_⟩
      rw [programStatements, List.nil_append, current_on, if_pos hfinal, List.append_nil]
  | cons s ss ih =>
      obtain ⟨us, vs, rfl, hfirst, hothers⟩ := laid_append_iff.mp hlaid
      rw [linesPieces, linesIn_append, ← Nat.add_assoc] at hline
      obtain ⟨t, us, w, rfl, -, -, -⟩ := laid_starts h.1 hfirst
      rw [List.length_append, List.length_cons] at hfuel
      obtain ⟨fuel, rfl⟩ : ∃ k, fuel = k + 1 := ⟨fuel - 1, by omega⟩
      obtain ⟨s', hseen, hread⟩ := programStatements_cons h.1 h.2 fuel done ds hfirst hothers
        hfinal hline (by rw [List.length_cons]; omega) (show fuel ≤ limit by omega)
      obtain ⟨ss', hseens, hreads⟩ := ih h.2 fuel (s' :: done) hothers hline (by omega) (by omega)
      refine ⟨s' :: ss', by simp only [stmtsSeen, hseen, hseens], ?_⟩
      rw [List.append_assoc, hread, hreads, List.reverse_cons, List.append_assoc]
      rfl

/-- The tokens of a legible program's layout are read as a program that is seen
like it, without a fault, where expressions may nest deeply enough. -/
theorem statementsWithin_laid {ss : List Stmt} (h : StmtsLegible ss) (hne : ss ≠ []) {line : Nat}
    {ts : List Token} {final : Token} (hlaid : Laid f line (programPieces ss) ts)
    (hfinal : final.isEof = true)
    (hline : final.position.line ≠ line + linesIn (programPieces ss))
    (hlimit : callsFor (ts.length + 1) ≤ limit) :
    ∃ ss', stmtsSeen .plain ss' = stmtsSeen ⟨f, true⟩ ss ∧
      statementsWithin limit (ts ++ [final]) = (ss', []) := by
  obtain ⟨s, ss, rfl⟩ := List.exists_cons_of_ne_nil hne
  obtain ⟨us, vs, rfl, hfirst, hothers⟩ := laid_append_iff.mp hlaid
  rw [programPieces, linesIn_append, ← Nat.add_assoc] at hline
  rw [callsFor, List.length_append] at hlimit
  have hroom : 8 * (us.length + vs.length) + 39 ≤ limit := by omega
  obtain ⟨s', hseen, hread⟩ :=
    programStatements_cons h.1 h.2 _ [] #[] hfirst hothers hfinal hline (by omega) hroom
  obtain ⟨ss', hseens, hreads⟩ :=
    programLines_read h.2 _ [s'] #[] hothers hfinal hline (by omega) hroom
  refine ⟨s' :: ss', by simp only [stmtsSeen, hseen, hseens], ?_⟩
  have hcalls : callsFor (us ++ vs ++ [final]).length = 8 * (us.length + vs.length) + 39 + 1 := by
    simp only [callsFor, List.length_append, List.length_singleton]
    omega
  rw [statementsWithin, hcalls, ofTokens_eq_on, List.append_assoc, hread, hreads]
  rfl

end Scriptlet.Parser
