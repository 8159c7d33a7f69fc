/-
How deeply blocks stand in one another.  No guard is on blocks: a program nests as many
of them as it has opening braces for, and that is all that bounds the calls of the parser
beyond the limit on expressions.
-/
import Scriptlet.Proofs.CallNesting
import Scriptlet.Proofs.Joining

namespace Scriptlet

mutual

def Expr.blocks : Expr → Nat
  | .name _ | .int _ _ _ | .float _ _ _ | .str _ _ | .bool _ _ | .null _ => 0
  | .list _ items => exprsBlocks items
  | .unary _ _ operand => operand.blocks
  | .binary _ _ left right => max left.blocks right.blocks
  | .call _ callee args => max callee.blocks (exprsBlocks args)
  | .member _ object _ => object.blocks
  | .method _ object _ args => max object.blocks (exprsBlocks args)
  | .index _ object subscript => max object.blocks subscript.blocks
  | .lambda _ _ body => body.blocks

/-- How many blocks stand in one another in some expressions, at most. -/
def exprsBlocks : List Expr → Nat
  | [] => 0
  | e :: es => max e.blocks (exprsBlocks es)

def Block.blocks : Block → Nat
  | .mk _ ss => stmtsBlocks ss + 1

/-- How many blocks stand in one another in some statements, at most. -/
def stmtsBlocks : List Stmt → Nat
  | [] => 0
  | s :: ss => max s.blocks (stmtsBlocks ss)

def branchesBlocks : List Branch → Nat
  | [] => 0
  | .mk _ condition body :: bs => max (max condition.blocks body.blocks) (branchesBlocks bs)

def Func.blocks : Func → Nat
  | .mk _ _ _ _ body => body.blocks

/-- How many blocks stand in one another in some functions, at most. -/
def funcsBlocks : List Func → Nat
  | [] => 0
  | f :: fs => max f.blocks (funcsBlocks fs)

def Stmt.blocks : Stmt → Nat
  | .expr _ _ value => value.blocks
  | .assign _ _ value => value.blocks
  | .store _ _ object subscript value => max (max object.blocks subscript.blocks) value.blocks
  | .choose _ branches none => branchesBlocks branches
  | .choose _ branches (some b) => max (branchesBlocks branches) b.blocks
  | .repeatWhile _ condition body => max condition.blocks body.blocks
  | .forEach _ _ source body => max source.blocks body.blocks
  | .declare f => f.blocks
  | .classDef _ _ _ methods => funcsBlocks methods
  | .giveBack _ none => 0
  | .giveBack _ (some e) => e.blocks
  | .leave _ | .skip _ => 0

end

theorem Stmt.blocks_choose (p : Position) (branches : List Branch) (otherwise : Option Block) :
    (Stmt.choose p branches otherwise).blocks =
      max (branchesBlocks branches) (otherwise.elim 0 Block.blocks) := by
  cases otherwise <;> simp [Stmt.blocks]

@[simp] theorem openings_append (ts us : List Token) :
    openings (ts ++ us) = openings ts + openings us := List.countP_append

@[simp] theorem openings_cons (t : Token) (ts : List Token) :
    openings (t :: ts) = openings ts + (if t.isSign .leftBrace then 1 else 0) :=
  List.countP_cons

mutual

/-- Every block of an expression has an opening brace among the tokens that spell it. -/
theorem ExprSpelt.blocks_le : ∀ {e : Expr} {ts : List Token}, ExprSpelt e ts →
    e.blocks ≤ openings ts
  | _, _, .name _ | _, _, .int _ | _, _, .float _ | _, _, .str _ | _, _, .trueWord _
  | _, _, .falseWord _ | _, _, .nullWord _ => Nat.zero_le _
  | _, _, .parens _ h _ => by
      have := h.blocks_le
      simp
      omega
  | _, _, .list _ h => by
      have := h.blocks_le
      simp [Expr.blocks]
      omega
  | _, _, .unary _ h => by
      have := h.blocks_le
      simp [Expr.blocks]
      omega
  | _, _, .binary h _ h' => by
      have := h.blocks_le
      have := h'.blocks_le
      simp [Expr.blocks]
      omega
  | _, _, .call h _ h' => by
      have := h.blocks_le
      have := h'.blocks_le
      simp [Expr.blocks]
      omega
  | _, _, .member h _ _ => by
      have := h.blocks_le
      simp [Expr.blocks]
      omega
  | _, _, .method h _ _ _ h' => by
      have := h.blocks_le
      have := h'.blocks_le
      simp [Expr.blocks]
      omega
  | _, _, .index h _ h' _ => by
      have := h.blocks_le
      have := h'.blocks_le
      simp [Expr.blocks]
      omega
  | _, _, .lambda _ _ _ h => by
      have := h.blocks_le
      simp [Expr.blocks]
      omega

theorem ItemsSpelt.blocks_le : ∀ {closing : Sign} {es : List Expr} {ts : List Token},
    ItemsSpelt closing es ts → exprsBlocks es ≤ openings ts
  | _, _, _, .close _ => Nat.zero_le _
  | _, _, _, .last h _ => by
      have := h.blocks_le
      simp [exprsBlocks]
      omega
  | _, _, _, .more h _ h' => by
      have := h.blocks_le
      have := h'.blocks_le
      simp [exprsBlocks]
      omega

theorem BlockSpelt.blocks_le : ∀ {b : Block} {ts : List Token}, BlockSpelt b ts →
    b.blocks ≤ openings ts
  | _, _, .mk ho h _ => by
      have := h.blocks_le
      simp [Block.blocks, ho]
      omega

theorem LinesSpelt.blocks_le : ∀ {ss : List Stmt} {ts : List Token}, LinesSpelt ss ts →
    stmtsBlocks ss ≤ openings ts
  | _, _, .nil => Nat.zero_le _
  | _, _, .empty _ h => by
      have := h.blocks_le
      simp
      omega
  | _, _, .cons h h' => by
      have := h.blocks_le
      have := h'.blocks_le
      simp [stmtsBlocks]
      omega

theorem StmtSpelt.blocks_le : ∀ {s : Stmt} {ts : List Token}, StmtSpelt s ts →
    s.blocks ≤ openings ts
  | _, _, .expr h _ => by
      have := h.blocks_le
      simp [Stmt.blocks] at this ⊢
      omega
  | _, _, .assign _ _ h _ => by
      have := h.blocks_le
      simp [Stmt.blocks]
      omega
  | _, _, .store h _ h' _ => by
      have := h.blocks_le
      have := h'.blocks_le
      simp [Stmt.blocks, Expr.blocks] at *
      omega
  | _, _, .choose h h' => by
      have := h.blocks_le
      have := h'.blocks_le
      rw [Stmt.blocks_choose]
      simp at *
      omega
  | _, _, .repeatWhile _ h h' => by
      have := h.blocks_le
      have := h'.blocks_le
      simp [Stmt.blocks]
      omega
  | _, _, .forEach _ _ _ h h' => by
      have := h.blocks_le
      have := h'.blocks_le
      simp [Stmt.blocks]
      omega
  | _, _, .declare h => h.blocks_le
  | _, _, .classDef _ _ _ h => by
      have := h.blocks_le
      simp [Stmt.blocks]
      omega
  | _, _, .giveBack _ _ => Nat.zero_le _
  | _, _, .giveBackValue _ h _ => by
      have := h.blocks_le
      simp [Stmt.blocks]
      omega
  | _, _, .leave _ _ => Nat.zero_le _
  | _, _, .skip _ _ => Nat.zero_le _

theorem BranchesSpelt.blocks_le : ∀ {k : Keyword} {bs : List Branch} {ts : List Token},
    BranchesSpelt k bs ts → branchesBlocks bs ≤ openings ts
  | _, _, _, .nil => Nat.zero_le _
  | _, _, _, .cons _ h h' h'' => by
      have := h.blocks_le
      have := h'.blocks_le
      have := h''.blocks_le
      simp [branchesBlocks]
      omega

theorem ElseSpelt.blocks_le : ∀ {otherwise : Option Block} {ts : List Token},
    ElseSpelt otherwise ts → (otherwise.elim 0 Block.blocks) ≤ openings ts
  | _, _, .none => Nat.zero_le _
  | _, _, .some _ h => by
      have := h.blocks_le
      simp
      omega

theorem FuncSpelt.blocks_le : ∀ {f : Func} {ts : List Token}, FuncSpelt f ts →
    f.blocks ≤ openings ts
  | _, _, .mk _ _ _ _ _ h => by
      have := h.blocks_le
      simp [Func.blocks]
      omega

theorem ClassBodySpelt.blocks_le : ∀ {fs : List Func} {ts : List Token}, ClassBodySpelt fs ts →
    funcsBlocks fs ≤ openings ts
  | _, _, .none _ => Nat.zero_le _
  | _, _, .some _ h _ => by
      have := h.blocks_le
      simp
      omega

theorem MethodsSpelt.blocks_le : ∀ {fs : List Func} {ts : List Token}, MethodsSpelt fs ts →
    funcsBlocks fs ≤ openings ts
  | _, _, .nil => Nat.zero_le _
  | _, _, .empty _ h => by
      have := h.blocks_le
      simp
      omega
  | _, _, .cons h h' => by
      have := h.blocks_le
      have := h'.blocks_le
      simp [funcsBlocks]
      omega

end

namespace Parser

open Parse Seam Reader

variable {limit : Nat}

/-- A statement that is kept has its blocks from the tokens that are left where the
attempt at it begins. -/
theorem kept_blocks {r : Reader} (hr : r.Ends) {s : Stmt}
    (hs : (attemptAt limit r).kept = some s) : s.blocks ≤ openings (r.current :: r.coming) := by
  obtain ⟨-, htells⟩ := attemptAt_candid limit hr
  unfold Attempt.kept at hs
  split at hs
  · exact absurd hs.symm (Option.some_ne_none s)
  rename_i hquiet
  have hfound : (attemptAt limit r).found = some (some s) := Option.join_eq_some_iff.mp hs
  obtain ⟨-, ts, hts, hspelt⟩ := htells _ hfound hquiet
  have hblocks := hspelt.blocks_le
  rw [hts]
  simp [stmtsBlocks] at hblocks ⊢
  omega

/-- The next attempt begins one token behind a place that is no earlier. -/
theorem exists_next_eq (limit : Nat) {r : Reader} (hr : r.Ends) :
    ∃ x : Reader, x.coming <:+ r.coming ∧ (attemptAt limit r).next = x.advance := by
  have hbehind : (attemptAt limit r).after.coming <:+ r.coming :=
    (attemptAt_candid limit hr).1.behind
  unfold Attempt.next
  split
  · exact ⟨_, (Reader.skipToBoundary_behind _).trans hbehind, rfl⟩
  · exact ⟨_, hbehind, rfl⟩

theorem openings_next {r : Reader} (hr : r.Ends)
    (heof : (attemptAt limit r).next.current.isEof = false) :
    openings ((attemptAt limit r).next.current :: (attemptAt limit r).next.coming) ≤
      openings r.coming := by
  obtain ⟨x, hbehind, hnext⟩ := exists_next_eq limit hr
  rw [hnext] at heof ⊢
  have hmoves := moves_advance (hr.of_suffix hbehind)
  rw [hmoves.current] at heof
  rw [← hmoves.coming heof]
  exact openings_suffix hbehind

/-- What is kept of a program nests as many blocks as there are opening braces, at most. -/
theorem Attempts.kept_blocks {r last : Reader} {as : List Attempt} (h : Attempts limit r as last)
    (hr : r.Ends) : ∀ s ∈ as.filterMap Attempt.kept,
      s.blocks ≤ openings (r.current :: r.coming) := by
  induction h with
  | finish _ => exact fun s hs => absurd hs List.not_mem_nil
  | @go a as last _ hread hrest ih =>
      have ha : a = attemptAt limit a.start := eq_attemptAt hr hread
      have hends : a.next.Ends := by
        rw [ha]
        exact hr.of_suffix (next_leads limit hr).1
      intro s hs
      obtain ⟨b, hb, hkept⟩ := List.mem_filterMap.mp hs
      rcases List.mem_cons.mp hb with rfl | hb
      · rw [ha] at hkept
        exact Parser.kept_blocks hr hkept
      · have hnext : a.next.current.isEof = false := by
          refine Bool.eq_false_iff.mpr fun heof => ?_
          rw [(hrest.of_isEof heof).1] at hb
          exact absurd hb List.not_mem_nil
        have hlater := ih hends s (List.mem_filterMap.mpr ⟨b, hb, hkept⟩)
        have hfewer : openings (a.next.current :: a.next.coming) ≤ openings a.start.coming := by
          rw [ha] at hnext ⊢
          exact openings_next hr hnext
        rw [openings_cons]
        omega

/-- With a meter a program reads what it reads without one, with as many calls active at
once as the limit and the opening braces allow. -/
theorem programStatements_metered (limit fuel : Nat) (done : List Stmt) {r : Reader} (m : Meter)
    (hr : r.Ends) : ∃ m' : Meter, m'.active = m.active ∧
      m'.most ≤ max m.most (m.active + (limit + 2) + 2 * openings r.coming) ∧
      programStatements limit fuel done (r.keeping m) =
        ((programStatements limit fuel done r).1,
          (programStatements limit fuel done r).2.keeping m') := by
  induction fuel generalizing done r m with
  | zero => exact ⟨m, rfl, Nat.le_max_left _ _, rfl⟩
  | succ fuel ih =>
      cases heof : r.current.isEof with
      | true =>
          refine ⟨m, rfl, Nat.le_max_left _ _, ?_⟩
          rw [programStatements_eof heof, programStatements_eof (r := r.keeping m) heof]
      | false =>
          obtain ⟨m', hread, hbehind, hactive, hmost⟩ := (allMetered limit fuel).statement 0 r m hr
          by_cases hsize : r.diagnostics.size < (statement limit fuel 0 r).2.diagnostics.size
          · have hnext := (coming_advance _).trans ((skipToBoundary_behind _).trans hbehind)
            obtain ⟨m'', hactive', hmost', hrest⟩ := ih done m' (hr.of_suffix hnext)
            have hfewer := openings_suffix hnext
            refine ⟨m'', hactive'.trans hactive, by omega, ?_⟩
            rw [programStatements_fault heof hsize, programStatements_fault (r := r.keeping m) heof
              (by rw [hread]; exact hsize), hread, skipToBoundary_keeping, advance_keeping, hrest]
          · have hnext := (coming_advance _).trans hbehind
            obtain ⟨m'', hactive', hmost', hrest⟩ :=
              ih ((statement limit fuel 0 r).1.join.toList ++ done) m' (hr.of_suffix hnext)
            have hfewer := openings_suffix hnext
            refine ⟨m'', hactive'.trans hactive, by omega, ?_⟩
            rw [programStatements_found heof rfl hsize,
              programStatements_found (r := r.keeping m) heof hread hsize, advance_keeping, hrest]

/-- However a source is nested, the calls that read its expressions, blocks and statements
nest no more deeply than the limit on expressions and two calls for each opening brace;
what is kept nests no more blocks than there are opening braces; and what goes beyond the
limit, and would else be read without a fault, is refused for that. -/
theorem nesting_bounded (limit : Nat) (source : Text) :
    (∀ fuel, ∃ m : Meter, m.most ≤ limit + 2 + 2 * openings (Lexer.tokens source) ∧
      programStatements limit fuel [] ((ofTokens (Lexer.tokens source)).keeping (⟨0, 0⟩ : Meter)) =
        ((programStatements limit fuel [] (ofTokens (Lexer.tokens source))).1,
          (programStatements limit fuel [] (ofTokens (Lexer.tokens source))).2.keeping m)) ∧
    (∀ s ∈ (statementsWithin limit (Lexer.tokens source)).1,
      s.blocks ≤ openings (Lexer.tokens source)) ∧
    ∀ many, callsFor (Lexer.tokens source).length ≤ many →
      (statementsWithin many (Lexer.tokens source)).2 = [] →
      statementsWithin limit (Lexer.tokens source) = statementsWithin many (Lexer.tokens source) ∨
        ∃ d ds, (statementsWithin limit (Lexer.tokens source)).2 = d :: ds ∧ d.code = "P005" := by
  have hlegible := Lexer.legible_tokensFrom (Cursor.ofText source)
  obtain ⟨ts, e, htokens, he, -⟩ := Lexer.tokensFrom_ends (Cursor.ofText source)
  rw [Lexer.tokens]
  rw [htokens] at hlegible ⊢
  have hr := ends_ofTokens ts he
  have hall : openings ((ofTokens (ts ++ [e])).current :: (ofTokens (ts ++ [e])).coming) ≤
      openings (ts ++ [e]) := by
    cases ts with
    | nil =>
        have hsign : e.isSign .leftBrace = false := by
          refine Bool.eq_false_iff.mpr fun hsign => ?_
          rw [Candid.isEof_of_isSign hsign] at he
          exact Bool.noConfusion he
        simp [ofTokens, coming, hsign, openings]
    | cons t ts =>
        rw [List.cons_append, current_ofTokens, coming_ofTokens]
  refine ⟨fun fuel => ?_, fun s hs => ?_, fun many hmany hquiet =>
    statementsWithin_agree limit hlegible hmany hquiet⟩
  · obtain ⟨m, -, hmost, hread⟩ := programStatements_metered limit fuel [] ⟨0, 0⟩ hr
    refine ⟨m, ?_, hread⟩
    rw [openings_cons] at hall
    change m.most ≤ max 0 (0 + (limit + 2) + _) at hmost
    omega
  · obtain ⟨as, last, hattempts, hreads⟩ := programStatements_attempts limit hr
    have hroom := room_ofTokens ts e
    have hcalls : callsFor (ts ++ [e]).length = 8 * ((ts ++ [e]).length + 4) := rfl
    have hread := hreads (callsFor (ts ++ [e]).length) [] (by omega)
    have hkept : s ∈ as.filterMap Attempt.kept := by
      rw [statementsWithin, hread] at hs
      exact hs
    exact Nat.le_trans (hattempts.kept_blocks hr s hkept) hall

end Parser

end Scriptlet
