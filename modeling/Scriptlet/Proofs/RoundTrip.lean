/-
Reading back what was laid out.  The layout of a program that was read without a
fault is read as the same program, but for the string literals that quoting
changes and for the calls of members, which become calls of methods.
-/
import Scriptlet.Proofs.Nesting
import Scriptlet.Proofs.ReadingTrees

namespace Scriptlet

namespace Layout

open Lexer

theorem programText_toList {ss : List Stmt} (file : String) (h : StmtsLegible ss) (hne : ss ≠ []) :
    (programText ⟨file, ss⟩).toList = charsOf (programPieces ss) ++ ['\n'] := by
  obtain ⟨s, ss, rfl⟩ := List.exists_cons_of_ne_nil hne
  exact linesText_eq_charsOf s ss h

theorem phrase_program {ss : List Stmt} (h : StmtsLegible ss) (hne : ss ≠ []) :
    ∃ p v, Row p (programPieces ss) v ∧ v.closes = true := by
  obtain ⟨s, ss, rfl⟩ := List.exists_cons_of_ne_nil hne
  obtain ⟨w, v, -, hcloses, hrow⟩ := phrase_programPieces s ss h
  exact ⟨_, v, hrow, hcloses⟩

theorem programPieces_eq_nil_iff {ss : List Stmt} (h : StmtsLegible ss) :
    programPieces ss = [] ↔ ss = [] := by
  constructor
  · intro hnil
    by_contra hne
    obtain ⟨p, v, hrow, -⟩ := phrase_program h hne
    obtain ⟨-, tail, htail⟩ := Row.exists_tail hrow
    rw [hnil] at htail
    exact List.cons_ne_nil _ _ htail.symm
  · rintro rfl
    rfl

theorem programText_eq_nil_iff {ss : List Stmt} (file : String) (h : StmtsLegible ss) :
    (programText ⟨file, ss⟩).toList = [] ↔ ss = [] := by
  constructor
  · intro hnil
    by_contra hne
    rw [programText_toList file h hne] at hnil
    exact absurd (List.append_eq_nil_iff.mp hnil).2 (List.cons_ne_nil _ _)
  · rintro rfl
    rfl

/-- Two legible programs have the same layout just where they have the same words. -/
theorem programText_eq_iff {ss rs : List Stmt} (file file' : String) (hss : StmtsLegible ss)
    (hrs : StmtsLegible rs) :
    programText ⟨file, ss⟩ = programText ⟨file', rs⟩ ↔ programPieces ss = programPieces rs := by
  by_cases hs : ss = []
  · rw [← String.toList_inj]
    subst hs
    constructor
    · intro heq
      rw [(programText_eq_nil_iff file' hrs).mp heq.symm]
    · intro heq
      rw [(programPieces_eq_nil_iff hrs).mp heq.symm]
      rfl
  by_cases hr : rs = []
  · rw [← String.toList_inj]
    subst hr
    constructor
    · intro heq
      exact absurd ((programText_eq_nil_iff file hss).mp heq) hs
    · intro heq
      exact absurd ((programPieces_eq_nil_iff hss).mp heq) hs
  obtain ⟨p, v, hrow, hv⟩ := phrase_program hss hs
  obtain ⟨q, w, hrow', hw⟩ := phrase_program hrs hr
  rw [← String.toList_inj, programText_toList file hss hs, programText_toList file' hrs hr]
  constructor
  · intro heq
    exact row_eq_of_charsOf_eq hrow hrow' hv hw (List.append_cancel_right heq)
  · intro heq
    rw [heq]

theorem tokens_programText {ss : List Stmt} (file : String) (h : StmtsLegible ss) (hne : ss ≠ []) :
    ∃ (ts : List Token) (final : Token),
      Lexer.tokens (Text.ofString (programText ⟨file, ss⟩)) = ts ++ [final] ∧
      Laid reread 1 (programPieces ss) ts ∧ final.isEof = true ∧
      final.position.line ≠ 1 + linesIn (programPieces ss) := by
  obtain ⟨p, v, hrow, hv⟩ := phrase_program h hne
  obtain ⟨ts, final, htokens, hlaid, hfinal, hline⟩ := tokensFrom_row hrow hv .start
  refine ⟨ts, final, ?_, hlaid, hfinal, ?_⟩
  · rw [← htokens, Lexer.tokens, Cursor.ofText, Text.chars_ofString, programText_toList file h hne]
    rfl
  · rw [hline]
    exact Nat.succ_ne_self _

def Word.token (line : Nat) : Word → Token
  | .sign s => ⟨.sign s, "", ⟨line, 0⟩⟩
  | .keyword k => ⟨.keyword k, "", ⟨line, 0⟩⟩
  | .name n => ⟨.name false, n, ⟨line, 0⟩⟩
  | .int value => ⟨.int value, "", ⟨line, 0⟩⟩
  | .float value => ⟨.float value, "", ⟨line, 0⟩⟩
  | .str value => ⟨.str, value, ⟨line, 0⟩⟩

/-- All words can be read as they are. -/
theorem exists_laid (line : Nat) (ps : List Piece) : ∃ ts, Laid id line ps ts := by
  induction ps generalizing line with
  | nil => exact ⟨[], trivial⟩
  | cons p ps ih =>
      obtain ⟨ts, hts⟩ := ih (line + p.gap.lines)
      refine ⟨p.word.token (line + p.gap.lines) :: ts, ?_, ?_, hts⟩
      · cases p.word with
        | name n => exact ⟨rfl, rfl⟩
        | str s => exact ⟨rfl, rfl⟩
        | _ => rfl
      · cases p.word <;> rfl

/-- Changing the texts of the words is reading them otherwise. -/
theorem laid_retold_iff {f g : String → String} {line : Nat} {ps : List Piece}
    {ts : List Token} :
    Laid f line (ps.map (Piece.retold g)) ts ↔ Laid (f ∘ g) line ps ts := by
  induction ps generalizing line ts with
  | nil => rw [List.map_nil, laid_nil_iff, laid_nil_iff]
  | cons p ps ih =>
      rw [List.map_cons, laid_cons_iff, laid_cons_iff]
      obtain ⟨g, w⟩ := p
      cases w <;> simp only [Piece.retold, Word.retold, ih] <;> rfl

theorem retold_id (ps : List Piece) : ps.map (Piece.retold id) = ps := by
  have hsame : ∀ p : Piece, p.retold id = p := by
    rintro ⟨g, w⟩
    cases w <;> rfl
  rw [List.map_congr_left fun p _ => hsame p, List.map_id']

theorem programPieces_seen_id (joins : Bool) (ss : List Stmt) :
    programPieces (stmtsSeen ⟨id, joins⟩ ss) = programPieces ss := by
  rw [programPieces_seen, retold_id]

/-- Two legible programs have the same words just where they are seen alike, the
call of a member counting as the call of a method. -/
theorem programPieces_eq_iff {ss rs : List Stmt} (hss : StmtsLegible ss) (hrs : StmtsLegible rs) :
    programPieces ss = programPieces rs ↔ stmtsSeen .joined ss = stmtsSeen .joined rs := by
  constructor
  · intro heq
    by_cases hs : ss = []
    · have hr := programPieces_eq_nil_iff hrs
      rw [← heq, programPieces_eq_nil_iff hss] at hr
      rw [hs, hr.mp hs]
    have hr : rs ≠ [] := by
      intro hr
      rw [(programPieces_eq_nil_iff hrs).mpr hr, programPieces_eq_nil_iff hss] at heq
      exact hs heq
    obtain ⟨ts, hlaid⟩ := exists_laid 0 (programPieces ss)
    have hlaid' := hlaid
    rw [heq] at hlaid'
    have hline : (Token.eofAt ⟨1 + linesIn (programPieces ss), 0⟩).position.line ≠
        0 + linesIn (programPieces ss) := by
      simp [Token.eofAt]
    obtain ⟨ss', hseen, hread⟩ :=
      Parser.statementsWithin_laid hss hs hlaid rfl hline (Nat.le_refl _)
    rw [heq] at hline
    obtain ⟨rs', hseen', hread'⟩ :=
      Parser.statementsWithin_laid hrs hr hlaid' rfl hline (Nat.le_refl _)
    rw [heq, hread'] at hread
    obtain ⟨rfl, -⟩ := Prod.mk.inj hread
    exact hseen.symm.trans hseen'
  · intro heq
    rw [← programPieces_seen_id true ss, ← programPieces_seen_id true rs]
    exact congrArg programPieces heq

end Layout

namespace Parser

open Layout

theorem parse_empty : parse (Text.ofString "") = ([], []) := by
  have hchars : Cursor.ofText (Text.ofString "") = ⟨.start, []⟩ := by
    rw [Cursor.ofText, Text.chars_ofString]
    rfl
  have htokens : Lexer.tokens (Text.ofString "") = [Token.eofAt .start] := by
    rw [Lexer.tokens, hchars]
    exact Lexer.tokensFrom_end rfl rfl
  rw [parse, htokens]
  rfl

def FirstTooDeep (found : List Stmt × List Diagnostic) : Prop :=
  ∃ d ds, found.2 = d :: ds ∧ d.code = "P005"

/-- What reading the layout of a legible program yields. -/
theorem parse_programText {ss : List Stmt} (file : String) (h : StmtsLegible ss) :
    (∃ again, parse (Text.ofString (programText ⟨file, ss⟩)) = (again, []) ∧
      stmtsSeen .plain again = stmtsSeen ⟨Lexer.reread, true⟩ ss) ∨
    FirstTooDeep (parse (Text.ofString (programText ⟨file, ss⟩))) := by
  by_cases hne : ss = []
  · subst hne
    exact Or.inl ⟨[], parse_empty, rfl⟩
  obtain ⟨ts, final, htokens, hlaid, hfinal, hline⟩ := tokens_programText file h hne
  obtain ⟨again, hseen, hread⟩ :=
    statementsWithin_laid h hne hlaid hfinal hline (Nat.le_refl _)
  have hlegible := Lexer.legible_tokensFrom
    (Cursor.ofText (Text.ofString (programText ⟨file, ss⟩)))
  have hcalls : callsFor (ts ++ [final]).length ≤ callsFor (ts.length + 1) := by
    rw [List.length_append]
    exact Nat.le_refl _
  rw [Lexer.tokens] at htokens
  rw [htokens] at hlegible
  have hagree := statementsWithin_agree maxNesting hlegible hcalls (by rw [hread])
  rw [hread] at hagree
  rw [parse, Lexer.tokens, htokens]
  rcases hagree with heq | hdeep
  · exact Or.inl ⟨again, heq, hseen⟩
  · exact Or.inr hdeep

/-- Looking at a program with its texts changed and member calls joined shows nothing
new where no text changes and, unless they are joined anyway, there are no such
calls. -/
theorem seen_of_kept {ss : List Stmt} (f : String → String) (joins : Bool)
    (htexts : ∀ p s, Expr.str p s ∈ stmtsParts ss → f s = s)
    (hcalls : joins = false → ∀ p q object field args,
      Expr.call p (.member q object field) args ∉ stmtsParts ss) :
    stmtsSeen ⟨f, true⟩ ss = stmtsSeen ⟨id, joins⟩ ss := by
  rw [stmtsSeen_eq_iff]
  intro d hd
  cases d with
  | str p s => exact htexts p s hd
  | call p callee args =>
      intro hmember
      cases callee with
      | member q object field =>
          by_contra hjoins
          exact hcalls (Bool.eq_false_of_not_eq_true hjoins) p q object field args hd
      | _ => exact absurd hmember Bool.noConfusion
  | _ => trivial

/-- Rereading the words of a program changes none just where it changes no string
literal. -/
theorem retold_eq_iff {ss : List Stmt} (h : StmtsLegible ss) :
    (programPieces ss).map (Piece.retold Lexer.reread) = programPieces ss ↔
      ∀ p s, Expr.str p s ∈ stmtsParts ss → ∀ c ∈ s.toList, Text.isPlain c = true := by
  constructor
  · intro heq p s hs
    have hne : ss ≠ [] := by
      rintro rfl
      exact List.not_mem_nil hs
    obtain ⟨ts, hlaid⟩ := exists_laid 0 (programPieces ss)
    have hlaid' := hlaid
    rw [← heq, laid_retold_iff] at hlaid'
    have hline : (Token.eofAt ⟨1 + linesIn (programPieces ss), 0⟩).position.line ≠
        0 + linesIn (programPieces ss) := by
      simp [Token.eofAt]
    -- The same tokens are read with and without the change.
    obtain ⟨rs, hseen, hread⟩ := statementsWithin_laid h hne hlaid rfl hline (Nat.le_refl _)
    obtain ⟨rs', hseen', hread'⟩ := statementsWithin_laid h hne hlaid' rfl hline (Nat.le_refl _)
    rw [hread'] at hread
    obtain ⟨rfl, -⟩ := Prod.mk.inj hread
    have hsame : stmtsSeen ⟨Lexer.reread, true⟩ ss = stmtsSeen ⟨id, true⟩ ss :=
      hseen'.symm.trans hseen
    rw [stmtsSeen_eq_iff] at hsame
    exact (Lexer.reread_eq_iff s).mp (hsame _ hs)
  · intro hplain
    have htexts : ∀ p s, Expr.str p s ∈ stmtsParts ss → Lexer.reread s = s := fun p s hs =>
      (Lexer.reread_eq_iff s).mpr (hplain p s hs)
    have hsame := seen_of_kept Lexer.reread true htexts fun h => Bool.noConfusion h
    rw [← programPieces_seen ⟨Lexer.reread, true⟩ ss, hsame, programPieces_seen_id]

/-- A program that was read without a fault, whose string literals hold only
printable characters, line ends, tabs and carriage returns and which calls no
member but as a method, is read from its layout as the same program, unless its
expressions nest too deeply for that. -/
theorem parse_programText_of_plain (source : Text) (file : String) {ss : List Stmt}
    (hparse : parse source = (ss, []))
    (hplain : ∀ p s, Expr.str p s ∈ stmtsParts ss → ∀ c ∈ s.toList,
      Text.isPrintable c = true ∨ c = '\n' ∨ c = '\t' ∨ c = '\r')
    (hcalls : ∀ p q object field args,
      Expr.call p (.member q object field) args ∉ stmtsParts ss) :
    FirstTooDeep (parse (Text.ofString (programText ⟨file, ss⟩))) ∨
      ∃ again, parse (Text.ofString (programText ⟨file, ss⟩)) = (again, []) ∧
        stmtsSeen .plain again = stmtsSeen .plain ss := by
  have hlegible : StmtsLegible ss := by
    have h := parse_legible source
    rw [hparse] at h
    exact h
  have hseen : stmtsSeen ⟨Lexer.reread, true⟩ ss = stmtsSeen .plain ss := by
    refine seen_of_kept Lexer.reread false ?_ fun _ => hcalls
    intro p s hs
    rw [Lexer.reread_eq_iff]
    intro c hc
    have h := hplain p s hs c hc
    simp only [Text.isPlain, Bool.or_eq_true, beq_iff_eq, or_assoc]
    exact h
  rcases parse_programText file hlegible with ⟨again, hread, hagain⟩ | hdeep
  · exact Or.inr ⟨again, hread, hagain.trans hseen⟩
  · exact Or.inl hdeep

set_option maxRecDepth 10000 in
theorem parse_programText_of_plain_sum :
    ∃ ss, parse (Text.ofString "x = a.b(\"c\\n\") * (1 + 2)") = (ss, []) ∧
      (FirstTooDeep (parse (Text.ofString (programText ⟨"", ss⟩))) ∨
        ∃ again, parse (Text.ofString (programText ⟨"", ss⟩)) = (again, []) ∧
          stmtsSeen .plain again = stmtsSeen .plain ss) := by
  have hparse : parse (Text.ofString "x = a.b(\"c\\n\") * (1 + 2)") =
      ([.assign ⟨1, 3⟩ ⟨"x", ⟨1, 1⟩⟩ (.binary ⟨1, 16⟩ .mul
        (.method ⟨1, 6⟩ (.name ⟨"a", ⟨1, 5⟩⟩) ⟨"b", ⟨1, 7⟩⟩ [.str ⟨1, 9⟩ "c\n"])
        (.binary ⟨1, 21⟩ .add (.int ⟨1, 19⟩ "1" 1) (.int ⟨1, 23⟩ "2" 2)))], []) := by
    rw [parse, Lexer.tokens, Cursor.ofText, Text.chars_ofString]
    cbv
  refine ⟨_, hparse, parse_programText_of_plain _ "" hparse ?_ ?_⟩
  · intro p s hs
    simp [stmtsParts, Stmt.parts, Expr.parts, exprsParts] at hs
    obtain ⟨-, rfl⟩ := hs
    intro c hc
    obtain rfl | rfl : c = 'c' ∨ c = '\n' := by simpa using hc
    · exact .inl (by decide)
    · exact .inr (.inl rfl)
  · intro p q object field args hcall
    simp [stmtsParts, Stmt.parts, Expr.parts, exprsParts] at hcall

/-- Laying out a program that was read without a fault, reading that and laying it
out again gives the same text just where every string literal holds only printable
characters, line ends, tabs and carriage returns.  Those are the literals that are
read as they were quoted. -/
theorem programText_again_iff (source : Text) (file : String) {ss : List Stmt}
    (hparse : parse source = (ss, [])) :
    (FirstTooDeep (parse (Text.ofString (programText ⟨file, ss⟩))) ∨
      ∃ again, parse (Text.ofString (programText ⟨file, ss⟩)) = (again, []) ∧
        (programText ⟨file, again⟩ = programText ⟨file, ss⟩ ↔
          ∀ p s, Expr.str p s ∈ stmtsParts ss → ∀ c ∈ s.toList, Text.isPlain c = true)) ∧
    ∀ p s, Expr.str p s ∈ stmtsParts ss → ∀ q rest,
      ((Lexer.tokenAt ⟨q, (Text.quoteString s).toList ++ rest⟩).1.lexeme = s ↔
        ∀ c ∈ s.toList, Text.isPlain c = true) := by
  have hlegible : StmtsLegible ss := by
    have h := parse_legible source
    rw [hparse] at h
    exact h
  refine ⟨?_, ?_⟩
  · rcases parse_programText file hlegible with ⟨again, hread, hagain⟩ | hdeep
    · have hlegible' : StmtsLegible again := by
        have h := parse_legible (Text.ofString (programText ⟨file, ss⟩))
        rw [hread] at h
        exact h
      refine Or.inr ⟨again, hread, ?_⟩
      have hwords : programPieces again = (programPieces ss).map (Piece.retold Lexer.reread) := by
        rw [← programPieces_seen_id false again]
        exact (congrArg programPieces hagain).trans (programPieces_seen _ ss)
      rw [programText_eq_iff file file hlegible' hlegible, hwords, retold_eq_iff hlegible]
    · exact Or.inl hdeep
  · intro p s _ q rest
    obtain ⟨after, htoken, -⟩ := Lexer.tokenAt_quoteString s q rest
    rw [htoken]
    exact Lexer.reread_eq_iff s

set_option maxRecDepth 10000 in
/-- A control character in a string literal is written as an escape that is read as
other characters. -/
theorem programText_again_control :
    ∃ ss again, parse (Text.ofString "x = \"a\x01b\"") = (ss, []) ∧
      parse (Text.ofString (programText ⟨"", ss⟩)) = (again, []) ∧
      programText ⟨"", again⟩ ≠ programText ⟨"", ss⟩ := by
  have hparse : parse (Text.ofString "x = \"a\x01b\"") =
      ([.assign ⟨1, 3⟩ ⟨"x", ⟨1, 1⟩⟩ (.str ⟨1, 5⟩ "a\x01b")], []) := by
    rw [parse, Lexer.tokens, Cursor.ofText, Text.chars_ofString]
    cbv
  have htext : programText ⟨"", [.assign ⟨1, 3⟩ ⟨"x", ⟨1, 1⟩⟩ (.str ⟨1, 5⟩ "a\x01b")]⟩ =
      "x = \"a\\x01b\"\n" := by
    cbv
  have hagain : (parse (Text.ofString "x = \"a\\x01b\"\n")).2 = [] := by
    rw [parse, Lexer.tokens, Cursor.ofText, Text.chars_ofString]
    cbv
  obtain ⟨hdeep | ⟨again, hread, hiff⟩, -⟩ := programText_again_iff _ "" hparse
  · obtain ⟨d, ds, hds, -⟩ := hdeep
    rw [htext, hagain] at hds
    exact absurd hds.symm (List.cons_ne_nil d ds)
  · refine ⟨_, again, hparse, hread, ?_⟩
    intro heq
    have hplain := hiff.mp heq ⟨1, 5⟩ "a\x01b" List.mem_cons_self '\x01' (by decide)
    exact absurd hplain (by decide)

/-- Two programs that were read without a fault have the same layout just where they
are seen alike, the call of a member counting as the call of a method; where neither
calls a member but as a method, just where they are the same program. -/
theorem programText_eq_iff_seen (source source' : Text) (file file' : String)
    {ss rs : List Stmt} (hparse : parse source = (ss, [])) (hparse' : parse source' = (rs, [])) :
    (programText ⟨file, ss⟩ = programText ⟨file', rs⟩ ↔
      stmtsSeen .joined ss = stmtsSeen .joined rs) ∧
    ((∀ p q object field args, Expr.call p (.member q object field) args ∉ stmtsParts ss) →
      (∀ p q object field args, Expr.call p (.member q object field) args ∉ stmtsParts rs) →
      (programText ⟨file, ss⟩ = programText ⟨file', rs⟩ ↔
        stmtsSeen .plain ss = stmtsSeen .plain rs)) := by
  have hss : StmtsLegible ss := by
    have h := parse_legible source
    rw [hparse] at h
    exact h
  have hrs : StmtsLegible rs := by
    have h := parse_legible source'
    rw [hparse'] at h
    exact h
  have hjoined : programText ⟨file, ss⟩ = programText ⟨file', rs⟩ ↔
      stmtsSeen .joined ss = stmtsSeen .joined rs :=
    (programText_eq_iff file file' hss hrs).trans (programPieces_eq_iff hss hrs)
  have hplain : ∀ {ts : List Stmt},
      (∀ p q object field args, Expr.call p (.member q object field) args ∉ stmtsParts ts) →
      stmtsSeen .joined ts = stmtsSeen .plain ts := fun hcalls =>
    seen_of_kept id false (fun _ _ _ => rfl) fun _ => hcalls
  refine ⟨hjoined, ?_⟩
  intro hcalls hcalls'
  rw [hjoined, hplain hcalls, hplain hcalls']

set_option maxRecDepth 10000 in
/-- The call of a member and the call of a method have the same layout. -/
theorem programText_member_call :
    ∃ ss rs, parse (Text.ofString "(a.b)(1)") = (ss, []) ∧
      parse (Text.ofString "a.b(1)") = (rs, []) ∧
      programText ⟨"", ss⟩ = programText ⟨"", rs⟩ ∧ stmtsSeen .plain ss ≠ stmtsSeen .plain rs := by
  have hparse : parse (Text.ofString "(a.b)(1)") =
      ([.expr ⟨1, 1⟩ "(" (.call ⟨1, 6⟩ (.member ⟨1, 3⟩ (.name ⟨"a", ⟨1, 2⟩⟩) ⟨"b", ⟨1, 4⟩⟩)
        [.int ⟨1, 7⟩ "1" 1])], []) := by
    rw [parse, Lexer.tokens, Cursor.ofText, Text.chars_ofString]
    cbv
  have hparse' : parse (Text.ofString "a.b(1)") =
      ([.expr ⟨1, 1⟩ "a" (.method ⟨1, 2⟩ (.name ⟨"a", ⟨1, 1⟩⟩) ⟨"b", ⟨1, 3⟩⟩
        [.int ⟨1, 5⟩ "1" 1])], []) := by
    rw [parse, Lexer.tokens, Cursor.ofText, Text.chars_ofString]
    cbv
  refine ⟨_, _, hparse, hparse', ?_, ?_⟩
  · exact (programText_eq_iff_seen _ _ "" "" hparse hparse').1.mpr rfl
  · simp [stmtsSeen, Stmt.seen, Expr.seen, View.call, View.plain]

end Parser

end Scriptlet
