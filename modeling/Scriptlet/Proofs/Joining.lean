/-
Sources joined at a line end.  A line end ends whatever token, blank or closed
comment comes before it, so two sources with a line end between them have the
tokens of both, and the statements of both unless the fields of a class seem to
follow its name.
-/
import Scriptlet.Proofs.Accounting
import Scriptlet.Proofs.Relabelled
import Scriptlet.Proofs.SeamSteps
import Scriptlet.Proofs.Sited

namespace Scriptlet

theorem Position.line_after_line (p : Position) : (p.after '\n').line = p.line + 1 := rfl

theorem Position.line_le_afterAll (p : Position) (cs : List Char) :
    p.line ≤ (p.afterAll cs).line := by
  induction cs generalizing p with
  | nil => exact Nat.le_refl _
  | cons c cs ih =>
      refine Nat.le_trans ?_ (ih (p.after c))
      unfold Position.after
      split
      · exact Nat.le_succ _
      · exact Nat.le_refl _

theorem Position.after_below (lines : Nat) (p : Position) (c : Char) :
    (p.below lines).after c = (p.after c).below lines := by
  unfold Position.after
  split
  · exact congrArg (Position.mk · 1) (Nat.add_right_comm _ _ _)
  · rfl

theorem Position.afterAll_below (lines : Nat) (p : Position) (cs : List Char) :
    (p.below lines).afterAll cs = (p.afterAll cs).below lines := by
  induction cs generalizing p with
  | nil => rfl
  | cons c cs ih => rw [Position.afterAll_cons, Position.afterAll_cons, after_below, ih]

def Cursor.withLine (cursor : Cursor) (line : List Char) : Cursor :=
  ⟨cursor.position, cursor.rest ++ '\n' :: line⟩

/-- Where the next line begins if nothing else comes behind what is left. -/
def Cursor.nextLine (cursor : Cursor) : Position :=
  (cursor.position.afterAll cursor.rest).after '\n'

/-- The cursor some lines further down. -/
def Cursor.below (lines : Nat) (cursor : Cursor) : Cursor :=
  ⟨cursor.position.below lines, cursor.rest⟩

namespace Lexer

theorem takeWhile_withLine (keep : Char → Bool) (h : keep '\n' = false) (cs line : List Char) :
    (cs ++ '\n' :: line).takeWhile keep = cs.takeWhile keep ∧
      (cs ++ '\n' :: line).dropWhile keep = cs.dropWhile keep ++ '\n' :: line := by
  induction cs with
  | nil =>
      exact ⟨List.takeWhile_cons_of_neg (by simp [h]), List.dropWhile_cons_of_neg (by simp [h])⟩
  | cons c cs ih =>
      by_cases hc : keep c = true
      · rw [List.cons_append, List.takeWhile_cons_of_pos hc, List.takeWhile_cons_of_pos hc,
          List.dropWhile_cons_of_pos hc, List.dropWhile_cons_of_pos hc, ih.1, ih.2]
        exact ⟨rfl, rfl⟩
      · rw [List.cons_append, List.takeWhile_cons_of_neg hc, List.takeWhile_cons_of_neg hc,
          List.dropWhile_cons_of_neg hc, List.dropWhile_cons_of_neg hc]
        exact ⟨rfl, rfl⟩

theorem numberToken_withLine (p : Position) (cs line : List Char) :
    numberToken p (cs ++ '\n' :: line) =
      ((numberToken p cs).1, (numberToken p cs).2.withLine line) := by
  obtain ⟨htake, hdrop⟩ := takeWhile_withLine isDigit rfl cs line
  unfold numberToken
  rw [htake, hdrop]
  dsimp only
  rcases cs.dropWhile isDigit with _ | ⟨c, rest⟩
  · rfl
  by_cases hc : c = '.'
  · subst hc
    cases rest with
    | nil => rfl
    | cons d rest =>
        obtain ⟨htake, hdrop⟩ := takeWhile_withLine isDigit rfl (d :: rest) line
        rw [List.cons_append] at htake hdrop
        simp only [List.cons_append, htake, hdrop]
        split <;> rfl
  · have hpoint : ∀ (d : Char) (tail : List Char), c :: rest = '.' :: d :: tail → False :=
      fun d tail h => hc (List.cons.inj h).1
    have hpoint' : ∀ (d : Char) (tail : List Char), c :: (rest ++ '\n' :: line) = '.' :: d :: tail →
      False := fun d tail h => hc (List.cons.inj h).1
    simp only [List.cons_append]
    rfl

theorem twoSign?_line (c : Char) : twoSign? c '\n' = none := twoSign?_eq_none (by decide)

theorem signToken_withLine (p : Position) (c : Char) (cs line : List Char) :
    signToken p c (cs ++ '\n' :: line) =
      ((signToken p c cs).1, (signToken p c cs).2.withLine line) := by
  cases cs with
  | nil =>
      simp only [signToken, List.nil_append, twoSign?_line]
      cases oneSign? c <;> rfl
  | cons d cs =>
      simp only [signToken, List.cons_append]
      cases twoSign? c d with
      | some s => rfl
      | none => cases oneSign? c <;> rfl

/-- A string literal that is closed ends at its quote. -/
theorem stringToken_withLine (p : Position) (cs line : List Char)
    (h : (stringToken p cs).1.isIllegal = false) :
    stringToken p (cs ++ '\n' :: line) =
      ((stringToken p cs).1, (stringToken p cs).2.withLine line) := by
  obtain ⟨body, value, tail, rest, closed, rfl, hbody, hends, hread⟩ :=
    exists_stringBody [] (p.after '"') cs
  obtain ⟨rfl, rfl⟩ | ⟨rfl, -⟩ := hends
  · have hread' : readString [] (p.after '"') (body ++ (['"'] ++ rest) ++ '\n' :: line) =
        ⟨value, true, ⟨(p.after '"').afterAll (body ++ ['"']), rest ++ '\n' :: line⟩⟩ := by
      rw [List.append_assoc, hbody.readString, List.append_assoc, List.singleton_append,
        readString, if_pos rfl, Position.afterAll_append]
      · simp
      · simp
      · simp
    rw [stringToken, stringToken, hread, hread']
    rfl
  · rw [stringToken, hread] at h
    cases h

theorem tokenAt_string (p : Position) (cs : List Char) :
    tokenAt ⟨p, '"' :: cs⟩ = stringToken p cs := rfl

/-- A string literal that is not closed goes on to the end of what is read. -/
theorem stringToken_ends (p : Position) (cs : List Char) :
    (stringToken p cs).1.isIllegal = false ∨ (stringToken p cs).2.rest = [] ∨
      (stringToken p cs).2.rest.head? = some '\x00' := by
  obtain ⟨body, value, tail, rest, closed, rfl, -, hends, hread⟩ :=
    exists_stringBody [] (p.after '"') cs
  rw [stringToken, hread]
  obtain ⟨rfl, -⟩ | ⟨-, -, hends⟩ := hends
  · exact Or.inl rfl
  · exact Or.inr hends

theorem tokenAt_withLine {c : Char} (hc : c ≠ '\x00') (p : Position) (cs line : List Char)
    (h : c = '"' → (tokenAt ⟨p, c :: cs⟩).1.isIllegal = false) :
    tokenAt ⟨p, c :: cs ++ '\n' :: line⟩ =
      ((tokenAt ⟨p, c :: cs⟩).1, (tokenAt ⟨p, c :: cs⟩).2.withLine line) := by
  rw [List.cons_append]
  simp only [tokenAt, if_neg hc] at h ⊢
  by_cases hquote : c = '"'
  · rw [if_pos hquote] at h ⊢
    rw [if_pos hquote]
    exact stringToken_withLine p cs line (h hquote)
  rw [if_neg hquote, if_neg hquote]
  by_cases hletter : isLetter c = true
  · obtain ⟨htake, hdrop⟩ := takeWhile_withLine isNameChar rfl (c :: cs) line
    rw [List.cons_append] at htake hdrop
    rw [if_pos hletter, if_pos hletter, htake, hdrop]
    rfl
  rw [if_neg hletter, if_neg hletter]
  by_cases hdigit : isDigit c = true
  · rw [if_pos hdigit, if_pos hdigit]
    exact numberToken_withLine p (c :: cs) line
  · rw [if_neg hdigit, if_neg hdigit]
    exact signToken_withLine p c cs line

/-- What can be passed over before a token ends before the token does. -/
theorem skip_withLine {p : Position} {c : Char} {cs : List Char}
    (h : skip .blanks p (c :: cs) = ⟨p, c :: cs⟩) (line : List Char) :
    skip .blanks p (c :: cs ++ '\n' :: line) = ⟨p, c :: cs ++ '\n' :: line⟩ := by
  have hlong : ∀ {q : Position} {mode : Skipping} {tail : List Char},
      tail.length ≤ cs.length → skip mode q tail ≠ ⟨p, c :: cs⟩ := by
    intro q mode tail hlen heq
    have hle := skip_rest_length_le mode q tail
    rw [heq, List.length_cons] at hle
    omega
  refine skip_stops ?_ ?_ p
  · refine Bool.eq_false_iff.mpr fun hspace => ?_
    rw [skip_space hspace] at h
    exact hlong (Nat.le_refl _) h
  · rintro rfl d hd
    cases cs with
    | nil =>
        obtain rfl := Option.some.inj hd
        decide
    | cons e cs =>
        obtain rfl := Option.some.inj hd
        refine ⟨?_, ?_⟩
        · rintro rfl
          rw [skip] at h
          exact hlong (Nat.le_succ _) h
        · rintro rfl
          rw [skip] at h
          exact hlong (Nat.le_succ _) h

/-- The next token is the same with a line end behind what is left. -/
theorem next_withLine (cursor : Cursor) (line : List Char) (h : (next cursor).1.isEof = false)
    (hlegal : (next cursor).1.isIllegal = false ∨
      (∃ c, (next cursor).2.rest.head? = some c ∧ c ≠ '\x00')) :
    next (cursor.withLine line) = ((next cursor).1, (next cursor).2.withLine line) := by
  obtain ⟨p, cs⟩ := cursor
  obtain ⟨mode, gap, rest, hcs, hfiller, hclean, hstops, hskip⟩ := skip_filler p cs
  obtain rfl : cs = gap ++ rest := hcs
  have hnext := next_of_skip hskip
  have hsome : ¬ (rest = [] ∨ rest.head? = some '\x00') := by
    intro hend
    rw [hnext, tokenAt_eof hend] at h
    cases h
  obtain ⟨c, cs, rfl⟩ := List.exists_cons_of_ne_nil (not_or.mp hsome).1
  have hc : c ≠ '\x00' := by
    rintro rfl
    exact hsome (Or.inr rfl)
  obtain rfl := hstops c rfl hc
  have hstill := (hfiller.skip_append hclean (fun h => by cases h) p).symm.trans hskip
  have hskip' : skip .blanks p (gap ++ (c :: cs ++ '\n' :: line)) =
      ⟨p.afterAll gap, c :: cs ++ '\n' :: line⟩ :=
    (hfiller.skip_append hclean (fun h => by cases h) p).trans (skip_withLine hstill line)
  rw [← List.append_assoc] at hskip'
  have hnext' : next (Cursor.withLine ⟨p, gap ++ c :: cs⟩ line) =
      tokenAt ⟨p.afterAll gap, c :: cs ++ '\n' :: line⟩ := next_of_skip hskip'
  rw [hnext] at hlegal ⊢
  rw [hnext']
  refine tokenAt_withLine hc _ cs line ?_
  rintro rfl
  refine hlegal.elim id fun ⟨d, hd, hne⟩ => (stringToken_ends _ cs).resolve_right fun hends => ?_
  rcases hends with hnone | hhead
  · rw [tokenAt_string, hnone] at hd
    cases hd
  · rw [tokenAt_string, hhead] at hd
    exact hne (Option.some.inj hd).symm

/-- What is read to its end has no NUL character before it. -/
theorem ReachesEnd.head_ne {cursor : Cursor} (h : ReachesEnd cursor) :
    cursor.rest.head? ≠ some '\x00' := by
  intro hhead
  cases h with
  | ends _ hclean _ => exact hclean (List.mem_of_head? hhead)
  | goesOn hno _ =>
      obtain ⟨p, cs⟩ := cursor
      obtain ⟨tail, rfl⟩ := List.head?_eq_some_iff.mp hhead
      cases hno

/-- A source that is read to its end, with a last token that can be read, has its
tokens before another line as well, all of them on earlier lines. -/
theorem tokensFrom_withLine {cursor : Cursor} (h : ReachesEnd cursor) (line : List Char)
    (hlast : ∀ (us : List Token) (t e : Token), tokensFrom cursor = us ++ [t, e] →
      t.isIllegal = false) :
    ∃ (us : List Token) (e : Token), tokensFrom cursor = us ++ [e] ∧ e.isEof = true ∧
      tokensFrom (cursor.withLine line) = us ++ tokensFrom ⟨cursor.nextLine, line⟩ ∧
      ∀ t ∈ us, t.isEof = false ∧ t.position.line < cursor.nextLine.line := by
  induction h with
  | @ends p mode gap hgap hclean hclosed =>
      have heof := hgap.next_eof hclean p
      refine ⟨[], _, tokensFrom_end (Prod.mk.eta).symm heof, heof, ?_, fun t ht => by cases ht⟩
      exact tokensFrom_congr (congrArg tokenAt (hgap.skip_line hclosed hclean p line))
  | @goesOn cursor hno hrest ih =>
      obtain ⟨p, cs⟩ := cursor
      rcases next_cases p cs with ⟨_, gap, rest, -, -, -, -, hnext⟩ |
        ⟨gap, span, rest, rfl, -, -, -, -, hafter, -, hposition, -⟩
      · rw [hnext] at hno
        cases hno
      have htokens := tokensFrom_cons (Prod.mk.eta).symm hno
      rw [htokens] at hlast ⊢
      have hlegal : (next ⟨p, gap ++ (span ++ rest)⟩).1.isIllegal = false ∨
          ∃ c, (next ⟨p, gap ++ (span ++ rest)⟩).2.rest.head? = some c ∧ c ≠ '\x00' := by
        cases hhead : (next ⟨p, gap ++ (span ++ rest)⟩).2.rest.head? with
        | some c =>
            refine Or.inr ⟨c, rfl, ?_⟩
            rintro rfl
            exact hrest.head_ne hhead
        | none =>
            have hnone := List.head?_eq_none_iff.mp hhead
            rw [hafter] at hnone
            obtain rfl : rest = [] := hnone
            refine Or.inl (hlast [] _ (Token.eofAt ((p.afterAll gap).afterAll span)) ?_)
            rw [hafter, tokensFrom_nil]
            rfl
      have hnext := next_withLine ⟨p, gap ++ (span ++ rest)⟩ line hno hlegal
      obtain ⟨us, e, hus, he, hline, hall⟩ :=
        ih fun us t e h => hlast (_ :: us) t e (by rw [h]; rfl)
      have hsame : (next ⟨p, gap ++ (span ++ rest)⟩).2.nextLine =
          Cursor.nextLine ⟨p, gap ++ (span ++ rest)⟩ := by
        rw [hafter]
        simp only [Cursor.nextLine, Position.afterAll_append]
      rw [hsame] at hline hall
      refine ⟨_ :: us, e, by rw [hus]; rfl, he, ?_, ?_⟩
      · rw [tokensFrom_cons hnext hno, hline]
        rfl
      · refine List.forall_mem_cons.mpr ⟨⟨hno, ?_⟩, hall⟩
        rw [hposition, Cursor.nextLine, Position.afterAll_append, Position.line_after_line]
        exact Nat.lt_succ_of_le (Position.line_le_afterAll _ _)

/-- A token and the cursor behind it, some lines further down. -/
def foundBelow (lines : Nat) (found : Token × Cursor) : Token × Cursor :=
  (found.1.below lines, found.2.below lines)

variable (lines : Nat)

theorem skip_below (mode : Skipping) (p : Position) (cs : List Char) :
    skip mode (p.below lines) cs = (skip mode p cs).below lines := by
  fun_induction skip mode p cs with
  | case1 => rfl
  | case2 p cs ih => rw [skip, Position.after_below, Position.after_below, ih]
  | case3 p cs ih => rw [skip, Position.after_below, Position.after_below, ih]
  | case4 p c cs hline hblock hspace ih =>
      rw [skip, if_pos hspace, Position.after_below, ih] <;> assumption
  | case5 p c cs hline hblock hspace =>
      rw [skip, if_neg hspace]
      · rfl
      · assumption
      · assumption
  | case6 p cs ih => rw [skip, if_pos rfl, Position.after_below, ih]
  | case7 p cs hline => rfl
  | case8 p c cs hline hnul ih => rw [skip, if_neg hline, if_neg hnul, Position.after_below, ih]
  | case9 p cs ih => rw [skip, Position.after_below, Position.after_below, ih]
  | case10 p cs hclose => rfl
  | case11 p c cs hclose hnul ih =>
      rw [skip, if_neg hnul, Position.after_below, ih]
      assumption

theorem readString_below (done : List Char) (p : Position) (cs : List Char) :
    readString done (p.below lines) cs =
      ⟨(readString done p cs).value, (readString done p cs).closed,
        (readString done p cs).after.below lines⟩ := by
  fun_induction readString done p cs with
  | case1 => rfl
  | case2 => rfl
  | case3 => rfl
  | case4 done p c cs hnul ih =>
      rw [readString, if_neg hnul, Position.after_below, Position.after_below, ih]
  | case5 => rfl
  | case6 => rfl
  | case7 done p c cs hone htwo hquote hnul ih =>
      rw [readString, if_neg hquote, if_neg hnul, Position.after_below, ih] <;> assumption

theorem wordToken_below (kind : TokenKind) (word : List Char) (p : Position) (rest : List Char) :
    wordToken kind word (p.below lines) rest = foundBelow lines (wordToken kind word p rest) := by
  rw [wordToken, wordToken, Position.afterAll_below]
  rfl

theorem numberToken_below (p : Position) (cs : List Char) :
    numberToken (p.below lines) cs = foundBelow lines (numberToken p cs) := by
  unfold numberToken
  simp only [wordToken_below]
  split
  · split <;> rfl
  · rfl

theorem signToken_below (p : Position) (c : Char) (cs : List Char) :
    signToken (p.below lines) c cs = foundBelow lines (signToken p c cs) := by
  unfold signToken
  simp only [wordToken_below]
  split
  · split <;> rfl
  · split
    · rfl
    · split <;> rfl

theorem tokenAt_below (cursor : Cursor) :
    tokenAt (cursor.below lines) = foundBelow lines (tokenAt cursor) := by
  obtain ⟨p, cs⟩ := cursor
  cases cs with
  | nil => rfl
  | cons c cs =>
      simp only [tokenAt, Cursor.below, wordToken_below, numberToken_below, signToken_below]
      split
      · rfl
      · split
        · rw [stringToken, stringToken, Position.after_below, readString_below]
          rfl
        · split
          · rfl
          · split <;> rfl

theorem next_below (cursor : Cursor) :
    next (cursor.below lines) = foundBelow lines (next cursor) := by
  refine Eq.trans ?_ (tokenAt_below lines _)
  exact congrArg tokenAt (skip_below lines .blanks cursor.position cursor.rest)

/-- The tokens of a source that begins further down stand further down. -/
theorem tokensFrom_below (cursor : Cursor) :
    tokensFrom (cursor.below lines) = (tokensFrom cursor).map (Token.below lines) := by
  induction hlen : cursor.rest.length using Nat.strong_induction_on generalizing cursor with
  | _ n ih =>
      have hnext := next_below lines cursor
      by_cases heof : (next cursor).1.isEof = true
      · rw [tokensFrom_end hnext heof, tokensFrom_end (Prod.mk.eta).symm heof]
        rfl
      · have heof := Bool.eq_false_iff.mpr heof
        have hless := next_rest_length_lt cursor heof
        rw [tokensFrom_cons hnext heof, tokensFrom_cons (Prod.mk.eta).symm heof,
          ih _ (by omega) (next cursor).2 rfl]
        rfl

theorem tokensFrom_eq_cons (cursor : Cursor) :
    ∃ ts, tokensFrom cursor = (next cursor).1 :: ts := by
  by_cases heof : (next cursor).1.isEof = true
  · exact ⟨[], tokensFrom_end (Prod.mk.eta).symm heof⟩
  · exact ⟨_, tokensFrom_cons (Prod.mk.eta).symm (Bool.eq_false_iff.mpr heof)⟩

/-- The tokens of a source are the end of input behind tokens that are not. -/
theorem tokensFrom_ends (cursor : Cursor) :
    ∃ (us : List Token) (e : Token), tokensFrom cursor = us ++ [e] ∧ e.isEof = true ∧
      ∀ t ∈ us, t.isEof = false := by
  fun_induction tokensFrom cursor with
  | case1 cursor t after hnext hend =>
      exact ⟨[], t, rfl, hend, fun _ h => by cases h⟩
  | case2 cursor t after hnext hend _ ih =>
      obtain ⟨us, e, hus, he, hall⟩ := ih
      refine ⟨t :: us, e, by rw [hus]; rfl, he, List.forall_mem_cons.mpr ⟨?_, hall⟩⟩
      exact Bool.eq_false_iff.mpr hend

end Lexer

theorem Text.chars_line (t : Text) :
    (Text.ofString "\n" ++ t).chars.toList = '\n' :: t.chars.toList := by
  have hbyte : (Text.ofString "\n").byteAt 0 = 10 := by decide
  have hsize : (Text.ofString "\n").size = 1 := by decide
  have hchars : (Text.ofString "\n").chars.toList = ['\n'] := Text.chars_ofString "\n"
  rw [Text.chars_append, hchars]
  · rfl
  · intro i hi
    obtain rfl : i = 0 := by omega
    have hread : ∀ u : Text, u.byteAt 0 = 10 → u.readAt 0 = ('\n', 0) := by
      intro u hu
      simp only [Text.readAt, Text.sequenceAt, hu]
      rfl
    rw [hread _ hbyte, hread]
    rw [Text.byteAt_append_left _ (by omega), hbyte]

/-- Two texts with a line end between them read as both do. -/
theorem Text.chars_lines (s t : Text) : (s ++ Text.ofString "\n" ++ t).chars.toList =
    s.chars.toList ++ '\n' :: t.chars.toList := by
  rw [Text.append_assoc, Text.chars_append_of_first, Text.chars_line]
  have hsize : (Text.ofString "\n").size = 1 := by decide
  rw [Text.byteAt_append_left _ (by omega)]
  decide

def Text.lines (t : Text) : Nat := t.chars.toList.count '\n' + 1

theorem Position.line_afterAll_eq (p : Position) (cs : List Char) :
    (p.afterAll cs).line = p.line + cs.count '\n' := by
  induction cs generalizing p with
  | nil => rfl
  | cons c cs ih =>
      rw [Position.afterAll_cons, ih, List.count_cons]
      unfold Position.after
      by_cases hc : c = '\n'
      · simp [hc]
        omega
      · simp [hc]

theorem Cursor.nextLine_ofText (t : Text) :
    (Cursor.ofText t).nextLine = Position.start.below t.lines := by
  have hline := Position.line_afterAll_eq .start t.chars.toList
  have hnext : (Cursor.ofText t).nextLine =
      ⟨(Position.start.afterAll t.chars.toList).line + 1, 1⟩ := rfl
  rw [hnext, hline]
  exact congrArg (Position.mk · 1) (Nat.add_assoc _ _ _)

theorem Guise.below_zero : Guise.below 0 = .ofFile id := by
  have hhint : (Option.map fun i : Ident => (⟨i.name, i.position.below 0⟩ : Ident)) = id :=
    Option.map_id
  unfold Guise.below Guise.ofFile
  rw [hhint]
  rfl

namespace Parser

open Reader Seam

/-- What is read without a fault. -/
theorem statementsOf_clean {tokens : List Token} {ss : List Stmt}
    (h : statementsOf tokens = (ss, [])) :
    (programStatements maxNesting (callsFor tokens.length) [] (on tokens #[])).1 = ss ∧
      (programStatements maxNesting (callsFor tokens.length) [] (on tokens #[])).2.diagnostics =
        #[] := by
  rw [statementsOf, statementsWithin, ofTokens_eq_on] at h
  obtain ⟨hss, hds⟩ := Prod.mk.inj h
  exact ⟨hss, Array.toList_inj.mp hds⟩

theorem statementsOf_of_reader {tokens : List Token} {ss : List Stmt} {r : Reader}
    (h : programStatements maxNesting (callsFor tokens.length) [] (on tokens #[]) = (ss, r))
    (hclean : r.diagnostics = #[]) : statementsOf tokens = (ss, []) := by
  rw [statementsOf, statementsWithin, ofTokens_eq_on, h]
  exact congrArg (Prod.mk ss) (congrArg Array.toList hclean)

/-- Where tokens are read without a fault the last of them can be read. -/
theorem last_of_clean {us : List Token} {e : Token} {ss : List Stmt}
    (h : statementsOf (us ++ [e]) = (ss, [])) (he : e.isEof = true)
    (hreal : ∀ t ∈ us, t.isEof = false) : ∀ t, us.getLast? = some t → t.stops = false := by
  let seam : Seam := ⟨0, us, e, e, [], he, Or.inl he, fun hparen => by
    rw [Token.isSign, Seam.isEof_of_kind he] at hparen
    cases hparen⟩
  have hclean : (programStatements maxNesting (callsFor (us ++ [e]).length) []
      (seam.alone us #[])).2.diagnostics.size ≤ (#[] : Array Diagnostic).size := by
    rw [show seam.alone us #[] = on (us ++ [e]) #[] from rfl, (statementsOf_clean h).2]
  have hfuel : 8 * us.length + 6 ≤ callsFor (us ++ [e]).length := by
    rw [callsFor, List.length_append]
    omega
  obtain ⟨-, -, -, -, hlast, -⟩ := programStatements_joined seam maxNesting 0 hreal
    (List.suffix_refl us) hfuel [] #[] #[] hclean
  exact hlast

/-- Where tokens are read without a fault the first of them begins a statement. -/
theorem begins_of_clean {v : Token} {vs : List Token} {ss : List Stmt}
    (h : statementsOf (v :: vs) = (ss, [])) (hv : v.isEof = false) : v.begins = true := by
  have hclean := (statementsOf_clean h).2
  obtain ⟨calls, hcalls⟩ : ∃ n, callsFor (v :: vs).length = n + 5 :=
    ⟨callsFor (v :: vs).length - 5, by rw [callsFor]; omega⟩
  have heof : (on (v :: vs) #[]).current.isEof = false := by
    rw [current_on, hv]
  rw [hcalls] at hclean
  have hstatement : (statement maxNesting (calls + 4) 0 (on (v :: vs) #[])).2.diagnostics.size ≤
      (on (v :: vs) #[]).diagnostics.size := by
    refine Nat.not_lt.mp fun hbad => ?_
    have hgrows := programStatements_grows maxNesting (calls + 4) []
      (statement maxNesting (calls + 4) 0 (on (v :: vs) #[])).2.skipToBoundary.advance
    rw [programStatements_fault heof hbad] at hclean
    rw [hclean, diagnostics_advance, diagnostics_skipToBoundary] at hgrows
    rw [diagnostics_on] at hbad
    exact absurd (Nat.lt_of_lt_of_le hbad hgrows) (Nat.lt_irrefl _)
  have hbegins := begins_of_statement (by omega) hstatement
  rw [current_on] at hbegins
  exact hbegins

/-- Whether the name of a class is last, and what comes after it on another line
begins like the fields of that class. -/
def TakesFields (first second : List Token) : Prop :=
  (∃ before c n e, first = before ++ [c, n, e] ∧ c.isKeyword .classWord = true) ∧
    ∃ t ∈ second.head?, t.isSign .leftParen = true

/-- Tokens that are read without a fault are read alike behind others on earlier lines. -/
theorem statementsOf_joined {us vs : List Token} {e : Token} {lines : Nat} {ss ts : List Stmt}
    (hs : statementsOf (us ++ [e]) = (ss, [])) (ht : statementsOf vs = (ts, []))
    (he : e.isEof = true) (hus : ∀ t ∈ us, t.isEof = false)
    (hvs : ∃ (ws : List Token) (f : Token), vs = ws ++ [f] ∧ f.isEof = true ∧
      ∀ t ∈ ws, t.isEof = false)
    (hlines : ∀ t ∈ us, ∀ v ∈ vs, t.position.line < v.position.line + lines)
    (hfields : ¬ TakesFields (us ++ [e]) vs) :
    statementsOf (us ++ vs.map (Token.below lines)) =
      (ss ++ ts.map (Stmt.recast (.below lines)), []) := by
  obtain ⟨ws, f, rfl, hf, hws⟩ := hvs
  obtain ⟨v, rest, hv⟩ := List.exists_cons_of_ne_nil (List.append_ne_nil_of_right_ne_nil ws
    (List.cons_ne_nil f []))
  have hlength : (us ++ (ws ++ [f]).map (Token.below lines)).length =
      us.length + (ws ++ [f]).length := by
    rw [List.length_append, List.length_map]
  have hsize : (ws ++ [f]).length = ws.length + 1 := List.length_append
  -- the statements of the first text
  let upper : Seam := ⟨0, us, e, v.below lines, rest.map (Token.below lines), he, by
    rw [hv] at hlines ht
    by_cases heof : v.isEof = true
    · exact Or.inl heof
    · have hbegins := begins_of_clean ht (Bool.eq_false_iff.mpr heof)
      exact Or.inr ⟨hbegins, fun t ht => Nat.ne_of_lt (hlines t ht v List.mem_cons_self)⟩, by
    rintro hparen before c n rfl
    refine Bool.eq_false_iff.mpr fun hword => hfields ⟨⟨before, c, n, e, ?_, hword⟩, v, ?_, hparen⟩
    · rw [List.append_assoc]
      rfl
    · rw [hv]
      rfl⟩
  obtain ⟨more, hmore⟩ : ∃ more, more + callsFor (us ++ [e]).length =
      callsFor (us ++ (ws ++ [f]).map (Token.below lines)).length := by
    refine ⟨_, Nat.sub_add_cancel ?_⟩
    rw [hlength, hsize, callsFor, callsFor, List.length_append, List.length_singleton]
    omega
  have hupper : upper.joined us #[] = on (us ++ (ws ++ [f]).map (Token.below lines)) #[] := by
    have hsame : us.map (Token.below 0) = us :=
      (List.map_congr_left fun t _ => rfl).trans (List.map_id us)
    rw [hv]
    exact congrArg (fun x => on (x ++ _) #[]) hsame
  have hclean := (statementsOf_clean hs).2
  have hcalls : 8 * us.length + 6 ≤ callsFor (us ++ [e]).length := by
    rw [callsFor, List.length_append]
    omega
  obtain ⟨ss', left, hss, hleft, -, hjoined⟩ := programStatements_joined upper maxNesting more hus
    (List.suffix_refl us) hcalls [] #[] #[] (Nat.le_of_eq (congrArg _ hclean))
  obtain rfl : ss' = ss := hss.symm.trans (statementsOf_clean hs).1
  -- the statements of the second
  let lower : Seam := ⟨lines, ws, f, f.below lines, [], hf, Or.inl hf, fun hparen => by
    rw [Token.isSign_below, Token.isSign, Seam.isEof_of_kind hf] at hparen
    cases hparen⟩
  obtain ⟨more', hmore'⟩ : ∃ more', more' + callsFor (ws ++ [f]).length = left := by
    refine ⟨_, Nat.sub_add_cancel ?_⟩
    rw [hmore, hlength, callsFor] at hleft
    rw [callsFor]
    omega
  have hclean' := (statementsOf_clean ht).2
  have hcalls' : 8 * ws.length + 6 ≤ callsFor (ws ++ [f]).length := by
    rw [callsFor, hsize]
    omega
  obtain ⟨ts', left', hts, -, -, hjoined'⟩ := programStatements_joined lower maxNesting more' hws
    (List.suffix_refl ws) hcalls' [] #[] #[] (Nat.le_of_eq (congrArg _ hclean'))
  obtain rfl : ts' = ts := hts.symm.trans (statementsOf_clean ht).1
  have hlower : lower.joined ws #[] = on (v.below lines :: rest.map (Token.below lines)) #[] := by
    have hall : ws.map (Token.below lines) ++ [f.below lines] =
        v.below lines :: rest.map (Token.below lines) := by
      rw [← List.map_cons, ← hv, List.map_append]
      rfl
    exact congrArg (fun x => on x #[]) hall
  have heof : (on (f.below lines :: []) #[]).current.isEof = true := hf
  refine statementsOf_of_reader ?_ (diagnostics_on [f.below lines] #[])
  rw [← hmore, ← hupper, hjoined, ← hmore']
  refine (congrArg _ hlower.symm).trans
    ((hjoined' _).trans ((programStatements_eof heof _ _).trans ?_))
  have hsame : ss'.map (Stmt.recast (.below upper.lines)) = ss' := by
    rw [show upper.lines = 0 from rfl, Guise.below_zero, stmts_recast_ofFile]
  rw [hsame, List.append_nil, List.reverse_append, List.reverse_reverse, List.reverse_reverse]

/-- Two sources that are read without a fault, the first of them to its end, are
read one after the other with a line end between, unless the fields of the class
that the first ends with seem to begin the second. -/
theorem parse_lines {s t : Text} {ss ts : List Stmt} (hs : parse s = (ss, []))
    (ht : parse t = (ts, [])) (hend : Lexer.ReachesEnd (Cursor.ofText s))
    (hfields : ¬ TakesFields (Lexer.tokens s) (Lexer.tokens t)) :
    parse (s ++ Text.ofString "\n" ++ t) = (ss ++ ts.map (Stmt.recast (.below s.lines)), []) := by
  obtain ⟨us, e, hus, he, hreal⟩ := Lexer.tokensFrom_ends (Cursor.ofText s)
  obtain ⟨ws, f, hws, hf, hrealW⟩ := Lexer.tokensFrom_ends (Cursor.ofText t)
  have hlast : ∀ us t e, Lexer.tokensFrom (Cursor.ofText s) = us ++ [t, e] →
      t.isIllegal = false := by
    intro us' t e' htokens
    rw [hus] at htokens
    have hlast : us.getLast? = some t := by
      have hinit := congrArg List.dropLast htokens
      rw [List.dropLast_concat, show us' ++ [t, e'] = us' ++ [t] ++ [e'] by simp,
        List.dropLast_concat] at hinit
      rw [hinit, List.getLast?_concat]
    rw [parse, Lexer.tokens, hus] at hs
    exact (Bool.or_eq_false_iff.mp (last_of_clean hs he hreal t hlast)).2
  obtain ⟨us', e', hus', he', hjoined, hall⟩ :=
    Lexer.tokensFrom_withLine hend t.chars.toList hlast
  have hcursor : Cursor.ofText (s ++ Text.ofString "\n" ++ t) =
      (Cursor.ofText s).withLine t.chars.toList :=
    congrArg (Cursor.mk .start) (Text.chars_lines s t)
  have hbelow : (⟨(Cursor.ofText s).nextLine, t.chars.toList⟩ : Cursor) =
      (Cursor.ofText t).below s.lines := by
    rw [Cursor.nextLine_ofText]
    rfl
  rw [hbelow, Lexer.tokensFrom_below, ← hcursor] at hjoined
  rw [parse, Lexer.tokens, hjoined]
  rw [parse, Lexer.tokens, hus'] at hs
  rw [Lexer.tokens, hus'] at hfields
  refine statementsOf_joined hs ht he' (fun u hu => (hall u hu).1)
    ⟨ws, f, hws, hf, hrealW⟩ ?_ hfields
  intro u hu v hv
  have hline := (hall u hu).2
  have hposition : (Cursor.ofText t).position.isKnown = true := rfl
  have hknown := Lexer.sited_tokensFrom hposition v hv
  have hpos : v.position.line ≠ 0 := bne_iff_ne.mp hknown
  rw [Cursor.nextLine_ofText] at hline
  change u.position.line < 1 + s.lines at hline
  omega

/-- A line that begins with a minus sign is not taken from the value before it. -/
theorem parse_lines_minus :
    parse (Text.ofString "x = f" ++ Text.ofString "\n" ++ Text.ofString "-y") =
      ([.assign ⟨1, 3⟩ ⟨"x", ⟨1, 1⟩⟩ (.name ⟨"f", ⟨1, 5⟩⟩),
        .expr ⟨2, 1⟩ "-" (.unary ⟨2, 1⟩ .negate (.name ⟨"y", ⟨2, 2⟩⟩))], []) := by
  have hfirst : Lexer.tokens (Text.ofString "x = f") = [⟨.name false, "x", ⟨1, 1⟩⟩,
      ⟨.sign .assign, "=", ⟨1, 3⟩⟩, ⟨.name false, "f", ⟨1, 5⟩⟩, .eofAt ⟨1, 6⟩] := by
    rw [Lexer.tokens, Cursor.ofText, Text.chars_ofString]
    rw [Lexer.tokensFrom_cons rfl rfl, Lexer.tokensFrom_cons rfl rfl,
      Lexer.tokensFrom_cons rfl rfl, Lexer.tokensFrom_end rfl rfl]
    rfl
  have hsecond : Lexer.tokens (Text.ofString "-y") = [⟨.sign .minus, "-", ⟨1, 1⟩⟩,
      ⟨.name false, "y", ⟨1, 2⟩⟩, .eofAt ⟨1, 3⟩] := by
    rw [Lexer.tokens, Cursor.ofText, Text.chars_ofString]
    rw [Lexer.tokensFrom_cons rfl rfl, Lexer.tokensFrom_cons rfl rfl, Lexer.tokensFrom_end rfl rfl]
    rfl
  have hs : parse (Text.ofString "x = f") =
      ([.assign ⟨1, 3⟩ ⟨"x", ⟨1, 1⟩⟩ (.name ⟨"f", ⟨1, 5⟩⟩)], []) := by
    rw [parse, hfirst]
    cbv
  have ht : parse (Text.ofString "-y") =
      ([.expr ⟨1, 1⟩ "-" (.unary ⟨1, 1⟩ .negate (.name ⟨"y", ⟨1, 2⟩⟩))], []) := by
    rw [parse, hsecond]
    cbv
  have hend : Lexer.ReachesEnd (Cursor.ofText (Text.ofString "x = f")) := by
    rw [Cursor.ofText, Text.chars_ofString]
    exact .goesOn rfl (.goesOn rfl (.goesOn rfl (.ends .nothing List.not_mem_nil (by decide))))
  have hfields : ¬ TakesFields (Lexer.tokens (Text.ofString "x = f"))
      (Lexer.tokens (Text.ofString "-y")) := by
    rintro ⟨-, t, ht, hparen⟩
    rw [hsecond] at ht
    cases ht
    cases hparen
  have hlines : (Text.ofString "x = f").lines = 1 := by
    rw [Text.lines, Text.chars_ofString]
    rfl
  have hjoined := parse_lines hs ht hend hfields
  rw [hlines] at hjoined
  exact hjoined

-- The fields of a class may stand on the line below its name.
example : parse (Text.ofString "class A\n(x)") =
    ([.classDef ⟨1, 1⟩ ⟨"A", ⟨1, 7⟩⟩ [⟨⟨"x", ⟨2, 2⟩⟩, none⟩] []], []) := by
  have htokens : Lexer.tokens (Text.ofString "class A\n(x)") =
      [⟨.keyword .classWord, "class", ⟨1, 1⟩⟩, ⟨.name true, "A", ⟨1, 7⟩⟩,
        ⟨.sign .leftParen, "(", ⟨2, 1⟩⟩, ⟨.name false, "x", ⟨2, 2⟩⟩,
        ⟨.sign .rightParen, ")", ⟨2, 3⟩⟩, .eofAt ⟨2, 4⟩] := by
    rw [Lexer.tokens, Cursor.ofText, Text.chars_ofString]
    rw [Lexer.tokensFrom_cons rfl rfl, Lexer.tokensFrom_cons rfl rfl,
      Lexer.tokensFrom_cons rfl rfl, Lexer.tokensFrom_cons rfl rfl,
      Lexer.tokensFrom_cons rfl rfl, Lexer.tokensFrom_end rfl rfl]
    rfl
  rw [parse, htokens]
  cbv

end Parser

end Scriptlet
