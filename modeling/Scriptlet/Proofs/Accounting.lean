/-
What cutting a source leaves out.  Between two tokens stand blanks and closed
comments only, and every token has characters of its own, so a source is its
tokens, what stands between them, and what lies behind the first NUL character
or in a comment that is never closed.
-/
import Scriptlet.Proofs.Boundaries
import Scriptlet.Proofs.Laid

namespace Scriptlet

theorem Position.afterAll_append (p : Position) (as bs : List Char) :
    p.afterAll (as ++ bs) = (p.afterAll as).afterAll bs := List.foldl_append

@[simp] theorem Position.afterAll_cons (p : Position) (c : Char) (cs : List Char) :
    p.afterAll (c :: cs) = (p.after c).afterAll cs := rfl

@[simp] theorem Position.afterAll_nil (p : Position) : p.afterAll [] = p := rfl

namespace Lexer

/-- Blanks and comments one after the other.  The mode says where they end: at
a place where a token may begin, or inside of a comment that is still open. -/
inductive Filler : Skipping → List Char → Prop
  | nothing : Filler .blanks []
  | blank {mode : Skipping} {c : Char} {cs : List Char} :
      isSpace c = true → Filler mode cs → Filler mode (c :: cs)
  | lineComment {mode : Skipping} {body cs : List Char} :
      '\n' ∉ body → Filler mode cs → Filler mode ('/' :: '/' :: (body ++ '\n' :: cs))
  | blockComment {mode : Skipping} {body cs : List Char} :
      ¬ ['*', '/'] <:+: body → Filler mode cs →
        Filler mode ('/' :: '*' :: (body ++ '*' :: '/' :: cs))
  | openLine {body : List Char} : '\n' ∉ body → Filler .lineComment ('/' :: '/' :: body)
  | openBlock {body : List Char} :
      ¬ ['*', '/'] <:+: body → Filler .blockComment ('/' :: '*' :: body)

theorem skip_space {c : Char} (h : isSpace c = true) (p : Position) (cs : List Char) :
    skip .blanks p (c :: cs) = skip .blanks (p.after c) cs :=
  skip_spaces (List.forall_mem_singleton.mpr h) p cs

/-- A line comment is passed over as far as its line goes. -/
theorem skip_lineBody {body : List Char} (hline : '\n' ∉ body) (hnul : '\x00' ∉ body)
    (p : Position) (rest : List Char) :
    skip .lineComment p (body ++ rest) = skip .lineComment (p.afterAll body) rest := by
  induction body generalizing p with
  | nil => rfl
  | cons c body ih =>
      rw [List.mem_cons, not_or] at hline hnul
      rw [List.cons_append, skip, if_neg (Ne.symm hline.1), if_neg (Ne.symm hnul.1),
        ih hline.2 hnul.2]
      rfl

/-- A block comment is passed over as long as nothing closes it. -/
theorem skip_blockBody {body rest : List Char} (hopen : ¬ ['*', '/'] <:+: body)
    (hnul : '\x00' ∉ body) (hrest : rest.head? ≠ some '/') (p : Position) :
    skip .blockComment p (body ++ rest) = skip .blockComment (p.afterAll body) rest := by
  induction body generalizing p with
  | nil => rfl
  | cons c body ih =>
      rw [List.mem_cons, not_or] at hnul
      rw [List.infix_cons_iff, not_or] at hopen
      have hnext : ∀ tail, c = '*' → body ++ rest = '/' :: tail → False := by
        rintro tail rfl htail
        cases body with
        | nil => exact hrest (congrArg List.head? htail)
        | cons d body =>
            obtain ⟨rfl, -⟩ := List.cons.inj htail
            exact hopen.1 ⟨body, rfl⟩
      rw [List.cons_append, skip, if_neg (Ne.symm hnul.1), ih hopen.2 hnul.2]
      · rfl
      · exact hnext

/-- Passing over blanks and comments comes to where they end. -/
theorem Filler.skip_append {mode : Skipping} {gap rest : List Char} (h : Filler mode gap)
    (hnul : '\x00' ∉ gap) (hrest : mode = .blockComment → rest.head? ≠ some '/') (p : Position) :
    skip .blanks p (gap ++ rest) = skip mode (p.afterAll gap) rest := by
  induction h generalizing p with
  | nothing => rfl
  | blank hc _ ih =>
      rw [List.mem_cons, not_or] at hnul
      rw [List.cons_append, skip_space hc, ih hnul.2 hrest]
      rfl
  | @lineComment mode body cs hline _ ih =>
      simp only [List.mem_cons, List.mem_append, not_or] at hnul
      obtain ⟨-, -, hbody, -, hcs⟩ := hnul
      simp only [List.cons_append, List.append_assoc, Position.afterAll_cons]
      rw [skip, skip_lineBody hline hbody, skip, if_pos rfl, ih hcs hrest, Position.afterAll_append]
      rfl
  | @blockComment mode body cs hopen _ ih =>
      simp only [List.mem_cons, List.mem_append, not_or] at hnul
      obtain ⟨-, -, hbody, -, -, hcs⟩ := hnul
      simp only [List.cons_append, List.append_assoc, Position.afterAll_cons]
      rw [skip, skip_blockBody hopen hbody (by simp), skip, ih hcs hrest, Position.afterAll_append]
      rfl
  | openLine hline =>
      simp only [List.mem_cons, not_or] at hnul
      simp only [List.cons_append, Position.afterAll_cons]
      rw [skip, skip_lineBody hline hnul.2.2]
  | openBlock hopen =>
      simp only [List.mem_cons, not_or] at hnul
      simp only [List.cons_append, Position.afterAll_cons]
      rw [skip, skip_blockBody hopen hnul.2.2 (hrest rfl)]

/-- The end of a line ends blanks and closed comments, and a line comment. -/
theorem Filler.skip_line {mode : Skipping} {gap : List Char} (h : Filler mode gap)
    (hclosed : mode ≠ .blockComment) (hnul : '\x00' ∉ gap) (p : Position) (rest : List Char) :
    skip .blanks p (gap ++ '\n' :: rest) = skip .blanks ((p.afterAll gap).after '\n') rest := by
  rw [h.skip_append hnul (fun _ => by simp)]
  cases mode with
  | blanks => exact skip_space rfl _ _
  | lineComment => rw [skip, if_pos rfl]
  | blockComment => exact absurd rfl hclosed

/-- Blanks and comments that end within a block comment end nowhere else. -/
theorem Filler.closed_of_closed {mode mode' : Skipping} {gap : List Char} (h : Filler mode gap)
    (h' : Filler mode' gap) (hnul : '\x00' ∉ gap) (hclosed : mode ≠ .blockComment) :
    mode' ≠ .blockComment := by
  rintro rfl
  have hline := h.skip_line hclosed hnul .start ['+']
  rw [h'.skip_append hnul (fun _ => by simp)] at hline
  exact absurd (congrArg Cursor.rest hline) (by simp [skip, isSpace])

/-- Where the characters passed over stop: behind them stands the end of the
source, a NUL character, or, where no comment is open, whatever begins a token. -/
def StopsIn (mode : Skipping) (rest : List Char) : Prop :=
  ∀ c, rest.head? = some c → c ≠ '\x00' → mode = .blanks

/-- A line comment goes to the end of its line, if nothing ends the source before. -/
theorem skip_lineComment (p : Position) (cs : List Char) :
    ∃ body rest, cs = body ++ rest ∧ '\n' ∉ body ∧ '\x00' ∉ body ∧
      ((∃ tail, rest = '\n' :: tail) ∨
        StopsIn .lineComment rest ∧ skip .lineComment p cs = ⟨p.afterAll body, rest⟩) := by
  induction cs generalizing p with
  | nil =>
      have hstops : StopsIn .lineComment [] := fun _ h => absurd h (by simp)
      exact ⟨[], [], rfl, List.not_mem_nil, List.not_mem_nil, Or.inr ⟨hstops, rfl⟩⟩
  | cons c cs ih =>
      by_cases hline : c = '\n'
      · exact ⟨[], c :: cs, rfl, List.not_mem_nil, List.not_mem_nil, Or.inl ⟨cs, by rw [hline]⟩⟩
      by_cases hnul : c = '\x00'
      · refine ⟨[], c :: cs, rfl, List.not_mem_nil, List.not_mem_nil, Or.inr ⟨?_, ?_⟩⟩
        · intro d hd hne
          exact absurd ((Option.some.inj hd).symm.trans hnul) hne
        · rw [skip, if_neg hline, if_pos hnul]
          rfl
      · obtain ⟨body, rest, rfl, hbody, hclean, hends⟩ := ih (p.after c)
        refine ⟨c :: body, rest, rfl, ?_, ?_, ?_⟩
        · simp [hbody, Ne.symm hline]
        · simp [hclean, Ne.symm hnul]
        · refine hends.imp_right (And.imp_right fun hskip => ?_)
          rw [skip, if_neg hline, if_neg hnul, hskip]
          rfl

/-- A block comment goes to what closes it, if nothing ends the source before. -/
theorem skip_blockComment (p : Position) (cs : List Char) :
    ∃ body rest, cs = body ++ rest ∧ ¬ ['*', '/'] <:+: body ∧ '\x00' ∉ body ∧
      ((∃ tail, rest = '*' :: '/' :: tail) ∨
        StopsIn .blockComment rest ∧ skip .blockComment p cs = ⟨p.afterAll body, rest⟩) := by
  induction cs generalizing p with
  | nil =>
      have hstops : StopsIn .blockComment [] := fun _ h => absurd h (by simp)
      exact ⟨[], [], rfl, by simp, List.not_mem_nil, Or.inr ⟨hstops, rfl⟩⟩
  | cons c cs ih =>
      by_cases hclose : ∃ tail, c :: cs = '*' :: '/' :: tail
      · exact ⟨[], c :: cs, rfl, by simp, List.not_mem_nil, Or.inl hclose⟩
      have hnext : ∀ tail, c = '*' → cs = '/' :: tail → False := fun tail hc hcs =>
        hclose ⟨tail, by rw [hc, hcs]⟩
      by_cases hnul : c = '\x00'
      · refine ⟨[], c :: cs, rfl, by simp, List.not_mem_nil, Or.inr ⟨?_, ?_⟩⟩
        · intro d hd hne
          exact absurd ((Option.some.inj hd).symm.trans hnul) hne
        · rw [skip, if_pos hnul]
          · rfl
          · exact hnext
      · obtain ⟨body, rest, rfl, hbody, hclean, hends⟩ := ih (p.after c)
        refine ⟨c :: body, rest, rfl, ?_, ?_, ?_⟩
        · rw [List.infix_cons_iff, not_or]
          refine ⟨?_, hbody⟩
          rintro ⟨tail, htail⟩
          obtain ⟨rfl, rfl⟩ := List.cons.inj htail
          exact hnext (tail ++ rest) rfl rfl
        · simp [hclean, Ne.symm hnul]
        · refine hends.imp_right (And.imp_right fun hskip => ?_)
          rw [skip, if_neg hnul, hskip]
          · rfl
          · exact hnext

/-- What is passed over before a token are blanks and comments. -/
theorem skip_filler (p : Position) (cs : List Char) :
    ∃ mode gap rest, cs = gap ++ rest ∧ Filler mode gap ∧ '\x00' ∉ gap ∧ StopsIn mode rest ∧
      skip .blanks p cs = ⟨p.afterAll gap, rest⟩ := by
  induction hlen : cs.length using Nat.strong_induction_on generalizing p cs with
  | _ n ih =>
      -- blanks and comments that a first one stands before
      have hmore : ∀ (first tail : List Char), cs = first ++ tail → first ≠ [] →
          '\x00' ∉ first → (∀ {mode gap}, Filler mode gap → Filler mode (first ++ gap)) →
          skip .blanks p cs = skip .blanks (p.afterAll first) tail →
          ∃ mode gap rest, cs = gap ++ rest ∧ Filler mode gap ∧ '\x00' ∉ gap ∧
            StopsIn mode rest ∧ skip .blanks p cs = ⟨p.afterAll gap, rest⟩ := by
        rintro first tail rfl hfirst hnul hfiller hskip
        have hless : tail.length < n := by
          have := List.length_pos_iff.mpr hfirst
          rw [List.length_append] at hlen
          omega
        obtain ⟨mode, gap, rest, rfl, hgap, hclean, hstops, hrest⟩ :=
          ih tail.length hless (p.afterAll first) tail rfl
        refine ⟨mode, first ++ gap, rest, (List.append_assoc ..).symm, hfiller hgap, ?_, hstops, ?_⟩
        · rw [List.mem_append, not_or]
          exact ⟨hnul, hclean⟩
        · rw [hskip, hrest, Position.afterAll_append]
      cases cs with
      | nil =>
          exact ⟨.blanks, [], [], rfl, .nothing, List.not_mem_nil, fun _ _ _ => rfl, rfl⟩
      | cons c cs =>
          by_cases hspace : isSpace c = true
          · refine hmore [c] cs rfl (List.cons_ne_nil _ _) ?_ (.blank hspace)
              (skip_space hspace p cs)
            rintro hnul
            rw [← List.mem_singleton.mp hnul] at hspace
            cases hspace
          by_cases hline : ∃ tail, c :: cs = '/' :: '/' :: tail
          · obtain ⟨tail, htail⟩ := hline
            obtain ⟨rfl, rfl⟩ := List.cons.inj htail
            obtain ⟨body, rest, rfl, hbody, hclean, ⟨tail, rfl⟩ | ⟨hstops, hskip⟩⟩ :=
              skip_lineComment ((p.after '/').after '/') tail
            · refine hmore ('/' :: '/' :: (body ++ ['\n'])) tail (by simp)
                (List.cons_ne_nil _ _) (by simp [hclean]) (fun hgap => ?_) ?_
              · simpa using Filler.lineComment hbody hgap
              · rw [skip, skip_lineBody hbody hclean, skip, if_pos rfl]
                simp [Position.afterAll_append]
            · refine ⟨.lineComment, '/' :: '/' :: body, rest, rfl, .openLine hbody,
                by simp [hclean], hstops, ?_⟩
              rw [skip, hskip]
              rfl
          by_cases hblock : ∃ tail, c :: cs = '/' :: '*' :: tail
          · obtain ⟨tail, htail⟩ := hblock
            obtain ⟨rfl, rfl⟩ := List.cons.inj htail
            obtain ⟨body, rest, rfl, hbody, hclean, ⟨tail, rfl⟩ | ⟨hstops, hskip⟩⟩ :=
              skip_blockComment ((p.after '/').after '*') tail
            · refine hmore ('/' :: '*' :: (body ++ ['*', '/'])) tail (by simp)
                (List.cons_ne_nil _ _) (by simp [hclean]) (fun hgap => ?_) ?_
              · simpa using Filler.blockComment hbody hgap
              · rw [skip, skip_blockBody hbody hclean (by simp), skip]
                simp [Position.afterAll_append]
            · refine ⟨.blockComment, '/' :: '*' :: body, rest, rfl, .openBlock hbody,
                by simp [hclean], hstops, ?_⟩
              rw [skip, hskip]
              rfl
          · refine ⟨.blanks, [], c :: cs, rfl, .nothing, List.not_mem_nil, fun _ _ _ => rfl, ?_⟩
            refine skip_stops (Bool.not_eq_true _ ▸ hspace) ?_ p
            rintro rfl d hd
            obtain ⟨tail, rfl⟩ := List.head?_eq_some_iff.mp hd
            refine ⟨?_, ?_⟩
            · rintro rfl
              exact hline ⟨tail, rfl⟩
            · rintro rfl
              exact hblock ⟨tail, rfl⟩

/-- The characters between the quotes of a string literal, and those they stand for. -/
inductive StringBody : List Char → List Char → Prop
  | nothing : StringBody [] []
  | plain {c : Char} {cs value : List Char} :
      c ≠ '"' → c ≠ '\\' → c ≠ '\x00' → StringBody cs value → StringBody (c :: cs) (c :: value)
  | escape {c : Char} {cs value : List Char} :
      c ≠ '\x00' → StringBody cs value → StringBody ('\\' :: c :: cs) (unescape c :: value)

theorem StringBody.nul_notMem {body value : List Char} (h : StringBody body value) :
    '\x00' ∉ body := by
  induction h with
  | nothing => exact List.not_mem_nil
  | plain _ _ hc _ ih => simp [ih, Ne.symm hc]
  | escape hc _ ih => simp [ih, Ne.symm hc]

/-- Reading goes through the characters of a string literal. -/
theorem StringBody.readString {body value : List Char} (h : StringBody body value)
    (done : List Char) (p : Position) (rest : List Char) :
    readString done p (body ++ rest) =
      Lexer.readString (value.reverse ++ done) (p.afterAll body) rest := by
  induction h generalizing done p with
  | nothing => rfl
  | @plain c cs value hquote hslash hnul _ ih =>
      rw [List.cons_append, Lexer.readString, if_neg hquote, if_neg hnul, ih, List.reverse_cons,
        List.append_assoc]
      · rfl
      · exact fun hno => absurd hno hslash
      · exact fun _ _ hno => absurd hno hslash
  | @escape c cs value hnul _ ih =>
      rw [List.cons_append, List.cons_append, Lexer.readString, if_neg hnul, ih,
        List.reverse_cons, List.append_assoc]
      rfl

/-- How a string literal ends: at its closing quote, or where the source does
or a NUL character stands, perhaps behind a last backslash. -/
def StringEnds (closed : Bool) (tail rest : List Char) : Prop :=
  closed = true ∧ tail = ['"'] ∨
    closed = false ∧ (tail = [] ∨ tail = ['\\']) ∧ (rest = [] ∨ rest.head? = some '\x00')

theorem exists_stringBody (done : List Char) (p : Position) (cs : List Char) :
    ∃ body value tail rest closed, cs = body ++ (tail ++ rest) ∧ StringBody body value ∧
      StringEnds closed tail rest ∧
      readString done p cs =
        ⟨done.reverse ++ value, closed, ⟨p.afterAll (body ++ tail), rest⟩⟩ := by
  fun_induction readString done p cs with
  | case1 done p =>
      exact ⟨[], [], [], [], false, rfl, .nothing, Or.inr ⟨rfl, Or.inl rfl, Or.inl rfl⟩, by simp⟩
  | case2 done p =>
      exact ⟨[], [], ['\\'], [], false, rfl, .nothing, Or.inr ⟨rfl, Or.inr rfl, Or.inl rfl⟩,
        by simp⟩
  | case3 done p cs =>
      exact ⟨[], [], ['\\'], '\x00' :: cs, false, rfl, .nothing,
        Or.inr ⟨rfl, Or.inr rfl, Or.inr rfl⟩, by simp⟩
  | case4 done p c cs hnul ih =>
      obtain ⟨body, value, tail, rest, closed, rfl, hbody, hends, hread⟩ := ih
      refine ⟨'\\' :: c :: body, unescape c :: value, tail, rest, closed, rfl,
        .escape hnul hbody, hends, ?_⟩
      rw [hread, List.reverse_cons, List.append_assoc]
      rfl
  | case5 done p cs _ =>
      exact ⟨[], [], ['"'], cs, true, rfl, .nothing, Or.inl ⟨rfl, rfl⟩, by simp⟩
  | case6 done p cs _ _ =>
      exact ⟨[], [], [], '\x00' :: cs, false, rfl, .nothing,
        Or.inr ⟨rfl, Or.inl rfl, Or.inr rfl⟩, by simp⟩
  | case7 done p c cs hone htwo hquote hnul ih =>
      obtain ⟨body, value, tail, rest, closed, rfl, hbody, hends, hread⟩ := ih
      have hslash : c ≠ '\\' := by
        rintro rfl
        cases hcs : body ++ (tail ++ rest) with
        | nil => exact hone rfl hcs
        | cons d ds => exact htwo d ds rfl hcs
      refine ⟨c :: body, c :: value, tail, rest, closed, rfl, .plain hquote hslash hnul hbody,
        hends, ?_⟩
      rw [hread, List.reverse_cons, List.append_assoc]
      rfl

/-- How a token is written: as its lexeme is, or, if it is a string literal, as
the quoted form of its lexeme. -/
inductive Spells : List Char → Token → Prop
  | word {span : List Char} {t : Token} :
      span.head? ≠ some '"' → t.lexeme = String.ofList span → Spells span t
  | string {body value : List Char} {t : Token} :
      StringBody body value → t.kind = .str → t.lexeme = String.ofList value →
      Spells ('"' :: (body ++ ['"'])) t
  | unterminated {body value tail : List Char} {t : Token} :
      StringBody body value → tail = [] ∨ tail = ['\\'] →
      t.kind = .illegal "unterminated string" → t.lexeme = String.ofList value →
      Spells ('"' :: (body ++ tail)) t

def CutFrom (p : Position) (span : List Char) (t : Token) : Prop :=
  t.isEof = false ∧ t.position = p ∧ Spells span t

/-- Whether what was found is a token cut from the first characters, at least
one of them, with the place and the characters behind. -/
def CutsFirst (p : Position) (cs : List Char) (found : Token × Cursor) : Prop :=
  ∃ span rest, cs = span ++ rest ∧ span ≠ [] ∧ '\x00' ∉ span ∧
    found.2 = ⟨p.afterAll span, rest⟩ ∧ CutFrom p span found.1

theorem wordToken_cuts {kind : TokenKind} (hkind : kind ≠ .eof) {c : Char} (hquote : c ≠ '"')
    {word rest cs : List Char} (hcs : c :: cs = word ++ rest) (hword : word ≠ [])
    (hnul : '\x00' ∉ word) (p : Position) : CutsFirst p (c :: cs) (wordToken kind word p rest) := by
  obtain ⟨d, ds, rfl⟩ := List.exists_cons_of_ne_nil hword
  obtain ⟨rfl, -⟩ := List.cons.inj hcs
  have hspells : (c :: ds).head? ≠ some '"' := fun h => hquote (Option.some.inj h)
  refine ⟨c :: ds, rest, hcs, hword, hnul, rfl, ?_, rfl, .word hspells rfl⟩
  cases kind <;> first | rfl | exact absurd rfl hkind

theorem wordKind_ne_eof (word : List Char) : wordKind word ≠ .eof := by
  rw [wordKind]
  split <;> exact TokenKind.noConfusion

theorem intKind_ne_eof (digits : List Char) : intKind digits ≠ .eof := by
  rw [intKind]
  split <;> exact TokenKind.noConfusion

theorem floatKind_ne_eof (whole fraction : List Char) : floatKind whole fraction ≠ .eof := by
  rw [floatKind]
  split <;> exact TokenKind.noConfusion

theorem nul_notMem_takeWhile (keep : Char → Bool) (h : keep '\x00' = false) (cs : List Char) :
    '\x00' ∉ cs.takeWhile keep := by
  intro hmem
  rw [List.mem_takeWhile_imp hmem] at h
  cases h

theorem numberToken_cuts {c : Char} (hc : isDigit c = true) (p : Position) (cs : List Char) :
    CutsFirst p (c :: cs) (numberToken p (c :: cs)) := by
  have hsplit := List.takeWhile_append_dropWhile (p := isDigit) (l := c :: cs)
  have hquote : c ≠ '"' := isDigit_ne hc (by decide)
  have hwhole : (c :: cs).takeWhile isDigit ≠ [] := by
    rw [List.takeWhile_cons_of_pos hc]
    exact List.cons_ne_nil _ _
  have hclean := nul_notMem_takeWhile isDigit rfl (c :: cs)
  unfold numberToken
  dsimp only
  split
  · rename_i d rest hrest
    rw [hrest] at hsplit
    split
    · have hfraction := List.takeWhile_append_dropWhile (p := isDigit) (l := d :: rest)
      refine wordToken_cuts (floatKind_ne_eof _ _) hquote ?_ (by simp) ?_ p
      · rw [List.append_assoc, List.cons_append, hfraction, hsplit]
      · rw [List.mem_append, List.mem_cons, not_or, not_or]
        exact ⟨hclean, by decide, nul_notMem_takeWhile _ rfl _⟩
    · exact wordToken_cuts (intKind_ne_eof _) hquote hsplit.symm hwhole hclean p
  · exact wordToken_cuts (intKind_ne_eof _) hquote hsplit.symm hwhole hclean p

theorem signToken_cuts {c : Char} (hc : c ≠ '\x00') (hquote : c ≠ '"') (p : Position)
    (cs : List Char) :
    CutsFirst p (c :: cs) (signToken p c cs) := by
  have hone : '\x00' ∉ [c] := by simp [Ne.symm hc]
  unfold signToken
  split
  · split <;>
      exact wordToken_cuts TokenKind.noConfusion hquote rfl (List.cons_ne_nil _ _) hone p
  · rename_i d rest
    split
    · rename_i s hs
      have hd : d ≠ '\x00' := by
        rintro rfl
        rw [twoSign?_eq_none (by decide)] at hs
        cases hs
      have htwo : '\x00' ∉ [c, d] := by simp [Ne.symm hc, Ne.symm hd]
      exact wordToken_cuts TokenKind.noConfusion hquote rfl (List.cons_ne_nil _ _) htwo p
    · split <;>
        exact wordToken_cuts TokenKind.noConfusion hquote rfl (List.cons_ne_nil _ _) hone p

theorem stringToken_cuts (p : Position) (cs : List Char) :
    CutsFirst p ('"' :: cs) (stringToken p cs) := by
  obtain ⟨body, value, tail, rest, closed, rfl, hbody, hends, hread⟩ :=
    exists_stringBody [] (p.after '"') cs
  have htail : '\x00' ∉ tail := by
    obtain ⟨-, rfl⟩ | ⟨-, rfl | rfl, -⟩ := hends <;> decide
  rw [stringToken, hread]
  refine ⟨'"' :: (body ++ tail), rest, by simp, List.cons_ne_nil _ _, ?_, rfl, ?_, rfl, ?_⟩
  · simp [hbody.nul_notMem, htail]
  · cases closed <;> rfl
  · obtain ⟨rfl, rfl⟩ | ⟨rfl, htail, -⟩ := hends
    · exact .string hbody rfl rfl
    · exact .unterminated hbody htail rfl rfl

/-- A token is cut from the first characters, unless a NUL character is the first. -/
theorem tokenAt_cuts {c : Char} (hc : c ≠ '\x00') (p : Position) (cs : List Char) :
    CutsFirst p (c :: cs) (tokenAt ⟨p, c :: cs⟩) := by
  simp only [tokenAt, if_neg hc]
  by_cases hquote : c = '"'
  · rw [if_pos hquote, hquote]
    exact stringToken_cuts p cs
  rw [if_neg hquote]
  by_cases hletter : isLetter c = true
  · rw [if_pos hletter]
    refine wordToken_cuts (wordKind_ne_eof _) hquote List.takeWhile_append_dropWhile.symm ?_
      (nul_notMem_takeWhile _ rfl _) p
    rw [List.takeWhile_cons_of_pos (by simp [isNameChar, hletter])]
    exact List.cons_ne_nil _ _
  rw [if_neg hletter]
  by_cases hdigit : isDigit c = true
  · rw [if_pos hdigit]
    exact numberToken_cuts hdigit p cs
  · rw [if_neg hdigit]
    exact signToken_cuts hc hquote p cs

theorem next_of_skip {p q : Position} {cs rest : List Char}
    (h : skip .blanks p cs = ⟨q, rest⟩) : next ⟨p, cs⟩ = tokenAt ⟨q, rest⟩ :=
  congrArg tokenAt h

/-- Where a source or a NUL character ends it, no token follows. -/
theorem tokenAt_eof {rest : List Char} (h : rest = [] ∨ rest.head? = some '\x00') (p : Position) :
    tokenAt ⟨p, rest⟩ = (Token.eofAt p, ⟨p, rest⟩) := by
  rcases h with rfl | h
  · rfl
  · obtain ⟨tail, rfl⟩ := List.head?_eq_some_iff.mp h
    rfl

/-- What is next: the end of input behind blanks and comments, or a token behind
blanks and closed comments. -/
theorem next_cases (p : Position) (cs : List Char) :
    (∃ mode gap rest, cs = gap ++ rest ∧ Filler mode gap ∧ '\x00' ∉ gap ∧
      (rest = [] ∨ rest.head? = some '\x00') ∧
      next ⟨p, cs⟩ = (Token.eofAt (p.afterAll gap), ⟨p.afterAll gap, rest⟩)) ∨
    (∃ gap span rest, cs = gap ++ (span ++ rest) ∧ Filler .blanks gap ∧ '\x00' ∉ gap ∧
      span ≠ [] ∧ '\x00' ∉ span ∧
      (next ⟨p, cs⟩).2 = ⟨(p.afterAll gap).afterAll span, rest⟩ ∧
      CutFrom (p.afterAll gap) span (next ⟨p, cs⟩).1) := by
  obtain ⟨mode, gap, rest, rfl, hfiller, hclean, hstops, hskip⟩ := skip_filler p cs
  have hnext := next_of_skip hskip
  by_cases hend : rest = [] ∨ rest.head? = some '\x00'
  · exact Or.inl ⟨mode, gap, rest, rfl, hfiller, hclean, hend, hnext.trans (tokenAt_eof hend _)⟩
  obtain ⟨hsome, hhead⟩ := not_or.mp hend
  obtain ⟨c, cs, rfl⟩ := List.exists_cons_of_ne_nil hsome
  have hc : c ≠ '\x00' := by
    rintro rfl
    exact hhead rfl
  obtain rfl := hstops c rfl hc
  obtain ⟨span, rest, hspan, hne, hspanClean, hafter, hcut⟩ := tokenAt_cuts hc (p.afterAll gap) cs
  rw [← hnext] at hafter hcut
  exact Or.inr ⟨gap, span, rest, by rw [hspan], hfiller, hclean, hne, hspanClean, hafter, hcut⟩

/-- Whether cutting comes to the end of a source, and not to a NUL character
or into a block comment that is never closed. -/
inductive ReachesEnd : Cursor → Prop
  | ends {p : Position} {mode : Skipping} {gap : List Char} :
      Filler mode gap → '\x00' ∉ gap → mode ≠ .blockComment → ReachesEnd ⟨p, gap⟩
  | goesOn {cursor : Cursor} :
      (next cursor).1.isEof = false → ReachesEnd (next cursor).2 → ReachesEnd cursor

/-- A piece of a source: what stands before a token, the bytes of the token,
and the token. -/
structure Segment where
  gap : Text
  span : Text
  token : Token

def Segment.bytes : List Segment → Text
  | [] => .empty
  | c :: cs => c.gap ++ c.span ++ Segment.bytes cs

/-- The characters of some pieces, in order. -/
def Segment.chars (cuts : List Segment) : List Char :=
  cuts.flatMap fun c => c.gap.chars.toList ++ c.span.chars.toList

/-- Pieces that stand one after the other between two places: each is a token
behind blanks and closed comments. -/
inductive Pieces : Position → List Segment → Position → Prop
  | nil (p : Position) : Pieces p [] p
  | cons {p q : Position} {cut : Segment} {cuts : List Segment} :
      Filler .blanks cut.gap.chars.toList → '\x00' ∉ cut.gap.chars.toList →
      0 < cut.span.size → '\x00' ∉ cut.span.chars.toList →
      CutFrom (p.afterAll cut.gap.chars.toList) cut.span.chars.toList cut.token →
      Pieces ((p.afterAll cut.gap.chars.toList).afterAll cut.span.chars.toList) cuts q →
      Pieces p (cut :: cuts) q

/-- A source taken apart: its pieces, the blanks and comments behind the last of
them, and the part that is never read. -/
structure Account (p : Position) (source : Text) where
  cuts : List Segment
  stop : Position
  mode : Skipping
  trail : Text
  unread : Text
  bytes_eq : source = Segment.bytes cuts ++ (trail ++ unread)
  chars_eq : source.chars.toList =
    Segment.chars cuts ++ (trail.chars.toList ++ unread.chars.toList)
  pieces : Pieces p cuts stop
  trail_filler : Filler mode trail.chars.toList
  trail_clean : '\x00' ∉ trail.chars.toList
  unread_nul : unread = .empty ∨ unread.chars.toList.head? = some '\x00'

namespace Account

variable {p : Position} {source : Text}

def tokens (a : Account p source) : List Token :=
  a.cuts.map Segment.token ++ [Token.eofAt (a.stop.afterAll a.trail.chars.toList)]

/-- Whether nothing but tokens, blanks and closed comments was passed. -/
def IsComplete (a : Account p source) : Prop := a.unread = .empty ∧ a.mode ≠ .blockComment

/-- Whether an account tells what cutting the source gives. -/
structure Explains (a : Account p source) : Prop where
  tokens_eq : tokensFrom ⟨p, source.chars.toList⟩ = a.tokens
  few : a.tokens.length ≤ source.size + 1
  complete_iff : a.IsComplete ↔ ReachesEnd ⟨p, source.chars.toList⟩

end Account

theorem eq_empty_of_chars {t : Text} (h : t.chars.toList = []) : t = .empty := by
  refine Text.eq_empty_of_size_eq_zero ?_
  by_contra hsize
  rw [Text.chars, Text.charsFrom_cons (Nat.pos_of_ne_zero hsize)] at h
  cases h

theorem size_pos_of_chars {t : Text} (h : t.chars.toList ≠ []) : 0 < t.size := by
  rcases Nat.eq_zero_or_pos t.size with hzero | hpos
  · rw [Text.eq_empty_of_size_eq_zero hzero, Text.chars_empty] at h
    exact absurd rfl h
  · exact hpos

/-- Where no token follows, the source is accounted for. -/
theorem exists_account_of_end {p q : Position} {trail unread : Text} {mode : Skipping}
    (hchars : (trail ++ unread).chars.toList = trail.chars.toList ++ unread.chars.toList)
    (htrail : Filler mode trail.chars.toList) (hclean : '\x00' ∉ trail.chars.toList)
    (hends : unread.chars.toList = [] ∨ unread.chars.toList.head? = some '\x00')
    (hnext : next ⟨p, (trail ++ unread).chars.toList⟩ =
      (Token.eofAt (p.afterAll trail.chars.toList), ⟨q, unread.chars.toList⟩)) :
    ∃ a : Account p (trail ++ unread), a.Explains := by
  refine ⟨⟨[], p, mode, trail, unread, (Text.empty_append _).symm, hchars, .nil p, htrail, hclean,
    hends.imp_left eq_empty_of_chars⟩, tokensFrom_end hnext rfl,
    Nat.succ_le_succ (Nat.zero_le _), ?_, ?_⟩
  · rintro ⟨hnone, hmode⟩
    have hall : (trail ++ unread).chars.toList = trail.chars.toList := by
      rw [show unread = .empty from hnone, Text.append_empty]
    rw [hall]
    exact .ends htrail hclean hmode
  · intro hreaches
    generalize hcursor : (⟨p, (trail ++ unread).chars.toList⟩ : Cursor) = cursor at hreaches
    cases hreaches with
    | @ends q mode' gap hgap hgapClean hclosed =>
        obtain ⟨-, hgapChars⟩ := Cursor.mk.inj hcursor
        have hnone : unread.chars.toList = [] := by
          refine hends.resolve_right fun hhead => hgapClean ?_
          rw [← hgapChars, hchars]
          exact List.mem_append_right _ (List.mem_of_head? hhead)
        rw [hchars, hnone, List.append_nil] at hgapChars
        refine ⟨eq_empty_of_chars hnone, ?_⟩
        exact hgap.closed_of_closed (hgapChars ▸ htrail) hgapClean hclosed
    | goesOn hno _ =>
        rw [← hcursor, hnext] at hno
        cases hno

/-- Behind blanks and comments no token follows. -/
theorem Filler.next_eof {mode : Skipping} {gap : List Char} (h : Filler mode gap)
    (hclean : '\x00' ∉ gap) (p : Position) : (next ⟨p, gap⟩).1.isEof = true := by
  have hskip : skip .blanks p (gap ++ []) = skip mode (p.afterAll gap) [] :=
    h.skip_append hclean (fun _ => by simp) p
  rw [List.append_nil] at hskip
  rw [next_of_skip (hskip.trans (show skip mode _ [] = ⟨p.afterAll gap, []⟩ by cases mode <;> rfl))]
  rfl

/-- The tokens from a place on account for what stands there. -/
theorem exists_account (p : Position) (source : Text) :
    ∃ a : Account p source, a.Explains := by
  induction hsize : source.size using Nat.strong_induction_on generalizing p source with
  | _ n ih =>
      rcases next_cases p source.chars.toList with
        ⟨mode, gap, rest, hchars, hfiller, hclean, hends, hnext⟩ |
        ⟨gap, span, rest, hchars, hfiller, hclean, hne, hspanClean, hafter, hcut⟩
      · obtain ⟨trail, unread, rfl, rfl, rfl⟩ := Text.exists_append_of_chars hchars
        exact exists_account_of_end hchars hfiller hclean hends hnext
      obtain ⟨before, behind, rfl, rfl, hspan⟩ := Text.exists_append_of_chars hchars
      obtain ⟨covered, others, rfl, rfl, rfl⟩ := Text.exists_append_of_chars hspan
      have hpos := size_pos_of_chars hne
      simp only [Text.size_append] at hsize
      obtain ⟨a, htokens, hfew, hcomplete⟩ :=
        ih others.size (by omega) ((p.afterAll before.chars.toList).afterAll covered.chars.toList)
          others rfl
      refine ⟨⟨⟨before, covered, _⟩ :: a.cuts, a.stop, a.mode, a.trail, a.unread, ?_, ?_,
        .cons hfiller hclean hpos hspanClean hcut a.pieces, a.trail_filler, a.trail_clean,
        a.unread_nul⟩, ?_, ?_, ?_⟩
      · rw [Segment.bytes, Text.append_assoc, Text.append_assoc, ← a.bytes_eq]
      · rw [hchars, a.chars_eq, Segment.chars, Segment.chars, List.flatMap_cons]
        simp only [List.append_assoc]
      · rw [tokensFrom_cons (Prod.mk.eta).symm hcut.1, hafter, htokens]
        rfl
      · simp only [Account.tokens, List.map_cons, List.cons_append, List.length_cons] at hfew ⊢
        simp only [Text.size_append]
        omega
      · refine hcomplete.trans ⟨fun h => .goesOn hcut.1 (hafter ▸ h), fun h => ?_⟩
        generalize hcursor : (⟨p, (before ++ (covered ++ others)).chars.toList⟩ : Cursor) = cursor
          at h
        cases h with
        | ends hgap hgapClean _ =>
            have hno := hcut.1
            rw [hcursor, hgap.next_eof hgapClean] at hno
            cases hno
        | goesOn hno hrest =>
            rw [← hcursor, hafter] at hrest
            exact hrest

theorem Pieces.nul_notMem {p q : Position} {cuts : List Segment} (h : Pieces p cuts q) :
    '\x00' ∉ Segment.chars cuts := by
  induction h with
  | nil => exact List.not_mem_nil
  | cons _ hgap _ hspan _ _ ih =>
      rw [Segment.chars, List.flatMap_cons, List.mem_append, List.mem_append]
      rintro ((h | h) | h)
      · exact hgap h
      · exact hspan h
      · exact ih h

/-- What is never read begins with the first NUL character. -/
theorem Account.unread_eq_empty_iff {p : Position} {source : Text} (a : Account p source) :
    a.unread = .empty ↔ '\x00' ∉ source.chars.toList := by
  rw [a.chars_eq, List.mem_append, List.mem_append]
  constructor
  · rintro hnone (h | h | h)
    · exact a.pieces.nul_notMem h
    · exact a.trail_clean h
    · rw [hnone, Text.chars_empty] at h
      exact List.not_mem_nil h
  · exact fun hno => a.unread_nul.resolve_right fun hhead =>
      hno (Or.inr (Or.inr (List.mem_of_head? hhead)))

/-- A source is its tokens, in order, each cut from at least one byte of its own,
and between them blanks and closed comments only; the end of input comes behind
them at the latest.  Nothing is left out exactly where no NUL character and no
block comment that is never closed comes first. -/
theorem tokens_account (source : Text) :
    ∃ a : Account .start source, tokens source = a.tokens ∧ a.tokens.length ≤ source.size + 1 ∧
      (a.IsComplete ↔ ReachesEnd (Cursor.ofText source)) ∧
      (a.unread = .empty ↔ '\x00' ∉ source.chars.toList) := by
  obtain ⟨a, htokens, hfew, hcomplete⟩ := exists_account .start source
  exact ⟨a, htokens, hfew, hcomplete, a.unread_eq_empty_iff⟩

-- A NUL character hides the name behind it.
example : tokens (Text.ofString "a\x00b") =
    [⟨.name false, "a", ⟨1, 1⟩⟩, Token.eofAt ⟨1, 2⟩] := by
  rw [tokens, Cursor.ofText, Text.chars_ofString]
  exact (tokensFrom_cons rfl rfl).trans (congrArg _ (tokensFrom_end rfl rfl))

end Lexer

end Scriptlet
