/-
The tokens of a whole layout.  A layout is cut into the tokens of its words, and
its text determines its words.
-/
import Scriptlet.Proofs.Cutting

namespace Scriptlet

namespace Layout

def Gap.lines : Gap → Nat
  | .line _ => 1
  | _ => 0

def linesIn (ps : List Piece) : Nat := (ps.map fun p => p.gap.lines).sum

@[simp] theorem linesIn_nil : linesIn [] = 0 := rfl

@[simp] theorem linesIn_cons (p : Piece) (ps : List Piece) :
    linesIn (p :: ps) = p.gap.lines + linesIn ps := by
  simp [linesIn]

@[simp] theorem linesIn_append (ps qs : List Piece) :
    linesIn (ps ++ qs) = linesIn ps + linesIn qs := by
  simp [linesIn]

/-- Whether tokens are those of some pieces that follow a token on line `line`,
each on the line where its word was written. -/
def Laid (f : String → String) : Nat → List Piece → List Token → Prop
  | _, [], [] => True
  | line, p :: ps, t :: ts =>
    Lexer.ReadAs f t p.word ∧ t.position.line = line + p.gap.lines ∧
      Laid f (line + p.gap.lines) ps ts
  | _, _, _ => False

theorem laid_nil_iff {f : String → String} {line : Nat} {ts : List Token} :
    Laid f line [] ts ↔ ts = [] := by
  cases ts <;> simp [Laid]

theorem laid_cons_iff {f : String → String} {line : Nat} {p : Piece} {ps : List Piece}
    {ts : List Token} : Laid f line (p :: ps) ts ↔
      ∃ t rest, ts = t :: rest ∧ Lexer.ReadAs f t p.word ∧
        t.position.line = line + p.gap.lines ∧ Laid f (line + p.gap.lines) ps rest := by
  cases ts with
  | nil => simp [Laid]
  | cons t rest =>
      constructor
      · intro h
        exact ⟨t, rest, rfl, h⟩
      · rintro ⟨_, _, heq, h⟩
        cases heq
        exact h

theorem laid_append_iff {f : String → String} {line : Nat} {ps qs : List Piece}
    {ts : List Token} : Laid f line (ps ++ qs) ts ↔
      ∃ front back, ts = front ++ back ∧ Laid f line ps front ∧
        Laid f (line + linesIn ps) qs back := by
  induction ps generalizing line ts with
  | nil =>
      constructor
      · intro h
        exact ⟨[], ts, rfl, laid_nil_iff.mpr rfl, h⟩
      · rintro ⟨front, back, rfl, hfront, hback⟩
        rw [laid_nil_iff.mp hfront]
        exact hback
  | cons p ps ih =>
      rw [List.cons_append, laid_cons_iff]
      constructor
      · rintro ⟨t, rest, rfl, hread, hline, hrest⟩
        obtain ⟨front, back, rfl, hfront, hback⟩ := ih.mp hrest
        rw [linesIn_cons, ← Nat.add_assoc]
        exact ⟨t :: front, back, rfl, ⟨hread, hline, hfront⟩, hback⟩
      · rintro ⟨front, back, rfl, hfront, hback⟩
        obtain ⟨t, rest, rfl, hread, hline, hrest⟩ := laid_cons_iff.mp hfront
        rw [linesIn_cons, ← Nat.add_assoc] at hback
        exact ⟨t, rest ++ back, rfl, hread, hline, ih.mpr ⟨rest, back, rfl, hrest, hback⟩⟩

theorem Laid.length_eq {f : String → String} {line : Nat} {ps : List Piece} {ts : List Token}
    (h : Laid f line ps ts) : ts.length = ps.length := by
  induction ps generalizing line ts with
  | nil => rw [laid_nil_iff.mp h, List.length_nil, List.length_nil]
  | cons p ps ih =>
      obtain ⟨t, us, rfl, -, -, hus⟩ := laid_cons_iff.mp h
      rw [List.length_cons, List.length_cons, ih hus]

theorem linesIn_paramsPieces (ps : List Param) : linesIn (paramsPieces ps) = 0 := by
  have hmore : ∀ qs : List Param, linesIn (moreParamPieces qs) = 0 := by
    intro qs
    induction qs with
    | nil => rfl
    | cons q qs ih =>
        obtain ⟨name, hint⟩ := q
        rw [show moreParamPieces (⟨name, hint⟩ :: qs) =
          .close .comma :: paramPieces .blank ⟨name, hint⟩ ++ moreParamPieces qs from rfl,
          linesIn_append, ih]
        cases hint <;> rfl
  cases ps with
  | nil => rfl
  | cons p ps =>
      obtain ⟨name, hint⟩ := p
      rw [paramsPieces, linesIn_append, linesIn_append, hmore]
      cases hint <;> rfl

end Layout

namespace Lexer

open Layout

theorem twoSign?_eq_none {c d : Char} (h : d ≠ '=' ∧ d ≠ '&' ∧ d ≠ '|') : twoSign? c d = none := by
  obtain ⟨hequal, hboth, heither⟩ := h
  unfold twoSign?
  split <;> first | rfl | contradiction

/-- A blank or a line end may follow every word. -/
theorem ends_of_space {d : Char} (h : isSpace d = true) (w : Word) (tail : List Char) :
    Ends w (d :: tail) := by
  have hne : ∀ c, isSpace c = false → d ≠ c := by
    rintro c hc rfl
    rw [h] at hc
    exact Bool.noConfusion hc
  have hstops : ∀ keep : Char → Bool, (∀ c, keep c = true → isSpace c = false) →
      Stops keep (d :: tail) := by
    intro keep hkeep c hc
    cases hc
    cases hd : keep d with
    | false => rfl
    | true => exact absurd rfl (hne d (hkeep d hd))
  have hdigit : ∀ c, isDigit c = true → isSpace c = false := fun c hc =>
    (first_facts (Or.inr (Or.inl hc))).1
  have hname : ∀ c, isNameChar c = true → isSpace c = false := by
    intro c hc
    rcases Bool.or_eq_true_iff.mp hc with hc | hc
    · exact (first_facts (Or.inl hc)).1
    · exact hdigit c hc
  cases w with
  | sign s =>
      intro c _ e he
      cases he
      exact ⟨twoSign?_eq_none ⟨hne _ rfl, hne _ rfl, hne _ rfl⟩, fun _ => ⟨hne _ rfl, hne _ rfl⟩⟩
  | keyword k => exact hstops _ hname
  | name n => exact hstops _ hname
  | int v =>
      refine ⟨hstops _ hdigit, ?_⟩
      intro rest hrest
      cases hrest
      exact absurd h (by decide)
  | float x => exact hstops _ hdigit
  | str s => trivial

theorem Row.exists_tail {p : Piece} {ps : List Piece} {v : Word} (h : Row p ps v) :
    p.word.Legible ∧ ∃ tail, ps = p :: tail := by
  cases h with
  | one p hp => exact ⟨hp, [], rfl⟩
  | cons p q ps w hp _ _ => exact ⟨hp, ps, rfl⟩

theorem isDigit_of_isLetter {c : Char} (h : isLetter c = true) : isDigit c = false := by
  cases hd : isDigit c with
  | false => rfl
  | true =>
      rw [isLetter_of_isDigit hd] at h
      exact Bool.noConfusion h

/-- Only a name may follow a dot, with nothing between them. -/
theorem beside_dot {q : Piece} (h : beside (.sign .dot) q = true) :
    q.gap = .nothing ∧ ∃ n, q.word = .name n := by
  obtain ⟨g, w⟩ := q
  cases g with
  | nothing => cases w <;> simp_all [beside, Word.touches]
  | _ => simp [beside, Word.isDot] at h

/-- Behind a dot no digit stands. -/
theorem stops_after_dot {q : Piece} {tail : List Piece} {v : Word}
    (h : Row q (q :: tail) v) (hv : v.closes = true) (hdot : q.word = .sign .dot)
    (rest : List Char) : Stops isDigit (charsOf tail ++ rest) := by
  cases h with
  | one q hq =>
      rw [hdot] at hv
      exact absurd hv (by decide)
  | cons q r ps w hq hbeside hrow =>
      obtain ⟨hlegible, tail, rfl⟩ := Row.exists_tail hrow
      rw [hdot] at hbeside
      obtain ⟨hgap, n, hn⟩ := beside_dot hbeside
      rw [hn] at hlegible
      obtain ⟨⟨c, cs, htext, hc, -⟩, -⟩ := hlegible
      intro d hd
      have hchars : charsOf (r :: tail) = c :: (cs ++ charsOf tail) := by
        rw [charsOf_cons, Piece.chars, hgap, hn, Word.text, htext]
        rfl
      rw [hchars] at hd
      cases hd
      exact isDigit_of_isLetter hc

theorem isPunctuation_facts {c : Char} (h : isPunctuation c = true) :
    isNameChar c = false ∧ isDigit c = false := by
  simp only [isPunctuation, Bool.and_eq_true, Bool.not_eq_true'] at h
  obtain ⟨⟨⟨-, hletter⟩, hdigit⟩, -⟩ := h
  simp [isNameChar, hletter, hdigit]

theorem stops_cons {keep : Char → Bool} {c : Char} (h : keep c = false) (cs : List Char) :
    Stops keep (c :: cs) := by
  intro d hd
  cases hd
  exact h

theorem touches_sign {w : Word} {t : Sign} (h : w.touches (.sign t) = true) :
    w ≠ .sign .dot ∧ w ≠ .sign .slash ∧ staysApart t = true := by
  cases w with
  | sign s => cases s <;> simp_all [Word.touches]
  | _ => exact ⟨Word.noConfusion, Word.noConfusion, h⟩

theorem touches_word {w v : Word} (hv : ∀ t, v ≠ .sign t) (h : w.touches v = true) :
    ∃ s, w = .sign s := by
  cases w with
  | sign s => exact ⟨s, rfl⟩
  | _ =>
      cases v with
      | sign t => exact absurd rfl (hv t)
      | _ => exact absurd h Bool.noConfusion

/-- A word that stands right behind another does not change it. -/
theorem ends_of_touches {w : Word} {q : Piece} {tail : List Piece} {v : Word}
    (hrow : Row q (q :: tail) v) (hv : v.closes = true) (htouch : w.touches q.word = true)
    (rest : List Char) : Ends w (q.word.text.toList ++ (charsOf tail ++ rest)) := by
  obtain ⟨hlegible, -⟩ := Row.exists_tail hrow
  by_cases hsign : ∃ t, q.word = .sign t
  · obtain ⟨t, ht⟩ := hsign
    obtain ⟨c, cs, htext, hc, hdot, hapart⟩ := sign_first t
    rw [ht] at htouch
    obtain ⟨-, hslash, hstays⟩ := touches_sign htouch
    obtain ⟨hname, hdigit⟩ := isPunctuation_facts hc
    have hfirst : q.word.text.toList = c :: cs := by
      rw [ht]
      exact htext
    rw [hfirst, List.cons_append]
    cases w with
    | sign s =>
        intro e he d hd
        cases hd
        refine ⟨twoSign?_eq_none (hapart hstays), ?_⟩
        rintro rfl
        obtain ⟨e, es, hes, -, hcomment, -⟩ := sign_first s
        rw [he] at hes
        cases hes
        exact absurd (congrArg Word.sign (hcomment rfl)) hslash
    | keyword k => exact stops_cons hname _
    | name n => exact stops_cons hname _
    | int i =>
        refine ⟨stops_cons hdigit _, ?_⟩
        intro after hafter
        obtain ⟨rfl, rfl⟩ : t = .dot ∧ cs = [] := by
          cases hafter
          cases t <;> simp_all [Sign.text]
        cases hafter
        exact stops_after_dot hrow hv ht rest
    | float x => exact stops_cons hdigit _
    | str text => trivial
  · obtain ⟨s, rfl⟩ := touches_word (fun t ht => hsign ⟨t, ht⟩) htouch
    obtain ⟨c, cs, hfirst, hc⟩ := word_first hlegible (fun t ht => hsign ⟨t, ht⟩)
    obtain ⟨-, hslash, hstar, hsigns⟩ := first_facts hc
    rw [hfirst, List.cons_append]
    intro e _ d hd
    cases hd
    exact ⟨twoSign?_eq_none hsigns, fun _ => ⟨hslash, hstar⟩⟩

/-- What follows a word in a row does not change it. -/
theorem ends_of_row {p : Piece} {tail : List Piece} {v : Word} (h : Row p (p :: tail) v)
    (hv : v.closes = true) (rest : List Char) :
    Ends p.word (charsOf tail ++ '\n' :: rest) := by
  cases h with
  | one p hp => exact ends_of_space rfl _ _
  | cons p q ps w hp hbeside hrow =>
      obtain ⟨-, tail, rfl⟩ := Row.exists_tail hrow
      obtain ⟨g, word⟩ := q
      rw [charsOf_cons, Piece.chars_mk, List.append_assoc, List.append_assoc]
      cases g with
      | nothing => exact ends_of_touches hrow hv hbeside _
      | blank => exact ends_of_space rfl _ _
      | line depth => exact ends_of_space rfl _ _

theorem line_afterAll_gap (g : Gap) (p : Position) :
    (p.afterAll g.chars).line = p.line + g.lines := by
  cases g with
  | nothing => rfl
  | blank => rfl
  | line depth =>
      have hblanks : ∀ c ∈ List.replicate (4 * depth) ' ', c ≠ '\n' := by
        intro c hc
        rw [List.eq_of_mem_replicate hc]
        decide
      exact (p.after '\n').line_afterAll hblanks

/-- The first piece of a row is the next token. -/
theorem next_row {p : Piece} {tail : List Piece} {v : Word} (h : Row p (p :: tail) v)
    (hv : v.closes = true) (pos : Position) (rest : List Char) :
    ∃ t q, next ⟨pos, charsOf (p :: tail) ++ '\n' :: rest⟩ =
        (t, ⟨q, charsOf tail ++ '\n' :: rest⟩) ∧
      t.position.line = pos.line + p.gap.lines ∧ q.line = pos.line + p.gap.lines ∧
      ReadAs reread t p.word := by
  obtain ⟨hlegible, -⟩ := Row.exists_tail h
  have hends := ends_of_row h hv rest
  obtain ⟨t, q, htoken, hposition, hq, hread⟩ :=
    cutAs_word hlegible hends (pos.afterAll p.gap.chars)
  have hline := line_afterAll_gap p.gap pos
  refine ⟨t, q, ?_, ?_, hq.trans hline, hread⟩
  · rw [next, charsOf_cons, Piece.chars, List.append_assoc, List.append_assoc,
      skip_spaces (isSpace_gap p.gap), skip_word hlegible hends _, htoken]
  · rw [hposition, hline]

theorem tokensFrom_cons {cursor after : Cursor} {t : Token} (h : next cursor = (t, after))
    (ht : t.isEof = false) : tokensFrom cursor = t :: tokensFrom after := by
  rw [tokensFrom]
  split
  rename_i token rest hnext
  rw [h] at hnext
  cases hnext
  simp [ht]

theorem tokensFrom_end {cursor after : Cursor} {t : Token} (h : next cursor = (t, after))
    (ht : t.isEof = true) : tokensFrom cursor = [t] := by
  rw [tokensFrom]
  split
  rename_i token rest hnext
  rw [h] at hnext
  cases hnext
  simp [ht]

theorem tokensFrom_nil (p : Position) : tokensFrom ⟨p, []⟩ = [Token.eofAt p] :=
  tokensFrom_end rfl rfl

theorem tokensFrom_congr {c c' : Cursor} (h : next c = next c') : tokensFrom c = tokensFrom c' := by
  rcases hnext : next c with ⟨t, after⟩
  rw [hnext] at h
  by_cases ht : t.isEof = true
  · rw [tokensFrom_end hnext ht, tokensFrom_end h.symm ht]
  · have ht := Bool.eq_false_iff.mpr ht
    rw [tokensFrom_cons hnext ht, tokensFrom_cons h.symm ht]

theorem isEof_of_readAs {f : String → String} {t : Token} {w : Word} (h : ReadAs f t w) :
    t.isEof = false := by
  cases w with
  | name n =>
      have hname := h.1
      unfold Token.isName at hname
      unfold Token.isEof
      cases hk : t.kind <;> simp_all
  | str s => simp [Token.isEof, h.1]
  | sign s => simp [Token.isEof, show t.kind = .sign s from h]
  | keyword k => simp [Token.isEof, show t.kind = .keyword k from h]
  | int v => simp [Token.isEof, show t.kind = .int v from h]
  | float x => simp [Token.isEof, show t.kind = .float x from h]

/-- Behind the last line end there is nothing. -/
theorem tokensFrom_line_end (pos : Position) :
    tokensFrom ⟨pos, ['\n']⟩ = [Token.eofAt (pos.after '\n')] := by
  have hnext : next ⟨pos, ['\n']⟩ = (Token.eofAt (pos.after '\n'), ⟨pos.after '\n', []⟩) := rfl
  exact tokensFrom_end hnext rfl

/-- The tokens of a row, and the end of input on the line behind it. -/
theorem tokensFrom_row {p : Piece} {ps : List Piece} {v : Word} (h : Row p ps v)
    (hv : v.closes = true) (pos : Position) :
    ∃ (ts : List Token) (final : Token),
      tokensFrom ⟨pos, charsOf ps ++ ['\n']⟩ = ts ++ [final] ∧
      Laid reread pos.line ps ts ∧ final.isEof = true ∧
      final.position.line = pos.line + linesIn ps + 1 := by
  induction h generalizing pos with
  | one p hp =>
      obtain ⟨t, q, hnext, hline, hq, hread⟩ := next_row (.one p hp) hv pos []
      refine ⟨[t], Token.eofAt (q.after '\n'), ?_, ⟨hread, hline, trivial⟩, rfl, ?_⟩
      · rw [tokensFrom_cons hnext (isEof_of_readAs hread), charsOf_nil, List.nil_append,
          tokensFrom_line_end]
        rfl
      · change q.line + 1 = _
        rw [hq]
        rfl
  | cons p r ps w hp hbeside hrow ih =>
      obtain ⟨t, q, hnext, hline, hq, hread⟩ := next_row (.cons p r ps w hp hbeside hrow) hv pos []
      obtain ⟨ts, final, htokens, hlaid, hend, hfinal⟩ := ih hv q
      rw [hq] at hlaid hfinal
      refine ⟨t :: ts, final, ?_, ⟨hread, hline, hlaid⟩, hend, ?_⟩
      · rw [tokensFrom_cons hnext (isEof_of_readAs hread), htokens]
        rfl
      · rw [hfinal, linesIn_cons]
        omega

/-- Two words that are written alike and read as the same token are one. -/
theorem word_eq_of_readAs {f : String → String} {t : Token} {w v : Word} (hw : ReadAs f t w)
    (hv : ReadAs f t v) (htext : w.text = v.text) : w = v := by
  cases w with
  | sign s => cases v <;> simp_all [ReadAs, Token.isName]
  | keyword k => cases v <;> simp_all [ReadAs, Token.isName]
  | name n =>
      cases v with
      | name m => exact congrArg Word.name htext
      | _ => simp_all [ReadAs, Token.isName]
  | int i => cases v <;> simp_all [ReadAs, Token.isName]
  | float x => cases v <;> simp_all [ReadAs, Token.isName]
  | str s =>
      cases v with
      | str r => exact congrArg Word.str (Text.quoteString_inj htext)
      | _ => simp_all [ReadAs, Token.isName]

theorem gap_chars_inj {g h : Gap} (heq : g.chars = h.chars) : g = h := by
  cases g with
  | nothing => cases h <;> simp_all [Gap.chars]
  | blank => cases h <;> simp_all [Gap.chars]
  | line m =>
      cases h with
      | line n =>
          have hlength := congrArg List.length heq
          simp only [Gap.chars, List.length_cons, List.length_replicate] at hlength
          obtain rfl : m = n := by omega
          rfl
      | _ => simp_all [Gap.chars]

/-- A gap ends where a character that is no blank stands. -/
theorem gap_takeWhile (g : Gap) {c : Char} {cs : List Char} (h : isSpace c = false) :
    (g.chars ++ c :: cs).takeWhile isSpace = g.chars := by
  have hstops : Stops isSpace (c :: cs) := stops_cons h cs
  exact (takeWhile_append_of_stops (isSpace_gap g) hstops).1

/-- The characters of a piece, with a token read from them, determine it. -/
theorem piece_eq_of_readAs {f : String → String} {t : Token} {p q : Piece}
    (hp : p.word.Legible) (hq : q.word.Legible) (hread : ReadAs f t p.word)
    (hread' : ReadAs f t q.word) (heq : p.chars = q.chars) : p = q := by
  obtain ⟨g, w⟩ := p
  obtain ⟨g', v⟩ := q
  obtain ⟨c, cs, hw, hc⟩ := word_starts hp
  obtain ⟨d, ds, hv, hd⟩ := word_starts hq
  have hgap : g = g' := by
    have htake := congrArg (List.takeWhile isSpace) heq
    simp only [Piece.chars_mk] at htake
    rw [hw, hv, gap_takeWhile g hc, gap_takeWhile g' hd] at htake
    exact gap_chars_inj htake
  subst hgap
  have htext : w.text.toList = v.text.toList := List.append_cancel_left heq
  have hword : w = v := word_eq_of_readAs hread hread' (String.toList_inj.mp htext)
  rw [hword]

/-- The text of a row determines its first piece, and the text of the others. -/
theorem row_head_eq {p q : Piece} {ps qs : List Piece} {v w : Word} (hp : Row p (p :: ps) v)
    (hq : Row q (q :: qs) w) (hv : v.closes = true) (hw : w.closes = true)
    (heq : charsOf (p :: ps) = charsOf (q :: qs)) : p = q ∧ charsOf ps = charsOf qs := by
  obtain ⟨t, after, hnext, -, -, hread⟩ := next_row hp hv .start []
  obtain ⟨u, after', hnext', -, -, hread'⟩ := next_row hq hw .start []
  rw [← heq, hnext] at hnext'
  simp only [Prod.mk.injEq, Cursor.mk.injEq] at hnext'
  obtain ⟨rfl, -, hrest⟩ := hnext'
  have htail : charsOf ps = charsOf qs := List.append_cancel_right hrest
  have hchars : p.chars = q.chars := by
    rw [charsOf_cons, charsOf_cons, htail] at heq
    exact List.append_cancel_right heq
  exact ⟨piece_eq_of_readAs (Row.exists_tail hp).1 (Row.exists_tail hq).1 hread hread' hchars,
    htail⟩

theorem charsOf_row_ne_nil {p : Piece} {ps : List Piece} {v : Word} (h : Row p ps v) :
    charsOf ps ≠ [] := by
  obtain ⟨hp, tail, rfl⟩ := Row.exists_tail h
  obtain ⟨c, cs, hc, -⟩ := word_starts hp
  intro hnil
  rw [charsOf_cons, Piece.chars, hc] at hnil
  simp at hnil

/-- The text of a row determines its pieces. -/
theorem row_eq_of_charsOf_eq {p q : Piece} {ps qs : List Piece} {v w : Word} (hp : Row p ps v)
    (hq : Row q qs w) (hv : v.closes = true) (hw : w.closes = true)
    (heq : charsOf ps = charsOf qs) : ps = qs := by
  induction hp generalizing q qs with
  | one p hlegible =>
      cases hq with
      | one q hq => rw [(row_head_eq (.one p hlegible) (.one q hq) hv hw heq).1]
      | cons q r qs w hq hbeside hrow =>
          have htail := (row_head_eq (.one p hlegible) (.cons q r qs w hq hbeside hrow) hv hw heq).2
          exact absurd htail.symm (charsOf_row_ne_nil hrow)
  | cons p r ps v hlegible hbeside hrow ih =>
      have hfirst : Row p (p :: ps) v := .cons p r ps v hlegible hbeside hrow
      cases hq with
      | one q hq =>
          have htail := (row_head_eq hfirst (.one q hq) hv hw heq).2
          exact absurd htail (charsOf_row_ne_nil hrow)
      | cons q r' qs w hq hbeside' hrow' =>
          obtain ⟨rfl, htail⟩ := row_head_eq hfirst (.cons q r' qs w hq hbeside' hrow') hv hw heq
          rw [ih hrow' hv htail]

end Lexer

end Scriptlet
