/-
Sources that write the line breaks in their string literals differently.  A
literal stands on the line on which it begins, so a line break in it, written as
it is, puts what follows the closing quote on another line.  Where that is
neither an operator, a call or a subscript nor what a statement may not end
before, both sources are read as the same statements.
-/
import Scriptlet.Proofs.BreakSteps
import Scriptlet.Proofs.Joining

namespace Scriptlet

namespace Position

/-- Whether `q` stands as many lines below `p` as `q'` below `p'`. -/
def Apart (p q p' q' : Position) : Prop := q.line + p'.line = q'.line + p.line

variable {p q r p' q' r' : Position}

theorem Apart.refl (p p' : Position) : p.Apart p p' p' := Nat.add_comm _ _

theorem Apart.symm (h : p.Apart q p' q') : q.Apart p q' p' := by
  unfold Apart at *
  omega

theorem Apart.trans (h : p.Apart q p' q') (h' : q.Apart r q' r') : p.Apart r p' r' := by
  unfold Apart at *
  omega

theorem apart_after (p p' : Position) (c : Char) : p.Apart (p.after c) p' (p'.after c) := by
  unfold Apart after
  split <;> dsimp only <;> omega

theorem apart_afterAll (p p' : Position) (cs : List Char) :
    p.Apart (p.afterAll cs) p' (p'.afterAll cs) := by
  induction cs generalizing p p' with
  | nil => exact .refl p p'
  | cons c cs ih => exact (apart_after p p' c).trans (ih _ _)

end Position

namespace Lexer

open Position

/-- What a character belongs to: a string literal, or what is outside of any. -/
inductive Region where
  | outside (mode : Skipping)
  | literal
deriving DecidableEq

def escapeBreaks : Region → List Char → List Char
  | _, [] => []
  | .outside .blanks, '/' :: '/' :: cs => '/' :: '/' :: escapeBreaks (.outside .lineComment) cs
  | .outside .blanks, '/' :: '*' :: cs => '/' :: '*' :: escapeBreaks (.outside .blockComment) cs
  | .outside .blanks, c :: cs =>
    if c = '\x00' then c :: cs
    else c :: escapeBreaks (if c = '"' then .literal else .outside .blanks) cs
  | .outside .lineComment, c :: cs =>
    if c = '\x00' then c :: cs
    else c :: escapeBreaks (.outside (if c = '\n' then .blanks else .lineComment)) cs
  | .outside .blockComment, '*' :: '/' :: cs => '*' :: '/' :: escapeBreaks (.outside .blanks) cs
  | .outside .blockComment, c :: cs =>
    if c = '\x00' then c :: cs else c :: escapeBreaks (.outside .blockComment) cs
  | .literal, '\\' :: c :: cs =>
    if c = '\x00' then '\\' :: c :: cs else '\\' :: c :: escapeBreaks .literal cs
  | .literal, c :: cs =>
    if c = '\x00' then c :: cs
    else if c = '\n' then '\\' :: 'n' :: escapeBreaks .literal cs
    else c :: escapeBreaks (if c = '"' then .outside .blanks else .literal) cs

abbrev escaped (cs : List Char) : List Char := escapeBreaks (.outside .blanks) cs

def NoComment (c : Char) (cs : List Char) : Prop :=
  c = '/' → ∀ d, cs.head? = some d → d ≠ '/' ∧ d ≠ '*'

theorem noComment_of_ne {c : Char} {cs : List Char}
    (hline : ∀ tail, c = '/' → cs = '/' :: tail → False)
    (hblock : ∀ tail, c = '/' → cs = '*' :: tail → False) : NoComment c cs := by
  rintro rfl d hd
  obtain ⟨tail, rfl⟩ := List.head?_eq_some_iff.mp hd
  refine ⟨?_, ?_⟩
  · rintro rfl
    exact hline tail rfl rfl
  · rintro rfl
    exact hblock tail rfl rfl

/-- Outside of comments and literals a character is kept. -/
theorem escaped_cons {c : Char} {cs : List Char} (hnul : c ≠ '\x00') (hcomment : NoComment c cs) :
    escaped (c :: cs) =
      c :: escapeBreaks (if c = '"' then .literal else .outside .blanks) cs := by
  rw [escaped, escapeBreaks, if_neg hnul]
  · rintro tail rfl rfl
    exact (hcomment rfl '/' rfl).1 rfl
  · rintro tail rfl rfl
    exact (hcomment rfl '*' rfl).2 rfl

/-- A character that begins no comment and no literal is kept. -/
theorem escaped_plain {c : Char} (hnul : c ≠ '\x00') (hslash : c ≠ '/') (hquote : c ≠ '"')
    (cs : List Char) : escaped (c :: cs) = c :: escaped cs := by
  rw [escaped_cons hnul fun h => absurd h hslash, if_neg hquote]

/-- In a block comment that is not closed yet a character is kept. -/
theorem escapeBreaks_blockComment {c : Char} {cs : List Char} (hnul : c ≠ '\x00')
    (hopen : c = '*' → cs.head? ≠ some '/') :
    escapeBreaks (.outside .blockComment) (c :: cs) =
      c :: escapeBreaks (.outside .blockComment) cs := by
  rw [escapeBreaks, if_neg hnul]
  rintro tail rfl rfl
  exact hopen rfl rfl

/-- Outside of literals the next character is kept. -/
theorem head?_escapeBreaks (mode : Skipping) (cs : List Char) :
    (escapeBreaks (.outside mode) cs).head? = cs.head? := by
  cases cs with
  | nil => cases mode <;> rfl
  | cons c cs =>
      by_cases hnul : c = '\x00'
      · rw [hnul]
        cases mode <;> rfl
      cases mode with
      | blanks =>
          by_cases hopens : c = '/' ∧ (cs.head? = some '/' ∨ cs.head? = some '*')
          · obtain ⟨rfl, hnext | hnext⟩ := hopens
            all_goals
              obtain ⟨tail, rfl⟩ := List.head?_eq_some_iff.mp hnext
              rfl
          · have hcomment : NoComment c cs := noComment_of_ne
              (fun tail hc hcs => hopens ⟨hc, Or.inl (hcs ▸ rfl)⟩)
              (fun tail hc hcs => hopens ⟨hc, Or.inr (hcs ▸ rfl)⟩)
            rw [← escaped, escaped_cons hnul hcomment, List.head?_cons, List.head?_cons]
      | lineComment => rw [escapeBreaks, if_neg hnul, List.head?_cons, List.head?_cons]
      | blockComment =>
          by_cases hcloses : c = '*' ∧ cs.head? = some '/'
          · obtain ⟨rfl, hnext⟩ := hcloses
            obtain ⟨tail, rfl⟩ := List.head?_eq_some_iff.mp hnext
            rfl
          · have hopen : c = '*' → cs.head? ≠ some '/' := fun hc hnext => hcloses ⟨hc, hnext⟩
            rw [escapeBreaks_blockComment hnul hopen, List.head?_cons, List.head?_cons]

theorem escaped_eq_cons (c : Char) (cs : List Char) : ∃ tail, escaped (c :: cs) = c :: tail :=
  List.head?_eq_some_iff.mp (head?_escapeBreaks .blanks (c :: cs))

/-- What stays ended stays so. -/
theorem escaped_ends {cs : List Char} (h : cs = [] ∨ cs.head? = some '\x00') :
    escaped cs = cs := by
  rcases h with rfl | h
  · rfl
  · obtain ⟨tail, rfl⟩ := List.head?_eq_some_iff.mp h
    rfl

theorem span_escaped (keep : Char → Bool) (hnul : keep '\x00' = false)
    (hslash : keep '/' = false) (hquote : keep '"' = false) (cs : List Char) :
    (escaped cs).takeWhile keep = cs.takeWhile keep ∧
      (escaped cs).dropWhile keep = escaped (cs.dropWhile keep) := by
  induction cs with
  | nil => exact ⟨rfl, rfl⟩
  | cons c cs ih =>
      by_cases hc : keep c = true
      · have hne : ∀ {d : Char}, keep d = false → c ≠ d := by
          rintro d hd rfl
          rw [hc] at hd
          cases hd
        rw [escaped_plain (hne hnul) (hne hslash) (hne hquote), List.takeWhile_cons_of_pos hc,
          List.takeWhile_cons_of_pos hc, List.dropWhile_cons_of_pos hc,
          List.dropWhile_cons_of_pos hc, ih.1]
        exact ⟨rfl, ih.2⟩
      · obtain ⟨tail, htail⟩ := escaped_eq_cons c cs
        rw [List.takeWhile_cons_of_neg hc, List.dropWhile_cons_of_neg hc, htail]
        exact ⟨List.takeWhile_cons_of_neg hc, List.dropWhile_cons_of_neg hc⟩

/-- Behind what is passed over no comment begins. -/
theorem skip_begins (mode : Skipping) (p : Position) (cs : List Char) {c : Char} {tail : List Char}
    (h : (skip mode p cs).rest = c :: tail) (hnul : c ≠ '\x00') : NoComment c tail := by
  fun_induction skip mode p cs with
  | case1 => cases h
  | case2 p cs ih => exact ih h
  | case3 p cs ih => exact ih h
  | case4 p d cs hline hblock hspace ih => exact ih h
  | case5 p d cs hline hblock hspace =>
      obtain ⟨rfl, rfl⟩ := List.cons.inj h
      exact noComment_of_ne hline hblock
  | case6 p cs ih => exact ih h
  | case7 p cs hline => exact absurd (List.cons.inj h).1.symm hnul
  | case8 p d cs hline hd ih => exact ih h
  | case9 p cs ih => exact ih h
  | case10 p cs hclose => exact absurd (List.cons.inj h).1.symm hnul
  | case11 p d cs hclose hd ih => exact ih h

/-- The same blanks and comments are passed over. -/
theorem skip_escaped (mode : Skipping) (p q : Position) (cs : List Char) :
    ∃ q', skip mode q (escapeBreaks (.outside mode) cs) = ⟨q', escaped (skip mode p cs).rest⟩ ∧
      p.Apart (skip mode p cs).position q q' := by
  fun_induction skip mode p cs generalizing q with
  | case1 mode p => exact ⟨q, by cases mode <;> rfl, .refl p q⟩
  | case2 p cs ih =>
      obtain ⟨q', hskip, hapart⟩ := ih ((q.after '/').after '/')
      exact ⟨q', hskip, ((apart_after p q '/').trans (apart_after _ _ '/')).trans hapart⟩
  | case3 p cs ih =>
      obtain ⟨q', hskip, hapart⟩ := ih ((q.after '/').after '*')
      exact ⟨q', hskip, ((apart_after p q '/').trans (apart_after _ _ '*')).trans hapart⟩
  | case4 p c cs hline hblock hspace ih =>
      obtain ⟨q', hskip, hapart⟩ := ih (q.after c)
      refine ⟨q', ?_, (apart_after p q c).trans hapart⟩
      have hne : ∀ {d : Char}, isSpace d = false → c ≠ d := by
        rintro d hd rfl
        rw [hspace] at hd
        cases hd
      rw [← escaped, escaped_plain (hne rfl) (hne rfl) (hne rfl), skip_space hspace, hskip]
  | case5 p c cs hline hblock hspace =>
      refine ⟨q, ?_, .refl p q⟩
      by_cases hnul : c = '\x00'
      · rw [hnul]
        rfl
      have hcomment : NoComment c cs := noComment_of_ne hline hblock
      rw [← escaped, escaped_cons hnul hcomment]
      refine skip_stops (Bool.eq_false_iff.mpr hspace) ?_ q
      rintro rfl d hd
      refine hcomment rfl d ?_
      rwa [if_neg (by decide), head?_escapeBreaks] at hd
  | case6 p cs ih =>
      obtain ⟨q', hskip, hapart⟩ := ih (q.after '\n')
      exact ⟨q', hskip, (apart_after p q '\n').trans hapart⟩
  | case7 p cs hline => exact ⟨q, rfl, .refl p q⟩
  | case8 p c cs hline hnul ih =>
      obtain ⟨q', hskip, hapart⟩ := ih (q.after c)
      refine ⟨q', ?_, (apart_after p q c).trans hapart⟩
      rw [escapeBreaks, if_neg hnul, if_neg hline, skip, if_neg hline, if_neg hnul, hskip]
  | case9 p cs ih =>
      obtain ⟨q', hskip, hapart⟩ := ih ((q.after '*').after '/')
      exact ⟨q', hskip, ((apart_after p q '*').trans (apart_after _ _ '/')).trans hapart⟩
  | case10 p cs hclose => exact ⟨q, rfl, .refl p q⟩
  | case11 p c cs hclose hnul ih =>
      obtain ⟨q', hskip, hapart⟩ := ih (q.after c)
      refine ⟨q', ?_, (apart_after p q c).trans hapart⟩
      have hopen : c = '*' → cs.head? ≠ some '/' := by
        rintro rfl hd
        obtain ⟨tail, rfl⟩ := List.head?_eq_some_iff.mp hd
        exact hclose tail rfl rfl
      rw [escapeBreaks_blockComment hnul hopen, skip, if_neg hnul, hskip]
      rintro tail rfl htail
      refine hopen rfl ?_
      rw [← head?_escapeBreaks .blockComment, htail, List.head?_cons]

/-- A string literal is read as the same characters. -/
theorem readString_escaped (done : List Char) (p q : Position) (cs : List Char) :
    ∃ q', readString done q (escapeBreaks .literal cs) =
      ⟨(readString done p cs).value, (readString done p cs).closed,
        ⟨q', escaped (readString done p cs).after.rest⟩⟩ := by
  fun_induction readString done p cs generalizing q with
  | case1 done p => exact ⟨q, rfl⟩
  | case2 done p => exact ⟨q.after '\\', rfl⟩
  | case3 done p cs => exact ⟨q.after '\\', rfl⟩
  | case4 done p c cs hnul ih =>
      rw [escapeBreaks, if_neg hnul, readString, if_neg hnul]
      exact ih _
  | case5 done p cs => exact ⟨q.after '"', rfl⟩
  | case6 done p cs hquote => exact ⟨q, rfl⟩
  | case7 done p c cs hone htwo hquote hnul ih =>
      have hescape : c ≠ '\\' := by
        rintro rfl
        cases cs with
        | nil => exact hone rfl rfl
        | cons d cs => exact htwo d cs rfl rfl
      rw [escapeBreaks, if_neg hnul]
      · by_cases hline : c = '\n'
        · subst hline
          exact ih _
        · rw [if_neg hline, if_neg hquote, readString, if_neg hquote, if_neg hnul]
          · exact ih _
          · exact fun h => absurd h hescape
          · exact fun _ _ h => absurd h hescape
      · exact fun _ _ h => absurd h hescape

/-- Whether a token and what follows it are the same in a source and in the one
with escapes.  Only behind a string literal, and at the end of what is read, may
the places of what follows drift apart. -/
structure CutAlike (p q : Position) (found found' : Token × Cursor) : Prop where
  same : found.1.Same found'.1
  place : p.Apart found.1.position q found'.1.position
  rest : found'.2.rest = escaped found.2.rest
  after : p.Apart found.2.position q found'.2.position ∨ found.1.kind = .str ∨
    found.2.rest = [] ∨ found.2.rest.head? = some '\x00'

variable (p q : Position)

theorem cutAlike_word (kind : TokenKind) (word rest : List Char) :
    CutAlike p q (wordToken kind word p rest) (wordToken kind word q (escaped rest)) :=
  ⟨⟨rfl, rfl⟩, .refl p q, rfl, Or.inl (apart_afterAll p q word)⟩

theorem cutAlike_number (cs : List Char) :
    CutAlike p q (numberToken p cs) (numberToken q (escaped cs)) := by
  have hspan := span_escaped isDigit rfl rfl rfl
  obtain ⟨htake, hdrop⟩ := hspan cs
  unfold numberToken
  rw [htake, hdrop]
  dsimp only
  rcases cs.dropWhile isDigit with _ | ⟨c, rest⟩
  · exact cutAlike_word p q _ _ _
  by_cases hc : c = '.'
  · subst hc
    rw [escaped_plain (by decide) (by decide) (by decide)]
    cases rest with
    | nil => exact cutAlike_word p q _ _ _
    | cons d rest =>
        obtain ⟨tail, htail⟩ := escaped_eq_cons d rest
        obtain ⟨htake, hdrop⟩ := hspan (d :: rest)
        rw [htail] at htake hdrop ⊢
        by_cases hd : isDigit d = true
        · simp only [if_pos hd, htake, hdrop]
          exact cutAlike_word p q _ _ _
        · simp only [if_neg hd]
          have hword := cutAlike_word p q (intKind (cs.takeWhile isDigit)) (cs.takeWhile isDigit)
            ('.' :: d :: rest)
          rwa [escaped_plain (by decide) (by decide) (by decide), htail] at hword
  · obtain ⟨tail, htail⟩ := escaped_eq_cons c rest
    have hword := cutAlike_word p q (intKind (cs.takeWhile isDigit)) (cs.takeWhile isDigit)
      (c :: rest)
    rw [htail] at hword ⊢
    split
    · rename_i heq
      exact absurd (List.cons.inj heq).1 hc
    split
    · rename_i heq
      exact absurd (List.cons.inj heq).1 hc
    exact hword

theorem cutAlike_sign (c : Char) (cs : List Char) :
    CutAlike p q (signToken p c cs) (signToken q c (escaped cs)) := by
  cases cs with
  | nil =>
      simp only [signToken, escaped, escapeBreaks]
      split <;> exact cutAlike_word p q _ _ []
  | cons d rest =>
      obtain ⟨tail, htail⟩ := escaped_eq_cons d rest
      rw [htail]
      unfold signToken
      dsimp only
      cases htwo : twoSign? c d with
      | some s =>
          have hd : d = '=' ∨ d = '&' ∨ d = '|' := by
            by_contra hno
            simp only [not_or] at hno
            rw [twoSign?_eq_none hno] at htwo
            cases htwo
          have hplain : escaped (d :: rest) = d :: escaped rest := by
            rcases hd with rfl | rfl | rfl <;> rfl
          obtain rfl : tail = escaped rest := by
            rw [htail] at hplain
            exact (List.cons.inj hplain).2
          exact cutAlike_word p q _ _ _
      | none =>
          dsimp only
          rw [← htail]
          split <;> exact cutAlike_word p q _ _ _

theorem cutAlike_string (cs : List Char) :
    CutAlike p q (stringToken p cs) (stringToken q (escapeBreaks .literal cs)) := by
  obtain ⟨q', hread⟩ := readString_escaped [] (p.after '"') (q.after '"') cs
  have hends := stringToken_ends p cs
  unfold stringToken at hends ⊢
  rw [hread]
  refine ⟨⟨rfl, rfl⟩, .refl p q, rfl, Or.inr ?_⟩
  refine hends.imp_left fun hlegal => ?_
  dsimp only at hlegal ⊢
  cases hclosed : (readString [] (p.after '"') cs).closed with
  | true => rfl
  | false =>
      rw [hclosed] at hlegal
      cases hlegal

theorem cutAlike_tokenAt {cs : List Char}
    (hbegins : ∀ c tail, cs = c :: tail → c ≠ '\x00' → NoComment c tail) :
    CutAlike p q (tokenAt ⟨p, cs⟩) (tokenAt ⟨q, escaped cs⟩) := by
  by_cases hend : cs = [] ∨ cs.head? = some '\x00'
  · rw [escaped_ends hend, tokenAt_eof hend, tokenAt_eof hend]
    exact ⟨⟨rfl, rfl⟩, .refl p q, (escaped_ends hend).symm, Or.inl (.refl p q)⟩
  obtain ⟨hsome, hhead⟩ := not_or.mp hend
  obtain ⟨c, cs, rfl⟩ := List.exists_cons_of_ne_nil hsome
  have hnul : c ≠ '\x00' := fun h => hhead (h ▸ rfl)
  have hcons := escaped_cons hnul (hbegins c cs rfl hnul)
  have hspan := span_escaped isNameChar rfl rfl rfl (c :: cs)
  have hnumber := cutAlike_number p q (c :: cs)
  rw [hcons] at hspan hnumber ⊢
  simp only [tokenAt, if_neg hnul]
  by_cases hquote : c = '"'
  · simp only [if_pos hquote]
    exact cutAlike_string p q cs
  simp only [if_neg hquote] at hspan hnumber ⊢
  by_cases hletter : isLetter c = true
  · rw [if_pos hletter, if_pos hletter, hspan.1, hspan.2]
    exact cutAlike_word p q _ _ _
  rw [if_neg hletter, if_neg hletter]
  by_cases hdigit : isDigit c = true
  · rw [if_pos hdigit, if_pos hdigit]
    exact hnumber
  · rw [if_neg hdigit, if_neg hdigit]
    exact cutAlike_sign p q c cs

/-- The same token is next. -/
theorem cutAlike_next (cs : List Char) :
    CutAlike p q (next ⟨p, cs⟩) (next ⟨q, escaped cs⟩) := by
  obtain ⟨q', hskip, hapart⟩ := skip_escaped .blanks p q cs
  have hcut := cutAlike_tokenAt (skip .blanks p cs).position q' fun c tail h hnul =>
    skip_begins .blanks p cs h hnul
  rw [next_of_skip hskip]
  exact ⟨hcut.same, hapart.trans hcut.place, hcut.rest, hcut.after.imp_left hapart.trans⟩

/-- Whether two neighbours stand on one line in both texts or in neither, but
for what follows a string literal and for the end of input. -/
def Strays (t u t' u' : Token) : Prop :=
  t.breaks u = t'.breaks u' ∨ t.kind = .str ∨ u.isEof = true

theorem breaks_of_apart {t u t' u' : Token}
    (h : t.position.Apart u.position t'.position u'.position) : t.breaks u = t'.breaks u' := by
  unfold Position.Apart at h
  rw [Token.breaks, Token.breaks, Bool.eq_iff_iff, bne_iff_ne, bne_iff_ne]
  omega

theorem isEof_next {cs : List Char} (h : cs = [] ∨ cs.head? = some '\x00') (p : Position) :
    (next ⟨p, cs⟩).1.isEof = true := by
  rcases h with rfl | h
  · rfl
  · obtain ⟨tail, rfl⟩ := List.head?_eq_some_iff.mp h
    rfl

/-- A source and the one with escapes have the same tokens. -/
theorem paired_escaped (cs : List Char) :
    Paired Strays (tokensFrom ⟨p, cs⟩) (tokensFrom ⟨q, escaped cs⟩) := by
  induction hlen : cs.length using Nat.strong_induction_on generalizing p q cs with
  | _ n ih =>
      have hcut := cutAlike_next p q cs
      rcases hnext : next ⟨p, cs⟩ with ⟨t, r, rest⟩
      rcases hnext' : next ⟨q, escaped cs⟩ with ⟨t', r', rest'⟩
      rw [hnext, hnext'] at hcut
      obtain ⟨hsame, hplace, rfl, hafter⟩ := hcut
      by_cases heof : t.isEof = true
      · rw [tokensFrom_end hnext heof, tokensFrom_end hnext' (hsame.isEof ▸ heof)]
        exact .last hsame
      have heof := Bool.eq_false_iff.mpr heof
      rw [tokensFrom_cons hnext heof, tokensFrom_cons hnext' (hsame.isEof ▸ heof)]
      have hless := next_rest_length_lt ⟨p, cs⟩ (by rw [hnext]; exact heof)
      rw [hnext] at hless
      have hmore := ih _ (hlen ▸ hless) r r' rest rfl
      obtain ⟨us, hus⟩ := tokensFrom_eq_cons ⟨r, rest⟩
      obtain ⟨us', hus'⟩ := tokensFrom_eq_cons ⟨r', escaped rest⟩
      rw [hus, hus'] at hmore ⊢
      refine .cons hsame ?_ hmore
      rcases hafter with hapart | hstr | hend
      · have hahead := (cutAlike_next r r' rest).place
        exact Or.inl (breaks_of_apart (hplace.symm.trans (hapart.trans hahead)))
      · exact Or.inr (Or.inl hstr)
      · exact Or.inr (Or.inr (isEof_next hend r))

end Lexer

theorem Token.Same.binds {t t' : Token} (h : t.Same t') : t.binds = t'.binds :=
  h.congr fun _ _ _ _ => rfl

theorem Token.Same.fitsAnyLine {t t' : Token} (h : t.Same t') : t.fitsAnyLine = t'.fitsAnyLine :=
  h.congr fun _ _ _ _ => rfl

namespace Paired

open Lexer

variable {ts us vs : List Token}

theorem symm (h : Paired Strays ts us) : Paired Strays us ts := by
  induction h with
  | last hsame => exact .last hsame.symm
  | cons hsame hstrays hmore ih =>
      refine .cons hsame.symm ?_ ih
      rw [Strays, ← hsame.kind, ← hmore.head.isEof]
      exact hstrays.imp_left Eq.symm

theorem trans (h : Paired Strays ts us) (h' : Paired Strays us vs) : Paired Strays ts vs := by
  induction h generalizing vs with
  | last hsame =>
      cases h' with
      | last hsame' => exact .last (hsame.trans hsame')
  | cons hsame hstrays hmore ih =>
      cases h' with
      | cons hsame' hstrays' hmore' =>
          refine .cons (hsame.trans hsame') ?_ (ih hmore')
          rcases hstrays with heq | hstray
          · rw [Strays, hsame.kind, hmore.head.isEof, heq]
            exact hstrays'
          · exact Or.inr hstray

theorem length_eq {F : Token → Token → Token → Token → Prop} (h : Paired F ts us) :
    ts.length = us.length := by
  induction h with
  | last => rfl
  | cons _ _ _ ih => exact congrArg (· + 1) ih

end Paired

namespace Lexer

/-- Sources that differ in how the line breaks in their literals are written have
the same tokens. -/
theorem paired_tokens {a b : Text} (h : escaped a.chars.toList = escaped b.chars.toList) :
    Paired Strays (tokens a) (tokens b) := by
  have hleft := paired_escaped .start .start a.chars.toList
  have hright := paired_escaped .start .start b.chars.toList
  rw [← h] at hright
  exact hleft.trans hright.symm

end Lexer

/-- The tokens of one text that stand on another line than the token before them,
and in another text do not. -/
def torn : List Token → List Token → List Token
  | t :: u :: ts, t' :: u' :: us =>
    if t.breaks u && !t'.breaks u' then u :: torn (u :: ts) (u' :: us)
    else torn (u :: ts) (u' :: us)
  | _, _ => []

theorem torn_cons_of_mem {t u t' u' v : Token} {ts us : List Token}
    (h : v ∈ torn (u :: ts) (u' :: us)) : v ∈ torn (t :: u :: ts) (t' :: u' :: us) := by
  rw [torn]
  split
  · exact List.mem_cons_of_mem u h
  · exact h

theorem mem_torn {t u t' u' : Token} (h : t.breaks u = true) (h' : t'.breaks u' = false)
    (ts us : List Token) : u ∈ torn (t :: u :: ts) (t' :: u' :: us) := by
  rw [torn, h, h']
  exact List.mem_cons_self

/-- Where no line matters that differs, the tokens are read in step. -/
theorem Paired.fits {w : Leeway} {ts us : List Token} (h : Paired Lexer.Strays ts us)
    (hright : ∀ u ∈ torn ts us, u.binds = false ∧ (u.fitsAnyLine = true ∨ w.right))
    (hleft : ∀ u ∈ torn us ts, u.binds = false ∧ (u.fitsAnyLine = true ∨ w.left)) :
    Paired w.Fits ts us := by
  induction h with
  | last hsame => exact .last hsame
  | @cons t u t' u' ts us hsame hstrays hmore ih =>
      have hahead := hmore.head
      refine .cons hsame ?_ (ih (fun v hv => hright v (torn_cons_of_mem hv))
        (fun v hv => hleft v (torn_cons_of_mem hv)))
      rcases hstrays with heq | hstray
      · exact Or.inl heq
      cases hbreaks : t.breaks u with
      | true =>
          cases hbreaks' : t'.breaks u' with
          | true => exact Or.inl (hbreaks.trans hbreaks'.symm)
          | false =>
              obtain ⟨hbinds, hfits⟩ := hright u (mem_torn hbreaks hbreaks' ts us)
              exact Or.inr ⟨hbinds, hstray, hfits.imp_right fun hw => Or.inr ⟨hbreaks, hw⟩⟩
      | false =>
          cases hbreaks' : t'.breaks u' with
          | false => exact Or.inl (hbreaks.trans hbreaks'.symm)
          | true =>
              obtain ⟨hbinds, hfits⟩ := hleft u' (mem_torn hbreaks' hbreaks us ts)
              rw [← hahead.binds] at hbinds
              rw [← hahead.fitsAnyLine] at hfits
              exact Or.inr ⟨hbinds, hstray, hfits.imp_right fun hw => Or.inl ⟨hbreaks', hw⟩⟩

namespace Parser

open Lexer Parse

/-- Whether a token that stands on another line in the first text and not in the
second means the same there: it is no operator, call or subscript, and it is what
a statement may end before, or nothing is wrong with the second text. -/
def TearsNothing (a b : Text) : Prop :=
  ∀ u ∈ torn (tokens a) (tokens b), u.binds = false ∧ (u.fitsAnyLine = true ∨ (parse b).2 = [])

theorem alike_ofTokens {w : Leeway} {ts us : List Token} (h : Paired w.Fits ts us) :
    (Reader.ofTokens ts).Alike w (Reader.ofTokens us) := by
  cases h with
  | @last t t' hsame =>
      have hstill : t.breaks t = t'.breaks t' := by rw [Token.breaks_self, Token.breaks_self]
      exact ⟨.cons hsame (Or.inl hstill) (.last hsame), rfl⟩
  | cons hsame hfits hmore => exact ⟨.cons hsame hfits hmore, rfl⟩

/-- How the line breaks in string literals are written does not matter where it
tears nothing: the same statements are read, and the same kinds of faults found. -/
theorem parse_respelt {a b : Text} (hsame : escaped a.chars.toList = escaped b.chars.toList)
    (htears : TearsNothing a b) (htears' : TearsNothing b a) :
    (parse a).1.map (Stmt.recast .placeless) = (parse b).1.map (Stmt.recast .placeless) ∧
      (parse a).2.map Diagnostic.code = (parse b).2.map Diagnostic.code := by
  have hpaired := paired_tokens hsame
  have hfits : Paired (Leeway.mk ((parse a).2 = []) ((parse b).2 = [])).Fits _ _ :=
    hpaired.fits htears htears'
  have hreads : Matches (Leeway.mk ((parse a).2 = []) ((parse b).2 = [])) Anywhere
      (List.map (Stmt.recast .placeless)) (program maxNesting (callsFor (tokens a).length) [])
      (program maxNesting (callsFor (tokens a).length) []) := matches_program _ _ _ rfl
  have hparse : parse b = ((programStatements maxNesting (callsFor (tokens a).length) []
      (Reader.ofTokens (tokens b))).1, (programStatements maxNesting (callsFor (tokens a).length) []
      (Reader.ofTokens (tokens b))).2.diagnostics.toList) := by
    rw [hpaired.length_eq]
    rfl
  have hsilent : ∀ {r : Reader} {size : Nat}, r.diagnostics.toList = [] →
      ¬ size < r.diagnostics.size := by
    intro r size hnone hless
    rw [← Array.length_toList, hnone] at hless
    exact Nat.not_lt_zero size hless
  rcases hreads.steps _ _ trivial (alike_ofTokens hfits) with ⟨hquiet, hfault⟩ |
    ⟨hquiet, hfault⟩ | ⟨halike, hvalue⟩
  · exact absurd hfault (hsilent hquiet)
  · rw [hparse] at hquiet
    exact absurd hfault (hsilent hquiet)
  · rw [hparse]
    exact ⟨Option.some.inj hvalue, halike.codes⟩

/-- A call may be closed behind a literal with a line break in it. -/
theorem parse_respelt_argument :
    escaped (Text.ofString "f(\"a\nb\")").chars.toList =
        escaped (Text.ofString "f(\"a\\nb\")").chars.toList ∧
      TearsNothing (Text.ofString "f(\"a\nb\")") (Text.ofString "f(\"a\\nb\")") ∧
      TearsNothing (Text.ofString "f(\"a\\nb\")") (Text.ofString "f(\"a\nb\")") ∧
      (parse (Text.ofString "f(\"a\nb\")")).1.map (Stmt.recast .placeless) =
        (parse (Text.ofString "f(\"a\\nb\")")).1.map (Stmt.recast .placeless) ∧
      (parse (Text.ofString "f(\"a\nb\")")).2.map Diagnostic.code =
        (parse (Text.ofString "f(\"a\\nb\")")).2.map Diagnostic.code := by
  have hraw : tokens (Text.ofString "f(\"a\nb\")") = [⟨.name false, "f", ⟨1, 1⟩⟩,
      ⟨.sign .leftParen, "(", ⟨1, 2⟩⟩, ⟨.str, "a\nb", ⟨1, 3⟩⟩, ⟨.sign .rightParen, ")", ⟨2, 3⟩⟩,
      .eofAt ⟨2, 4⟩] := by
    rw [tokens, Cursor.ofText, Text.chars_ofString]
    rw [tokensFrom_cons rfl rfl, tokensFrom_cons rfl rfl, tokensFrom_cons rfl rfl,
      tokensFrom_cons rfl rfl, tokensFrom_end rfl rfl]
    rfl
  have hescaped : tokens (Text.ofString "f(\"a\\nb\")") = [⟨.name false, "f", ⟨1, 1⟩⟩,
      ⟨.sign .leftParen, "(", ⟨1, 2⟩⟩, ⟨.str, "a\nb", ⟨1, 3⟩⟩, ⟨.sign .rightParen, ")", ⟨1, 9⟩⟩,
      .eofAt ⟨1, 10⟩] := by
    rw [tokens, Cursor.ofText, Text.chars_ofString]
    rw [tokensFrom_cons rfl rfl, tokensFrom_cons rfl rfl, tokensFrom_cons rfl rfl,
      tokensFrom_cons rfl rfl, tokensFrom_end rfl rfl]
    rfl
  have hquiet : (parse (Text.ofString "f(\"a\\nb\")")).2 = [] := by
    rw [parse, hescaped]
    cbv
  have hsame : escaped (Text.ofString "f(\"a\nb\")").chars.toList =
      escaped (Text.ofString "f(\"a\\nb\")").chars.toList := by
    rw [Text.chars_ofString, Text.chars_ofString]
    rfl
  have htears : TearsNothing (Text.ofString "f(\"a\nb\")") (Text.ofString "f(\"a\\nb\")") := by
    rw [TearsNothing, hraw, hescaped]
    exact List.forall_mem_singleton.mpr ⟨rfl, Or.inr hquiet⟩
  have htears' : TearsNothing (Text.ofString "f(\"a\\nb\")") (Text.ofString "f(\"a\nb\")") := by
    rw [TearsNothing, hraw, hescaped]
    exact List.forall_mem_nil _
  exact ⟨hsame, htears, htears', parse_respelt hsame htears htears'⟩

end Parser

end Scriptlet
