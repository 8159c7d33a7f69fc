/-
Cutting a layout into tokens.  Every word of a layout is one token, whatever
words follow it, and the tokens stand on the lines of their words.
-/
import Scriptlet.Proofs.Decimals
import Scriptlet.Proofs.Quoting
import Scriptlet.Proofs.Spacing
import Scriptlet.Token.Stream

namespace Scriptlet

theorem Position.line_afterAll (p : Position) {cs : List Char} (h : ∀ c ∈ cs, c ≠ '\n') :
    (p.afterAll cs).line = p.line := by
  induction cs generalizing p with
  | nil => rfl
  | cons c cs ih =>
      have hc := p.line_after (h c List.mem_cons_self)
      have hcs := ih (p.after c) (fun d hd => h d (List.mem_cons_of_mem c hd))
      exact hcs.trans hc

namespace Lexer

open Layout

/-- Whether nothing that follows begins with a character of a kind. -/
def Stops (keep : Char → Bool) (rest : List Char) : Prop :=
  ∀ d, rest.head? = some d → keep d = false

theorem takeWhile_append_of_stops {keep : Char → Bool} {cs rest : List Char}
    (hcs : ∀ c ∈ cs, keep c = true) (hrest : Stops keep rest) :
    (cs ++ rest).takeWhile keep = cs ∧ (cs ++ rest).dropWhile keep = rest := by
  have hstop : rest.takeWhile keep = [] ∧ rest.dropWhile keep = rest := by
    cases rest with
    | nil => exact ⟨rfl, rfl⟩
    | cons d rest =>
        have hd := hrest d rfl
        simp [hd]
  constructor
  · rw [List.takeWhile_append_of_pos hcs, hstop.1, List.append_nil]
  · rw [List.dropWhile_append_of_pos hcs, hstop.2]

/-- Whether a character belongs to no name, number or string. -/
def isPunctuation (c : Char) : Bool :=
  c != '\x00' && c != '"' && !isLetter c && !isDigit c && !isSpace c

theorem tokenAt_punctuation {c : Char} (h : isPunctuation c = true) (p : Position)
    (cs : List Char) : tokenAt ⟨p, c :: cs⟩ = signToken p c cs := by
  simp only [isPunctuation, Bool.and_eq_true, bne_iff_ne, Bool.not_eq_true'] at h
  obtain ⟨⟨⟨⟨hnul, hquote⟩, hletter⟩, hdigit⟩, -⟩ := h
  simp [tokenAt, hnul, hquote, hletter, hdigit]

/-- A sign is one character or two. -/
theorem sign_cases (s : Sign) :
    (∃ c, s.text.toList = [c] ∧ oneSign? c = some s ∧ isPunctuation c = true) ∨
    (∃ c d, s.text.toList = [c, d] ∧ twoSign? c d = some s ∧ isPunctuation c = true) := by
  cases s
  all_goals first
    | exact Or.inl ⟨_, rfl, rfl, by decide⟩
    | exact Or.inr ⟨_, _, rfl, rfl, by decide⟩

def SignEnds (s : Sign) (rest : List Char) : Prop :=
  ∀ c, s.text.toList = [c] → ∀ d, rest.head? = some d →
    twoSign? c d = none ∧ (c = '/' → d ≠ '/' ∧ d ≠ '*')

theorem tokenAt_sign {s : Sign} {rest : List Char} (h : SignEnds s rest) (p : Position) :
    tokenAt ⟨p, s.text.toList ++ rest⟩ =
      (⟨.sign s, s.text, p⟩, ⟨p.afterAll s.text.toList, rest⟩) := by
  have hlexeme := String.ofList_toList (s := s.text)
  rcases sign_cases s with ⟨c, htext, hone, hc⟩ | ⟨c, d, htext, htwo, hc⟩
  · rw [htext] at hlexeme ⊢
    rw [List.singleton_append, tokenAt_punctuation hc]
    cases rest with
    | nil => simp [signToken, hone, wordToken, hlexeme]
    | cons d rest =>
        have hnone := (h c htext d rfl).1
        simp [signToken, hone, hnone, wordToken, hlexeme]
  · rw [htext] at hlexeme ⊢
    rw [List.cons_append, tokenAt_punctuation hc]
    simp [signToken, htwo, wordToken, hlexeme]

theorem isLetter_ne {c d : Char} (hc : isLetter c = true) (hd : isLetter d = false) : c ≠ d := by
  rintro rfl
  rw [hc] at hd
  exact Bool.noConfusion hd

/-- A name or a keyword is one token. -/
theorem tokenAt_letters {c : Char} {cs rest : List Char} (hc : isLetter c = true)
    (hcs : ∀ d ∈ cs, isNameChar d = true) (hrest : Stops isNameChar rest) (p : Position) :
    tokenAt ⟨p, (c :: cs) ++ rest⟩ =
      (⟨wordKind (c :: cs), String.ofList (c :: cs), p⟩, ⟨p.afterAll (c :: cs), rest⟩) := by
  have hnul : c ≠ '\x00' := isLetter_ne hc (by decide)
  have hquote : c ≠ '"' := isLetter_ne hc (by decide)
  have hall : ∀ d ∈ c :: cs, isNameChar d = true := by
    intro d hd
    rcases List.mem_cons.mp hd with rfl | hd
    · simp [isNameChar, hc]
    · exact hcs d hd
  obtain ⟨htake, hdrop⟩ := takeWhile_append_of_stops hall hrest
  rw [List.cons_append] at htake hdrop
  simp only [tokenAt, List.cons_append, hnul, hquote, hc, htake, hdrop, if_true, if_false,
    wordToken]

theorem isDigit_ne {c d : Char} (hc : isDigit c = true) (hd : isDigit d = false) : c ≠ d := by
  rintro rfl
  rw [hc] at hd
  exact Bool.noConfusion hd

theorem isDigit_range {c : Char} (h : isDigit c = true) : 48 ≤ c.toNat ∧ c.toNat ≤ 57 := by
  simp only [isDigit, Bool.and_eq_true, decide_eq_true_eq] at h
  exact h

theorem isLetter_of_isDigit {c : Char} (h : isDigit c = true) : isLetter c = false := by
  have hall : ∀ n < 58, 48 ≤ n → isLetter (Char.ofNat n) = false := by decide
  obtain ⟨hlow, hhigh⟩ := isDigit_range h
  rw [← Char.ofNat_toNat c]
  exact hall c.toNat (by omega) hlow

theorem tokenAt_digits {c : Char} (h : isDigit c = true) (p : Position) (cs : List Char) :
    tokenAt ⟨p, c :: cs⟩ = numberToken p (c :: cs) := by
  have hnul : c ≠ '\x00' := isDigit_ne h (by decide)
  have hquote : c ≠ '"' := isDigit_ne h (by decide)
  simp [tokenAt, hnul, hquote, isLetter_of_isDigit h, h]

/-- What may follow the digits of an integer: no digit, and no dot before one. -/
def IntEnds (rest : List Char) : Prop :=
  Stops isDigit rest ∧ ∀ tail, rest = '.' :: tail → Stops isDigit tail

theorem tokenAt_int {c : Char} {cs rest : List Char} (hdigits : ∀ d ∈ c :: cs, isDigit d = true)
    (hrest : IntEnds rest) (p : Position) :
    tokenAt ⟨p, (c :: cs) ++ rest⟩ =
      (⟨intKind (c :: cs), String.ofList (c :: cs), p⟩, ⟨p.afterAll (c :: cs), rest⟩) := by
  obtain ⟨htake, hdrop⟩ := takeWhile_append_of_stops hdigits hrest.1
  rw [List.cons_append, tokenAt_digits (hdigits c List.mem_cons_self), ← List.cons_append]
  simp only [numberToken, htake, hdrop]
  split
  · rename_i d tail
    have hd := hrest.2 _ rfl d rfl
    simp [hd, wordToken]
  · rfl

theorem tokenAt_float {c : Char} {cs fraction rest : List Char}
    (hdigits : ∀ d ∈ (c :: cs) ++ fraction, isDigit d = true) (hfraction : fraction ≠ [])
    (hrest : Stops isDigit rest) (p : Position) :
    tokenAt ⟨p, ((c :: cs) ++ '.' :: fraction) ++ rest⟩ =
      (⟨floatKind (c :: cs) fraction, String.ofList ((c :: cs) ++ '.' :: fraction), p⟩,
        ⟨p.afterAll ((c :: cs) ++ '.' :: fraction), rest⟩) := by
  have hwhole : ∀ d ∈ c :: cs, isDigit d = true := fun d hd =>
    hdigits d (List.mem_append_left _ hd)
  have hpart : ∀ d ∈ fraction, isDigit d = true := fun d hd =>
    hdigits d (List.mem_append_right _ hd)
  have hdot : Stops isDigit ('.' :: (fraction ++ rest)) := by
    intro d hd
    cases hd
    rfl
  obtain ⟨htake, hdrop⟩ := takeWhile_append_of_stops hwhole hdot
  obtain ⟨htakeF, hdropF⟩ := takeWhile_append_of_stops hpart hrest
  rw [List.append_assoc, List.cons_append, List.cons_append,
    tokenAt_digits (hwhole c List.mem_cons_self), ← List.cons_append]
  obtain ⟨d, ds, rfl⟩ := List.exists_cons_of_ne_nil hfraction
  have hd := hpart d List.mem_cons_self
  simp only [List.cons_append] at htake hdrop htakeF hdropF ⊢
  simp only [numberToken, htake, hdrop, hd, htakeF, hdropF, if_true, wordToken, List.cons_append]

/-- Whether a token is what is read where a word was written; a text is read as
`f` says. -/
def ReadAs (f : String → String) (t : Token) : Word → Prop
  | .sign s => t.kind = .sign s
  | .keyword k => t.kind = .keyword k
  | .name n => t.isName = true ∧ t.lexeme = n
  | .int value => t.kind = .int value
  | .float value => t.kind = .float value
  | .str value => t.kind = .str ∧ t.lexeme = f value

/-- What may follow a word without changing it. -/
def Ends : Word → List Char → Prop
  | .sign s, rest => SignEnds s rest
  | .keyword _, rest => Stops isNameChar rest
  | .name _, rest => Stops isNameChar rest
  | .int _, rest => IntEnds rest
  | .float _, rest => Stops isDigit rest
  | .str _, _ => True

/-- The token of a word: it begins where the word does, ends on the same line,
and leaves what follows. -/
def CutAs (f : String → String) (w : Word) (p : Position) (rest : List Char) : Prop :=
  ∃ t q, tokenAt ⟨p, w.text.toList ++ rest⟩ = (t, ⟨q, rest⟩) ∧ t.position = p ∧
    q.line = p.line ∧ ReadAs f t w

theorem isNameChar_ne {c d : Char} (hc : isNameChar c = true) (hd : isNameChar d = false) :
    c ≠ d := by
  rintro rfl
  rw [hc] at hd
  exact Bool.noConfusion hd

theorem line_afterAll_of_nameChars (p : Position) {cs : List Char}
    (h : ∀ c ∈ cs, isNameChar c = true) : (p.afterAll cs).line = p.line :=
  p.line_afterAll fun c hc => isNameChar_ne (h c hc) (by decide)

theorem cutAs_sign (f : String → String) {s : Sign} {rest : List Char} (h : SignEnds s rest)
    (p : Position) : CutAs f (.sign s) p rest := by
  have hline : s.text.toList.all (fun c => c ≠ '\n') = true := by cases s <;> decide
  refine ⟨_, _, tokenAt_sign h p, rfl, p.line_afterAll fun c hc => ?_, rfl⟩
  exact of_decide_eq_true (List.all_eq_true.mp hline c hc)

theorem cutAs_letters (f : String → String) (w : Word) {c : Char} {cs rest : List Char}
    (htext : w.text.toList = c :: cs) (hc : isLetter c = true)
    (hcs : ∀ d ∈ cs, isNameChar d = true) (hrest : Stops isNameChar rest) (p : Position)
    (hread : ReadAs f ⟨wordKind (c :: cs), w.text, p⟩ w) : CutAs f w p rest := by
  have hlexeme : String.ofList (c :: cs) = w.text := by rw [← htext, String.ofList_toList]
  have htoken := tokenAt_letters hc hcs hrest p
  rw [← htext] at htoken
  refine ⟨_, _, htoken, rfl, ?_, ?_⟩
  · rw [htext]
    refine line_afterAll_of_nameChars p ?_
    intro d hd
    rcases List.mem_cons.mp hd with rfl | hd
    · simp [isNameChar, hc]
    · exact hcs d hd
  · rw [htext, hlexeme]
    exact hread

theorem cutAs_keyword (f : String → String) (k : Keyword) {rest : List Char}
    (hrest : Stops isNameChar rest) (p : Position) : CutAs f (.keyword k) p rest := by
  obtain ⟨c, cs, htext, hc, hcs⟩ : ∃ c cs, k.text.toList = c :: cs ∧ isLetter c = true ∧
      ∀ d ∈ cs, isNameChar d = true := by
    cases k <;> exact ⟨_, _, rfl, by decide, List.all_eq_true.mp (by decide)⟩
  have hkind : wordKind (c :: cs) = .keyword k := by
    have hself : Keyword.ofString? k.text = some k := by cases k <;> decide
    rw [wordKind, ← htext, String.ofList_toList, hself]
  exact cutAs_letters f (.keyword k) htext hc hcs hrest p hkind

theorem cutAs_name (f : String → String) {n : String} (hn : IsName n) {rest : List Char}
    (hrest : Stops isNameChar rest) (p : Position) : CutAs f (.name n) p rest := by
  obtain ⟨⟨c, cs, htext, hc, hcs⟩, hkeyword⟩ := hn
  refine cutAs_letters f (.name n) htext hc hcs hrest p ⟨?_, rfl⟩
  rw [wordKind, ← htext, String.ofList_toList, hkeyword]
  rfl

/-- The text of an integer that is not negative reads back as that integer. -/
theorem intText_reads {v : Int64} (h : 0 ≤ v) :
    ∃ n, (toString v.toInt).toList = Nat.toDigits 10 n ∧ intKind (Nat.toDigits 10 n) = .int v := by
  have hnonneg : 0 ≤ v.toInt := Int64.le_iff_toInt_le.mp h
  have hmost := v.toInt_lt
  obtain ⟨n, hn⟩ := Int.eq_ofNat_of_zero_le hnonneg
  have hle : n ≤ greatestInt := by
    rw [greatestInt]
    omega
  have hself : Int64.ofNat n = v := by
    rw [← Int64.ofInt_eq_ofNat, ← hn, Int64.ofInt_toInt]
  refine ⟨n, ?_, ?_⟩
  · rw [hn]
    exact Nat.toList_repr
  · simp only [intKind, Decimal.numeral_toDigits, if_pos hle, hself]

theorem cutAs_int (f : String → String) {v : Int64} (h : 0 ≤ v) {rest : List Char}
    (hrest : IntEnds rest) (p : Position) : CutAs f (.int v) p rest := by
  obtain ⟨n, htext, hkind⟩ := intText_reads h
  have hdigits : ∀ d ∈ Nat.toDigits 10 n, isDigit d = true := fun d hd =>
    Decimal.isDigit_of_mem_toDigits hd
  obtain ⟨c, cs, hcs⟩ := List.exists_cons_of_ne_nil (Nat.toDigits_ne_nil (n := n) (b := 10))
  have hsame : (Word.int v).text.toList = c :: cs := htext.trans hcs
  rw [hcs] at hdigits hkind
  have htoken := tokenAt_int hdigits hrest p
  rw [← hsame] at htoken
  refine ⟨_, _, htoken, rfl, ?_, ?_⟩
  · rw [hsame]
    exact p.line_afterAll fun d hd => isDigit_ne (hdigits d hd) (by decide)
  · rw [hsame]
    exact hkind

theorem cutAs_float (f : String → String) {x : Float} (h : IsDecimal x) {rest : List Char}
    (hrest : Stops isDigit rest) (p : Position) : CutAs f (.float x) p rest := by
  obtain ⟨whole, fraction, htext, hwhole, hfraction, hdigits, hnearest⟩ := floatText_reads h
  obtain ⟨c, cs, rfl⟩ := List.exists_cons_of_ne_nil hwhole
  have hsame : (Word.float x).text.toList = c :: cs ++ '.' :: fraction := htext
  have htoken := tokenAt_float hdigits hfraction hrest p
  rw [← hsame] at htoken
  refine ⟨_, _, htoken, rfl, ?_, ?_⟩
  · rw [hsame]
    refine p.line_afterAll ?_
    intro d hd
    rcases List.mem_append.mp hd with hd | hd
    · exact isDigit_ne (hdigits d (List.mem_append_left _ hd)) (by decide)
    · rcases List.mem_cons.mp hd with rfl | hd
      · decide
      · exact isDigit_ne (hdigits d (List.mem_append_right _ hd)) (by decide)
  · simp only [ReadAs, floatKind, hnearest]

/-- A legible word is one token. -/
theorem cutAs_word {w : Word} (hw : w.Legible) {rest : List Char} (hrest : Ends w rest)
    (p : Position) : CutAs reread w p rest := by
  cases w with
  | sign s => exact cutAs_sign reread hrest p
  | keyword k => exact cutAs_keyword reread k hrest p
  | name n => exact cutAs_name reread hw hrest p
  | int v => exact cutAs_int reread hw hrest p
  | float x => exact cutAs_float reread hw hrest p
  | str s =>
      obtain ⟨q, htoken, hq⟩ := tokenAt_quoteString s p rest
      exact ⟨_, q, htoken, rfl, hq, rfl, rfl⟩

theorem skip_spaces {cs : List Char} (h : ∀ c ∈ cs, isSpace c = true) (p : Position)
    (rest : List Char) :
    skip .blanks p (cs ++ rest) = skip .blanks (p.afterAll cs) rest := by
  induction cs generalizing p with
  | nil => rfl
  | cons c cs ih =>
      have hc := h c List.mem_cons_self
      have hslash : c ≠ '/' := by
        rintro rfl
        exact absurd hc (by decide)
      rw [List.cons_append, skip, if_pos hc, ih (fun d hd => h d (List.mem_cons_of_mem c hd))]
      · rfl
      · exact fun _ hd => absurd hd hslash
      · exact fun _ hd => absurd hd hslash

theorem skip_stops {c : Char} {cs : List Char} (hspace : isSpace c = false)
    (hcomment : c = '/' → ∀ d, cs.head? = some d → d ≠ '/' ∧ d ≠ '*') (p : Position) :
    skip .blanks p (c :: cs) = ⟨p, c :: cs⟩ := by
  rw [skip, hspace]
  · rfl
  · rintro tail rfl rfl
    exact (hcomment rfl '/' rfl).1 rfl
  · rintro tail rfl rfl
    exact (hcomment rfl '*' rfl).2 rfl

theorem isSpace_gap (g : Gap) : ∀ c ∈ g.chars, isSpace c = true := by
  cases g with
  | nothing => exact fun c hc => absurd hc List.not_mem_nil
  | blank =>
      intro c hc
      rw [List.mem_singleton.mp hc]
      rfl
  | line depth =>
      intro c hc
      rcases List.mem_cons.mp hc with rfl | hc
      · rfl
      · rw [List.eq_of_mem_replicate hc]
        rfl

theorem isPunctuation_isSpace {c : Char} (h : isPunctuation c = true) : isSpace c = false := by
  simp only [isPunctuation, Bool.and_eq_true, Bool.not_eq_true'] at h
  exact h.2

theorem sign_first (s : Sign) : ∃ c cs, s.text.toList = c :: cs ∧ isPunctuation c = true ∧
    (c = '/' → s = .slash) ∧ (staysApart s = true → c ≠ '=' ∧ c ≠ '&' ∧ c ≠ '|') := by
  cases s <;> exact ⟨_, _, rfl, by decide, by decide, by decide⟩

/-- A word that is no sign begins with a letter, a digit or a quote. -/
theorem word_first {w : Word} (hw : w.Legible) (hsign : ∀ s, w ≠ .sign s) :
    ∃ c cs, w.text.toList = c :: cs ∧ (isLetter c = true ∨ isDigit c = true ∨ c = '"') := by
  cases w with
  | sign s => exact absurd rfl (hsign s)
  | keyword k => cases k <;> exact ⟨_, _, rfl, Or.inl (by decide)⟩
  | name n =>
      obtain ⟨⟨c, cs, htext, hc, -⟩, -⟩ := hw
      exact ⟨c, cs, htext, Or.inl hc⟩
  | int v =>
      obtain ⟨n, htext, -⟩ := intText_reads hw
      obtain ⟨c, cs, hcs⟩ := List.exists_cons_of_ne_nil (Nat.toDigits_ne_nil (n := n) (b := 10))
      have hc : isDigit c = true :=
        Decimal.isDigit_of_mem_toDigits (n := n) (hcs ▸ List.mem_cons_self)
      exact ⟨c, cs, htext.trans hcs, Or.inr (Or.inl hc)⟩
  | float x =>
      obtain ⟨whole, fraction, htext, hwhole, -, hdigits, -⟩ := floatText_reads hw
      obtain ⟨c, cs, rfl⟩ := List.exists_cons_of_ne_nil hwhole
      exact ⟨c, _, htext, Or.inr (Or.inl (hdigits c List.mem_cons_self))⟩
  | str s => exact ⟨'"', _, Text.quoteString_toList s, Or.inr (Or.inr rfl)⟩

theorem first_facts {c : Char} (h : isLetter c = true ∨ isDigit c = true ∨ c = '"') :
    isSpace c = false ∧ c ≠ '/' ∧ c ≠ '*' ∧ c ≠ '=' ∧ c ≠ '&' ∧ c ≠ '|' := by
  have hall : ∀ d, isLetter d = false → isDigit d = false → d ≠ '"' → c ≠ d := by
    rintro d hletter hdigit hquote rfl
    rcases h with h | h | h
    · rw [h] at hletter
      exact Bool.noConfusion hletter
    · rw [h] at hdigit
      exact Bool.noConfusion hdigit
    · exact hquote h
  have hspace : isSpace c = false := by
    have h1 := hall ' ' (by decide) (by decide) (by decide)
    have h2 := hall '\t' (by decide) (by decide) (by decide)
    have h3 := hall '\r' (by decide) (by decide) (by decide)
    have h4 := hall '\n' (by decide) (by decide) (by decide)
    simp [isSpace, h1, h2, h3, h4]
  exact ⟨hspace, hall '/' (by decide) (by decide) (by decide),
    hall '*' (by decide) (by decide) (by decide), hall '=' (by decide) (by decide) (by decide),
    hall '&' (by decide) (by decide) (by decide), hall '|' (by decide) (by decide) (by decide)⟩

/-- A legible word begins with a character that no gap holds. -/
theorem word_starts {w : Word} (hw : w.Legible) :
    ∃ c cs, w.text.toList = c :: cs ∧ isSpace c = false := by
  by_cases hsign : ∃ s, w = .sign s
  · obtain ⟨s, rfl⟩ := hsign
    obtain ⟨c, cs, htext, hc, -⟩ := sign_first s
    exact ⟨c, cs, htext, isPunctuation_isSpace hc⟩
  · obtain ⟨c, cs, htext, hc⟩ := word_first hw (fun s hs => hsign ⟨s, hs⟩)
    exact ⟨c, cs, htext, (first_facts hc).1⟩

/-- A legible word begins no comment. -/
theorem skip_word {w : Word} (hw : w.Legible) {rest : List Char} (hrest : Ends w rest)
    (p : Position) :
    skip .blanks p (w.text.toList ++ rest) = ⟨p, w.text.toList ++ rest⟩ := by
  by_cases hsign : ∃ s, w = .sign s
  · obtain ⟨s, rfl⟩ := hsign
    obtain ⟨c, cs, htext, hc, hslash, -⟩ := sign_first s
    have hword : (Word.sign s).text.toList = c :: cs := htext
    rw [hword, List.cons_append]
    refine skip_stops (isPunctuation_isSpace hc) ?_ p
    rintro rfl d hd
    obtain rfl := hslash rfl
    cases htext
    exact (hrest '/' rfl d hd).2 rfl
  · obtain ⟨c, cs, htext, hc⟩ := word_first hw (fun s hs => hsign ⟨s, hs⟩)
    obtain ⟨hspace, hslash, -⟩ := first_facts hc
    rw [htext, List.cons_append]
    exact skip_stops hspace (fun h => absurd h hslash) p

end Lexer

end Scriptlet
