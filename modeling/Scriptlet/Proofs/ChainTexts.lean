/-
Texts of chains and of the statements made of them, put together from the texts
of their parts with blanks, signs and keywords between them.
-/
import Scriptlet.Proofs.ChainStatements
import Scriptlet.Proofs.Spelling

namespace Scriptlet.Parser

open Lexer Layout

/-- Whether some tokens on one line, no more than `size`, are a chain. -/
def IsChain (size line line' : Nat) (ts : List Token) : Prop :=
  line' = line ∧ Chain maxNesting line ts ∧ ts.length ≤ size

/-- Whether some tokens on one line, no more than `size`, may stand between brackets. -/
def IsEnclosed (size line line' : Nat) (ts : List Token) : Prop :=
  line' = line ∧ Enclosed maxNesting line ts ∧ ts.length ≤ size

/-- Whether a text is that of a chain of no more than `size` tokens. -/
structure ChainText (size : Nat) (s : String) : Prop where
  opens : ∃ c cs, s.toList = c :: cs ∧ c ≠ '='
  lexes : Lexes s Apart (IsChain size)

theorem ChainText.mono {size size' : Nat} {s : String} (h : ChainText size s)
    (hle : size ≤ size') : ChainText size' s :=
  ⟨h.opens, h.lexes.imp fun _ _ _ hts => ⟨hts.1, hts.2.1, hts.2.2.trans hle⟩⟩

theorem ChainText.enclosed {size : Nat} {s : String} (h : ChainText size s) :
    Lexes s Apart (IsEnclosed size) :=
  h.lexes.imp fun _ _ _ hts => ⟨hts.1, Or.inr (.one hts.2.1), hts.2.2⟩

theorem enclosed_nothing : Lexes "" Apart (IsEnclosed 0) := fun p _ _ =>
  ⟨[], p, rfl, fun _ ht => absurd ht List.not_mem_nil, rfl, Or.inl rfl, Nat.le_refl 0⟩

theorem opens_append {s : String} (h : ∃ c cs, s.toList = c :: cs ∧ c ≠ '=') (t : String) :
    ∃ c cs, (s ++ t).toList = c :: cs ∧ c ≠ '=' := by
  obtain ⟨c, cs, hs, hc⟩ := h
  exact ⟨c, cs ++ t.toList, by rw [String.toList_append, hs, List.cons_append], hc⟩

theorem opens_word {w : Word} (hw : w.Legible) (hsign : ∀ s, w ≠ .sign s) {s : String}
    (hs : s = w.text) : ∃ c cs, s.toList = c :: cs ∧ c ≠ '=' := by
  obtain ⟨c, cs, htext, hc⟩ := word_first hw hsign
  exact ⟨c, cs, by rw [hs, htext], (first_facts hc).2.2.2.1⟩

def isSimpleWord : Word → Bool
  | .sign _ => false
  | .keyword k => k == .trueWord || k == .falseWord || k == .nullWord
  | _ => true

theorem isSimple_of_readAs {f : String → String} {t : Token} {w : Word} (h : ReadAs f t w)
    (hw : isSimpleWord w = true) : isSimple t = true := by
  unfold isSimple
  cases w with
  | sign s => exact absurd hw Bool.noConfusion
  | keyword k =>
      rw [show t.kind = .keyword k from h]
      exact hw
  | name n =>
      obtain ⟨capital, hkind⟩ := exists_kind_of_isName h.1
      rw [hkind]
  | int v => rw [show t.kind = .int v from h]
  | float x => rw [show t.kind = .float x from h]
  | str r => rw [h.1]

theorem chainText_word {w : Word} (hw : w.Legible) (hsimple : isSimpleWord w = true) {s : String}
    (hs : s = w.text) : ChainText 1 s := by
  refine ⟨opens_word hw ?_ hs, (lexes_word hw hs).imp ?_⟩
  · rintro sign rfl
    exact absurd hsimple Bool.noConfusion
  · rintro line line' _ ⟨t, rfl, hread, hline, rfl⟩
    exact ⟨rfl, .one (operand_simple (isSimple_of_readAs hread hsimple) hline), Nat.le_refl 1⟩

/-- A number with a fraction, however many zeros it ends with. -/
theorem chainText_float (whole fraction : List Char) {k : Nat} (hwhole : whole ≠ [])
    (hfraction : fraction ≠ []) (hdigits : ∀ d ∈ whole ++ fraction, isDigit d = true)
    (hsmall : numeral (whole ++ fraction) < 2 ^ k) (hk : k ≤ 900) {s : String}
    (hs : s.toList = whole ++ '.' :: fraction) : ChainText 1 s := by
  obtain ⟨c, cs, rfl⟩ := List.exists_cons_of_ne_nil hwhole
  obtain ⟨x, hx⟩ := exists_nearestDecimal hsmall hk fraction.length
  have hkind : floatKind (c :: cs) fraction = .float x := by
    rw [floatKind, hx]
  have hc : isDigit c = true := hdigits c List.mem_cons_self
  refine ⟨⟨c, cs ++ '.' :: fraction, hs, isDigit_ne hc (by decide)⟩, ?_⟩
  intro p rest hrest
  have hends : Stops isDigit rest := ends_of_apart hrest (.float x)
  have htoken := tokenAt_float hdigits hfraction hends p
  rw [hkind, ← hs] at htoken
  have hskip : skip .blanks p (s.toList ++ rest) = ⟨p, s.toList ++ rest⟩ := by
    obtain ⟨hspace, hslash, -⟩ := first_facts (Or.inr (Or.inl hc))
    rw [hs]
    exact skip_stops hspace (fun h => absurd h hslash) p
  have hnext : Lexer.next ⟨p, s.toList ++ rest⟩ =
      (⟨.float x, String.ofList s.toList, p⟩, ⟨p.afterAll s.toList, rest⟩) := by
    rw [Lexer.next, hskip, htoken]
  refine ⟨[⟨.float x, String.ofList s.toList, p⟩], p.afterAll s.toList, ?_, ?_, ?_, ?_, ?_⟩
  · rw [tokensFrom_cons hnext rfl]
    rfl
  · intro t ht
    rw [List.mem_singleton.mp ht]
    rfl
  · refine p.line_afterAll ?_
    intro d hd
    rw [hs] at hd
    rcases List.mem_append.mp hd with hd | hd
    · exact isDigit_ne (hdigits d (List.mem_append_left _ hd)) (by decide)
    · rcases List.mem_cons.mp hd with rfl | hd
      · decide
      · exact isDigit_ne (hdigits d (List.mem_append_right _ hd)) (by decide)
  · exact .one (operand_simple rfl rfl)
  · exact Nat.le_refl 1

theorem ends_unary (op : UnaryOp) {c : Char} (hc : c ≠ '=') (cs : List Char) :
    Ends (.sign op.sign) (c :: cs) := by
  cases op with
  | negate => exact ends_of_standsAlone rfl _
  | posit => exact ends_of_standsAlone rfl _
  | invert =>
      intro d hd e he
      cases he
      obtain rfl : '!' = d := by
        have hsame := congrArg List.head? hd
        exact Option.some.inj hsame
      refine ⟨?_, fun hslash => absurd hslash (by decide)⟩
      unfold twoSign?
      split <;> simp_all

/-- A sign before a chain. -/
theorem ChainText.behind_sign {size : Nat} {s : String} (h : ChainText size s) (op : UnaryOp) :
    ChainText (size + 1) (op.text ++ s) := by
  have hsign := lexes_ends (w := .sign op.sign) trivial (UnaryOp.text_sign op).symm
  obtain ⟨c, cs, hs, hc⟩ := h.opens
  refine ⟨opens_append ?_ s, (hsign.append h.lexes fun rest _ => ?_).imp ?_⟩
  · cases op <;> exact ⟨_, _, rfl, by decide⟩
  · rw [hs]
    exact ends_unary op hc _
  · rintro line line' _ ⟨_, _, ts, rfl, ⟨t, rfl, ht, hline, rfl⟩, rfl, hchain, hsize⟩
    exact ⟨rfl, hchain.behind_sign ht hline, Nat.succ_le_succ hsize⟩

theorem lexes_close (sign : Sign) (h : standsAlone sign = true) {s : String}
    (hs : s = sign.text) : Lexes s Apart (IsWord (.sign sign)) := (lexes_sign sign h hs).anywhere

/-- A chain between parentheses. -/
theorem ChainText.parens {size : Nat} {s : String} (h : ChainText size s) :
    ChainText (size + 2) ("(" ++ s ++ ")") := by
  have hopen := lexes_sign .leftParen rfl rfl
  have hclose := lexes_close .rightParen rfl rfl
  refine ⟨opens_append (opens_append ⟨'(', [], rfl, by decide⟩ s) ")",
    ((hopen.append h.lexes fun _ _ => trivial).append hclose
      fun rest _ => apart_append rfl rfl rest).imp ?_⟩
  rintro line line' _ ⟨_, _, _, rfl, ⟨_, _, ts, rfl, ⟨o, rfl, ho, hline, rfl⟩, rfl, hchain, hsize⟩,
    c, rfl, hc, hline', rfl⟩
  refine ⟨rfl, .one (operand_parens ho hc hline hline' hchain), ?_⟩
  simp only [List.length_append, List.length_cons, List.length_nil]
  omega

theorem lexes_name {n : String} (hn : IsName n) : Lexes n (Ends (.name n)) (IsWord (.name n)) :=
  lexes_ends (w := .name n) hn rfl

theorem stops_name {t : String} {c : Char} {cs : List Char} (ht : t.toList = c :: cs)
    (hc : isNameChar c = false) (rest : List Char) {n : String} :
    Ends (.name n) (t.toList ++ rest) := by
  rw [ht]
  exact stops_cons hc _

theorem opens_name {n : String} (hn : IsName n) : ∃ c cs, n.toList = c :: cs ∧ c ≠ '=' :=
  opens_word (w := .name n) hn (fun _ => Word.noConfusion) rfl

/-- Two chains with an operator between them. -/
theorem ChainText.binary {size size' : Nat} {left right : String} (h : ChainText size left)
    (h' : ChainText size' right) (op : BinaryOp) :
    ChainText (size + size' + 1) (left ++ " " ++ op.text ++ " " ++ right) := by
  have hsign := lexes_word (w := .sign op.sign) trivial (show op.text = _ from rfl)
  have hleft := h.lexes.append lexes_blank fun rest _ => apart_append rfl rfl rest
  have hop := (hleft.append hsign fun _ _ => trivial).append lexes_blank
    fun rest _ => apart_append rfl rfl rest
  refine ⟨?_, (hop.append h'.lexes fun _ _ => trivial).imp ?_⟩
  · exact opens_append (opens_append (opens_append (opens_append h.opens _) _) _) _
  · rintro line line' _ ⟨_, _, us, rfl, ⟨_, _, _, rfl, ⟨_, _, _, rfl, ⟨_, ts, _, rfl,
      ⟨rfl, hts, hsize⟩, rfl, rfl⟩, t, rfl, ht, hline, rfl⟩, rfl, rfl⟩, rfl, hus, hsize'⟩
    simp only [List.append_nil, List.append_assoc, List.singleton_append] at hline hus ⊢
    refine ⟨rfl, hts.append ht hline hus, ?_⟩
    simp only [List.length_append, List.length_cons]
    omega

/-- Chains between brackets. -/
theorem chainText_list {size : Nat} {s : String} (h : Lexes s Apart (IsEnclosed size)) :
    ChainText (size + 2) ("[" ++ s ++ "]") := by
  have hopen := lexes_sign .leftBracket rfl rfl
  have hclose := lexes_close .rightBracket rfl rfl
  refine ⟨opens_append (opens_append ⟨'[', [], rfl, by decide⟩ s) "]",
    ((hopen.append h fun _ _ => trivial).append hclose
      fun rest _ => apart_append rfl rfl rest).imp ?_⟩
  rintro line line' _ ⟨_, _, _, rfl, ⟨_, _, ts, rfl, ⟨o, rfl, ho, hline, rfl⟩, rfl, hitems, hsize⟩,
    c, rfl, hc, hline', rfl⟩
  refine ⟨rfl, .one (operand_list ho hc hline hline' hitems), ?_⟩
  simp only [List.length_append, List.length_cons, List.length_nil]
  omega

/-- Two chains with a comma between them. -/
theorem ChainText.pair {size size' : Nat} {s t : String} (h : ChainText size s)
    (h' : ChainText size' t) :
    Lexes (s ++ ", " ++ t) Apart (IsEnclosed (size + size' + 1)) := by
  have hcomma := (lexes_sign .comma rfl rfl).append lexes_blank fun _ _ => trivial
  refine ((h.lexes.append hcomma fun rest _ => apart_append rfl rfl rest).append h'.lexes
    fun _ _ => trivial).imp ?_
  rintro line line' _ ⟨_, _, us, rfl, ⟨_, ts, _, rfl, ⟨rfl, hts, hsize⟩, _, _, _, rfl,
    ⟨t, rfl, ht, hline, rfl⟩, rfl, rfl⟩, rfl, hus, hsize'⟩
  rw [List.append_nil, List.append_assoc, List.singleton_append]
  refine ⟨rfl, Or.inr (.more hts ht (.one hus)), ?_⟩
  simp only [List.length_append, List.length_cons]
  omega

/-- A subscript of a name: its tokens. -/
def IsIndex (size line line' : Nat) (ts : List Token) : Prop :=
  line' = line ∧ ∃ n b us c, ts = n :: b :: (us ++ [c]) ∧ n.isName = true ∧
    b.kind = .sign .leftBracket ∧ c.kind = .sign .rightBracket ∧ n.position.line = line ∧
    b.position.line = line ∧ c.position.line = line ∧ Chain maxNesting line us ∧
    us.length ≤ size

theorem lexes_index {n : String} (hn : IsName n) {size : Nat} {s : String}
    (h : ChainText size s) : Lexes (n ++ "[" ++ s ++ "]") Apart (IsIndex size) := by
  have hopen := lexes_sign .leftBracket rfl rfl
  have hclose := lexes_close .rightBracket rfl rfl
  have hname := (lexes_name hn).append hopen fun rest _ => stops_name rfl rfl rest
  refine ((hname.append h.lexes fun _ _ => trivial).append hclose
    fun rest _ => apart_append rfl rfl rest).imp ?_
  rintro line line' _ ⟨_, _, _, rfl, ⟨_, _, us, rfl, ⟨_, _, _, rfl, ⟨n, rfl, hn, hline, rfl⟩,
    b, rfl, hb, hlineB, rfl⟩, rfl, hus, hsize⟩, c, rfl, hc, hlineC, rfl⟩
  exact ⟨rfl, n, b, us, c, by simp, hn.1, hb, hc, hline, hlineB, hlineC, hus, hsize⟩

theorem chainText_index {n : String} (hn : IsName n) {size : Nat} {s : String}
    (h : ChainText size s) : ChainText (size + 3) (n ++ "[" ++ s ++ "]") := by
  refine ⟨opens_append (opens_append (opens_append (opens_name hn) _) _) _,
    (lexes_index hn h).imp ?_⟩
  rintro line _ _ ⟨rfl, n, b, us, c, rfl, hn, hb, hc, hline, hlineB, hlineC, hus, hsize⟩
  refine ⟨rfl, .one (operand_index hn hb hc hline hlineB hlineC hus), ?_⟩
  simp only [List.length_cons, List.length_append, List.length_nil]
  omega

theorem chainText_call {n : String} (hn : IsName n) {size : Nat} {s : String}
    (h : Lexes s Apart (IsEnclosed size)) : ChainText (size + 3) (n ++ "(" ++ s ++ ")") := by
  have hopen := lexes_sign .leftParen rfl rfl
  have hclose := lexes_close .rightParen rfl rfl
  have hname := (lexes_name hn).append hopen fun rest _ => stops_name rfl rfl rest
  refine ⟨opens_append (opens_append (opens_append (opens_name hn) _) _) _,
    ((hname.append h fun _ _ => trivial).append hclose
      fun rest _ => apart_append rfl rfl rest).imp ?_⟩
  rintro line line' _ ⟨_, _, _, rfl, ⟨_, _, us, rfl, ⟨_, _, _, rfl, ⟨n, rfl, hn, hline, rfl⟩,
    b, rfl, hb, hlineB, rfl⟩, rfl, hus, hsize⟩, c, rfl, hc, hlineC, rfl⟩
  refine ⟨rfl, .one ?_, ?_⟩
  · simpa using operand_call hn.1 hb hc hline hlineB hlineC hus
  · simp only [List.length_append, List.length_cons, List.length_nil]
    omega

/-- The call of a method of a name. -/
theorem chainText_method {n m : String} (hn : IsName n) (hm : IsName m) {size : Nat} {s : String}
    (h : Lexes s Apart (IsEnclosed size)) :
    ChainText (size + 5) (n ++ "." ++ (m ++ "(" ++ s ++ ")")) := by
  have hopen := lexes_sign .leftParen rfl rfl
  have hclose := lexes_close .rightParen rfl rfl
  have hname := (lexes_name hm).append hopen fun rest _ => stops_name rfl rfl rest
  have hcall := (hname.append h fun _ _ => trivial).append hclose
    fun rest _ => apart_append rfl rfl rest
  have hdot := (lexes_name hn).append (lexes_sign .dot rfl rfl)
    fun rest _ => stops_name rfl rfl rest
  refine ⟨opens_append (opens_append (opens_name hn) _) _,
    (hdot.append hcall fun _ _ => trivial).imp ?_⟩
  rintro line line' _ ⟨_, _, _, rfl, ⟨_, _, _, rfl, ⟨n, rfl, hn, hline, rfl⟩, b, rfl, hb, hlineB,
    rfl⟩, _, _, _, rfl, ⟨_, _, us, rfl, ⟨_, _, _, rfl, ⟨m, rfl, hm, hlineM, rfl⟩,
    o, rfl, ho, hlineO, rfl⟩, rfl, hus, hsize⟩, c, rfl, hc, hlineC, rfl⟩
  refine ⟨rfl, .one ?_, ?_⟩
  · simpa using operand_method hn.1 hb hm.1 ho hc hline hlineB hlineM hlineO hlineC hus
  · simp only [List.length_append, List.length_cons, List.length_nil]
    omega

theorem lexes_params {ps : List Param} (h : ParamsLegible ps) :
    Lexes (paramsText ps) Apart (IsRow (paramsPieces ps)) := by
  have hchars := (charsOf_paramsPieces ps).symm
  rcases trails_paramsPieces h with hnone | ⟨q, v, hrow, hv, -⟩
  · cases ps <;> exact absurd hnone (List.cons_ne_nil _ _)
  · exact lexes_row hrow hv hchars

theorem apart_params (ps : List Param) (rest : List Char) :
    Apart ((paramsText ps).toList ++ rest) := by
  have hsplit : (paramsText ps).toList =
      '(' :: (", ".intercalate (ps.map paramText) ++ ")").toList := by
    rw [paramsText, String.append_assoc, String.toList_append]
    rfl
  exact apart_append hsplit rfl rest

variable {room : Nat}

def StatementText (room : Nat) (s : String) : Prop :=
  Lexes s Apart (Statement maxNesting room)

theorem lexes_keyword (k : Keyword) {s : String} (hs : s = k.text) :
    Lexes s Apart (IsWord (.keyword k)) := lexes_word (w := .keyword k) trivial hs

theorem statementText_return {size : Nat} {s : String} (h : ChainText size s)
    (hroom : size ≤ room) : StatementText room ("return " ++ s) := by
  have hkeyword := (lexes_keyword .returnWord rfl).append lexes_blank
    fun rest _ => apart_append rfl rfl rest
  refine (hkeyword.append h.lexes fun _ _ => trivial).imp ?_
  rintro line line' _ ⟨_, _, us, rfl, ⟨_, _, _, rfl, ⟨t, rfl, ht, hline, rfl⟩, rfl, rfl⟩,
    rfl, hus, hsize⟩
  exact statement_return ht hline hus (hsize.trans hroom)

def LinesText (room : Nat) (s : String) : Prop := Lexes s Apart (Lines maxNesting room)

def BracesText (room : Nat) (s : String) : Prop := Lexes s Apart (Braces maxNesting room)

/-- Statements between braces, with blanks or line ends beside these. -/
theorem LinesText.braces {s : String} (h : LinesText room s) (g : Gap) (sep : String)
    (hsep : sep.toList = g.chars) (hg : g ≠ .nothing) :
    BracesText room ("\x7b" ++ sep ++ s ++ sep ++ "\x7d") := by
  have hapart : ∀ rest, Apart (sep.toList ++ rest) := by
    intro rest
    rw [hsep]
    cases g with
    | nothing => exact absurd rfl hg
    | blank => exact fun c hc => by cases hc; rfl
    | line depth => exact fun c hc => by cases hc; rfl
  have hblank := lexes_gap g hsep
  have hopen := (lexes_sign .leftBrace rfl rfl).append hblank fun _ _ => trivial
  have hclose := lexes_close .rightBrace rfl rfl
  refine ((((hopen.append h fun _ _ => trivial).append hblank fun rest _ => hapart rest).append
    hclose fun _ _ => trivial)).imp ?_
  rintro line line' _ ⟨_, _, _, rfl, ⟨_, _, _, rfl, ⟨_, _, ts, rfl, ⟨_, _, _, rfl,
    ⟨o, rfl, ho, hline, rfl⟩, rfl, rfl⟩, hts⟩, rfl, rfl⟩, c, rfl, hc, hline', rfl⟩
  rw [List.append_nil, List.append_nil, List.append_assoc]
  exact .mk ho hline hc hline' hts

/-- A statement is a line. -/
theorem StatementText.lines {s : String} (h : StatementText room s) : LinesText room s :=
  h.imp fun _ _ _ hts => .one hts

/-- A statement on the line before others. -/
theorem LinesText.cons {s t : String} (h : LinesText room t) (hs : StatementText room s) :
    LinesText room (s ++ "\n" ++ t) := by
  refine ((hs.append lexes_line fun rest _ => apart_append rfl rfl rest).append h
    fun _ _ => trivial).imp ?_
  rintro line line' _ ⟨_, _, us, rfl, ⟨_, ts, _, rfl, hts, rfl, rfl⟩, hus⟩
  rw [List.append_nil]
  exact .more hts (Nat.lt_succ_self _) hus

theorem linesText_intercalate {ss : List String} (hne : ss ≠ [])
    (h : ∀ s ∈ ss, StatementText room s) : LinesText room ("\n".intercalate ss) := by
  induction ss with
  | nil => exact absurd rfl hne
  | cons s ss ih =>
      have hs := h s List.mem_cons_self
      cases ss with
      | nil =>
          rw [String.intercalate_singleton]
          exact StatementText.lines hs
      | cons t ss =>
          rw [String.intercalate_cons_cons, String.append_assoc, ← String.append_assoc]
          exact (ih (List.cons_ne_nil t ss) fun r hr => h r (List.mem_cons_of_mem s hr)).cons hs

/-- Whether some tokens on one line are a block that gives back a chain of no more
than `size` tokens. -/
def IsBody (size line line' : Nat) (ts : List Token) : Prop :=
  line' = line ∧ ts.length ≤ size + 3 ∧
    ∃ room < ts.length, Braces maxNesting room line line ts

theorem lexes_body {size : Nat} {s : String} (h : ChainText size s) :
    Lexes ("\x7b" ++ " " ++ ("return" ++ " " ++ s) ++ " " ++ "\x7d") Apart (IsBody size) := by
  have hblank : ∀ rest, Apart (" ".toList ++ rest) := fun rest => apart_append rfl rfl rest
  have hreturn := ((lexes_keyword .returnWord rfl).append lexes_blank
    fun rest _ => hblank rest).append h.lexes fun _ _ => trivial
  have hopen := (lexes_sign .leftBrace rfl rfl).append lexes_blank fun _ _ => trivial
  refine ((((hopen.append hreturn fun _ _ => trivial).append lexes_blank
    fun rest _ => hblank rest).append (lexes_close .rightBrace rfl rfl)
      fun _ _ => trivial)).imp ?_
  rintro line line' _ ⟨_, _, _, rfl, ⟨_, _, _, rfl, ⟨_, _, _, rfl, ⟨_, _, _, rfl,
    ⟨o, rfl, ho, hline, rfl⟩, rfl, rfl⟩, _, _, ts, rfl, ⟨_, _, _, rfl, ⟨t, rfl, ht, hlineT, rfl⟩,
      rfl, rfl⟩, rfl, hts, hsize⟩, rfl, rfl⟩, c, rfl, hc, hline', rfl⟩
  have hstatement := statement_return ht hlineT hts (Nat.le_refl ts.length)
  have hbraces := Braces.mk ho hline hc hline' (.one hstatement)
  have hlength : (o :: (t :: ts ++ [c])).length = ts.length + 3 := by
    simp only [List.length_cons, List.length_append, List.length_nil]
  have hsame : [o] ++ [] ++ ([t] ++ [] ++ ts) ++ [] ++ [c] = o :: (t :: ts ++ [c]) := by simp
  rw [hsame]
  exact ⟨rfl, by omega, ts.length, by omega, hbraces⟩

/-- A function without a name, which gives back a chain. -/
theorem chainText_lambda {ps : List Param} (hps : ParamsLegible ps) {size : Nat} {s : String}
    (h : ChainText size s) : ChainText (size + (paramsPieces ps).length + 4)
      ("fn" ++ paramsText ps ++ " " ++
        ("\x7b" ++ " " ++ ("return" ++ " " ++ s) ++ " " ++ "\x7d")) := by
  have hhead := (lexes_keyword .fnWord rfl).append (lexes_params hps)
    fun rest _ => apart_params ps rest
  refine ⟨opens_append (opens_append (opens_append ⟨'f', ['n'], rfl, by decide⟩ _) _) _,
    ((hhead.append lexes_blank fun rest _ => apart_append rfl rfl rest).append (lexes_body h)
      fun _ _ => trivial).imp ?_⟩
  rintro line line' _ ⟨_, _, body, rfl, ⟨_, _, _, rfl, ⟨_, _, us, rfl, ⟨t, rfl, ht, hline, rfl⟩,
    hus, rfl⟩, rfl, rfl⟩, rfl, hsize, room, hroom, hbraces⟩
  simp only [linesIn_paramsPieces, Nat.add_zero] at hbraces ⊢
  have hsame : [t] ++ us ++ [] ++ body = t :: (us ++ body) := by simp
  have hlength := hus.length_eq
  rw [hsame]
  refine ⟨rfl, .one (operand_lambda ht hline hps hus hbraces hroom), ?_⟩
  simp only [List.length_cons, List.length_append]
  omega

theorem statementText_chain {size : Nat} {s : String} (h : ChainText size s)
    (hroom : size ≤ room) : StatementText room s := by
  refine h.lexes.imp ?_
  rintro line line' ts ⟨rfl, hts, hsize⟩
  exact statement_chain hts (hsize.trans hroom)

/-- Whether some tokens on one line are what an assignment assigns to. -/
def IsTarget (room line line' : Nat) (ts : List Token) : Prop :=
  line' = line ∧ Target maxNesting line ts ∧ ts.length ≤ room

theorem targetText_name {n : String} (hn : IsName n) : Lexes n Apart (IsTarget 1) := by
  refine (lexes_word (w := .name n) hn rfl).imp ?_
  rintro line line' _ ⟨t, rfl, ht, hline, rfl⟩
  exact ⟨rfl, target_name ht.1 hline, Nat.le_refl 1⟩

theorem targetText_index {n : String} (hn : IsName n) {size : Nat} {s : String}
    (h : ChainText size s) : Lexes (n ++ "[" ++ s ++ "]") Apart (IsTarget (size + 3)) := by
  refine (lexes_index hn h).imp ?_
  rintro line _ _ ⟨rfl, n, b, us, c, rfl, hn, hb, hc, hline, hlineB, hlineC, hus, hsize⟩
  refine ⟨rfl, target_index hn hb hc hline hlineB hlineC hus, ?_⟩
  simp only [List.length_cons, List.length_append, List.length_nil]
  omega

theorem statementText_assign {size size' : Nat} {s t : String}
    (h : Lexes s Apart (IsTarget size)) (h' : ChainText size' t) (hroom : size ≤ room)
    (hroom' : size' ≤ room) : StatementText room (s ++ " = " ++ t) := by
  have hequals := (lexes_blank.append (lexes_word (w := .sign .assign) trivial rfl)
    fun _ _ => trivial).append lexes_blank fun rest _ => apart_append rfl rfl rest
  refine ((h.append hequals fun rest _ => apart_append rfl rfl rest).append h'.lexes
    fun _ _ => trivial).imp ?_
  rintro line line' _ ⟨_, _, us, rfl, ⟨_, ts, _, rfl, ⟨rfl, hts, hsize⟩, _, _, _, rfl,
    ⟨_, _, _, rfl, ⟨rfl, rfl⟩, b, rfl, hb, hline, rfl⟩, rfl, rfl⟩, rfl, hus, hsize'⟩
  simp only [List.append_nil, List.nil_append, List.append_assoc, List.singleton_append]
  exact statement_assign hts hb hus (hsize.trans hroom) (hsize'.trans hroom')

theorem statementText_leave {s : String} (h : s = "break" ∨ s = "continue") :
    StatementText room s := by
  rcases h with rfl | rfl
  · refine (lexes_keyword .breakWord rfl).imp ?_
    rintro line line' _ ⟨t, rfl, ht, hline, rfl⟩
    exact statement_leave (Or.inl ht) hline
  · refine (lexes_keyword .continueWord rfl).imp ?_
    rintro line line' _ ⟨t, rfl, ht, hline, rfl⟩
    exact statement_leave (Or.inr ht) hline

/-- Whether some tokens are a condition and its block. -/
def IsBranch (room line line' : Nat) (ts : List Token) : Prop :=
  ∃ us vs, ts = us ++ vs ∧ Chain maxNesting line us ∧ us.length ≤ room ∧
    Braces maxNesting room line line' vs

theorem lexes_branch {size : Nat} {s t : String} (h : ChainText size s) (h' : BracesText room t)
    (hroom : size ≤ room) : Lexes (s ++ " " ++ t) Apart (IsBranch room) := by
  refine ((h.lexes.append lexes_blank fun rest _ => apart_append rfl rfl rest).append h'
    fun _ _ => trivial).imp ?_
  rintro line line' _ ⟨_, _, us, rfl, ⟨_, ts, _, rfl, ⟨rfl, hts, hsize⟩, rfl, rfl⟩, hus⟩
  rw [List.append_nil]
  exact ⟨ts, us, rfl, hts, hsize.trans hroom, hus⟩

/-- A keyword and a blank. -/
theorem lexes_keyword_blank (k : Keyword) {s : String} (hs : s = k.text ++ " ") :
    Lexes s Anything (IsWord (.keyword k)) := by
  rw [hs]
  refine ((lexes_keyword k rfl).append lexes_blank fun rest _ => apart_append rfl rfl rest).imp ?_
  rintro line line' _ ⟨_, _, _, rfl, ht, rfl, rfl⟩
  rw [List.append_nil]
  exact ht

theorem statementText_while {s : String} (h : Lexes s Apart (IsBranch room)) :
    StatementText room ("while " ++ s) := by
  refine ((lexes_keyword_blank .whileWord rfl).append h fun _ _ => trivial).imp ?_
  rintro line line' _ ⟨_, _, _, rfl, ⟨t, rfl, ht, hline, rfl⟩, us, vs, rfl, hus, hroom, hvs⟩
  rw [List.singleton_append]
  exact statement_while ht hline hus hvs hroom

theorem statementText_for {n s : String} (hn : IsName n) (h : Lexes s Apart (IsBranch room)) :
    StatementText room ("for " ++ n ++ " in " ++ s) := by
  have hin := lexes_blank.append (lexes_keyword_blank .inWord rfl) fun _ _ => trivial
  have hname := (lexes_keyword_blank .forWord rfl).append (lexes_word (w := .name n) hn rfl)
    fun _ _ => trivial
  refine ((hname.append hin fun rest _ => apart_append rfl rfl rest).append h
    fun _ _ => trivial).imp ?_
  rintro line line' _ ⟨_, _, _, rfl, ⟨_, _, _, rfl, ⟨_, _, _, rfl, ⟨t, rfl, ht, hline, rfl⟩,
    n, rfl, hn, -, rfl⟩, _, _, _, rfl, ⟨rfl, rfl⟩, i, rfl, hi, -, rfl⟩, us, vs, rfl, hus,
      hroom, hvs⟩
  have hsame : [t] ++ [n] ++ ([] ++ [i]) ++ (us ++ vs) = t :: n :: i :: (us ++ vs) := by simp
  rw [hsame]
  exact statement_for ht hn.1 hi hline hus hvs hroom

def FunctionText (room : Nat) (s : String) : Prop := Lexes s Apart (Function maxNesting room)

theorem functionText {n s : String} {ps : List Param} (hn : IsName n) (hps : ParamsLegible ps)
    (h : BracesText room s) : FunctionText room ("fn " ++ n ++ paramsText ps ++ " " ++ s) := by
  have hname := (lexes_keyword_blank .fnWord rfl).append (lexes_word (w := .name n) hn rfl)
    fun _ _ => trivial
  have hparams := hname.append (lexes_params hps) fun rest _ => apart_params ps rest
  refine ((hparams.append lexes_blank fun rest _ => apart_append rfl rfl rest).append h
    fun _ _ => trivial).imp ?_
  rintro line line' _ ⟨_, _, body, rfl, ⟨_, _, _, rfl, ⟨_, _, us, rfl, ⟨_, _, _, rfl,
    ⟨t, rfl, ht, hline, rfl⟩, n, rfl, hn, -, rfl⟩, hus, rfl⟩, rfl, rfl⟩, hbody⟩
  simp only [linesIn_paramsPieces, Nat.add_zero] at hbody
  have hsame : [t] ++ [n] ++ us ++ [] ++ body = t :: n :: (us ++ body) := by simp
  rw [hsame]
  exact function_named ht hn.1 hline hps hus hbody

theorem FunctionText.statement {s : String} (h : FunctionText room s) : StatementText room s :=
  h.imp fun _ _ _ hts => hts.statement

/-- A text that is functions on lines of their own. -/
theorem methodsText_intercalate {ss : List String} (hne : ss ≠ [])
    (h : ∀ s ∈ ss, FunctionText room s) :
    Lexes ("\n".intercalate ss) Apart fun _ _ ts => Methods maxNesting room ts := by
  induction ss with
  | nil => exact absurd rfl hne
  | cons s ss ih =>
      have hs := h s List.mem_cons_self
      cases ss with
      | nil =>
          rw [String.intercalate_singleton]
          refine hs.imp fun _ _ ts hts => ?_
          have hone := Methods.cons hts .nil
          rwa [List.append_nil] at hone
      | cons t ss =>
          have hmore := ih (List.cons_ne_nil t ss) fun r hr => h r (List.mem_cons_of_mem s hr)
          rw [String.intercalate_cons_cons]
          refine ((hs.append lexes_line fun rest _ => apart_append rfl rfl rest).append hmore
            fun _ _ => trivial).imp ?_
          rintro line line' _ ⟨_, _, us, rfl, ⟨_, ts, _, rfl, hts, rfl, rfl⟩, hus⟩
          rw [List.append_nil]
          exact .cons hts hus

/-- The name and the fields of a class. -/
theorem lexes_classHead {n : String} {ps : List Param} (hn : IsName n) (hps : ParamsLegible ps) :
    Lexes ("class" ++ (" " ++ n ++ paramsText ps)) Apart (Then (IsWord (.keyword .classWord))
      (IsRow (⟨.blank, .name n⟩ :: paramsPieces ps))) := by
  have hrow : Phrase .blank ([Piece.mk .blank (.name n)] ++ paramsPieces ps) :=
    (Phrase.word .blank (w := .name n) rfl rfl hn).append (trails_paramsPieces hps)
  obtain ⟨w, v, -, hv, hrow⟩ := hrow
  have hchars : (" " ++ n ++ paramsText ps).toList =
      charsOf ([Piece.mk .blank (.name n)] ++ paramsPieces ps) := by
    rw [charsOf_append, charsOf_paramsPieces, String.toList_append, String.toList_append]
    simp [Gap.chars, Word.text]
  refine (lexes_keyword .classWord rfl).append (lexes_row hrow hv hchars) fun rest _ => ?_
  have hblank : (" " ++ n ++ paramsText ps).toList = ' ' :: (n ++ paramsText ps).toList := by
    rw [String.append_assoc, String.toList_append]
    rfl
  exact apart_append hblank rfl rest

/-- A class without methods. -/
theorem statementText_fields {n : String} {ps : List Param} (hn : IsName n)
    (hps : ParamsLegible ps) :
    StatementText room ("class" ++ (" " ++ n ++ paramsText ps) ++ ";") := by
  refine ((lexes_classHead hn hps).append (lexes_close .semicolon rfl rfl)
    fun rest _ => apart_append rfl rfl rest).imp ?_
  rintro line line' _ ⟨_, _, _, rfl, ⟨_, _, us, rfl, ⟨t, rfl, ht, hline, rfl⟩, hus, rfl⟩,
    c, rfl, hc, hlineC, rfl⟩
  have hus : Laid reread _ (⟨.blank, .name (Ident.mk n .nowhere).name⟩ :: paramsPieces ps) us :=
    hus
  exact statement_class_nil ht hline hps hus hc hlineC

/-- A class with methods. -/
theorem statementText_methods {n s : String} {ps : List Param} (hn : IsName n)
    (hps : ParamsLegible ps)
    (h : Lexes s Apart fun _ _ ts => Methods maxNesting room ts) :
    StatementText room ("class" ++ (" " ++ n ++ paramsText ps) ++ " \x7b " ++ s ++ " \x7d") := by
  have hopen := (lexes_blank.append (lexes_sign .leftBrace rfl rfl)
    fun _ _ => trivial).append lexes_blank fun _ _ => trivial
  have hclose := lexes_blank.append (lexes_close .rightBrace rfl rfl)
    fun _ _ => trivial
  have hhead := (lexes_classHead hn hps).append hopen fun rest _ => apart_append rfl rfl rest
  refine ((hhead.append h fun _ _ => trivial).append hclose
    fun rest _ => apart_append rfl rfl rest).imp ?_
  rintro line line' _ ⟨_, _, _, rfl, ⟨_, _, vs, rfl, ⟨_, _, _, rfl, ⟨_, _, us, rfl,
    ⟨t, rfl, ht, hline, rfl⟩, hus, rfl⟩, _, _, _, rfl, ⟨_, _, _, rfl, ⟨rfl, rfl⟩,
      o, rfl, ho, -, rfl⟩, rfl, rfl⟩, hvs⟩, _, _, _, rfl, ⟨rfl, rfl⟩, c, rfl, hc, hlineC, rfl⟩
  have hsame : [t] ++ us ++ ([] ++ [o] ++ []) ++ vs ++ ([] ++ [c]) =
      t :: (us ++ o :: (vs ++ [c])) := by simp
  rw [hsame]
  have hus : Laid reread _ (⟨.blank, .name (Ident.mk n .nowhere).name⟩ :: paramsPieces ps) us :=
    hus
  exact statement_class_methods ht hline hps hus ho hvs hc hlineC

/-- A text that may stand behind a branch of a choice. -/
structure FurtherText (room : Nat) (s : String) : Prop where
  apart : ∀ rest, Apart rest → Apart (s.toList ++ rest)
  lexes : Lexes s Apart (Further maxNesting room)

theorem furtherText_nothing : FurtherText room "" :=
  ⟨fun _ h => h, fun p _ _ => ⟨[], p, rfl, fun _ ht => absurd ht List.not_mem_nil, .nothing⟩⟩

theorem furtherText_otherwise {s : String} (h : BracesText room s) :
    FurtherText room (" else " ++ s) := by
  have hkeyword := lexes_blank.append (lexes_keyword_blank .elseWord rfl) fun _ _ => trivial
  refine ⟨fun rest _ => ?_, (hkeyword.append h fun _ _ => trivial).imp ?_⟩
  · rw [String.toList_append, List.append_assoc]
    exact apart_append rfl rfl _
  · rintro line line' _ ⟨_, _, us, rfl, ⟨_, _, _, rfl, ⟨rfl, rfl⟩, e, rfl, he, -, rfl⟩, hus⟩
    exact .otherwise he hus

/-- A further branch. -/
theorem FurtherText.behind_branch {s t : String} (h : FurtherText room t)
    (hs : Lexes s Apart (IsBranch room)) : FurtherText room (" elif " ++ s ++ t) := by
  have hkeyword := lexes_blank.append (lexes_keyword_blank .elifWord rfl) fun _ _ => trivial
  refine ⟨fun rest _ => ?_,
    ((hkeyword.append hs fun _ _ => trivial).append h.lexes h.apart).imp ?_⟩
  · rw [String.append_assoc, String.toList_append, List.append_assoc]
    exact apart_append rfl rfl _
  · rintro line line' _ ⟨_, _, ws, rfl, ⟨_, _, _, rfl, ⟨_, _, _, rfl, ⟨rfl, rfl⟩,
      e, rfl, he, -, rfl⟩, us, vs, rfl, hus, hroom, hvs⟩, hws⟩
    have hsame : [] ++ [e] ++ (us ++ vs) ++ ws = e :: (us ++ vs ++ ws) := by simp
    rw [hsame]
    exact .branch he hus hroom hvs hws

theorem statementText_choice {s t : String} (hs : Lexes s Apart (IsBranch room))
    (h : FurtherText room t) : StatementText room ("if " ++ s ++ t) := by
  have hkeyword := lexes_keyword_blank .ifWord (s := "if ") rfl
  refine ((hkeyword.append hs fun _ _ => trivial).append h.lexes h.apart).imp ?_
  rintro line line' _ ⟨_, _, ws, rfl, ⟨_, _, _, rfl, ⟨e, rfl, he, hline, rfl⟩,
    us, vs, rfl, hus, hroom, hvs⟩, hws⟩
  have hsame : [e] ++ (us ++ vs) ++ ws = e :: (us ++ vs ++ ws) := by simp
  rw [hsame]
  exact statement_choice he hline hus hroom hvs hws

end Scriptlet.Parser
