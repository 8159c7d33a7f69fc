/-
Texts that are cut into tokens wherever they stand.  Two of them, one after the
other, are cut into the tokens of both where the second begins with a character
that changes no token of the first.
-/
import Scriptlet.Proofs.Laid

namespace Scriptlet.Lexer

open Layout

/-- Whether a text, wherever it stands before one that `next` admits, is cut into
legal tokens of which `good` holds, with the lines on which it begins and ends. -/
def Lexes (s : String) (next : List Char → Prop) (good : Nat → Nat → List Token → Prop) : Prop :=
  ∀ (p : Position) (rest : List Char), next rest → ∃ ts q,
    tokensFrom ⟨p, s.toList ++ rest⟩ = ts ++ tokensFrom ⟨q, rest⟩ ∧
      (∀ t ∈ ts, t.isIllegal = false) ∧ good p.line q.line ts

def Then (good good' : Nat → Nat → List Token → Prop) (line line' : Nat) (ts : List Token) :
    Prop :=
  ∃ middle us vs, ts = us ++ vs ∧ good line middle us ∧ good' middle line' vs

/-- What may follow every text. -/
def Anything (_ : List Char) : Prop := True

/-- Whether a character begins neither the rest of a token nor a longer one. -/
def setsApart (c : Char) : Bool :=
  !isNameChar c && c != '.' && c != '=' && c != '&' && c != '|' && c != '/' && c != '*'

/-- What may follow every word. -/
def Apart (rest : List Char) : Prop := ∀ c, rest.head? = some c → setsApart c = true

variable {s t : String} {next next' : List Char → Prop}
  {good good' : Nat → Nat → List Token → Prop}

theorem apart_append {c : Char} {cs : List Char} (hs : s.toList = c :: cs)
    (hc : setsApart c = true) (rest : List Char) : Apart (s.toList ++ rest) := by
  intro d hd
  rw [hs] at hd
  cases hd
  exact hc

theorem Lexes.append (h : Lexes s next good) (h' : Lexes t next' good')
    (hnext : ∀ rest, next' rest → next (t.toList ++ rest)) :
    Lexes (s ++ t) next' (Then good good') := by
  intro p rest hrest
  obtain ⟨us, q, hus, hlegal, hgood⟩ := h p (t.toList ++ rest) (hnext rest hrest)
  obtain ⟨vs, r, hvs, hlegal', hgood'⟩ := h' q rest hrest
  refine ⟨us ++ vs, r, ?_, ?_, q.line, us, vs, rfl, hgood, hgood'⟩
  · rw [String.toList_append, List.append_assoc, hus, hvs, List.append_assoc]
  · intro u hu
    exact (List.mem_append.mp hu).elim (hlegal u) (hlegal' u)

theorem Lexes.imp (h : Lexes s next good)
    (hgood : ∀ line line' ts, good line line' ts → good' line line' ts) : Lexes s next good' := by
  intro p rest hrest
  obtain ⟨ts, q, hts, hlegal, hts'⟩ := h p rest hrest
  exact ⟨ts, q, hts, hlegal, hgood _ _ _ hts'⟩

theorem Lexes.before (h : Lexes s next good) (hnext : ∀ rest, next' rest → next rest) :
    Lexes s next' good := fun p rest hrest => h p rest (hnext rest hrest)

theorem Lexes.anywhere (h : Lexes s Anything good) : Lexes s next good :=
  h.before fun _ _ => trivial

/-- No tokens, and `n` line ends. -/
def Blank (n line line' : Nat) (ts : List Token) : Prop := ts = [] ∧ line' = line + n

def IsWord (w : Word) (line line' : Nat) (ts : List Token) : Prop :=
  ∃ t, ts = [t] ∧ ReadAs reread t w ∧ t.position.line = line ∧ line' = line

/-- Characters that separate tokens are passed over. -/
theorem lexes_gap (g : Gap) (hs : s.toList = g.chars) : Lexes s Anything (Blank g.lines) := by
  intro p rest _
  refine ⟨[], p.afterAll g.chars, ?_, fun t ht => absurd ht List.not_mem_nil, rfl,
    line_afterAll_gap g p⟩
  rw [hs, List.nil_append]
  exact tokensFrom_congr (congrArg tokenAt (skip_spaces (isSpace_gap g) p rest))

theorem lexes_blank : Lexes " " Anything (Blank 0) := lexes_gap .blank rfl

theorem lexes_line : Lexes "\n" Anything (Blank 1) := lexes_gap (.line 0) rfl

theorem isIllegal_of_readAs {f : String → String} {t : Token} {w : Word} (h : ReadAs f t w) :
    t.isIllegal = false := by
  unfold Token.isIllegal
  cases w with
  | name n =>
      have hname := h.1
      unfold Token.isName at hname
      cases hk : t.kind <;> simp_all
  | str s => simp [h.1]
  | sign s => simp [show t.kind = .sign s from h]
  | keyword k => simp [show t.kind = .keyword k from h]
  | int v => simp [show t.kind = .int v from h]
  | float x => simp [show t.kind = .float x from h]

/-- A word, where what follows does not change it. -/
theorem lexes_ends {w : Word} (hw : w.Legible) (hs : s = w.text) :
    Lexes s (Ends w) (IsWord w) := by
  rintro p rest hrest
  obtain ⟨t, q, htoken, hposition, hq, hread⟩ := cutAs_word hw hrest p
  refine ⟨[t], q, ?_, ?_, t, rfl, hread, congrArg Position.line hposition, hq⟩
  · have hnext : Lexer.next ⟨p, w.text.toList ++ rest⟩ = (t, ⟨q, rest⟩) := by
      rw [Lexer.next, skip_word hw hrest, htoken]
    rw [hs, tokensFrom_cons hnext (isEof_of_readAs hread)]
    rfl
  · intro u hu
    rw [List.mem_singleton.mp hu]
    exact isIllegal_of_readAs hread

theorem setsApart_facts {c : Char} (h : setsApart c = true) : isNameChar c = false ∧ c ≠ '.' ∧
    (c ≠ '=' ∧ c ≠ '&' ∧ c ≠ '|') ∧ c ≠ '/' ∧ c ≠ '*' := by
  simp only [setsApart, Bool.and_eq_true, Bool.not_eq_true', bne_iff_ne] at h
  obtain ⟨⟨⟨⟨⟨⟨hname, hdot⟩, hequal⟩, hboth⟩, heither⟩, hslash⟩, hstar⟩ := h
  exact ⟨hname, hdot, ⟨hequal, hboth, heither⟩, hslash, hstar⟩

theorem ends_of_apart {rest : List Char} (h : Apart rest) (w : Word) : Ends w rest := by
  have hname : Stops isNameChar rest := fun d hd => (setsApart_facts (h d hd)).1
  have hdigit : Stops isDigit rest := fun d hd =>
    (Bool.or_eq_false_iff.mp (hname d hd)).2
  cases w with
  | sign s =>
      intro c _ d hd
      obtain ⟨-, -, hsigns, hslash, hstar⟩ := setsApart_facts (h d hd)
      exact ⟨twoSign?_eq_none hsigns, fun _ => ⟨hslash, hstar⟩⟩
  | keyword k => exact hname
  | name n => exact hname
  | int v =>
      refine ⟨hdigit, ?_⟩
      rintro tail rfl
      exact absurd rfl (setsApart_facts (h '.' rfl)).2.1
  | float x => exact hdigit
  | str s => trivial

/-- A word before a character that sets it apart. -/
theorem lexes_word {w : Word} (hw : w.Legible) (hs : s = w.text) :
    Lexes s Apart (IsWord w) := (lexes_ends hw hs).before fun _ h => ends_of_apart h w

/-- Whether no character behind a sign changes it. -/
def standsAlone : Sign → Bool
  | .assign | .bang | .less | .greater | .slash | .lessEq | .greaterEq | .equal | .notEqual
  | .both | .either => false
  | _ => true

theorem twoSign?_of_first {c : Char}
    (h : c ≠ '=' ∧ c ≠ '!' ∧ c ≠ '<' ∧ c ≠ '>' ∧ c ≠ '&' ∧ c ≠ '|') (d : Char) :
    twoSign? c d = none := by
  unfold twoSign?
  split <;> simp_all

theorem ends_of_standsAlone {s : Sign} (h : standsAlone s = true) (rest : List Char) :
    Ends (.sign s) rest := by
  have hfirst : s.text.toList.all (fun c => decide (c ≠ '=' ∧ c ≠ '!' ∧ c ≠ '<' ∧ c ≠ '>' ∧
      c ≠ '&' ∧ c ≠ '|') && decide (c ≠ '/')) = true := by
    cases s <;> first | rfl | exact absurd h (by decide)
  intro c hc d _
  rw [hc, List.all_cons, List.all_nil, Bool.and_true, Bool.and_eq_true, decide_eq_true_eq,
    decide_eq_true_eq] at hfirst
  exact ⟨twoSign?_of_first hfirst.1 d, fun hslash => absurd hslash hfirst.2⟩

/-- A sign that nothing behind it changes. -/
theorem lexes_sign (sign : Sign) (h : standsAlone sign = true) (hs : s = sign.text) :
    Lexes s Anything (IsWord (.sign sign)) :=
  (lexes_ends (w := .sign sign) trivial hs).before fun rest _ => ends_of_standsAlone h rest

/-- Whether some tokens are those of a row of words. -/
def IsRow (ps : List Piece) (line line' : Nat) (ts : List Token) : Prop :=
  Laid reread line ps ts ∧ line' = line + linesIn ps

/-- What stands behind a word of a row does not change it. -/
theorem ends_of_beside {w : Word} {q : Piece} {tail : List Piece} {v : Word}
    (hrow : Row q (q :: tail) v) (hv : v.closes = true) (hbeside : beside w q = true)
    (rest : List Char) : Ends w (charsOf (q :: tail) ++ rest) := by
  obtain ⟨g, word⟩ := q
  rw [charsOf_cons, Piece.chars_mk, List.append_assoc, List.append_assoc]
  cases g with
  | nothing => exact ends_of_touches hrow hv hbeside rest
  | blank => exact ends_of_space rfl _ _
  | line depth => exact ends_of_space rfl _ _

/-- A piece, where what follows does not change its word. -/
theorem lexes_piece {p : Piece} (hp : p.word.Legible) (hs : s.toList = p.chars) :
    Lexes s (Ends p.word) (IsRow [p]) := by
  have hgap := lexes_gap p.gap (String.toList_ofList (l := p.gap.chars))
  have hword := lexes_ends hp rfl
  have hboth : s = String.ofList p.gap.chars ++ p.word.text := by
    rw [← String.toList_inj, hs, String.toList_append, String.toList_ofList]
    rfl
  rw [hboth]
  refine (hgap.append hword fun _ _ => trivial).imp ?_
  rintro line line' _ ⟨_, _, _, rfl, ⟨rfl, rfl⟩, t, rfl, hread, hline, rfl⟩
  exact ⟨⟨hread, hline, trivial⟩, rfl⟩

/-- A row of words. -/
theorem lexes_row {p : Piece} {ps : List Piece} {w : Word} (h : Row p ps w)
    (hw : w.closes = true) (hs : s.toList = charsOf ps) : Lexes s Apart (IsRow ps) := by
  induction h generalizing s with
  | one p hp =>
      rw [charsOf_cons, charsOf_nil, List.append_nil] at hs
      exact (lexes_piece hp hs).before fun _ h => ends_of_apart h p.word
  | cons p q ps w hp hbeside hrow ih =>
      obtain ⟨-, tail, rfl⟩ := Row.exists_tail hrow
      have hfirst := lexes_piece hp (String.toList_ofList (l := p.chars))
      have hrest := ih hw (String.toList_ofList (l := charsOf (q :: tail)))
      have hboth : s = String.ofList p.chars ++ String.ofList (charsOf (q :: tail)) := by
        rw [← String.toList_inj, hs, String.toList_append, String.toList_ofList,
          String.toList_ofList, charsOf_cons]
      rw [hboth]
      refine (hfirst.append hrest fun rest _ => ?_).imp ?_
      · rw [String.toList_ofList]
        exact ends_of_beside hrow hw hbeside rest
      · rintro line line' _ ⟨_, us, vs, rfl, ⟨hus, rfl⟩, hvs, rfl⟩
        refine ⟨laid_append_iff.mpr ⟨us, vs, rfl, hus, hvs⟩, ?_⟩
        rw [linesIn_cons p [], linesIn_cons p (q :: tail), linesIn_nil, Nat.add_assoc,
          Nat.add_zero]

end Scriptlet.Lexer
