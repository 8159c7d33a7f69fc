/-
Reading a quoted string.  A printable character, a line end, a tab and a
carriage return are read back as themselves.  The other escapes are not known to
the reader: it takes the character after the backslash for itself, and what is
left of the escape for text.
-/
import Scriptlet.Proofs.Characters
import Scriptlet.Token.Lexer

namespace Scriptlet

namespace Text

/-- The escapes of two characters, each with what it stands for. -/
def shortEscapes : List (Char × Char) :=
  [('"', '"'), ('\\', '\\'), ('\x07', 'a'), ('\x08', 'b'), ('\x0C', 'f'), ('\n', 'n'),
    ('\r', 'r'), ('\t', 't'), ('\x0B', 'v')]

/-- The escapes by number, each with its count of digits. -/
def longEscapes : List (Char × Nat) := [('x', 2), ('u', 4), ('U', 8)]

def isPlain (c : Char) : Bool := isPrintable c || c == '\n' || c == '\t' || c == '\r'

theorem shortEscapes_inj : ∀ a ∈ shortEscapes, ∀ b ∈ shortEscapes, a.2 = b.2 → a.1 = b.1 := by
  decide

theorem longEscapes_inj : ∀ a ∈ longEscapes, ∀ b ∈ longEscapes, a.1 = b.1 → a.2 = b.2 := by
  decide

theorem shortEscapes_ne_longEscapes : ∀ a ∈ shortEscapes, ∀ b ∈ longEscapes, a.2 ≠ b.1 := by
  decide

theorem mem_shortEscapes_of_toNat {c d : Char} {n : Nat} (hn : c.toNat = n)
    (h : (Char.ofNat n, d) ∈ shortEscapes) : (c, d) ∈ shortEscapes := by
  rwa [← hn, Char.ofNat_toNat] at h

/-- A character is written as itself, or as a short or a long escape. -/
theorem escapeChar_cases (c : Char) :
    (escapeChar c = [c] ∧ isPrintable c = true ∧ c ≠ '"' ∧ c ≠ '\\') ∨
    (∃ d, escapeChar c = ['\\', d] ∧ (c, d) ∈ shortEscapes) ∨
    (∃ tag width, escapeChar c = '\\' :: tag :: hexDigits width c.toNat ∧
      (tag, width) ∈ longEscapes ∧ c.toNat < 16 ^ width ∧ isPlain c = false) := by
  by_cases hmark : c = '"' ∨ c = '\\'
  · rcases hmark with rfl | rfl
    · exact Or.inr (Or.inl ⟨'"', by decide, by decide⟩)
    · exact Or.inr (Or.inl ⟨'\\', by decide, by decide⟩)
  obtain ⟨hquote, hslash⟩ := not_or.mp hmark
  by_cases hprint : isPrintable c = true
  · exact Or.inl ⟨by simp [escapeChar, hquote, hslash, hprint], hprint, hquote, hslash⟩
  refine Or.inr ?_
  have hescape := escapeChar.eq_1 c
  simp only [hquote, hslash, hprint, beq_iff_eq, Bool.or_eq_true, or_self, if_false,
    Bool.false_eq_true] at hescape
  split at hescape
  all_goals try exact Or.inl ⟨_, hescape, mem_shortEscapes_of_toNat ‹_› (by decide)⟩
  rename_i h7 h8 hc ha hd h9 hb
  have hplain : isPlain c = false := by
    have hline : c ≠ '\n' := fun h => ha (h ▸ rfl)
    have htab : c ≠ '\t' := fun h => h9 (h ▸ rfl)
    have hreturn : c ≠ '\r' := fun h => hd (h ▸ rfl)
    simp [isPlain, hprint, hline, htab, hreturn]
  have hvalid : c.toNat < 0x110000 := by
    have hrange : c.toNat < 0xD800 ∨ 0xDFFF < c.toNat ∧ c.toNat < 0x110000 := c.valid
    omega
  right
  split at hescape
  · exact ⟨'x', 2, hescape, by decide, by omega, hplain⟩
  split at hescape
  · exact ⟨'u', 4, hescape, by decide, by omega, hplain⟩
  · exact ⟨'U', 8, hescape, by decide, by omega, hplain⟩

theorem hexDigits_length (width n : Nat) : (hexDigits width n).length = width := by
  induction width generalizing n with
  | zero => rfl
  | succ width ih => simp [hexDigits, ih]

theorem hexDigit_inj : ∀ a < 16, ∀ b < 16, hexDigit a = hexDigit b → a = b := by
  decide

theorem hexDigits_inj {width n m : Nat} (hn : n < 16 ^ width) (hm : m < 16 ^ width)
    (h : hexDigits width n = hexDigits width m) : n = m := by
  induction width generalizing n m with
  | zero =>
      rw [Nat.pow_zero] at hn hm
      omega
  | succ width ih =>
      have hlength : (hexDigits width (n / 16)).length = (hexDigits width (m / 16)).length := by
        rw [hexDigits_length, hexDigits_length]
      obtain ⟨hfront, hlast⟩ := List.append_inj h hlength
      have hdigit : n % 16 = m % 16 := by
        refine hexDigit_inj _ (Nat.mod_lt n (by decide)) _ (Nat.mod_lt m (by decide)) ?_
        exact List.head_eq_of_cons_eq hlast
      have hrest : n / 16 = m / 16 := by
        rw [Nat.pow_succ] at hn hm
        exact ih (by omega) (by omega) hfront
      omega

/-- What is written for a character tells which one it is, whatever follows. -/
theorem escapeChar_append_inj {c d : Char} {rest tail : List Char}
    (h : escapeChar c ++ rest = escapeChar d ++ tail) : c = d ∧ rest = tail := by
  rcases escapeChar_cases c with ⟨hc, -, -, hcs⟩ | ⟨a, hc, hca⟩ | ⟨a, m, hc, hca, hcm, -⟩ <;>
    rcases escapeChar_cases d with ⟨hd, -, -, hds⟩ | ⟨b, hd, hdb⟩ | ⟨b, n, hd, hdb, hdn, -⟩ <;>
    rw [hc, hd] at h <;> simp only [List.cons_append, List.nil_append, List.cons.injEq] at h
  · exact h
  · exact absurd h.1 hcs
  · exact absurd h.1 hcs
  · exact absurd h.1.symm hds
  · exact ⟨shortEscapes_inj _ hca _ hdb h.2.1, h.2.2⟩
  · exact absurd h.2.1 (shortEscapes_ne_longEscapes _ hca _ hdb)
  · exact absurd h.1.symm hds
  · exact absurd h.2.1.symm (shortEscapes_ne_longEscapes _ hdb _ hca)
  · obtain rfl : m = n := longEscapes_inj _ hca _ hdb h.2.1
    have hlength : (hexDigits m c.toNat).length = (hexDigits m d.toNat).length := by
      rw [hexDigits_length, hexDigits_length]
    obtain ⟨hdigits, htail⟩ := List.append_inj h.2.2 hlength
    exact ⟨Char.toNat_inj.mp (hexDigits_inj hcm hdn hdigits), htail⟩

theorem escapeChar_ne_nil (c : Char) : escapeChar c ≠ [] := by
  rcases escapeChar_cases c with ⟨hc, -⟩ | ⟨d, hc, -⟩ | ⟨tag, width, hc, -⟩ <;> simp [hc]

/-- Different strings have different quoted forms. -/
theorem quoteString_inj {s t : String} (h : quoteString s = quoteString t) : s = t := by
  have hchars := congrArg String.toList h
  rw [quoteString_toList, quoteString_toList] at hchars
  have hbody : s.toList.flatMap escapeChar = t.toList.flatMap escapeChar :=
    List.append_cancel_right (List.tail_eq_of_cons_eq hchars)
  refine String.toList_injective ?_
  generalize s.toList = cs at hbody
  generalize t.toList = ds at hbody
  induction cs generalizing ds with
  | nil =>
      cases ds with
      | nil => rfl
      | cons d ds =>
          rw [List.flatMap_nil, List.flatMap_cons] at hbody
          exact absurd (List.append_eq_nil_iff.mp hbody.symm).1 (escapeChar_ne_nil d)
  | cons c cs ih =>
      cases ds with
      | nil =>
          rw [List.flatMap_nil, List.flatMap_cons] at hbody
          exact absurd (List.append_eq_nil_iff.mp hbody).1 (escapeChar_ne_nil c)
      | cons d ds =>
          rw [List.flatMap_cons, List.flatMap_cons] at hbody
          obtain ⟨rfl, hrest⟩ := escapeChar_append_inj hbody
          rw [ih ds hrest]

end Text

/-- The line after a character that ends none. -/
theorem Position.line_after {c : Char} (h : c ≠ '\n') (p : Position) :
    (p.after c).line = p.line := by
  simp [Position.after, h]

namespace Lexer

open Text

def rereadChar (c : Char) : List Char :=
  match escapeChar c with
  | '\\' :: d :: ds => unescape d :: ds
  | cs => cs

/-- What is read where a string was quoted. -/
def reread (s : String) : String := String.ofList (s.toList.flatMap rereadChar)

theorem rereadChar_self {c : Char} (h : escapeChar c = [c]) : rereadChar c = [c] := by
  simp [rereadChar, h]

theorem rereadChar_escape {c d : Char} {ds : List Char} (h : escapeChar c = '\\' :: d :: ds) :
    rereadChar c = unescape d :: ds := by
  simp [rereadChar, h]

theorem hexDigit_mem (n : Nat) : ∀ d ∈ [hexDigit (n % 16)], d ≠ '\\' ∧ d ≠ '"' ∧ d ≠ '\x00' ∧
    d ≠ '\n' := by
  have hall : ∀ k < 16, hexDigit k ≠ '\\' ∧ hexDigit k ≠ '"' ∧ hexDigit k ≠ '\x00' ∧
      hexDigit k ≠ '\n' := by decide
  intro d hd
  rw [List.mem_singleton.mp hd]
  exact hall _ (Nat.mod_lt n (by decide))

theorem hexDigits_mem (width n : Nat) : ∀ d ∈ hexDigits width n, d ≠ '\\' ∧ d ≠ '"' ∧
    d ≠ '\x00' ∧ d ≠ '\n' := by
  induction width generalizing n with
  | zero => exact fun d hd => absurd hd List.not_mem_nil
  | succ width ih =>
      intro d hd
      rcases List.mem_append.mp hd with hd | hd
      · exact ih (n / 16) d hd
      · exact hexDigit_mem n d hd

theorem readString_text (done : List Char) (p : Position) (ds rest : List Char)
    (h : ∀ d ∈ ds, d ≠ '\\' ∧ d ≠ '"' ∧ d ≠ '\x00' ∧ d ≠ '\n') :
    ∃ q, readString done p (ds ++ rest) = readString (ds.reverse ++ done) q rest ∧
      q.line = p.line := by
  induction ds generalizing done p with
  | nil => exact ⟨p, rfl, rfl⟩
  | cons d ds ih =>
      obtain ⟨hslash, hquote, hnul, hline⟩ := h d List.mem_cons_self
      obtain ⟨q, hread, hq⟩ := ih (d :: done) (p.after d)
        (fun x hx => h x (List.mem_cons_of_mem d hx))
      refine ⟨q, ?_, hq.trans (p.line_after hline)⟩
      rw [List.cons_append, readString, if_neg hquote, if_neg hnul, hread, List.reverse_cons,
        List.append_assoc, List.singleton_append]
      · exact fun hd => absurd hd hslash
      · exact fun _ _ hd => absurd hd hslash

theorem shortEscapes_read : ∀ a ∈ shortEscapes, a.2 ≠ '\x00' ∧ a.2 ≠ '\n' := by
  decide

theorem longEscapes_read : ∀ a ∈ longEscapes, a.1 ≠ '\x00' ∧ a.1 ≠ '\n' := by
  decide

theorem readString_escape (done : List Char) (p : Position) {d : Char} (hnul : d ≠ '\x00')
    (hline : d ≠ '\n') (ds rest : List Char)
    (h : ∀ x ∈ ds, x ≠ '\\' ∧ x ≠ '"' ∧ x ≠ '\x00' ∧ x ≠ '\n') :
    ∃ q, readString done p ('\\' :: d :: (ds ++ rest)) =
      readString ((unescape d :: ds).reverse ++ done) q rest ∧ q.line = p.line := by
  obtain ⟨q, hread, hq⟩ := readString_text (unescape d :: done) ((p.after '\\').after d) ds rest h
  refine ⟨q, ?_, ?_⟩
  · rw [readString, if_neg hnul, hread]
    simp
  · rw [hq, Position.line_after hline, Position.line_after (by decide)]

theorem isPrintable_ne {c : Char} (h : isPrintable c = true) : c ≠ '\x00' ∧ c ≠ '\n' := by
  constructor <;> rintro rfl <;> exact absurd h (by decide)

/-- Reading what was written for one character. -/
theorem readString_escapeChar (done : List Char) (p : Position) (c : Char) (rest : List Char) :
    ∃ q, readString done p (escapeChar c ++ rest) =
      readString ((rereadChar c).reverse ++ done) q rest ∧ q.line = p.line := by
  rcases escapeChar_cases c with ⟨hc, hprint, hquote, hslash⟩ | ⟨d, hc, hd⟩ |
    ⟨tag, width, hc, htag, -⟩
  · obtain ⟨hnul, hline⟩ := isPrintable_ne hprint
    rw [hc, rereadChar_self hc]
    refine readString_text done p [c] rest ?_
    intro x hx
    rw [List.mem_singleton.mp hx]
    exact ⟨hslash, hquote, hnul, hline⟩
  · obtain ⟨hnul, hline⟩ := shortEscapes_read _ hd
    rw [hc, rereadChar_escape hc]
    exact readString_escape done p hnul hline [] rest (fun x hx => absurd hx List.not_mem_nil)
  · obtain ⟨hnul, hline⟩ := longEscapes_read _ htag
    rw [hc, rereadChar_escape hc]
    exact readString_escape done p hnul hline _ rest (hexDigits_mem width c.toNat)

/-- Reading what was written for some characters, up to the closing quote. -/
theorem readString_quoted (done : List Char) (p : Position) (cs rest : List Char) :
    ∃ q, readString done p (cs.flatMap escapeChar ++ '"' :: rest) =
      ⟨done.reverse ++ cs.flatMap rereadChar, true, ⟨q, rest⟩⟩ ∧ q.line = p.line := by
  induction cs generalizing done p with
  | nil =>
      refine ⟨p.after '"', ?_, p.line_after (by decide)⟩
      simp [readString]
  | cons c cs ih =>
      obtain ⟨q, hfirst, hq⟩ :=
        readString_escapeChar done p c (cs.flatMap escapeChar ++ '"' :: rest)
      obtain ⟨q', hrest, hq'⟩ := ih ((rereadChar c).reverse ++ done) q
      refine ⟨q', ?_, hq'.trans hq⟩
      rw [List.flatMap_cons, List.append_assoc, hfirst, hrest]
      simp

/-- A quoted string is one token, whose text is what is read back. -/
theorem tokenAt_quoteString (s : String) (p : Position) (rest : List Char) :
    ∃ q, tokenAt ⟨p, (quoteString s).toList ++ rest⟩ = (⟨.str, reread s, p⟩, ⟨q, rest⟩) ∧
      q.line = p.line := by
  obtain ⟨q, hread, hq⟩ := readString_quoted [] (p.after '"') s.toList rest
  refine ⟨q, ?_, hq.trans (p.line_after (by decide))⟩
  rw [quoteString_toList]
  simp [tokenAt, stringToken, hread, reread]

theorem shortEscapes_unescape : ∀ a ∈ shortEscapes, (unescape a.2 = a.1 ↔ isPlain a.1 = true) := by
  decide

theorem longEscapes_width : ∀ a ∈ longEscapes, 0 < a.2 := by
  decide

/-- A character is read back as itself just where it is plain. -/
theorem rereadChar_eq_iff (c : Char) : rereadChar c = [c] ↔ isPlain c = true := by
  rcases escapeChar_cases c with ⟨hc, hprint, -⟩ | ⟨d, hc, hd⟩ | ⟨tag, width, hc, htag, -, hplain⟩
  · simp [rereadChar_self hc, isPlain, hprint]
  · simpa [rereadChar_escape hc] using shortEscapes_unescape _ hd
  · have hwidth := longEscapes_width _ htag
    have hlength := hexDigits_length width c.toNat
    rw [rereadChar_escape hc, hplain]
    constructor
    · intro h
      rw [List.tail_eq_of_cons_eq h] at hlength
      exact absurd hlength (Nat.ne_of_lt hwidth)
    · exact fun h => absurd h Bool.noConfusion

theorem rereadChar_length_pos (c : Char) : 0 < (rereadChar c).length := by
  rcases escapeChar_cases c with ⟨hc, -⟩ | ⟨d, hc, -⟩ | ⟨tag, width, hc, -⟩
  · simp [rereadChar_self hc]
  · simp [rereadChar_escape hc]
  · simp [rereadChar_escape hc]

theorem length_le_flatMap_rereadChar (cs : List Char) :
    cs.length ≤ (cs.flatMap rereadChar).length := by
  induction cs with
  | nil => exact Nat.le_refl _
  | cons c cs ih =>
      have hpos := rereadChar_length_pos c
      rw [List.flatMap_cons, List.length_append, List.length_cons]
      omega

/-- A string is read back as itself just where all of its characters are
plain. -/
theorem reread_eq_iff (s : String) : reread s = s ↔ ∀ c ∈ s.toList, isPlain c = true := by
  have hlist : reread s = s ↔ s.toList.flatMap rereadChar = s.toList := by
    rw [← String.toList_inj, reread, String.toList_ofList]
  rw [hlist]
  generalize s.toList = cs
  induction cs with
  | nil => simp
  | cons c cs ih =>
      rw [List.flatMap_cons, List.forall_mem_cons]
      refine Iff.trans ?_ (and_congr (rereadChar_eq_iff c) ih)
      constructor
      · intro h
        -- nothing is lost, so a character that becomes several leaves too many
        have hle := length_le_flatMap_rereadChar cs
        have hpos := rereadChar_length_pos c
        have hlength := congrArg List.length h
        rw [List.length_append, List.length_cons] at hlength
        have hone : (rereadChar c).length = [c].length := by
          rw [List.length_singleton]
          omega
        exact List.append_inj h hone
      · rintro ⟨hc, hcs⟩
        rw [hc, hcs, List.singleton_append]

end Lexer

end Scriptlet
