/-
Where tokens stand.  The place of a token counts the newlines before its first
character and the characters since the last of them, whatever those are: blanks,
comments, string literals over several lines, characters of several bytes and
bytes that are no character.
-/
import Scriptlet.Proofs.Accounting

namespace Scriptlet

namespace Position

/-- The place behind some characters of a source, counted: a line for every
newline, and a column for every character since the last one. -/
def behind (cs : List Char) : Position :=
  ⟨1 + cs.count '\n', 1 + (cs.rtakeWhile (· ≠ '\n')).length⟩

theorem behind_concat (cs : List Char) (c : Char) : behind (cs ++ [c]) = (behind cs).after c := by
  unfold behind after
  by_cases hline : c = '\n'
  · rw [if_pos hline, hline, List.count_append, List.count_singleton_self,
      List.rtakeWhile_concat_neg _ _ _ (by simp)]
    rfl
  · have hnone : [c].count '\n' = 0 := List.count_eq_zero.mpr (by simpa using Ne.symm hline)
    rw [if_neg hline, List.count_append, hnone,
      List.rtakeWhile_concat_pos _ _ _ (by simpa using hline), List.length_append]
    rfl

/-- Going through a source one character after the other comes to the place that
is counted. -/
theorem afterAll_start (cs : List Char) : start.afterAll cs = behind cs := by
  induction cs using List.reverseRecOn with
  | nil => rfl
  | append_singleton cs c ih =>
      rw [afterAll_append, ih, behind_concat]
      rfl

/-- Whether a place comes before another: on a line above it, or further left on
the same line. -/
def Precedes (p q : Position) : Prop := p.line < q.line ∨ p.line = q.line ∧ p.column < q.column

instance : DecidableRel Precedes := fun p q =>
  inferInstanceAs (Decidable (p.line < q.line ∨ p.line = q.line ∧ p.column < q.column))

theorem Precedes.trans {p q r : Position} (h : p.Precedes q) (h' : q.Precedes r) :
    p.Precedes r := by
  unfold Precedes at *
  omega

theorem precedes_after (p : Position) (c : Char) : p.Precedes (p.after c) := by
  unfold after
  split
  · exact Or.inl (Nat.lt_succ_self _)
  · exact Or.inr ⟨rfl, Nat.lt_succ_self _⟩

/-- Characters lead to a later place. -/
theorem precedes_afterAll (p : Position) {cs : List Char} (h : cs ≠ []) :
    p.Precedes (p.afterAll cs) := by
  induction cs generalizing p with
  | nil => exact absurd rfl h
  | cons c cs ih =>
      by_cases hlast : cs = []
      · rw [hlast]
        exact p.precedes_after c
      · exact (p.precedes_after c).trans (ih (p.after c) hlast)

end Position

namespace Lexer

/-- Whether a token begins where some characters do: the first of them are those
it is cut from or, for the end of input, there are none or the first is a NUL
character. -/
inductive Opens : List Char → Token → Prop
  | token {span rest : List Char} {t : Token} :
      t.isEof = false → span ≠ [] → Spells span t → Opens (span ++ rest) t
  | eof {rest : List Char} {t : Token} :
      t.isEof = true → rest = [] ∨ rest.head? = some '\x00' → Opens rest t

/-- The characters before the first one of the token with a number, if `trail`
stands behind the last piece; behind that stands the end of input. -/
def Segment.before (trail : List Char) : List Segment → Nat → List Char
  | [], _ => trail
  | cut :: _, 0 => cut.gap.chars.toList
  | cut :: cuts, i + 1 =>
    cut.gap.chars.toList ++ (cut.span.chars.toList ++ Segment.before trail cuts i)

def Account.before {p : Position} {source : Text} (a : Account p source) (i : Nat) : List Char :=
  Segment.before a.trail.chars.toList a.cuts i

theorem chars_ne_nil {t : Text} (h : 0 < t.size) : t.chars.toList ≠ [] := by
  intro hnone
  rw [eq_empty_of_chars hnone] at h
  exact absurd h (Nat.lt_irrefl 0)

/-- A token of some pieces, or the end of input behind them, stands at the place
behind the characters before it, and with it the characters go on. -/
theorem Pieces.stands {p q : Position} {cuts : List Segment} (h : Pieces p cuts q)
    {trail unread : List Char} (hunread : unread = [] ∨ unread.head? = some '\x00') {i : Nat}
    {t : Token} (ht : (cuts.map Segment.token ++ [Token.eofAt (q.afterAll trail)])[i]? = some t) :
    t.position = p.afterAll (Segment.before trail cuts i) ∧
      ∃ rest, Segment.chars cuts ++ (trail ++ unread) = Segment.before trail cuts i ++ rest ∧
        Opens rest t := by
  induction h generalizing i with
  | nil p =>
      obtain ⟨rfl, rfl⟩ : i = 0 ∧ Token.eofAt (p.afterAll trail) = t := by
        simpa [List.getElem?_singleton, Option.ite_none_right_eq_some] using ht
      exact ⟨rfl, unread, rfl, .eof rfl hunread⟩
  | @cons p q cut cuts _ _ hsize _ hcut _ ih =>
      obtain ⟨hno, hposition, hspells⟩ := hcut
      rw [Segment.chars, List.flatMap_cons, ← Segment.chars]
      cases i with
      | zero =>
          obtain rfl : cut.token = t := by simpa using ht
          refine ⟨hposition, cut.span.chars.toList ++ (Segment.chars cuts ++ (trail ++ unread)), ?_,
            .token hno (chars_ne_nil hsize) hspells⟩
          simp only [Segment.before, List.append_assoc]
      | succ i =>
          obtain ⟨hplace, rest, hchars, hopens⟩ := ih ht
          refine ⟨?_, rest, ?_, hopens⟩
          · rw [hplace, Segment.before, Position.afterAll_append, Position.afterAll_append]
          · simp only [Segment.before, List.append_assoc, hchars]

/-- Every token stands before those behind it. -/
theorem Pieces.ordered {p q : Position} {cuts : List Segment} (h : Pieces p cuts q)
    (trail : List Char) :
    (cuts.map Segment.token ++ [Token.eofAt (q.afterAll trail)]).Pairwise
      fun t u => t.position.Precedes u.position := by
  induction h with
  | nil p => exact List.pairwise_singleton _ _
  | @cons p q cut cuts _ _ hsize _ hcut hcuts ih =>
      refine List.pairwise_cons.mpr ⟨fun u hu => ?_, ih⟩
      obtain ⟨i, hi⟩ := List.mem_iff_getElem?.mp hu
      obtain ⟨hplace, -⟩ := hcuts.stands (Or.inl (Eq.refl ([] : List Char))) hi
      -- from the place of `cut` to that of `u` the characters of `cut` are passed at least
      rw [hcut.2.1, hplace, ← Position.afterAll_append]
      exact Position.precedes_afterAll _ (List.append_ne_nil_of_left_ne_nil (chars_ne_nil hsize) _)

/-- Every token of a source, the end of input among them, stands on the line that
the newlines before its first character lead to, and in the column that the
characters since the last of those newlines lead to.  So each token stands before
the next one. -/
theorem token_places_exact (source : Text) :
    ∃ a : Account .start source, tokens source = a.tokens ∧
      (∀ i t, (tokens source)[i]? = some t →
        ∃ head rest : Text, source = head ++ rest ∧
          source.chars.toList = head.chars.toList ++ rest.chars.toList ∧
          head.chars.toList = a.before i ∧ Opens rest.chars.toList t ∧
          t.position = .behind head.chars.toList) ∧
      (tokens source).Pairwise fun t u => t.position.Precedes u.position := by
  obtain ⟨a, htokens, -⟩ := exists_account .start source
  have htokens : tokens source = a.tokens := htokens
  refine ⟨a, htokens, fun i t ht => ?_, htokens ▸ a.pieces.ordered a.trail.chars.toList⟩
  rw [htokens] at ht
  have hunread : a.unread.chars.toList = [] ∨ a.unread.chars.toList.head? = some '\x00' :=
    a.unread_nul.imp_left fun hnone => by rw [hnone, Text.chars_empty]
  obtain ⟨hplace, after, hchars, hopens⟩ := a.pieces.stands hunread ht
  rw [← a.chars_eq] at hchars
  obtain ⟨head, rest, hbytes, hhead, rfl⟩ := Text.exists_append_of_chars hchars
  refine ⟨head, rest, hbytes, ?_, hhead, hopens, ?_⟩
  · rw [hchars, hhead]
  · rw [hplace, hhead, Position.afterAll_start]

-- A string literal over two lines puts what follows it on the second.
example : (tokens (Text.ofString "\"é\n\" b")).map Token.position =
    [⟨1, 1⟩, ⟨2, 3⟩, ⟨2, 4⟩] := by
  rw [tokens, Cursor.ofText, Text.chars_ofString, tokensFrom_cons rfl rfl,
    tokensFrom_cons rfl rfl, tokensFrom_end rfl rfl]
  rfl

end Lexer

end Scriptlet
