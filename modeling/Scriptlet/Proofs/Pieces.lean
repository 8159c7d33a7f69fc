/-
Strings, character by character.  The length of a string, the characters at its indices and
those that are drawn from its iterators are all read off the same pieces, which put together
are the string mended.
-/
import Scriptlet.Proofs.Mending
import Scriptlet.Proofs.Ranges

namespace Scriptlet

namespace Text

/-- The characters of a text, each as a text. -/
def pieces (t : Text) : List Text := t.chars.toList.map ofChar

theorem length_pieces (t : Text) : t.pieces.length = t.length := by
  rw [pieces, List.length_map, length_eq]

theorem length_of_mem_pieces {t p : Text} (h : p ∈ t.pieces) : p.length = 1 := by
  obtain ⟨c, -, rfl⟩ := List.mem_map.mp h
  exact length_ofChar c

theorem flatMap_pieces (t : Text) : t.pieces.flatMap toList = encoded t.chars.toList := by
  rw [pieces, List.flatMap_map, encoded]
  simp only [toList_ofChar]

theorem pieces_getElem? {t : Text} {i : Nat} (h : i < t.pieces.length) :
    ∃ c, t.nth? i = some c ∧ t.pieces[i]? = some (ofChar c) := by
  have hi : i < t.chars.toList.length := by rwa [pieces, List.length_map] at h
  refine ⟨t.chars.toList[i], ?_, ?_⟩
  · rw [nth?_eq, List.getElem?_eq_getElem hi]
  · rw [pieces, List.getElem?_map, List.getElem?_eq_getElem hi, Option.map_some]

end Text

namespace TextMethod

variable {s : Store} {x : Text} {i : Int64}

/-- What is at an index of a string is the piece there. -/
theorem character_of_lt (hleast : 0 ≤ i.toInt) (hmost : i.toInt < x.pieces.length) :
    ∃ p, character s x i = s.giveText p ∧ x.pieces[i.toInt.toNat]? = some p := by
  obtain ⟨c, hc, hpiece⟩ := Text.pieces_getElem? (t := x) (i := i.toInt.toNat) (by omega)
  refine ⟨Text.ofChar c, ?_, hpiece⟩
  have hsign : ¬ i < 0 := by
    rw [Int64.lt_iff_toInt_lt]
    exact not_lt.mpr hleast
  simp only [character, hsign, if_false, hc]

/-- There is nothing at an index that is none of a string. -/
theorem character_of_not_lt (h : ¬ (0 ≤ i.toInt ∧ i.toInt < x.pieces.length)) :
    character s x i = s.refuse (.textIndex i.toInt x.pieces.length) := by
  rw [Text.length_pieces] at h ⊢
  have hnone : (if i < 0 then none else x.nth? i.toInt.toNat) = none := by
    split
    · rfl
    · rename_i hsign
      rw [Int64.lt_iff_toInt_lt] at hsign
      rw [Text.nth?_eq, List.getElem?_eq_none]
      rw [Text.length_eq] at h
      change ¬ i.toInt < 0 at hsign
      omega
  simp only [character, hnone]

end TextMethod

namespace Task

/-- What is drawn from the iterator over a string with a number, the first value first, by any
threads and whatever else becomes of the store meanwhile. -/
inductive DrawsText (limits : Limits) (id : Nat) (s : Store) : List Value → Store → Prop where
  | none : DrawsText limits id s [] s
  | meanwhile {vs : List Value} {s' s'' : Store} (h : DrawsText limits id s vs s')
      (hkept : s''.textIters[id]? = s'.textIters[id]?) : DrawsText limits id s vs s''
  | next {vs : List Value} {v : Value} {s' s'' : Store} (t : Task)
      (h : DrawsText limits id s vs s')
      (hnext : t.Gets limits (.value v) s'' (t.doing (.hook (.textIter id) "__next__" [])) s') :
      DrawsText limits id s (vs ++ [v]) s''

/-- Whether a value is what some pieces yield at a place: the piece there, and nothing behind
the last. -/
def PieceAt (pieces : List Text) (i : Nat) (v : Value) : Prop :=
  match pieces[i]? with
  | some p => ∃ m k, v = .some (.str p m) k
  | none => v = .none

variable {limits : Limits} {t : Task} {s s' : Store} {id : Nat} {iter : TextIter}

/-- A string makes an iterator that stands at its first character. -/
theorem answers_text_iter (limits : Limits) (s : Store) (x : Text) (k : Nat) :
    ∃ id s', Answers limits s (.str x k) "__iter__" (.textIter id) s' ∧
      s'.textIters[id]? = some ⟨x.chars, 0⟩ :=
  ⟨s.textIters.size, { s with textIters := s.textIters.push ⟨x.chars, 0⟩ },
    fun _ hroom => gets_hook_answer (b := .text .iter) hroom rfl rfl rfl rfl,
    Array.getElem?_push_size⟩

theorem answers_text_length (limits : Limits) (s : Store) (x : Text) (k : Nat) :
    ∃ m s', Answers limits s (.str x k) "__len__" (.int (Int64.ofNat x.length) m) s' :=
  ⟨s.fresh, { s with fresh := s.fresh + 1 },
    fun _ hroom => gets_hook_answer (b := .text .length) hroom rfl rfl rfl rfl⟩

theorem answers_text_iter_length (limits : Limits) (hcell : s.textIters[id]? = some iter) :
    ∃ m s', Answers limits s (.textIter id) "__len__"
      (.int (Int64.ofNat (iter.chars.size - iter.index)) m) s' := by
  refine ⟨s.fresh, { s with fresh := s.fresh + 1 },
    fun _ hroom => gets_hook_answer (b := .textIter .length) hroom rfl rfl rfl ?_⟩
  change IterMethod.ofText s .length (.textIter id) = _
  simp only [IterMethod.ofText, hcell]
  rfl

/-- An iterator that has reached the end stays there. -/
theorem answers_text_next_end (hcell : s.textIters[id]? = some iter)
    (hend : iter.chars[iter.index]? = none) :
    Answers limits s (.textIter id) "__next__" .none s := by
  refine fun _ hroom => gets_hook_answer (b := .textIter .next) hroom rfl rfl rfl ?_
  change IterMethod.ofText s .next (.textIter id) = _
  simp only [IterMethod.ofText, hcell, hend]
  rfl

/-- An iterator that has not reached the end gives the character that it stands at and goes on
to the next one. -/
theorem answers_text_next (limits : Limits) {c : Char} (hcell : s.textIters[id]? = some iter)
    (hgoing : iter.chars[iter.index]? = some c) :
    ∃ m k s', Answers limits s (.textIter id) "__next__" (.some (.str (Text.ofChar c) m) k) s' ∧
      s'.textIters[id]? = some ⟨iter.chars, iter.index + 1⟩ := by
  let moved := s.textIters.modify id fun i => { i with index := i.index + 1 }
  refine ⟨s.fresh, s.fresh + 1, { s with textIters := moved, fresh := s.fresh + 2 }, ?_, ?_⟩
  · refine fun _ hroom => gets_hook_answer (b := .textIter .next) hroom rfl rfl rfl ?_
    change IterMethod.ofText s .next (.textIter id) = _
    simp only [IterMethod.ofText, hcell, hgoing]
    rfl
  · simp [moved, Array.getElem?_modify, hcell]

/-- A string gives the piece at an index, and fails just if there is none. -/
theorem gets_text_index (limits : Limits) (s : Store) (x : Text) (k : Nat) (i : Int64) (j : Nat) :
    ∃ o s', (∀ t : Task, t.depth < limits.maxDepth →
        t.Gets limits o s' (t.doing (.hook (.str x k) "__get_index__" [.int i j])) s) ∧
      (0 ≤ i.toInt ∧ i.toInt < x.pieces.length →
        ∃ p m, o = .value (.str p m) ∧ x.pieces[i.toInt.toNat]? = some p) ∧
      (¬ (0 ≤ i.toInt ∧ i.toInt < x.pieces.length) → ∃ f, o = .failed f ∧
        f.fault = .textIndex i.toInt x.pieces.length) := by
  have hgets : ∀ (r : Except Fault Value) (s' : Store), TextMethod.character s x i = (r, s') →
      ∀ t : Task, t.depth < limits.maxDepth →
        t.Gets limits (.ofResult r) s' (t.doing (.hook (.str x k) "__get_index__" [.int i j])) s :=
    fun r s' hanswer t hroom =>
      gets_hook hroom rfl (gets_answer (b := .text .index) rfl rfl hanswer)
  by_cases hin : 0 ≤ i.toInt ∧ i.toInt < x.pieces.length
  · obtain ⟨p, hanswer, hpiece⟩ := TextMethod.character_of_lt hin.1 hin.2
    exact ⟨_, _, hgets _ _ hanswer, fun _ => ⟨p, _, rfl, hpiece⟩, fun hnot => absurd hin hnot⟩
  · exact ⟨_, _, hgets _ _ (TextMethod.character_of_not_lt hin), fun h => absurd h hin,
      fun _ => ⟨_, rfl, rfl⟩⟩

/-- Once some values have been drawn, the iterator stands so many characters behind the first,
and at the end if there are not so many. -/
theorem DrawsText.stands {vs : List Value} {chars : Array Char} (h : DrawsText limits id s vs s')
    (hcell : s.textIters[id]? = some ⟨chars, 0⟩) :
    s'.textIters[id]? = some ⟨chars, min vs.length chars.size⟩ := by
  induction h with
  | none => simpa using hcell
  | meanwhile _ hkept ih => exact hkept.trans ih
  | @next vs v s' s'' t h hnext ih =>
      rcases Nat.lt_or_ge vs.length chars.size with hmore | hend
      · rw [Nat.min_eq_left hmore.le] at ih
        have hgoing : chars[vs.length]? = some chars[vs.length] := Array.getElem?_eq_getElem hmore
        obtain ⟨m, k, s₁, hanswer, hmoved⟩ := answers_text_next limits ih hgoing
        obtain ⟨-, rfl⟩ := hanswer.eq_of_gets hnext
        rw [hmoved, List.length_append, List.length_singleton, Nat.min_eq_left hmore]
      · rw [Nat.min_eq_right hend] at ih
        have hanswer : Answers limits s' _ _ _ s' :=
          answers_text_next_end ih (Array.getElem?_eq_none (Nat.le_refl _))
        obtain ⟨-, rfl⟩ := hanswer.eq_of_gets hnext
        rw [ih, List.length_append, List.length_singleton, Nat.min_eq_right (by omega)]

/-- The next value is the piece behind those that have been drawn. -/
theorem answers_text_next_piece (limits : Limits) {x : Text} {drawn : Nat}
    (hcell : s.textIters[id]? = some ⟨x.chars, min drawn x.chars.size⟩) :
    ∃ v s', Answers limits s (.textIter id) "__next__" v s' ∧ PieceAt x.pieces drawn v := by
  have hlength : x.pieces.length = x.chars.size := List.length_map _
  unfold PieceAt
  rcases Nat.lt_or_ge drawn x.chars.size with hmore | hend
  · rw [Nat.min_eq_left hmore.le] at hcell
    have hgoing : x.chars[drawn]? = some x.chars[drawn] := Array.getElem?_eq_getElem hmore
    obtain ⟨m, k, s', hanswer, -⟩ := answers_text_next limits hcell hgoing
    refine ⟨_, s', hanswer, ?_⟩
    have hpiece : x.pieces[drawn]? = some (Text.ofChar x.chars[drawn]) := by
      rw [Text.pieces, List.getElem?_map, Array.getElem?_toList, hgoing, Option.map_some]
    rw [hpiece]
    exact ⟨m, k, rfl⟩
  · rw [Nat.min_eq_right hend] at hcell
    refine ⟨_, s, answers_text_next_end hcell (Array.getElem?_eq_none (Nat.le_refl _)), ?_⟩
    rw [List.getElem?_eq_none (hlength ▸ hend)]

/-- The values that are drawn are the pieces of the string. -/
theorem DrawsText.pieceAt {vs : List Value} {x : Text} (h : DrawsText limits id s vs s')
    (hcell : s.textIters[id]? = some ⟨x.chars, 0⟩) {i : Nat} {v : Value}
    (hv : vs[i]? = some v) : PieceAt x.pieces i v := by
  induction h with
  | none => exact nomatch hv
  | meanwhile _ _ ih => exact ih hv
  | @next vs w s' s'' t h hnext ih =>
      rcases getElem?_concat_eq_some hv with hbefore | ⟨rfl, rfl⟩
      · exact ih hbefore
      · obtain ⟨y, s₁, hanswer, hpiece⟩ := answers_text_next_piece limits (h.stands hcell)
        obtain ⟨rfl, -⟩ := hanswer.eq_of_gets hnext
        exact hpiece

/-- A string falls into pieces of length 1.  Put together they are the string mended, and so
the string itself just if its bytes are valid.  The length of the string is their number; an
index gives the piece that is there and fails where there is none; and an iterator yields one
piece after the other and then nothing any more, and says of how many there are still to come
that it is the number of those that it has not yet yielded. -/
theorem string_readings_agree (limits : Limits) (s : Store) (x : Text) (k : Nat) :
    ∃ pieces : List Text,
      ((∀ p ∈ pieces, p.length = 1) ∧
        (∀ u, Text.Mends x.toList u ↔ u = pieces.flatMap Text.toList) ∧
        (pieces.flatMap Text.toList = x.toList ↔ x.bytes.IsValidUTF8)) ∧
      (pieces.length ≤ x.size ∧ ∃ n m s',
        Answers limits s (.str x k) "__len__" (.int n m) s' ∧
        (∀ t : Task, t.depth < limits.maxDepth → t.Gets limits (.value (.int n m)) s'
          (t.doing (.call (.builtin .len) [.str x k])) s) ∧
        n = Int64.ofNat pieces.length ∧ (n.toInt = pieces.length ↔ pieces.length < 2 ^ 63)) ∧
      (∀ (i : Int64) (j : Nat), ∃ o s',
        (∀ t : Task, t.depth < limits.maxDepth →
          t.Gets limits o s' (t.doing (.hook (.str x k) "__get_index__" [.int i j])) s) ∧
        (0 ≤ i.toInt ∧ i.toInt < pieces.length →
          ∃ p m, o = .value (.str p m) ∧ pieces[i.toInt.toNat]? = some p) ∧
        (¬ (0 ≤ i.toInt ∧ i.toInt < pieces.length) →
          ∃ f, o = .failed f ∧ f.fault = .textIndex i.toInt pieces.length)) ∧
      ∃ id s₀, Answers limits s (.str x k) "__iter__" (.textIter id) s₀ ∧
        ∀ vs s', DrawsText limits id s₀ vs s' →
          (∀ i v, vs[i]? = some v → PieceAt pieces i v) ∧
          (∃ v s'', Answers limits s' (.textIter id) "__next__" v s'' ∧
            PieceAt pieces vs.length v) ∧
          ∃ m s'', Answers limits s' (.textIter id) "__len__"
            (.int (Int64.ofNat (pieces.length - vs.length)) m) s'' := by
  have hlength : x.pieces.length = x.chars.size := List.length_map _
  refine ⟨x.pieces, ⟨fun p => Text.length_of_mem_pieces, fun u => ?_, ?_⟩, ⟨?_, ?_⟩,
    gets_text_index limits s x k, ?_⟩
  · rw [Text.flatMap_pieces, Text.mends_iff]
  · rw [Text.flatMap_pieces, Text.encoded_chars_eq_iff]
  · rw [hlength]
    exact Text.length_charsFrom_le x 0
  · obtain ⟨m, s', hanswer⟩ := answers_text_length limits s x k
    rw [← Text.length_pieces] at hanswer
    exact ⟨_, m, s', hanswer, fun t hroom => gets_callBack rfl rfl (hanswer t hroom), rfl,
      by rw [Int64.toInt_ofNat']; exact bmod_eq_self_iff _⟩
  · obtain ⟨id, s₀, hiter, hcell⟩ := answers_text_iter limits s x k
    refine ⟨id, s₀, hiter, fun vs s' hdraws => ?_⟩
    have hstands := hdraws.stands hcell
    obtain ⟨m, s'', hleft⟩ := answers_text_iter_length limits hstands
    refine ⟨fun i v => hdraws.pieceAt hcell, answers_text_next_piece limits hstands, m, s'', ?_⟩
    have hcount : x.pieces.length - vs.length = x.chars.size - min vs.length x.chars.size := by
      omega
    rw [hcount]
    exact hleft

end Task

end Scriptlet
