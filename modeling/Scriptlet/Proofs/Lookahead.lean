/-
Looking ahead of reading.  However often and however far a stream is looked into,
what is read from it are the tokens of its source, one after the other, and then
the end of input for ever; and what is seen ahead is what will be read.
-/
import Scriptlet.Proofs.Joining

namespace Scriptlet

namespace Lexer

/-- The token with a number, from a cursor on; behind the end of input it is the
end of input again. -/
def endless : Cursor → Nat → Token
  | cursor, 0 => (next cursor).1
  | cursor, i + 1 =>
    if (next cursor).1.isEof then (next cursor).1 else endless (next cursor).2 i

theorem next_of_tokensFrom {cursor : Cursor} {t : Token} {ts : List Token}
    (h : tokensFrom cursor = t :: ts) : (next cursor).1 = t := by
  obtain ⟨us, hus⟩ := tokensFrom_eq_cons cursor
  exact (List.cons.inj (hus.symm.trans h)).1

/-- The tokens of a source go on with its end of input. -/
theorem endless_eq_getD {cursor : Cursor} {ts : List Token} {e : Token}
    (h : tokensFrom cursor = ts ++ [e]) (he : e.isEof = true) (hts : ∀ t ∈ ts, t.isEof = false)
    (i : Nat) : endless cursor i = ts.getD i e := by
  induction ts generalizing cursor i with
  | nil =>
      have hnext := next_of_tokensFrom h
      cases i with
      | zero => exact hnext
      | succ i => rw [endless, hnext, if_pos he, List.getD_nil]
  | cons t ts ih =>
      have hnext := next_of_tokensFrom h
      cases i with
      | zero => exact hnext
      | succ i =>
          obtain ⟨ht, hts⟩ := List.forall_mem_cons.mp hts
          have hno : (next cursor).1.isEof = false := hnext ▸ ht
          rw [tokensFrom_cons (Prod.mk.eta).symm hno] at h
          rw [endless, if_neg (Bool.eq_false_iff.mp hno), ih (List.cons.inj h).2 hts,
            List.getD_cons_succ]

end Lexer

namespace TokenStream

/-- The tokens to come behind those that are waiting. -/
def beyond (s : TokenStream) (i : Nat) : Token :=
  match s.ended with
  | some t => t
  | none => Lexer.endless s.source i

/-- The tokens to come, those that are waiting first. -/
def upcoming (s : TokenStream) (i : Nat) : Token :=
  s.waiting.getD i (s.beyond (i - s.waiting.length))

variable (s : TokenStream)

theorem waiting_pull : s.pull.waiting = s.waiting ++ [s.beyond 0] := by
  unfold pull beyond
  cases s.ended <;> rfl

theorem beyond_pull (i : Nat) : s.pull.beyond i = s.beyond (i + 1) := by
  unfold pull beyond
  cases hended : s.ended with
  | some t => simp only
  | none =>
      by_cases heof : (Lexer.next s.source).1.isEof = true
      · simp only [Lexer.endless, heof, if_true]
      · simp only [Lexer.endless, heof, if_false, Bool.false_eq_true]

/-- Cutting a token changes nothing about what is to come: it is the first one
behind those that are waiting. -/
theorem upcoming_pull : s.pull.upcoming = s.upcoming := by
  funext i
  unfold upcoming
  rw [waiting_pull, beyond_pull, List.length_append, List.length_singleton]
  -- a token that was waiting, the one that is cut, and those behind it
  rcases Nat.lt_trichotomy i s.waiting.length with hless | rfl | hmore
  · rw [List.getD_append _ _ _ _ hless, List.getD_eq_getElem _ _ hless,
      List.getD_eq_getElem _ _ hless]
  · rw [List.getD_append_right _ _ _ _ (Nat.le_refl _), List.getD_eq_default _ _ (Nat.le_refl _),
      Nat.sub_self]
    rfl
  · rw [List.getD_eq_default, List.getD_eq_default _ _ hmore.le]
    · congr 1
      omega
    · rw [List.length_append, List.length_singleton]
      exact hmore

theorem upcoming_pullMany (n : Nat) : (pullMany n s).upcoming = s.upcoming := by
  induction n generalizing s with
  | zero => rfl
  | succ n ih => rw [pullMany, ih, upcoming_pull]

theorem length_pullMany (n : Nat) :
    (pullMany n s).waiting.length = s.waiting.length + n := by
  induction n generalizing s with
  | zero => rfl
  | succ n ih =>
      rw [pullMany, ih, waiting_pull, List.length_append, List.length_singleton]
      omega

theorem upcoming_fill (n : Nat) : (s.fill n).upcoming = s.upcoming := s.upcoming_pullMany _

theorem le_length_fill (n : Nat) : n ≤ (s.fill n).waiting.length := by
  rw [fill, length_pullMany]
  omega

/-- Looking ahead shows the first tokens to come. -/
theorem peek_eq_upcoming (n : Nat) : (s.peek n).1 = (List.range n).map s.upcoming := by
  have hroom := s.le_length_fill n
  refine List.ext_getElem ?_ fun i hi hi' => ?_
  · rw [peek, List.length_take, List.length_map, List.length_range]
    exact Nat.min_eq_left hroom
  · have hin : i < (s.fill n).waiting.length := (List.length_take_le' n _).trans_lt' hi
    rw [List.getElem_map, List.getElem_range, ← s.upcoming_fill n, upcoming,
      List.getD_eq_getElem _ _ hin]
    exact List.getElem_take

/-- Looking ahead leaves everything still to come. -/
theorem upcoming_peek (n : Nat) : (s.peek n).2.upcoming = s.upcoming := s.upcoming_fill n

/-- Reading gives the first token to come and leaves the others. -/
theorem next_eq_upcoming :
    s.next.1 = s.upcoming 0 ∧ ∀ i, s.next.2.upcoming i = s.upcoming (i + 1) := by
  have hroom := s.le_length_fill 1
  rw [← s.upcoming_fill 1, next]
  cases hwaiting : (s.fill 1).waiting with
  | nil =>
      rw [hwaiting] at hroom
      exact absurd hroom (Nat.not_succ_le_zero 0)
  | cons t ts =>
      refine ⟨?_, fun i => ?_⟩
      · rw [upcoming, hwaiting]
        rfl
      · simp only [upcoming, hwaiting, List.getD_cons_succ, List.length_cons,
          Nat.add_sub_add_right]
        rfl

/-- What may be asked of a stream: to read one token, or to look at some ahead. -/
inductive Request where
  | next
  | peek (n : Nat)
deriving DecidableEq

def after : TokenStream → List Request → TokenStream
  | s, [] => s
  | s, .next :: requests => s.next.2.after requests
  | s, .peek n :: requests => (s.peek n).2.after requests

/-- The tokens that some requests read, one after the other. -/
def delivered : TokenStream → List Request → List Token
  | _, [] => []
  | s, .next :: requests => s.next.1 :: s.next.2.delivered requests
  | s, .peek n :: requests => (s.peek n).2.delivered requests

/-- Requests read the first tokens to come. -/
theorem delivered_eq_upcoming (requests : List Request) :
    s.delivered requests = (List.range (requests.count .next)).map s.upcoming := by
  induction requests generalizing s with
  | nil => rfl
  | cons request requests ih =>
      cases request with
      | next =>
          obtain ⟨hfirst, hothers⟩ := s.next_eq_upcoming
          rw [delivered, ih, hfirst, funext hothers, List.count_cons_self, List.range_succ_eq_map,
            List.map_cons, List.map_map]
          rfl
      | peek n => rw [delivered, ih, upcoming_peek, List.count_cons_of_ne (by simp)]

/-- Whether looking ahead shows what will be read: as many tokens as are wanted,
those that as many calls would read next, and those that are read later, however
often the stream is looked into again in between. -/
def Foresees (s : TokenStream) : Prop :=
  ∀ n, (s.peek n).1.length = n ∧ (s.peek n).1 = s.delivered (List.replicate n .next) ∧
    ∀ later : List Request, later.count .next = n →
      (s.peek n).2.delivered later = (s.peek n).1

theorem foresees : s.Foresees := by
  refine fun n => ⟨?_, ?_, fun later hlater => ?_⟩
  · rw [peek_eq_upcoming, List.length_map, List.length_range]
  · rw [peek_eq_upcoming, delivered_eq_upcoming, List.count_replicate_self]
  · rw [peek_eq_upcoming, delivered_eq_upcoming, upcoming_peek, hlater]

/-- Looking ahead changes nothing about the tokens of a source.  Whatever is asked of
its stream, those that are read are the tokens of the source, in order, and then the
end of input again and again; and at any time looking ahead shows what will be read. -/
theorem lookahead_keeps_tokens (source : Text) :
    ∃ ts e, Lexer.tokens source = ts ++ [e] ∧ e.isEof = true ∧ (∀ t ∈ ts, t.isEof = false) ∧
      ∀ requests : List Request,
        (ofText source).delivered requests =
          (List.range (requests.count .next)).map (fun i => ts.getD i e) ∧
        ((ofText source).after requests).Foresees := by
  obtain ⟨ts, e, htokens, he, hts⟩ := Lexer.tokensFrom_ends (Cursor.ofText source)
  have hupcoming : (ofText source).upcoming = fun i => ts.getD i e :=
    funext (Lexer.endless_eq_getD htokens he hts)
  refine ⟨ts, e, htokens, he, hts, fun requests => ⟨?_, foresees _⟩⟩
  rw [delivered_eq_upcoming, hupcoming]

-- Looking past the end of input shows it again.
example : ((⟨[], .ofChars ['a'], none⟩ : TokenStream).peek 3).1 =
    [⟨.name false, "a", ⟨1, 1⟩⟩, .eofAt ⟨1, 2⟩, .eofAt ⟨1, 2⟩] := rfl

end TokenStream

end Scriptlet
