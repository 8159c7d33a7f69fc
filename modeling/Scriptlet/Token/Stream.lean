/-
All tokens of a source, and a stream of them that can be looked into ahead
of reading.  The end of input is the last token and repeats for ever.
-/
import Scriptlet.Token.Lexer

namespace Scriptlet

namespace Lexer

theorem skip_rest_length_le (mode : Skipping) (p : Position) (cs : List Char) :
    (skip mode p cs).rest.length ≤ cs.length := by
  fun_induction skip mode p cs <;> simp_all <;> omega

theorem readString_rest_length_le (done : List Char) (p : Position) (cs : List Char) :
    (readString done p cs).after.rest.length ≤ cs.length := by
  fun_induction readString done p cs <;> simp_all <;> omega

theorem dropWhile_length_le (keep : Char → Bool) (cs : List Char) :
    (cs.dropWhile keep).length ≤ cs.length :=
  (List.dropWhile_suffix keep).length_le

theorem signToken_rest_length_le (p : Position) (c : Char) (cs : List Char) :
    (signToken p c cs).2.rest.length ≤ cs.length := by
  unfold signToken
  split
  · split <;> simp [wordToken]
  · split
    · simp [wordToken]
    · split <;> simp [wordToken]

theorem numberToken_rest_length_lt (p : Position) (c : Char) (cs : List Char)
    (hdigit : isDigit c = true) : (numberToken p (c :: cs)).2.rest.length < cs.length + 1 := by
  have hle := dropWhile_length_le isDigit cs
  unfold numberToken
  split
  · rename_i d rest hrest
    simp only [List.dropWhile_cons, hdigit, if_true] at hrest
    have hlen := congrArg List.length hrest
    simp only [List.length_cons] at hlen
    split
    · have := dropWhile_length_le isDigit (d :: rest)
      simp only [wordToken, List.length_cons] at *
      omega
    · simp only [wordToken, List.length_cons]
      omega
  · simp only [wordToken, List.dropWhile_cons, hdigit, if_true]
    omega

/-- Every token but the end of input uses up a part of the source. -/
theorem tokenAt_rest_length_lt (cursor : Cursor) (h : (tokenAt cursor).1.isEof = false) :
    (tokenAt cursor).2.rest.length < cursor.rest.length := by
  unfold tokenAt at h ⊢
  split at h
  · simp [Token.isEof, Token.eofAt] at h
  · rename_i c cs hrest
    split at h
    · simp [Token.isEof, Token.eofAt] at h
    · rename_i hnul
      simp only [hrest, hnul, if_false, List.length_cons]
      split
      · have := readString_rest_length_le [] (cursor.position.after '"') cs
        simp only [stringToken]
        omega
      · split
        · rename_i hletter
          have := dropWhile_length_le isNameChar cs
          have hname : isNameChar c = true := by simp [isNameChar, hletter]
          simp only [wordToken, List.dropWhile_cons, hname, if_true]
          omega
        · split
          · rename_i hdigit
            exact numberToken_rest_length_lt cursor.position c cs hdigit
          · have := signToken_rest_length_le cursor.position c cs
            omega

/-- Every token but the end of input uses up a part of the source. -/
theorem next_rest_length_lt (cursor : Cursor) (h : (next cursor).1.isEof = false) :
    (next cursor).2.rest.length < cursor.rest.length := by
  have hskip := skip_rest_length_le .blanks cursor.position cursor.rest
  have htoken := tokenAt_rest_length_lt (skip .blanks cursor.position cursor.rest) h
  exact Nat.lt_of_lt_of_le htoken hskip

def tokensFrom (cursor : Cursor) : List Token :=
  match h : next cursor with
  | (token, after) =>
    if hend : token.isEof then [token]
    else
      have : after.rest.length < cursor.rest.length := by
        have := next_rest_length_lt cursor (by simpa [h] using hend)
        simpa [h] using this
      token :: tokensFrom after
termination_by cursor.rest.length

def tokens (source : Text) : List Token := tokensFrom (Cursor.ofText source)

end Lexer

/-- A stream of tokens: those looked at but not yet read, the part of the
source not yet cut, and the end of input once it was reached. -/
structure TokenStream where
  waiting : List Token
  source : Cursor
  ended : Option Token

namespace TokenStream

def ofText (source : Text) : TokenStream := ⟨[], Cursor.ofText source, none⟩

/-- Cuts one more token. -/
def pull (s : TokenStream) : TokenStream :=
  match s.ended with
  | some t => { s with waiting := s.waiting ++ [t] }
  | none =>
    let (t, after) := Lexer.next s.source
    { waiting := s.waiting ++ [t]
      source := after
      ended := if t.isEof then some t else none }

/-- Cuts `n` more tokens. -/
def pullMany : Nat → TokenStream → TokenStream
  | 0, s => s
  | n + 1, s => pullMany n s.pull

/-- Makes sure that `n` tokens are waiting. -/
def fill (n : Nat) (s : TokenStream) : TokenStream := pullMany (n - s.waiting.length) s

/-- Reads one token. -/
def next (s : TokenStream) : Token × TokenStream :=
  match (s.fill 1).waiting with
  | t :: rest => (t, { s.fill 1 with waiting := rest })
  | [] => (default, s.fill 1)

/-- The next `n` tokens, which stay in the stream. -/
def peek (n : Nat) (s : TokenStream) : List Token × TokenStream :=
  ((s.fill n).waiting.take n, s.fill n)

end TokenStream

end Scriptlet
