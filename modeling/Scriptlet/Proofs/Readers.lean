/-
Readers over a given list of tokens, and what the elementary readings do there.
-/
import Scriptlet.Syntax.Parser

namespace Scriptlet

namespace Reader

/-- The reader at the first of some tokens. -/
def on (ts : List Token) (ds : Array Diagnostic) : Reader :=
  match ts with
  | [] => ⟨default, default, [], ds, ()⟩
  | [t] => ⟨t, t, [], ds, ()⟩
  | t :: u :: rest => ⟨t, u, rest, ds, ()⟩

theorem ofTokens_eq_on (ts : List Token) : ofTokens ts = on ts #[] := by
  unfold ofTokens on
  split <;> rfl

@[simp] theorem current_on (t : Token) (ts : List Token) (ds : Array Diagnostic) :
    (on (t :: ts) ds).current = t := by
  cases ts <;> rfl

@[simp] theorem ahead_on (t u : Token) (ts : List Token) (ds : Array Diagnostic) :
    (on (t :: u :: ts) ds).ahead = u := rfl

@[simp] theorem diagnostics_on (ts : List Token) (ds : Array Diagnostic) :
    (on ts ds).diagnostics = ds := by
  unfold on
  split <;> rfl

@[simp] theorem advance_on (t u : Token) (ts : List Token) (ds : Array Diagnostic) :
    (on (t :: u :: ts) ds).advance = on (u :: ts) ds := by
  cases ts <;> rfl

@[simp] theorem advance_on_append (t u : Token) (ts us : List Token) (ds : Array Diagnostic) :
    (on (t :: (ts ++ u :: us)) ds).advance = on (ts ++ u :: us) ds := by
  cases ts <;> simp

theorem breaksAhead_on (t u : Token) (ts : List Token) (ds : Array Diagnostic) :
    (on (t :: u :: ts) ds).breaksAhead = (u.position.line != t.position.line) := rfl

theorem closesAhead_on (t u : Token) (ts : List Token) (ds : Array Diagnostic) :
    (on (t :: u :: ts) ds).closesAhead = (u.isSign .rightBrace || u.isEof) := rfl

end Reader

theorem isSign_of_kind {t : Token} {s : Sign} (h : t.kind = .sign s) (s' : Sign) :
    t.isSign s' = (s == s') := by
  rw [Token.isSign, h]

theorem isSign_self {t : Token} {s : Sign} (h : t.kind = .sign s) : t.isSign s = true := by
  rw [isSign_of_kind h, beq_self_eq_true]

theorem kind_of_isSign {t : Token} {s : Sign} (h : t.isSign s = true) : t.kind = .sign s := by
  unfold Token.isSign at h
  split at h
  · rename_i s' hkind
    rw [hkind, beq_iff_eq.mp h]
  · exact absurd h Bool.noConfusion

theorem isKeyword_of_kind {t : Token} {k : Keyword} (h : t.kind = .keyword k) (k' : Keyword) :
    t.isKeyword k' = (k == k') := by
  rw [Token.isKeyword, h]

theorem kind_of_isKeyword {t : Token} {k : Keyword} (h : t.isKeyword k = true) :
    t.kind = .keyword k := by
  unfold Token.isKeyword at h
  split at h
  · rename_i k' hkind
    rw [hkind, beq_iff_eq.mp h]
  · exact absurd h Bool.noConfusion

theorem isSign_of_isName {t : Token} (h : t.isName = true) (s : Sign) : t.isSign s = false := by
  unfold Token.isName at h
  unfold Token.isSign
  split at h <;> simp_all

namespace Parse

variable {κ α β : Type}

theorem bind_apply (p : ParseOf κ α) (f : α → ParseOf κ β) (r : Reader κ) :
    (p >>= f) r =
      match p r with
      | (some a, r') => f a r'
      | (none, r') => (none, r') := rfl

theorem bind_some {p : ParseOf κ α} {r r' : Reader κ} {a : α} (h : p r = (some a, r'))
    (f : α → ParseOf κ β) : (p >>= f) r = f a r' := by
  rw [bind_apply, h]

theorem bind_none {p : ParseOf κ α} {r r' : Reader κ} (h : p r = (none, r')) (f : α → ParseOf κ β) :
    (p >>= f) r = (none, r') := by
  rw [bind_apply, h]

@[simp] theorem pure_apply (a : α) (r : Reader κ) : (pure a : ParseOf κ α) r = (some a, r) := rfl

@[simp] theorem get_bind (f : Reader κ → ParseOf κ β) (r : Reader κ) : (get >>= f) r = f r r := rfl

@[simp] theorem current_bind (f : Token → ParseOf κ β) (r : Reader κ) :
    (current >>= f) r = f r.current r := rfl

@[simp] theorem advance_bind (f : Unit → ParseOf κ β) (r : Reader κ) :
    (advance >>= f) r = f () r.advance := rfl

theorem attempt_bad {p : ParseOf κ α} {r : Reader κ} (bad : ParseOf κ β)
    (good : Option α → ParseOf κ β)
    (h : r.diagnostics.size < (p r).2.diagnostics.size) :
    attempt p bad good r = bad (p r).2 := if_pos h

theorem attempt_good {p : ParseOf κ α} {r : Reader κ} (bad : ParseOf κ β)
    (good : Option α → ParseOf κ β)
    (h : ¬r.diagnostics.size < (p r).2.diagnostics.size) :
    attempt p bad good r = good (p r).1 (p r).2 := if_neg h

/-- Where no account is kept, a call is no more than what it reads. -/
@[simp] theorem counted_eq (p : Parse α) : counted p = p := rfl

/-- A second test of the reader may look at it anew. -/
theorem get_again (c d : Reader → Bool) (x y z : Parse α) :
    (get >>= fun r => if c r then x else if d r then y else z) =
      (get >>= fun r => if c r then x else get >>= fun r => if d r then y else z) := by
  funext r
  rw [get_bind, get_bind]
  split <;> rfl

theorem expect_bind {s : Sign} {u : Token} (h : u.kind = .sign s) (f : Unit → Parse β)
    (t : Token) (us : List Token) (ds : Array Diagnostic) :
    (expect s >>= f) (.on (t :: u :: us) ds) = f () (.on (u :: us) ds) := by
  have hsign : (Reader.on (t :: u :: us) ds).ahead.isSign s = true := by
    rw [Reader.ahead_on, isSign_of_kind h, beq_self_eq_true]
  have hexpect : expect s (.on (t :: u :: us) ds) = (some (), .on (u :: us) ds) := by
    rw [expect, if_pos hsign, advance, Reader.advance_on]
  exact bind_some hexpect f

theorem expectName_bind {u : Token} (h : u.isName = true) (f : Ident → Parse β) (t : Token)
    (us : List Token) (ds : Array Diagnostic) :
    (expectName >>= f) (.on (t :: u :: us) ds) =
      f ⟨u.lexeme, u.position⟩ (.on (u :: us) ds) := by
  have hexpect : expectName (.on (t :: u :: us) ds) =
      (some ⟨u.lexeme, u.position⟩, .on (u :: us) ds) := by
    rw [expectName, Reader.ahead_on, if_pos h, Reader.advance_on]
  exact bind_some hexpect f

/-- Where the next token stands on another line a statement ends. -/
theorem endStatement_bind {r : Reader} (hsemicolon : r.ahead.isSign .semicolon = false)
    (h : r.breaksAhead = true) (f : Unit → Parse β) : (endStatement >>= f) r = f () r := by
  have hend : endStatement r = (some (), r) := by
    simp [endStatement, hsemicolon, h]
  exact bind_some hend f

end Parse

namespace Parser

open Parse

variable {limit nesting : Nat}

/-- Too deep an expression is refused. -/
theorem expression_refused (h : limit ≤ nesting) (fuel precedence : Nat) :
    (expression limit (fuel + 1) nesting precedence : Parse Expr) = refuseDeep :=
  if_pos h

/-- An expression that is not too deep is a first part and what continues it. -/
theorem expression_parts (h : ¬limit ≤ nesting) (fuel precedence : Nat) :
    (expression limit (fuel + 1) nesting precedence : Parse Expr) =
      operand limit fuel (nesting + 1) >>= fun left =>
        continued limit fuel (nesting + 1) precedence left :=
  if_neg h

end Parser

end Scriptlet
