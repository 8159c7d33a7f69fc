/-
Two readings of the same tokens at other places.  Where a token stands matters
only by whether it is on the line of the token before it, and that only behind
what may be a whole expression or a whole statement; two sequences of tokens
that differ in this where it makes no difference are read in step.
-/
import Scriptlet.Proofs.SeamSteps

namespace Scriptlet

def Guise.placeless : Guise where
  place := fun _ => .nowhere
  word := id
  hint := Option.map fun i => ⟨i.name, .nowhere⟩
  file := id
  body := fun _ b => b
  hushes := false
  foreign := id
  host := fun _ h => h

namespace Token

/-- Whether the token behind this one stands on another line. -/
def breaks (t next : Token) : Bool := next.position.line != t.position.line

theorem breaks_self (t : Token) : t.breaks t = false := bne_self_eq_false _

/-- Whether a token continues an expression on its line and on no other: an
operator, a call or a subscript. -/
def binds (t : Token) : Bool :=
  decide (Parser.loosest < Parser.precedenceOf t) && !t.isSign .dot

/-- Whether a token means the same on the line of the expression before it as on
another: it ends a statement, a block or the input, or it is a member access. -/
def fitsAnyLine (t : Token) : Bool :=
  t.isSign .semicolon || t.isSign .rightBrace || t.isEof || t.isSign .dot

/-- Whether two tokens differ in their places at most. -/
structure Same (t t' : Token) : Prop where
  kind : t.kind = t'.kind
  lexeme : t.lexeme = t'.lexeme

theorem Same.refl (t : Token) : t.Same t := ⟨rfl, rfl⟩

theorem Same.symm {t t' : Token} (h : t.Same t') : t'.Same t := ⟨h.kind.symm, h.lexeme.symm⟩

theorem Same.trans {t t' t'' : Token} (h : t.Same t') (h' : t'.Same t'') : t.Same t'' :=
  ⟨h.kind.trans h'.kind, h.lexeme.trans h'.lexeme⟩

/-- What is asked of a token without its place is the same of two. -/
theorem Same.congr {α : Type} {t t' : Token} (h : t.Same t') {f : Token → α}
    (hf : ∀ kind lexeme p p', f ⟨kind, lexeme, p⟩ = f ⟨kind, lexeme, p'⟩) : f t = f t' := by
  obtain ⟨kind, lexeme, p⟩ := t
  obtain ⟨kind', lexeme', p'⟩ := t'
  obtain ⟨rfl, rfl⟩ := h
  exact hf kind lexeme p p'

theorem Same.isSign {t t' : Token} (h : t.Same t') (s : Sign) : t.isSign s = t'.isSign s :=
  h.congr (f := fun t => t.isSign s) fun _ _ _ _ => rfl

theorem Same.isKeyword {t t' : Token} (h : t.Same t') (k : Keyword) :
    t.isKeyword k = t'.isKeyword k :=
  h.congr (f := fun t => t.isKeyword k) fun _ _ _ _ => rfl

theorem Same.isName {t t' : Token} (h : t.Same t') : t.isName = t'.isName :=
  h.congr fun _ _ _ _ => rfl

theorem Same.isEof {t t' : Token} (h : t.Same t') : t.isEof = t'.isEof :=
  h.congr fun _ _ _ _ => rfl

theorem Same.isIllegal {t t' : Token} (h : t.Same t') : t.isIllegal = t'.isIllegal :=
  h.congr fun _ _ _ _ => rfl

theorem Same.precedence {t t' : Token} (h : t.Same t') :
    Parser.precedenceOf t = Parser.precedenceOf t' :=
  h.congr fun _ _ _ _ => rfl

end Token

/-- Tokens that differ in their places at most, one by one; each two neighbours
stand as `F` has it. -/
inductive Paired (F : Token → Token → Token → Token → Prop) : List Token → List Token → Prop
  | last {t t' : Token} : t.Same t' → Paired F [t] [t']
  | cons {t u t' u' : Token} {ts us : List Token} : t.Same t' → F t u t' u' →
      Paired F (u :: ts) (u' :: us) → Paired F (t :: u :: ts) (t' :: u' :: us)

theorem Paired.head {F : Token → Token → Token → Token → Prop} {t t' : Token} {ts us : List Token}
    (h : Paired F (t :: ts) (t' :: us)) : t.Same t' := by
  cases h with
  | last hsame => exact hsame
  | cons hsame _ _ => exact hsame

/-- Which of two readings may go its own way when it finds a fault. -/
structure Leeway where
  left : Prop
  right : Prop

/-- Whether it is the same in two readings that a token stands on the line of the
one before it, or makes no difference, unless to a reading that may go its own way. -/
def Leeway.Fits (w : Leeway) (t u t' u' : Token) : Prop :=
  t.breaks u = t'.breaks u' ∨
    u.binds = false ∧ (t.kind = .str ∨ u.isEof = true) ∧
      (u.fitsAnyLine = true ∨ t'.breaks u' = true ∧ w.left ∨ t.breaks u = true ∧ w.right)

namespace Reader

def before (r : Reader) : List Token := r.current :: r.ahead :: r.rest

/-- Moving on to the end of a statement, token by token. -/
theorem skipToBoundary_eq (r : Reader) : r.skipToBoundary =
    if r.atBoundary || r.closesAhead || r.rest.isEmpty then r else r.advance.skipToBoundary := by
  rw [skipToBoundary, advance]
  split
  · rename_i hstop
    rw [if_pos (by rw [hstop, Bool.true_or])]
  · rename_i hgoes
    rw [Bool.eq_false_iff.mpr hgoes, Bool.false_or]
    split
    · rename_i hrest
      rw [hrest, List.isEmpty_nil, if_pos rfl]
    · rename_i t ts hrest
      simp only [hrest, List.isEmpty_cons, Bool.false_eq_true, if_false]

/-- Whether two readers have the same tokens before them, with the same kinds of
faults behind. -/
structure Alike (w : Leeway) (r r' : Reader) : Prop where
  before : Paired w.Fits r.before r'.before
  codes : r.diagnostics.toList.map Diagnostic.code = r'.diagnostics.toList.map Diagnostic.code

/-- Whether a reader does not stand between a string literal and a member of it. -/
def OffMember (r : Reader) : Prop := r.current.kind = .str → r.ahead.isSign .dot = false

namespace Alike

variable {w : Leeway} {r r' : Reader}

theorem current (h : r.Alike w r') : r.current.Same r'.current := h.before.head

theorem fits (h : r.Alike w r') : w.Fits r.current r.ahead r'.current r'.ahead := by
  have hbefore := h.before
  unfold Reader.before at hbefore
  cases hbefore with
  | cons _ hfits _ => exact hfits

theorem behind (h : r.Alike w r') : Paired w.Fits (r.ahead :: r.rest) (r'.ahead :: r'.rest) := by
  have hbefore := h.before
  unfold Reader.before at hbefore
  cases hbefore with
  | cons _ _ hmore => exact hmore

theorem ahead (h : r.Alike w r') : r.ahead.Same r'.ahead := h.behind.head

theorem size (h : r.Alike w r') : r.diagnostics.size = r'.diagnostics.size := by
  have hlength := congrArg List.length h.codes
  rwa [List.length_map, List.length_map, Array.length_toList, Array.length_toList] at hlength

/-- The tokens that a reader has behind the current one, and those of another. -/
theorem rest_cases (h : r.Alike w r') : r.rest = [] ∧ r'.rest = [] ∨
    ∃ t ts t' us, r.rest = t :: ts ∧ r'.rest = t' :: us := by
  have hbehind := h.behind
  cases hrest : r.rest with
  | nil =>
      rw [hrest] at hbehind
      generalize r'.rest = us at hbehind
      cases hbehind with
      | last _ => exact Or.inl ⟨rfl, rfl⟩
  | cons t ts =>
      rw [hrest] at hbehind
      generalize r'.rest = us at hbehind
      cases hbehind with
      | cons _ _ _ => exact Or.inr ⟨_, _, _, _, rfl, rfl⟩

theorem advance (h : r.Alike w r') : r.advance.Alike w r'.advance := by
  refine ⟨?_, ?_⟩
  · rcases h.rest_cases with ⟨hrest, hrest'⟩ | ⟨t, ts, t', us, hrest, hrest'⟩
    · have hstill : Paired w.Fits [r.ahead, r.ahead] [r'.ahead, r'.ahead] := by
        refine .cons h.ahead (Or.inl ?_) (.last h.ahead)
        rw [Token.breaks_self, Token.breaks_self]
      simp only [Reader.advance, hrest, hrest', Reader.before]
      exact hstill
    · have hbehind := h.behind
      rw [hrest, hrest'] at hbehind
      simp only [Reader.advance, hrest, hrest']
      exact hbehind
  · rw [diagnostics_advance, diagnostics_advance]
    exact h.codes

theorem record (h : r.Alike w r') {fault fault' : SyntaxFault} (hcode : fault.code = fault'.code)
    (p p' : Position) : (r.record fault p).Alike w (r'.record fault' p') := by
  refine ⟨h.before, ?_⟩
  rw [Reader.record, Reader.record, Array.toList_push, Array.toList_push, List.map_append,
    List.map_append, h.codes]
  exact congrArg (fun code => _ ++ [code]) hcode

theorem atBoundary (h : r.Alike w r') : r.atBoundary = r'.atBoundary := by
  rw [Reader.atBoundary, Reader.atBoundary, h.current.isSign, h.current.isSign, h.current.isEof]

theorem closesAhead (h : r.Alike w r') : r.closesAhead = r'.closesAhead := by
  rw [Reader.closesAhead, Reader.closesAhead, h.ahead.isSign, h.ahead.isEof]

theorem skipToBoundary (h : r.Alike w r') : r.skipToBoundary.Alike w r'.skipToBoundary := by
  induction hlen : r.rest.length generalizing r r' with
  | zero =>
      have hrest := List.length_eq_zero_iff.mp hlen
      have hrest' : r'.rest = [] := by
        rcases h.rest_cases with ⟨-, hrest'⟩ | ⟨_, _, _, _, hmore, -⟩
        · exact hrest'
        · rw [hrest] at hmore
          cases hmore
      rw [skipToBoundary_eq r, skipToBoundary_eq r', hrest, hrest', List.isEmpty_nil, Bool.or_true,
        Bool.or_true, if_pos rfl, if_pos rfl]
      exact h
  | succ n ih =>
      rcases h.rest_cases with ⟨hnone, -⟩ | ⟨t, ts, t', us, hrest, hrest'⟩
      · rw [hnone] at hlen
        cases hlen
      · have hless : r.advance.rest.length = n := by
          rw [hrest, List.length_cons, Nat.succ_inj] at hlen
          simp only [Reader.advance, hrest, hlen]
        rw [skipToBoundary_eq r, skipToBoundary_eq r', h.atBoundary, h.closesAhead, hrest, hrest',
          List.isEmpty_cons, List.isEmpty_cons]
        split
        · exact h
        · exact ih h.advance hless

/-- A call, a subscript or an operator stands on the same line in both or in neither. -/
theorem breaksAhead_of_binds (h : r.Alike w r') (hbinds : r.ahead.binds = true) :
    r.breaksAhead = r'.breaksAhead := by
  refine h.fits.resolve_right ?_
  rintro ⟨hno, -⟩
  rw [hbinds] at hno
  cases hno

theorem continuesAt (h : r.Alike w r') (precedence : Nat) :
    Parser.continuesAt precedence r = Parser.continuesAt precedence r' := by
  rw [Parser.continuesAt, Parser.continuesAt, ← h.ahead.precedence, ← h.ahead.isSign]
  by_cases hless : precedence < Parser.precedenceOf r.ahead
  · cases hdot : r.ahead.isSign .dot with
    | true => rw [Bool.or_true, Bool.or_true]
    | false =>
        have hbinds : r.ahead.binds = true := by
          rw [Token.binds, hdot, Bool.not_false, Bool.and_true, decide_eq_true_eq]
          exact Nat.lt_of_le_of_lt (Nat.zero_le _) hless
        rw [h.breaksAhead_of_binds hbinds]
  · rw [decide_eq_false hless, Bool.false_and, Bool.false_and]

/-- The arguments of a method stand on its line. -/
theorem callsAhead (h : r.Alike w r') :
    (r.ahead.isSign .leftParen && !r.breaksAhead) =
      (r'.ahead.isSign .leftParen && !r'.breaksAhead) := by
  rw [← h.ahead.isSign]
  cases hparen : r.ahead.isSign .leftParen with
  | false => rw [Bool.false_and, Bool.false_and]
  | true =>
      have hbinds : r.ahead.binds = true := by
        rw [Token.binds, Parser.precedenceOf, Token.isSign, kind_of_isSign hparen]
        rfl
      rw [h.breaksAhead_of_binds hbinds]

/-- Behind anything but a string literal a statement ends in both texts or in neither. -/
theorem endsAhead (h : r.Alike w r') (hword : r.current.kind ≠ .str) :
    (r.closesAhead || r.breaksAhead) = (r'.closesAhead || r'.breaksAhead) := by
  rw [← h.closesAhead]
  rcases h.fits with hsame | ⟨-, hstr | heof, -⟩
  · exact congrArg (r.closesAhead || ·) hsame
  · exact absurd hstr hword
  · rw [Reader.closesAhead, heof, Bool.or_true, Bool.true_or, Bool.true_or]

/-- Where lines make a difference to the end of a statement, the reading that goes
its own way is the one in which the token stands on the same line. -/
theorem breaks_cases (h : r.Alike w r') (hoff : r.OffMember)
    (hsemicolon : r.ahead.isSign .semicolon = false) (hcloses : r.closesAhead = false) :
    r.breaksAhead = r'.breaksAhead ∨ r'.breaksAhead = true ∧ w.left ∨
      r.breaksAhead = true ∧ w.right := by
  refine h.fits.imp_right ?_
  rintro ⟨-, hstr, hany | hw⟩
  · obtain ⟨hbrace, heof⟩ := Bool.or_eq_false_iff.mp hcloses
    rw [Token.fitsAnyLine, hsemicolon, hbrace, heof, Bool.false_or, Bool.false_or,
      Bool.false_or, hoff (hstr.resolve_right (by rw [heof]; exact Bool.false_ne_true))] at hany
    cases hany
  · exact hw

end Alike

end Reader

namespace Parse

open Reader

/-- At any reader. -/
abbrev Anywhere : Reader → Prop := fun _ => True

variable {α β γ : Type}

/-- What is read behind a first part keeps the faults of that part. -/
theorem bind_grows {p : Parse α} {f : α → Parse β}
    (hf : ∀ a r, r.diagnostics.size ≤ (f a r).2.diagnostics.size) (r : Reader) :
    (p r).2.diagnostics.size ≤ ((p >>= f) r).2.diagnostics.size := by
  rcases hp : p r with ⟨_ | a, after⟩
  · exact Nat.le_of_eq (by rw [bind_none hp])
  · rw [bind_some hp]
    exact hf a after

theorem attempt_grows {p : Parse α} {bad : Parse β} {good : Option α → Parse β}
    (hbad : ∀ r, r.diagnostics.size ≤ (bad r).2.diagnostics.size)
    (hgood : ∀ found r, r.diagnostics.size ≤ (good found r).2.diagnostics.size) (r : Reader) :
    (p r).2.diagnostics.size ≤ (Parse.attempt p bad good r).2.diagnostics.size := by
  by_cases hsize : r.diagnostics.size < (p r).2.diagnostics.size
  · rw [attempt_bad _ _ hsize]
    exact hbad _
  · rw [attempt_good _ _ hsize]
    exact hgood _ _

theorem endStatement_ends {r : Reader} (hsemicolon : r.ahead.isSign .semicolon = false)
    (h : (r.closesAhead || r.breaksAhead) = true) : Parse.endStatement r = (some (), r) := by
  rw [Parse.endStatement, hsemicolon, if_neg Bool.false_ne_true, if_pos h]

/-- Where a statement may not end a fault is found. -/
theorem endStatement_refuses {r : Reader} (hsemicolon : r.ahead.isSign .semicolon = false)
    (h : (r.closesAhead || r.breaksAhead) = false) : Parse.endStatement r =
      if r.ahead.isIllegal then Parse.refuseToken r.ahead r
      else Parse.refuse (.expectedEnd r.ahead.describe) r.ahead.position r := by
  rw [Parse.endStatement, hsemicolon, h, if_neg Bool.false_ne_true, if_neg Bool.false_ne_true]

theorem endStatement_refusal {r : Reader} (hsemicolon : r.ahead.isSign .semicolon = false)
    (h : (r.closesAhead || r.breaksAhead) = false) :
    r.diagnostics.size < (Parse.endStatement r).2.diagnostics.size := by
  rw [endStatement_refuses hsemicolon h]
  split
  · exact refuseToken_grows _ r
  · exact refuse_grows _ _ r

theorem endStatement_grows (r : Reader) :
    r.diagnostics.size ≤ (Parse.endStatement r).2.diagnostics.size := by
  cases hsemicolon : r.ahead.isSign .semicolon with
  | true =>
      rw [Parse.endStatement, if_pos hsemicolon]
      exact Nat.le_of_eq (congrArg Array.size (diagnostics_advance r).symm)
  | false =>
      cases h : (r.closesAhead || r.breaksAhead) with
      | true => exact Nat.le_of_eq (by rw [endStatement_ends hsemicolon h])
      | false => exact Nat.le_of_lt (endStatement_refusal hsemicolon h)

/-- Whether two readings went in step: they came to the same but for what `φ`
leaves out, unless one that may go its own way found a fault. -/
def InStep (w : Leeway) (φ : α → γ) (r r' : Reader) (x y : Option α × Reader) : Prop :=
  w.left ∧ r.diagnostics.size < x.2.diagnostics.size ∨
    w.right ∧ r'.diagnostics.size < y.2.diagnostics.size ∨
    x.2.Alike w y.2 ∧ x.1.map φ = y.1.map φ

/-- Whether two readings, neither of which takes a fault back, go in step wherever
the readers are alike and the first is one with `D`. -/
structure Matches (w : Leeway) (D : Reader → Prop) (φ : α → γ) (p q : Parse α) : Prop where
  grows : ∀ r, r.diagnostics.size ≤ (p r).2.diagnostics.size
  grows' : ∀ r, r.diagnostics.size ≤ (q r).2.diagnostics.size
  steps : ∀ r r', D r → r.Alike w r' → InStep w φ r r' (p r) (q r')

namespace Matches

variable {w : Leeway} {D E : Reader → Prop} {δ : Type} {φ : α → γ} {ψ : β → δ} {p q : Parse α}

theorem of_imp (h : Matches w E φ p q) (himp : ∀ r, D r → E r) : Matches w D φ p q :=
  ⟨h.grows, h.grows', fun r r' hr => h.steps r r' (himp r hr)⟩

/-- Two parts one after the other; the second is read where the first can end. -/
theorem bind_at {f g : α → Parse β} (h : Matches w D φ p q)
    (hE : ∀ r, D r → ∀ a after, p r = (some a, after) → E after)
    (hf : ∀ a b, φ a = φ b → Matches w E ψ (f a) (g b)) :
    Matches w D ψ (p >>= f) (q >>= g) := by
  have hp := bind_grows (p := p) fun a => (hf a a rfl).grows
  have hq := bind_grows (p := q) fun a => (hf a a rfl).grows'
  refine ⟨fun r => Nat.le_trans (h.grows r) (hp r), fun r => Nat.le_trans (h.grows' r) (hq r), ?_⟩
  intro r r' hr halike
  rcases h.steps r r' hr halike with ⟨hw, hbad⟩ | ⟨hw, hbad⟩ | ⟨hsame, hvalue⟩
  · exact Or.inl ⟨hw, Nat.lt_of_lt_of_le hbad (hp r)⟩
  · exact Or.inr (Or.inl ⟨hw, Nat.lt_of_lt_of_le hbad (hq r')⟩)
  rcases hpr : p r with ⟨_ | a, after⟩
  · rcases hqr : q r' with ⟨_ | b, after'⟩
    · rw [bind_none hpr, bind_none hqr]
      rw [hpr, hqr] at hsame
      exact Or.inr (Or.inr ⟨hsame, rfl⟩)
    · rw [hpr, hqr] at hvalue
      cases hvalue
  · rcases hqr : q r' with ⟨_ | b, after'⟩
    · rw [hpr, hqr] at hvalue
      cases hvalue
    · have hgrows := h.grows r
      have hgrows' := h.grows' r'
      rw [hpr, hqr] at hsame hvalue
      rw [hpr] at hgrows
      rw [hqr] at hgrows'
      rw [bind_some hpr, bind_some hqr]
      have hrest := (hf a b (Option.some.inj hvalue)).steps after after' (hE r hr a after hpr) hsame
      rcases hrest with ⟨hw, hbad⟩ | ⟨hw, hbad⟩ | hsame
      · exact Or.inl ⟨hw, Nat.lt_of_le_of_lt hgrows hbad⟩
      · exact Or.inr (Or.inl ⟨hw, Nat.lt_of_le_of_lt hgrows' hbad⟩)
      · exact Or.inr (Or.inr hsame)

theorem bind {f g : α → Parse β} (h : Matches w D φ p q)
    (hf : ∀ a b, φ a = φ b → Matches w Anywhere ψ (f a) (g b)) :
    Matches w D ψ (p >>= f) (q >>= g) :=
  h.bind_at (fun _ _ _ _ _ => trivial) hf

theorem pure {a b : α} (h : φ a = φ b) :
    Matches w D φ (Pure.pure a : Parse α) (Pure.pure b) :=
  ⟨fun _ => Nat.le_refl _, fun _ => Nat.le_refl _,
    fun _ _ _ halike => Or.inr (Or.inr ⟨halike, congrArg some h⟩)⟩

theorem map {f g : α → β} (h : Matches w D φ p q) (hfg : ∀ a b, φ a = φ b → ψ (f a) = ψ (g b)) :
    Matches w D ψ (p >>= fun a => Pure.pure (f a)) (q >>= fun b => Pure.pure (g b)) :=
  h.bind fun a b hab => .pure (hfg a b hab)

theorem fail : Matches w D φ (Parse.fail : Parse α) Parse.fail :=
  ⟨fun _ => Nat.le_refl _, fun _ => Nat.le_refl _,
    fun _ _ _ halike => Or.inr (Or.inr ⟨halike, rfl⟩)⟩

theorem refuse {fault fault' : SyntaxFault} (pos pos' : Position)
    (h : fault.code = fault'.code := by rfl) :
    Matches w D φ (Parse.refuse fault pos : Parse α) (Parse.refuse fault' pos') :=
  ⟨fun r => Nat.le_of_lt (refuse_grows fault pos r),
    fun r => Nat.le_of_lt (refuse_grows fault' pos' r),
    fun _ _ _ halike => Or.inr (Or.inr ⟨halike.record h pos pos', rfl⟩)⟩

theorem alike_refuseAhead {r r' : Reader} (h : r.Alike w r') (label : String) :
    ((Parse.refuseAhead label : Parse α) r).2.Alike w
      ((Parse.refuseAhead label : Parse α) r').2 := by
  refine h.record ?_ r.ahead.position r'.ahead.position
  rfl

theorem refuseAhead (label : String) :
    Matches w D φ (Parse.refuseAhead label : Parse α) (Parse.refuseAhead label) :=
  ⟨fun r => Nat.le_of_lt (refuseAhead_grows label r),
    fun r => Nat.le_of_lt (refuseAhead_grows label r),
    fun _ _ _ halike => Or.inr (Or.inr ⟨alike_refuseAhead halike label, rfl⟩)⟩

theorem refuseToken {t t' : Token} (h : t.Same t') :
    Matches w D φ (Parse.refuseToken t : Parse α) (Parse.refuseToken t') := by
  unfold Parse.refuseToken
  rw [h.kind]
  split
  · exact refuse _ _
  · exact refuse _ _

/-- A reading that looks at the current token first. -/
theorem current {f g : Token → Parse β}
    (h : ∀ t t', t.Same t' → Matches w (fun r => D r ∧ r.current = t) ψ (f t) (g t')) :
    Matches w D ψ (Parse.current >>= f) (Parse.current >>= g) :=
  ⟨fun r => (h r.current r.current (.refl _)).grows r,
    fun r => (h r.current r.current (.refl _)).grows' r,
    fun r r' hr halike => (h r.current r'.current halike.current).steps r r' ⟨hr, rfl⟩ halike⟩

theorem advance {f g : Unit → Parse β} (h : Matches w Anywhere ψ (f ()) (g ())) :
    Matches w D ψ (Parse.advance >>= f) (Parse.advance >>= g) := by
  refine ⟨fun r => ?_, fun r => ?_, fun r r' _ halike => ?_⟩
  · rw [advance_bind, ← diagnostics_advance r]
    exact h.grows r.advance
  · rw [advance_bind, ← diagnostics_advance r]
    exact h.grows' r.advance
  · have hstep := h.steps r.advance r'.advance trivial halike.advance
    rw [InStep, diagnostics_advance, diagnostics_advance] at hstep
    exact hstep

/-- Both readings take the same branch. -/
theorem branch {c c' : Reader → Bool} {x y x' y' : Parse β}
    (hsame : ∀ r r', D r → r.Alike w r' → c r = c' r')
    (hthen : Matches w D ψ x x') (helse : Matches w D ψ y y') :
    Matches w D ψ (get >>= fun r => if c r then x else y)
      (get >>= fun r => if c' r then x' else y') := by
  refine ⟨fun r => ?_, fun r => ?_, fun r r' hr halike => ?_⟩
  · rw [get_bind]
    split
    · exact hthen.grows r
    · exact helse.grows r
  · rw [get_bind]
    split
    · exact hthen.grows' r
    · exact helse.grows' r
  · rw [get_bind, get_bind, hsame r r' hr halike]
    split
    · exact hthen.steps r r' hr halike
    · exact helse.steps r r' hr halike

theorem ifSign (s : Sign) {x y x' y' : Parse β} (hthen : Matches w D ψ x x')
    (helse : Matches w D ψ y y') :
    Matches w D ψ (get >>= fun r => if r.ahead.isSign s then x else y)
      (get >>= fun r => if r.ahead.isSign s then x' else y') :=
  branch (fun _ _ _ halike => halike.ahead.isSign s) hthen helse

theorem ifKeyword (k : Keyword) {x y x' y' : Parse β} (hthen : Matches w D ψ x x')
    (helse : Matches w D ψ y y') :
    Matches w D ψ (get >>= fun r => if r.ahead.isKeyword k then x else y)
      (get >>= fun r => if r.ahead.isKeyword k then x' else y') :=
  branch (fun _ _ _ halike => halike.ahead.isKeyword k) hthen helse

theorem ifName {x y x' y' : Parse β} (hthen : Matches w D ψ x x') (helse : Matches w D ψ y y') :
    Matches w D ψ (get >>= fun r => if r.ahead.isName then x else y)
      (get >>= fun r => if r.ahead.isName then x' else y') :=
  branch (fun _ _ _ halike => halike.ahead.isName) hthen helse

theorem ifContinues (precedence : Nat) {x y x' y' : Parse β} (hthen : Matches w D ψ x x')
    (helse : Matches w D ψ y y') :
    Matches w D ψ (get >>= fun r => if Parser.continuesAt precedence r then x else y)
      (get >>= fun r => if Parser.continuesAt precedence r then x' else y') :=
  branch (fun _ _ _ halike => halike.continuesAt precedence) hthen helse

theorem ifCall {x y x' y' : Parse β} (hthen : Matches w D ψ x x') (helse : Matches w D ψ y y') :
    Matches w D ψ (get >>= fun r => if r.ahead.isSign .leftParen && !r.breaksAhead then x else y)
      (get >>= fun r => if r.ahead.isSign .leftParen && !r.breaksAhead then x' else y') :=
  branch (fun _ _ _ halike => halike.callsAhead) hthen helse

theorem expect (s : Sign) : Matches w D id (expect s) (expect s) := by
  have hgrows : ∀ r : Reader, r.diagnostics.size ≤ (Parse.expect s r).2.diagnostics.size := by
    intro r
    rw [Parse.expect]
    split
    · exact Nat.le_of_eq (congrArg Array.size (diagnostics_advance r).symm)
    · exact Nat.le_of_lt (refuseAhead_grows s.text r)
  refine ⟨hgrows, hgrows, fun r r' _ halike => Or.inr (Or.inr ?_)⟩
  rw [Parse.expect, Parse.expect, halike.ahead.isSign]
  split
  · exact ⟨halike.advance, rfl⟩
  · exact ⟨alike_refuseAhead halike _, rfl⟩

theorem expectName : Matches w D (Ident.recast .placeless) expectName expectName := by
  have hgrows : ∀ r : Reader, r.diagnostics.size ≤ (Parse.expectName r).2.diagnostics.size := by
    intro r
    rw [Parse.expectName]
    split
    · exact Nat.le_of_eq (congrArg Array.size (diagnostics_advance r).symm)
    · exact Nat.le_of_lt (refuseAhead_grows _ r)
  refine ⟨hgrows, hgrows, fun r r' _ halike => Or.inr (Or.inr ?_)⟩
  rw [Parse.expectName, Parse.expectName, halike.ahead.isName]
  split
  · refine ⟨halike.advance, ?_⟩
    rw [halike.ahead.lexeme]
    rfl
  · exact ⟨alike_refuseAhead halike _, rfl⟩

/-- Where a statement ends in one text only, that reading goes its own way. -/
theorem endStatement : Matches w OffMember id Parse.endStatement Parse.endStatement := by
  refine ⟨endStatement_grows, endStatement_grows, fun r r' hoff halike => ?_⟩
  have hsemicolon' := halike.ahead.isSign .semicolon
  cases hsemicolon : r.ahead.isSign .semicolon with
  | true =>
      rw [hsemicolon] at hsemicolon'
      rw [Parse.endStatement, Parse.endStatement, if_pos hsemicolon, if_pos hsemicolon'.symm]
      exact Or.inr (Or.inr ⟨halike.advance, rfl⟩)
  | false =>
      have hcloses' := halike.closesAhead
      rw [hsemicolon] at hsemicolon'
      have hends : (r.closesAhead || r.breaksAhead) = true →
          (r'.closesAhead || r'.breaksAhead) = true →
          InStep w id r r' (Parse.endStatement r) (Parse.endStatement r') := by
        intro h h'
        rw [endStatement_ends hsemicolon h, endStatement_ends hsemicolon'.symm h']
        exact Or.inr (Or.inr ⟨halike, rfl⟩)
      cases hcloses : r.closesAhead with
      | true =>
          rw [hcloses] at hcloses'
          exact hends (by rw [hcloses, Bool.true_or]) (by rw [← hcloses', Bool.true_or])
      | false =>
          rw [hcloses] at hcloses'
          rcases halike.breaks_cases hoff hsemicolon hcloses with hsame | ⟨hbreaks', hw⟩ |
            ⟨hbreaks, hw⟩
          · cases hbreaks : r.breaksAhead with
            | true =>
                rw [hbreaks] at hsame
                exact hends (by rw [hbreaks, Bool.or_true]) (by rw [← hsame, Bool.or_true])
            | false =>
                rw [hbreaks] at hsame
                rw [endStatement_refuses hsemicolon (by rw [hcloses, hbreaks]; rfl),
                  endStatement_refuses hsemicolon'.symm (by rw [← hcloses', ← hsame]; rfl),
                  ← halike.ahead.isIllegal]
                split
                · exact (refuseToken halike.ahead).steps r r' hoff halike
                · exact (refuse _ _).steps r r' hoff halike
          · cases hbreaks : r.breaksAhead with
            | true => exact hends (by rw [hbreaks, Bool.or_true]) (by rw [hbreaks', Bool.or_true])
            | false =>
                exact Or.inl ⟨hw, endStatement_refusal hsemicolon (by rw [hcloses, hbreaks]; rfl)⟩
          · cases hbreaks' : r'.breaksAhead with
            | true => exact hends (by rw [hbreaks, Bool.or_true]) (by rw [hbreaks', Bool.or_true])
            | false =>
                exact Or.inr (Or.inl
                  ⟨hw, endStatement_refusal hsemicolon'.symm (by rw [← hcloses', hbreaks']; rfl)⟩)

theorem attempt {bad bad' : Parse β} {good good' : Option α → Parse β} (h : Matches w D φ p q)
    (hbad : Matches w Anywhere ψ bad bad')
    (hgood : ∀ found found', found.map φ = found'.map φ →
      Matches w Anywhere ψ (good found) (good' found')) :
    Matches w D ψ (Parse.attempt p bad good) (Parse.attempt q bad' good') := by
  have hp := attempt_grows (p := p) hbad.grows fun found => (hgood found found rfl).grows
  have hq := attempt_grows (p := q) hbad.grows' fun found => (hgood found found rfl).grows'
  refine ⟨fun r => Nat.le_trans (h.grows r) (hp r), fun r => Nat.le_trans (h.grows' r) (hq r), ?_⟩
  intro r r' hr halike
  rcases h.steps r r' hr halike with ⟨hw, hfault⟩ | ⟨hw, hfault⟩ | ⟨hsame, hvalue⟩
  · exact Or.inl ⟨hw, Nat.lt_of_lt_of_le hfault (hp r)⟩
  · exact Or.inr (Or.inl ⟨hw, Nat.lt_of_lt_of_le hfault (hq r')⟩)
  -- What is read behind the first part goes on from there in both.
  have hbehind : ∀ {x y : Option β × Reader}, InStep w ψ (p r).2 (q r').2 x y →
      InStep w ψ r r' x y := by
    rintro x y (⟨hw, hfault⟩ | ⟨hw, hfault⟩ | hsame)
    · exact Or.inl ⟨hw, Nat.lt_of_le_of_lt (h.grows r) hfault⟩
    · exact Or.inr (Or.inl ⟨hw, Nat.lt_of_le_of_lt (h.grows' r') hfault⟩)
    · exact Or.inr (Or.inr hsame)
  by_cases hsize : r.diagnostics.size < (p r).2.diagnostics.size
  · have hsize' : r'.diagnostics.size < (q r').2.diagnostics.size := by
      rwa [← halike.size, ← hsame.size]
    rw [attempt_bad _ _ hsize, attempt_bad _ _ hsize']
    exact hbehind (hbad.steps _ _ trivial hsame)
  · have hsize' : ¬ r'.diagnostics.size < (q r').2.diagnostics.size := by
      rwa [← halike.size, ← hsame.size]
    rw [attempt_good _ _ hsize, attempt_good _ _ hsize']
    exact hbehind ((hgood _ _ hvalue).steps _ _ trivial hsame)

theorem recover : Matches w D id Parse.recover Parse.recover := by
  have hgrows : ∀ r : Reader, r.diagnostics.size ≤ (Parse.recover r).2.diagnostics.size := fun r =>
    Nat.le_of_eq (congrArg Array.size (diagnostics_skipToBoundary r).symm)
  exact ⟨hgrows, hgrows, fun _ _ _ halike => Or.inr (Or.inr ⟨halike.skipToBoundary, rfl⟩)⟩

/-- A reading that goes on unless a fault is found first. -/
theorem unlessRefused {c : Prop} [Decidable c] {fault fault' : SyntaxFault} {pos pos' : Position}
    {f g : Unit → Parse β} (h : Matches w Anywhere ψ (f ()) (g ()))
    (hcode : fault.code = fault'.code := by rfl) :
    Matches w Anywhere ψ (if c then Parse.refuse fault pos >>= f else f ())
      (if c then Parse.refuse fault' pos' >>= g else g ()) := by
  split
  · exact (refuse (φ := id) pos pos' hcode).bind fun _ _ _ => h
  · exact h

end Matches

end Parse

end Scriptlet
