/-
Two texts one behind the other.  A reading that finds no fault in the tokens of
a text by itself goes on in step where another text follows on the next line and
where the whole stands some lines further down.
-/
import Scriptlet.Proofs.Agreement
import Scriptlet.Proofs.Guise

namespace Scriptlet

/-- The place some lines further down. -/
def Position.below (lines : Nat) (p : Position) : Position := ⟨p.line + lines, p.column⟩

/-- Everything stands some lines further down. -/
def Guise.below (lines : Nat) : Guise where
  place := Position.below lines
  word := id
  hint := Option.map fun i => ⟨i.name, i.position.below lines⟩
  file := id
  body := fun _ b => b
  hushes := false
  foreign := id
  host := fun _ h => h

def Sign.begins : Sign → Bool
  | .semicolon | .leftParen | .leftBracket | .bang | .minus | .plus => true
  | _ => false

def Keyword.begins : Keyword → Bool
  | .elifWord | .elseWord | .inWord => false
  | _ => true

namespace Token

/-- The token some lines further down. -/
def below (lines : Nat) (t : Token) : Token := { t with position := t.position.below lines }

@[simp] theorem kind_below (lines : Nat) (t : Token) : (t.below lines).kind = t.kind := rfl

@[simp] theorem isSign_below (lines : Nat) (t : Token) (s : Sign) :
    (t.below lines).isSign s = t.isSign s := rfl

@[simp] theorem isName_below (lines : Nat) (t : Token) : (t.below lines).isName = t.isName := rfl

@[simp] theorem isEof_below (lines : Nat) (t : Token) : (t.below lines).isEof = t.isEof := rfl

/-- Whether nothing can be read at a token. -/
def stops (t : Token) : Bool := t.isEof || t.isIllegal

def begins (t : Token) : Bool :=
  match t.kind with
  | .name _ | .int _ | .float _ | .str => true
  | .keyword k => k.begins
  | .sign s => s.begins
  | .illegal _ | .eof => false

theorem stops_of_isSign {t : Token} {s : Sign} (h : t.isSign s = true) : t.stops = false := by
  rw [stops, isEof, isIllegal, kind_of_isSign h]
  rfl

theorem stops_of_isKeyword {t : Token} {k : Keyword} (h : t.isKeyword k = true) :
    t.stops = false := by
  rw [stops, isEof, isIllegal, kind_of_isKeyword h]
  rfl

theorem stops_of_isName {t : Token} (h : t.isName = true) : t.stops = false := by
  unfold isName at h
  unfold stops isEof isIllegal
  split at h
  · rename_i hkind
    rw [hkind]
    rfl
  · cases h

end Token

/-- The tokens of a text without the end of input, some lines further down, and
what follows them there: nothing, or a statement on another line that the last
of the tokens do not take for the fields of a class. -/
structure Seam where
  lines : Nat
  tokens : List Token
  final : Token
  next : Token
  later : List Token
  final_eof : final.isEof = true
  next_begins : next.isEof = true ∨ next.begins = true ∧
    ∀ t ∈ tokens, t.position.line + lines ≠ next.position.line
  no_header : next.isSign .leftParen = true → ∀ before c n, tokens = before ++ [c, n] →
    c.isKeyword .classWord = false

namespace Parse

variable {α : Type}

theorem refuse_grows (fault : SyntaxFault) (pos : Position) (r : Reader) :
    r.diagnostics.size < ((refuse fault pos : Parse α) r).2.diagnostics.size := by
  rw [refuse, Reader.record, Array.size_push]
  exact Nat.lt_succ_self _

theorem refuseAhead_grows (label : String) (r : Reader) :
    r.diagnostics.size < ((refuseAhead label : Parse α) r).2.diagnostics.size :=
  refuse_grows _ _ r

theorem refuseToken_grows (t : Token) (r : Reader) :
    r.diagnostics.size < ((refuseToken t : Parse α) r).2.diagnostics.size := by
  unfold refuseToken
  cases t.kind <;> exact refuse_grows _ _ r

/-- What is made of a value read leaves the reader alone. -/
theorem map_reader {β : Type} (p : Parse α) (f : α → β) (r : Reader) :
    ((p >>= fun a => Pure.pure (f a)) r).2 = (p r).2 := by
  rcases hp : p r with ⟨_ | a, after⟩
  · rw [bind_none hp]
  · rw [bind_some hp, pure_apply]

theorem refuseToken_none (t : Token) (r : Reader) : ((refuseToken t : Parse α) r).1 = none := by
  unfold refuseToken
  cases t.kind <;> rfl

end Parse

namespace Seam

/-- The seam of an empty text behind which nothing follows. -/
instance : Inhabited Seam :=
  ⟨0, [], .eofAt .nowhere, .eofAt .nowhere, [], rfl, Or.inl rfl, fun h => by cases h⟩

open Reader Parse

variable (s : Seam)

/-- The reader at the first of some tokens, where nothing follows. -/
def alone (us : List Token) (ds : Array Diagnostic) : Reader := on (us ++ [s.final]) ds

/-- The reader at the first of some tokens, where the other text follows. -/
def joined (us : List Token) (ds : Array Diagnostic) : Reader :=
  on (us.map (Token.below s.lines) ++ s.next :: s.later) ds

section

variable (t u : Token) (us : List Token) (ds : Array Diagnostic)

@[simp] theorem current_alone : (s.alone (t :: us) ds).current = t := current_on ..

@[simp] theorem ahead_alone : (s.alone (t :: u :: us) ds).ahead = u := rfl

@[simp] theorem ahead_alone_last : (s.alone [t] ds).ahead = s.final := rfl

@[simp] theorem advance_alone : (s.alone (t :: us) ds).advance = s.alone us ds := by
  cases us with
  | nil => rfl
  | cons u us => exact advance_on ..

@[simp] theorem diagnostics_alone : (s.alone us ds).diagnostics = ds := diagnostics_on ..

@[simp] theorem current_joined : (s.joined (t :: us) ds).current = t.below s.lines :=
  current_on ..

@[simp] theorem ahead_joined : (s.joined (t :: u :: us) ds).ahead = u.below s.lines := rfl

@[simp] theorem ahead_joined_last : (s.joined [t] ds).ahead = s.next := rfl

@[simp] theorem advance_joined : (s.joined (t :: us) ds).advance = s.joined us ds := by
  cases us with
  | nil => exact advance_on ..
  | cons u us => exact advance_on ..

@[simp] theorem diagnostics_joined : (s.joined us ds).diagnostics = ds := diagnostics_on ..

theorem breaksAhead_joined :
    (s.joined (t :: u :: us) ds).breaksAhead = (s.alone (t :: u :: us) ds).breaksAhead := by
  change (u.position.line + s.lines != t.position.line + s.lines) =
    (u.position.line != t.position.line)
  rw [Bool.eq_iff_iff, bne_iff_ne, bne_iff_ne, Ne, Nat.add_right_cancel_iff]

end

/-- Whether some tokens are not used up and the first of them can be read. -/
def Standing (us : List Token) : Prop := ∃ t ts, us = t :: ts ∧ t.stops = false

/-- Whether the second of some tokens can be read. -/
def Going (us : List Token) : Prop := ∃ t u ts, us = t :: u :: ts ∧ u.stops = false

/-- Where the second reading is, the first being at some of the tokens.  Behind
a statement it may have read a semicolon with which the other text begins. -/
def Lands (ends : Bool) (us : List Token) (ds : Array Diagnostic) (r : Reader) : Prop :=
  r = s.joined us ds ∨
    ends = true ∧ us.length = 1 ∧ s.next.isSign .semicolon = true ∧ r = on (s.next :: s.later) ds

variable {α β γ δ : Type}

/-- Whether of two readings the first records a fault or both come to the same,
the first among its tokens. -/
def Follows (ends : Bool) (recast : α → β) (us : List Token) (ds ds' : Array Diagnostic)
    (x : Option α × Reader) (y : Option β × Reader) : Prop :=
  ds.size < x.2.diagnostics.size ∨
    ∃ a us' r, x = (some a, s.alone us' ds) ∧ y = (some (recast a), r) ∧
      s.Lands ends us' ds' r ∧ Standing us' ∧ us' <:+ us

/-- Whether one reading never takes a fault back and another goes in step with it
at fewer than `room` tokens of a kind. -/
structure Tracks (ends : Bool) (P : List Token → Prop) (recast : α → β) (room : Nat)
    (p : Parse α) (q : Parse β) : Prop where
  grows : ∀ r, r.diagnostics.size ≤ (p r).2.diagnostics.size
  tracks : ∀ us, P us → us <:+ s.tokens → us.length < room → ∀ ds ds',
    s.Follows ends recast us ds ds' (p (s.alone us ds)) (q (s.joined us ds'))

namespace Tracks

variable {s} {ends : Bool} {P Q : List Token → Prop} {room : Nat}
variable {φ : α → β} {ψ : γ → δ} {p : Parse α} {q : Parse β}

/-- With room for nothing, only the first reading counts. -/
theorem of_room_zero (hgrows : ∀ r, r.diagnostics.size ≤ (p r).2.diagnostics.size)
    (hroom : room = 0) : Tracks s ends P φ room p q :=
  ⟨hgrows, fun us _ _ hlen => by omega⟩

theorem of_imp (h : Tracks s ends P φ room p q) (himp : ∀ us, Q us → P us) :
    Tracks s ends Q φ room p q :=
  ⟨h.grows, fun us hus => h.tracks us (himp us hus)⟩

/-- A reading that ends at its tokens ends where one may that goes beyond them. -/
theorem loosen (h : Tracks s false P φ room p q) : Tracks s ends P φ room p q := by
  refine ⟨h.grows, fun us hus hin hlen ds ds' => ?_⟩
  refine (h.tracks us hus hin hlen ds ds').imp_right ?_
  rintro ⟨a, us', r, hp, hq, hlands | ⟨hno, -⟩, hrest⟩
  · exact ⟨a, us', r, hp, hq, Or.inl hlands, hrest⟩
  · cases hno

theorem bind {f : α → Parse γ} {g : β → Parse δ} (h : Tracks s false P φ room p q)
    (hf : ∀ a, Tracks s ends Standing ψ room (f a) (g (φ a))) :
    Tracks s ends P ψ room (p >>= f) (q >>= g) := by
  have hgrows : ∀ {r after : Reader} {a : α}, p r = (some a, after) →
      after.diagnostics.size ≤ ((p >>= f) r).2.diagnostics.size := by
    intro r after a hp
    rw [bind_some hp]
    exact (hf a).grows after
  constructor
  · intro r
    have hfirst := h.grows r
    rcases hp : p r with ⟨found, after⟩
    rw [hp] at hfirst
    cases found with
    | none =>
        rw [bind_none hp]
        exact hfirst
    | some a => exact Nat.le_trans hfirst (hgrows hp)
  · intro us hus hin hlen ds ds'
    rcases h.tracks us hus hin hlen ds ds' with hbad | ⟨a, us', r, hp, hq, hlands, hstands, hsuffix⟩
    · left
      rcases hp : p (s.alone us ds) with ⟨found, after⟩
      rw [hp] at hbad
      cases found with
      | none =>
          rw [bind_none hp]
          exact hbad
      | some a => exact Nat.lt_of_lt_of_le hbad (hgrows hp)
    · obtain rfl : r = s.joined us' ds' := hlands.resolve_right fun hno => by cases hno.1
      rw [bind_some hp, bind_some hq]
      have hshort := hsuffix.length_le
      refine ((hf a).tracks us' hstands (hsuffix.trans hin) (by omega) ds ds').imp_right ?_
      rintro ⟨b, us'', r, hf', hg', hlands', hstands', hsuffix'⟩
      exact ⟨b, us'', r, hf', hg', hlands', hstands', hsuffix'.trans hsuffix⟩

theorem map {f : α → γ} {g : β → δ} (h : Tracks s ends P φ room p q)
    (hfg : ∀ a, ψ (f a) = g (φ a)) :
    Tracks s ends P ψ room (p >>= fun a => pure (f a)) (q >>= fun b => pure (g b)) := by
  refine ⟨fun r => by rw [map_reader]; exact h.grows r, fun us hus hin hlen ds ds' => ?_⟩
  rcases h.tracks us hus hin hlen ds ds' with hbad | ⟨a, us', r, hp, hq, hends⟩
  · left
    rw [map_reader]
    exact hbad
  · right
    rw [bind_some hp, bind_some hq]
    exact ⟨f a, us', r, rfl, by rw [hfg, pure_apply], hends⟩

theorem pure {a : α} {b : β} (h : φ a = b) :
    Tracks s ends Standing φ room (Pure.pure a : Parse α) (Pure.pure b : Parse β) := by
  refine ⟨fun _ => Nat.le_refl _, fun us hus _ _ ds ds' => Or.inr ?_⟩
  exact ⟨a, us, _, rfl, by rw [h]; rfl, Or.inl rfl, hus, List.suffix_refl us⟩

/-- A reading that records a fault wherever it is tried goes in step with any. -/
theorem of_fails (h : ∀ r, r.diagnostics.size < (p r).2.diagnostics.size) :
    Tracks s ends P φ room p q := by
  refine ⟨fun r => Nat.le_of_lt (h r), fun us _ _ _ ds _ => Or.inl ?_⟩
  have hbad := h (s.alone us ds)
  rw [diagnostics_alone] at hbad
  exact hbad

theorem refuse (fault : SyntaxFault) (pos : Position) :
    Tracks s ends P φ room (Parse.refuse fault pos) q := of_fails (refuse_grows fault pos)

theorem refuseAhead (label : String) : Tracks s ends P φ room (Parse.refuseAhead label) q :=
  of_fails (refuseAhead_grows label)

theorem refuseToken (t : Token) : Tracks s ends P φ room (Parse.refuseToken t) q :=
  of_fails (refuseToken_grows t)

/-- A reading that goes on unless a fault is found first. -/
theorem unlessRefused {c : Prop} [Decidable c] {fault fault' : SyntaxFault} {pos pos' : Position}
    {f : Unit → Parse γ} {g : Unit → Parse δ} (h : Tracks s ends Standing ψ room (f ()) (g ())) :
    Tracks s ends Standing ψ room (if c then Parse.refuse fault pos >>= f else f ())
      (if c then Parse.refuse fault' pos' >>= g else g ()) := by
  split
  · exact (refuse (φ := id) fault pos).bind fun _ => h
  · exact h

/-- A reading from nowhere in particular fails where no token is left. -/
theorem fails_nil (h : Tracks s ends (fun _ => True) φ room p q) (hroom : 0 < room)
    (ds : Array Diagnostic) : ds.size < (p (s.alone [] ds)).2.diagnostics.size := by
  refine (h.tracks [] trivial List.nil_suffix hroom ds ds).resolve_right ?_
  rintro ⟨a, us', r, -, -, -, ⟨t, ts, rfl, -⟩, hsuffix⟩
  exact absurd (List.suffix_nil.mp hsuffix) (List.cons_ne_nil _ _)

theorem current {f : Token → Parse γ} {g : Token → Parse δ} (hP : ∀ us, P us → us ≠ [])
    (h : ∀ t, Tracks s ends (fun us => P us ∧ us.head? = some t) ψ room (f t)
      (g (t.below s.lines))) :
    Tracks s ends P ψ room (Parse.current >>= f) (Parse.current >>= g) := by
  refine ⟨fun r => (h r.current).grows r, fun us hus hin hlen ds ds' => ?_⟩
  obtain ⟨t, ts, rfl⟩ := List.exists_cons_of_ne_nil (hP us hus)
  rw [current_bind, current_bind, current_alone, current_joined]
  exact (h t).tracks _ ⟨hus, rfl⟩ hin hlen ds ds'

/-- Looking at the current token, wherever that may be. -/
theorem currentAny {f : Token → Parse γ} {g : Token → Parse δ}
    (hnil : 0 < room → ∀ ds, ds.size < (f s.final (s.alone [] ds)).2.diagnostics.size)
    (h : ∀ t, Tracks s ends (fun us => us.head? = some t) ψ room (f t) (g (t.below s.lines))) :
    Tracks s ends (fun _ => True) ψ room (Parse.current >>= f) (Parse.current >>= g) := by
  refine ⟨fun r => (h r.current).grows r, fun us _ hin hlen ds ds' => ?_⟩
  rw [current_bind, current_bind]
  cases us with
  | nil => exact Or.inl (hnil hlen ds)
  | cons t ts =>
      rw [current_alone, current_joined]
      exact (h t).tracks _ rfl hin hlen ds ds'

theorem advance {f : Unit → Parse γ} {g : Unit → Parse δ}
    (h : Tracks s ends (fun _ => True) ψ (room - 1) (f ()) (g ())) :
    Tracks s ends Standing ψ room (Parse.advance >>= f) (Parse.advance >>= g) := by
  refine ⟨fun r => ?_, ?_⟩
  · rw [advance_bind, ← diagnostics_advance r]
    exact h.grows r.advance
  · rintro us ⟨t, ts, rfl, -⟩ hin hlen ds ds'
    have hsuffix := List.suffix_cons t ts
    rw [List.length_cons] at hlen
    rw [advance_bind, advance_bind, advance_alone, advance_joined]
    refine (h.tracks ts trivial (hsuffix.trans hin) (by omega) ds ds').imp_right ?_
    rintro ⟨a, us', r, hp, hq, hlands, hstands, hsuffix'⟩
    exact ⟨a, us', r, hp, hq, hlands, hstands, hsuffix'.trans hsuffix⟩

/-- Where the next token can be read, reading may go on from there. -/
theorem advance_going {f : Unit → Parse γ} {g : Unit → Parse δ}
    (h : Tracks s ends Standing ψ (room - 1) (f ()) (g ())) :
    Tracks s ends Going ψ room (Parse.advance >>= f) (Parse.advance >>= g) := by
  refine ⟨fun r => ?_, ?_⟩
  · rw [advance_bind, ← diagnostics_advance r]
    exact h.grows r.advance
  · rintro us ⟨t, u, ts, rfl, hu⟩ hin hlen ds ds'
    have hsuffix := List.suffix_cons t (u :: ts)
    rw [List.length_cons] at hlen
    rw [advance_bind, advance_bind, advance_alone, advance_joined]
    refine (h.tracks (u :: ts) ⟨u, ts, rfl, hu⟩ (hsuffix.trans hin) (by omega) ds ds').imp_right ?_
    rintro ⟨a, us', r, hp, hq, hlands, hstands, hsuffix'⟩
    exact ⟨a, us', r, hp, hq, hlands, hstands, hsuffix'.trans hsuffix⟩

/-- Both readings take the same branch, the first only where the next token can be read. -/
theorem branch {c : Reader → Bool} {x y : Parse γ} {x' y' : Parse δ}
    (hsame : ∀ us, P us → us <:+ s.tokens → ∀ ds ds', c (s.alone us ds) = c (s.joined us ds'))
    (hgoing : ∀ us, P us → ∀ ds, c (s.alone us ds) = true → Going us)
    (hthen : Tracks s ends Going ψ room x x') (helse : Tracks s ends P ψ room y y') :
    Tracks s ends P ψ room (get >>= fun r => if c r then x else y)
      (get >>= fun r => if c r then x' else y') := by
  constructor
  · intro r
    rw [get_bind]
    split
    · exact hthen.grows r
    · exact helse.grows r
  · intro us hus hin hlen ds ds'
    rw [get_bind, get_bind, ← hsame us hus hin ds ds']
    by_cases hc : c (s.alone us ds) = true
    · rw [if_pos hc, if_pos hc]
      exact hthen.tracks us (hgoing us hus ds hc) hin hlen ds ds'
    · rw [if_neg hc, if_neg hc]
      exact helse.tracks us hus hin hlen ds ds'

end Tracks

theorem final_kind : s.final.kind = .eof := by
  have hkind := s.final_eof
  unfold Token.isEof at hkind
  split at hkind
  · assumption
  · cases hkind

theorem final_isSign (sign : Sign) : s.final.isSign sign = false := by
  rw [Token.isSign, s.final_kind]

theorem final_isKeyword (k : Keyword) : s.final.isKeyword k = false := by
  rw [Token.isKeyword, s.final_kind]

theorem final_isName : s.final.isName = false := by
  rw [Token.isName, s.final_kind]

theorem isEof_of_kind {t : Token} (h : t.isEof = true) : t.kind = .eof := by
  unfold Token.isEof at h
  split at h
  · assumption
  · cases h

theorem next_isSign {sign : Sign} (h : sign.begins = false) : s.next.isSign sign = false := by
  refine Bool.eq_false_iff.mpr fun hno => ?_
  have hkind := kind_of_isSign hno
  rcases s.next_begins with heof | ⟨hbegins, -⟩
  · rw [isEof_of_kind heof] at hkind
    cases hkind
  · rw [Token.begins, hkind] at hbegins
    exact absurd hbegins (by simp [h])

theorem next_isKeyword {k : Keyword} (h : k.begins = false) : s.next.isKeyword k = false := by
  refine Bool.eq_false_iff.mpr fun hno => ?_
  have hkind := kind_of_isKeyword hno
  rcases s.next_begins with heof | ⟨hbegins, -⟩
  · rw [isEof_of_kind heof] at hkind
    cases hkind
  · rw [Token.begins, hkind] at hbegins
    exact absurd hbegins (by simp [h])

/-- What follows on another line continues nothing. -/
theorem next_breaks {t : Token} (h : [t] <:+ s.tokens) (ds : Array Diagnostic) :
    s.next.kind = .eof ∨ (s.joined [t] ds).breaksAhead = true := by
  rcases s.next_begins with heof | ⟨-, hlines⟩
  · exact Or.inl (isEof_of_kind heof)
  · have hother := hlines t (h.subset List.mem_cons_self)
    exact Or.inr (bne_iff_ne.mpr (Ne.symm hother))

/-- Where the other text follows a statement ends. -/
theorem next_ends {t : Token} (h : [t] <:+ s.tokens) (ds : Array Diagnostic) :
    ((s.joined [t] ds).closesAhead || (s.joined [t] ds).breaksAhead) = true := by
  rcases s.next_breaks h ds with heof | hbreaks
  · rw [Reader.closesAhead, ahead_joined_last, Token.isEof, heof, Bool.or_true, Bool.true_or]
  · rw [hbreaks, Bool.or_true]

theorem endStatement_last (t : Token) (ds : Array Diagnostic) :
    Parse.endStatement (s.alone [t] ds) = (some (), s.alone [t] ds) := by
  rw [Parse.endStatement, Reader.closesAhead, ahead_alone_last, s.final_isSign, s.final_eof,
    if_neg Bool.false_ne_true, Bool.or_true, Bool.true_or, if_pos rfl]

theorem stops_of_precedence {t : Token} (h : 0 < Parser.precedenceOf t) : t.stops = false := by
  rw [Token.stops, Token.isEof, Token.isIllegal]
  unfold Parser.precedenceOf at h
  cases hkind : t.kind with
  | illegal reason =>
      rw [hkind] at h
      cases h
  | eof =>
      rw [hkind] at h
      cases h
  | _ => rfl

theorem continuesAt_last (precedence : Nat) (t : Token) (ds : Array Diagnostic) :
    Parser.continuesAt precedence (s.alone [t] ds) = false := by
  rw [Parser.continuesAt, ahead_alone_last, Parser.precedenceOf, s.final_kind]
  rfl

/-- What follows on another line continues no expression. -/
theorem continuesAt_next {precedence : Nat} {t : Token} (h : [t] <:+ s.tokens)
    (ds : Array Diagnostic) : Parser.continuesAt precedence (s.joined [t] ds) = false := by
  rcases s.next_breaks h ds with heof | hbreaks
  · rw [Parser.continuesAt, ahead_joined_last, Parser.precedenceOf, heof]
    rfl
  · rw [Parser.continuesAt, hbreaks, ahead_joined_last, s.next_isSign rfl, Bool.not_true,
      Bool.or_false, Bool.and_false]

theorem Standing.ne_nil {us : List Token} (h : Standing us) : us ≠ [] := by
  obtain ⟨t, ts, rfl, -⟩ := h
  exact List.cons_ne_nil t ts

theorem standing_of_head {t : Token} (h : t.stops = false) :
    ∀ us, us.head? = some t → Standing us := by
  intro us hus
  obtain ⟨ts, rfl⟩ := List.head?_eq_some_iff.mp hus
  exact ⟨t, ts, rfl, h⟩

theorem ne_nil_of_head {t : Token} : ∀ us, us.head? = some t → us ≠ [] := by
  rintro us hus rfl
  cases hus

/-- A test of the next token comes out the same if it does at the end. -/
theorem ahead_same {c : Token → Bool} (hbelow : ∀ t, c (t.below s.lines) = c t)
    (hends : c s.final = c s.next) {us : List Token} (hus : us ≠ []) (ds ds' : Array Diagnostic) :
    c (s.alone us ds).ahead = c (s.joined us ds').ahead := by
  obtain ⟨t, ts, rfl⟩ := List.exists_cons_of_ne_nil hus
  cases ts with
  | nil => exact hends
  | cons u ts => exact (hbelow u).symm

theorem going_of_ahead {c : Token → Bool} (hstops : ∀ t, c t = true → t.stops = false)
    (hfinal : c s.final = false) {us : List Token} (hus : us ≠ []) (ds : Array Diagnostic)
    (h : c (s.alone us ds).ahead = true) : Going us := by
  obtain ⟨t, ts, rfl⟩ := List.exists_cons_of_ne_nil hus
  cases ts with
  | nil =>
      rw [ahead_alone_last, hfinal] at h
      cases h
  | cons u ts => exact ⟨t, u, ts, rfl, hstops u h⟩

namespace Tracks

variable {s} {ends : Bool} {P : List Token → Prop} {room : Nat}
variable {φ : α → β} {ψ : γ → δ} {x y : Parse γ} {x' y' : Parse δ}

theorem ifSign {sign : Sign} (hsign : sign.begins = false) (hP : ∀ us, P us → us ≠ [])
    (hthen : Tracks s ends Going ψ room x x') (helse : Tracks s ends P ψ room y y') :
    Tracks s ends P ψ room (get >>= fun r => if r.ahead.isSign sign then x else y)
      (get >>= fun r => if r.ahead.isSign sign then x' else y') := by
  refine branch (fun us hus _ => ?_) (fun us hus => ?_) hthen helse
  · exact s.ahead_same (c := fun t => t.isSign sign) (fun _ => rfl)
      ((s.final_isSign sign).trans (s.next_isSign hsign).symm) (hP us hus)
  · exact s.going_of_ahead (c := fun t => t.isSign sign) (fun _ => Token.stops_of_isSign)
      (s.final_isSign sign) (hP us hus)

theorem ifKeyword {k : Keyword} (hk : k.begins = false)
    (hthen : Tracks s ends Going ψ room x x') (helse : Tracks s ends Standing ψ room y y') :
    Tracks s ends Standing ψ room (get >>= fun r => if r.ahead.isKeyword k then x else y)
      (get >>= fun r => if r.ahead.isKeyword k then x' else y') := by
  refine branch (fun us hus _ => ?_) (fun us hus => ?_) hthen helse
  · exact s.ahead_same (c := fun t => t.isKeyword k) (fun _ => rfl)
      ((s.final_isKeyword k).trans (s.next_isKeyword hk).symm) hus.ne_nil
  · exact s.going_of_ahead (c := fun t => t.isKeyword k) (fun _ => Token.stops_of_isKeyword)
      (s.final_isKeyword k) hus.ne_nil

/-- A second test of the reader may look at it anew. -/
theorem again {c d c' d' : Reader → Bool} {z : Parse γ} {z' : Parse δ}
    (h : Tracks s ends P ψ room
      (get >>= fun r => if c r then x else get >>= fun r => if d r then y else z)
      (get >>= fun r => if c' r then x' else get >>= fun r => if d' r then y' else z')) :
    Tracks s ends P ψ room (get >>= fun r => if c r then x else if d r then y else z)
      (get >>= fun r => if c' r then x' else if d' r then y' else z') := by
  rw [get_again, get_again]
  exact h

theorem expect (sign : Sign) : Tracks s false Standing id room (expect sign) (expect sign) := by
  have hrefused : ∀ r : Reader,
      r.diagnostics.size < ((Parse.refuseAhead sign.text : Parse Unit) r).2.diagnostics.size :=
    refuseAhead_grows sign.text
  constructor
  · intro r
    rw [Parse.expect]
    split
    · exact Nat.le_of_eq (congrArg Array.size (diagnostics_advance r).symm)
    · exact Nat.le_of_lt (hrefused r)
  · rintro us ⟨t, ts, rfl, -⟩ - - ds ds'
    rw [Parse.expect, Parse.expect]
    by_cases hsign : (s.alone (t :: ts) ds).ahead.isSign sign = true
    · obtain ⟨_, u, ts, ⟨⟩, hu⟩ := s.going_of_ahead (c := fun t => t.isSign sign)
        (fun _ => Token.stops_of_isSign) (s.final_isSign sign) (List.cons_ne_nil t ts) ds hsign
      have hsign' : (s.joined (t :: u :: ts) ds').ahead.isSign sign = true := hsign
      rw [if_pos hsign, if_pos hsign', Parse.advance, Parse.advance, advance_alone,
        advance_joined]
      exact Or.inr ⟨(), u :: ts, _, rfl, rfl, Or.inl rfl, ⟨u, ts, rfl, hu⟩, List.suffix_cons t _⟩
    · have hbad := hrefused (s.alone (t :: ts) ds)
      rw [diagnostics_alone] at hbad
      rw [if_neg hsign]
      exact Or.inl hbad

/-- A name that follows a token, and what is read behind it, given what stood before. -/
theorem expectName_bind {f : Ident → Parse γ} {g : Ident → Parse δ}
    (hP : ∀ us, P us → us ≠ [])
    (h : ∀ i, Tracks s ends (fun us => Standing us ∧ ∃ t, P (t :: us) ∧ t :: us <:+ s.tokens)
      ψ room (f i) (g (i.recast (.below s.lines)))) :
    Tracks s ends P ψ room (expectName >>= f) (expectName >>= g) := by
  constructor
  · intro r
    by_cases hname : r.ahead.isName = true
    · have hread : expectName r = (some ⟨r.ahead.lexeme, r.ahead.position⟩, r.advance) := by
        rw [expectName, if_pos hname]
      rw [bind_some hread, ← diagnostics_advance r]
      exact (h _).grows _
    · have hread : expectName r = Parse.refuseAhead (TokenKind.name false).label r := by
        rw [expectName, if_neg hname]
      have hbad := refuseAhead_grows (α := Ident) (TokenKind.name false).label r
      rw [bind_none hread]
      exact Nat.le_of_lt hbad
  · intro us hus hin hlen ds ds'
    obtain ⟨t, ts, rfl⟩ := List.exists_cons_of_ne_nil (hP us hus)
    by_cases hname : (s.alone (t :: ts) ds).ahead.isName = true
    · obtain ⟨_, u, ts, ⟨⟩, hu⟩ := s.going_of_ahead (c := Token.isName)
        (fun _ => Token.stops_of_isName) s.final_isName (List.cons_ne_nil t ts) ds hname
      have hread : expectName (s.alone (t :: u :: ts) ds) =
          (some ⟨u.lexeme, u.position⟩, s.alone (u :: ts) ds) := by
        rw [expectName, if_pos hname, advance_alone, ahead_alone]
      have hread' : expectName (s.joined (t :: u :: ts) ds') =
          (some ⟨u.lexeme, u.position.below s.lines⟩, s.joined (u :: ts) ds') := by
        have hname' : (s.joined (t :: u :: ts) ds').ahead.isName = true := hname
        rw [expectName, if_pos hname', advance_joined, ahead_joined]
        rfl
      have hsuffix := List.suffix_cons t (u :: ts)
      rw [bind_some hread, bind_some hread']
      refine ((h ⟨u.lexeme, u.position⟩).tracks (u :: ts) ⟨⟨u, ts, rfl, hu⟩, t, hus, hin⟩
        (hsuffix.trans hin) (by simp only [List.length_cons] at hlen ⊢; omega) ds ds').imp_right ?_
      rintro ⟨a, us', r, hp, hq, hlands, hstands, hsuffix'⟩
      exact ⟨a, us', r, hp, hq, hlands, hstands, hsuffix'.trans hsuffix⟩
    · left
      have hread : expectName (s.alone (t :: ts) ds) =
          Parse.refuseAhead (TokenKind.name false).label (s.alone (t :: ts) ds) := by
        rw [expectName, if_neg hname]
      have hbad := refuseAhead_grows (α := Ident) (TokenKind.name false).label
        (s.alone (t :: ts) ds)
      rw [diagnostics_alone] at hbad
      rw [bind_none hread]
      exact hbad

theorem endStatement :
    Tracks s true Standing id room Parse.endStatement Parse.endStatement := by
  constructor
  · intro r
    unfold Parse.endStatement
    split
    · exact Nat.le_of_eq (congrArg Array.size (diagnostics_advance r).symm)
    · split
      · exact Nat.le_refl _
      · split
        · exact Nat.le_of_lt (refuseToken_grows _ r)
        · exact Nat.le_of_lt (refuse_grows _ _ r)
  · rintro us ⟨t, ts, rfl, ht⟩ hin - ds ds'
    cases ts with
    | nil =>
        have hend : Parse.endStatement (s.alone [t] ds) = (some (), s.alone [t] ds) :=
          s.endStatement_last t ds
        right
        by_cases hsemicolon : s.next.isSign .semicolon = true
        · refine ⟨(), [t], _, hend, ?_, Or.inr ⟨rfl, rfl, hsemicolon, rfl⟩, ⟨t, [], rfl, ht⟩,
            List.suffix_refl _⟩
          rw [Parse.endStatement, ahead_joined_last, if_pos hsemicolon, Parse.advance,
            advance_joined]
          rfl
        · refine ⟨(), [t], _, hend, ?_, Or.inl rfl, ⟨t, [], rfl, ht⟩, List.suffix_refl _⟩
          rw [Parse.endStatement, ahead_joined_last, if_neg hsemicolon,
            if_pos (s.next_ends hin ds')]
    | cons u ts =>
        have hcloses : (s.joined (t :: u :: ts) ds').closesAhead =
            (s.alone (t :: u :: ts) ds).closesAhead := rfl
        have hbreaks : (s.joined (t :: u :: ts) ds').breaksAhead =
            (s.alone (t :: u :: ts) ds).breaksAhead := s.breaksAhead_joined t u ts ds' ▸ rfl
        rw [Parse.endStatement, Parse.endStatement, hcloses, hbreaks, ahead_alone, ahead_joined,
          Token.isSign_below]
        by_cases hsemicolon : u.isSign .semicolon = true
        · rw [if_pos hsemicolon, if_pos hsemicolon, Parse.advance, Parse.advance, advance_alone,
            advance_joined]
          exact Or.inr ⟨(), u :: ts, _, rfl, rfl, Or.inl rfl,
            ⟨u, ts, rfl, Token.stops_of_isSign hsemicolon⟩, List.suffix_cons t _⟩
        rw [if_neg hsemicolon, if_neg hsemicolon]
        by_cases hover : ((s.alone (t :: u :: ts) ds).closesAhead ||
            (s.alone (t :: u :: ts) ds).breaksAhead) = true
        · rw [if_pos hover, if_pos hover]
          exact Or.inr ⟨(), t :: u :: ts, _, rfl, rfl, Or.inl rfl, ⟨t, _, rfl, ht⟩,
            List.suffix_refl _⟩
        · left
          rw [if_neg hover]
          split
          · exact diagnostics_alone s _ ds ▸ refuseToken_grows _ _
          · exact diagnostics_alone s _ ds ▸ refuse_grows _ _ _

/-- A reading that goes on with a name where one follows among the tokens, and
elsewhere fails at the last of them. -/
theorem ifName (hP : ∀ us, P us → us ≠ [])
    (hlast : ∀ t ds, P [t] → 1 < room → ds.size < (y (s.alone [t] ds)).2.diagnostics.size)
    (hthen : Tracks s ends P ψ room x x') (helse : Tracks s ends P ψ room y y') :
    Tracks s ends P ψ room (get >>= fun r => if r.ahead.isName then x else y)
      (get >>= fun r => if r.ahead.isName then x' else y') := by
  constructor
  · intro r
    rw [get_bind]
    split
    · exact hthen.grows r
    · exact helse.grows r
  · intro us hus hin hlen ds ds'
    obtain ⟨t, ts, rfl⟩ := List.exists_cons_of_ne_nil (hP us hus)
    rw [get_bind, get_bind]
    cases ts with
    | nil =>
        rw [ahead_alone_last, s.final_isName, if_neg Bool.false_ne_true]
        exact Or.inl (hlast t ds hus hlen)
    | cons u ts =>
        rw [ahead_alone, ahead_joined, Token.isName_below]
        split
        · exact hthen.tracks _ hus hin hlen ds ds'
        · exact helse.tracks _ hus hin hlen ds ds'

/-- A reading that goes on only where a statement does not end. -/
theorem unlessEnds {a : γ} {b : δ} (hab : ψ a = b) (h : Tracks s true Standing ψ room x x') :
    Tracks s true Standing ψ room
      (get >>= fun r => if r.ahead.isSign .semicolon then Parse.advance >>= fun _ => Pure.pure a
        else if (r.closesAhead || r.breaksAhead) then Pure.pure a else x)
      (get >>= fun r => if r.ahead.isSign .semicolon then Parse.advance >>= fun _ => Pure.pure b
        else if (r.closesAhead || r.breaksAhead) then Pure.pure b else x') := by
  constructor
  · intro r
    rw [get_bind]
    split
    · exact Nat.le_of_eq (congrArg Array.size (diagnostics_advance r).symm)
    · split
      · exact Nat.le_refl _
      · exact h.grows r
  · rintro us ⟨t, ts, rfl, ht⟩ hin hlen ds ds'
    rw [get_bind, get_bind]
    cases ts with
    | nil =>
        right
        refine ⟨a, [t], if s.next.isSign .semicolon then on (s.next :: s.later) ds'
          else s.joined [t] ds', ?_, ?_, ?_, ⟨t, [], rfl, ht⟩, List.suffix_refl _⟩
        · rw [Reader.closesAhead, ahead_alone_last, s.final_isSign, s.final_eof,
            if_neg Bool.false_ne_true, Bool.or_true, Bool.true_or, if_pos rfl]
          rfl
        · rw [ahead_joined_last, if_pos (s.next_ends hin ds'), hab]
          split
          · rw [advance_bind, advance_joined]
            rfl
          · rfl
        · split
          · exact Or.inr ⟨rfl, rfl, ‹_›, rfl⟩
          · exact Or.inl rfl
    | cons u ts =>
        have hcloses : (s.joined (t :: u :: ts) ds').closesAhead =
            (s.alone (t :: u :: ts) ds).closesAhead := rfl
        have hbreaks : (s.joined (t :: u :: ts) ds').breaksAhead =
            (s.alone (t :: u :: ts) ds).breaksAhead := s.breaksAhead_joined t u ts ds' ▸ rfl
        rw [hcloses, hbreaks, ahead_alone, ahead_joined, Token.isSign_below]
        by_cases hsemicolon : u.isSign .semicolon = true
        · rw [if_pos hsemicolon, if_pos hsemicolon, advance_bind, advance_bind, advance_alone,
            advance_joined, ← hab]
          exact Or.inr ⟨a, u :: ts, _, rfl, rfl, Or.inl rfl,
            ⟨u, ts, rfl, Token.stops_of_isSign hsemicolon⟩, List.suffix_cons t _⟩
        rw [if_neg hsemicolon, if_neg hsemicolon]
        split
        · exact Or.inr ⟨a, t :: u :: ts, _, rfl, by rw [← hab]; rfl, Or.inl rfl, ⟨t, _, rfl, ht⟩,
            List.suffix_refl _⟩
        · exact h.tracks _ ⟨t, _, rfl, ht⟩ hin hlen ds ds'

/-- An operator, call, subscript or member goes on alike. -/
theorem ifContinues (precedence : Nat) (hthen : Tracks s ends Going ψ room x x')
    (helse : Tracks s ends Standing ψ room y y') :
    Tracks s ends Standing ψ room
      (get >>= fun r => if Parser.continuesAt precedence r then x else y)
      (get >>= fun r => if Parser.continuesAt precedence r then x' else y') := by
  refine branch ?_ ?_ hthen helse
  · rintro us ⟨t, ts, rfl, -⟩ hin ds ds'
    cases ts with
    | nil => rw [s.continuesAt_last, s.continuesAt_next hin]
    | cons u ts => rw [Parser.continuesAt, Parser.continuesAt, breaksAhead_joined]; rfl
  · rintro us ⟨t, ts, rfl, -⟩ ds hc
    cases ts with
    | nil =>
        rw [s.continuesAt_last] at hc
        cases hc
    | cons u ts =>
        refine ⟨t, u, ts, rfl, ?_⟩
        rw [Parser.continuesAt, Bool.and_eq_true, decide_eq_true_eq] at hc
        exact stops_of_precedence (Nat.lt_of_le_of_lt (Nat.zero_le _) hc.1)

/-- The arguments of a method stand on its line. -/
theorem ifCall (hthen : Tracks s ends Going ψ room x x')
    (helse : Tracks s ends Standing ψ room y y') :
    Tracks s ends Standing ψ room
      (get >>= fun r => if r.ahead.isSign .leftParen && !r.breaksAhead then x else y)
      (get >>= fun r => if r.ahead.isSign .leftParen && !r.breaksAhead then x' else y') := by
  refine branch ?_ ?_ hthen helse
  · rintro us ⟨t, ts, rfl, -⟩ hin ds ds'
    cases ts with
    | nil =>
        rw [ahead_alone_last, ahead_joined_last, s.final_isSign, Bool.false_and]
        rcases s.next_breaks hin ds' with heof | hbreaks
        · rw [Token.isSign, heof, Bool.false_and]
        · rw [hbreaks, Bool.not_true, Bool.and_false]
    | cons u ts =>
        rw [breaksAhead_joined]
        rfl
  · rintro us hus ds hc
    rw [Bool.and_eq_true] at hc
    exact s.going_of_ahead (c := fun t => t.isSign .leftParen) (fun _ => Token.stops_of_isSign)
      (s.final_isSign _) hus.ne_nil ds hc.1

end Tracks

end Seam

end Scriptlet
