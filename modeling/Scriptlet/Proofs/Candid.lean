/-
Readings that are candid: one that yields nothing has recorded a fault, and what
one yields without a fault is spelt by the tokens that it has read.  None goes
back or takes a fault back, and where there are calls enough for the tokens that
are left, more calls change nothing.
-/
import Scriptlet.Proofs.SeamSteps
import Scriptlet.Proofs.Grammar

namespace Scriptlet

namespace Reader

/-- The tokens behind the current one. -/
def coming (r : Reader) : List Token := r.ahead :: r.rest

/-- Whether the tokens end with the end of input. -/
def Ends (r : Reader) : Prop := ∃ t, r.coming.getLast? = some t ∧ t.isEof = true

/-- How often a reader can move on, 0 where it is at the end of input for good. -/
def room (r : Reader) : Nat := if r.current.isEof && r.rest.isEmpty then 0 else r.rest.length + 1

theorem room_le (r : Reader) : r.room ≤ r.rest.length + 1 := by
  unfold room
  split <;> omega

theorem coming_ne_nil (r : Reader) : r.coming ≠ [] := List.cons_ne_nil _ _

theorem Ends.of_suffix {r r' : Reader} (h : r.Ends) (hsuffix : r'.coming <:+ r.coming) :
    r'.Ends := by
  obtain ⟨t, hlast, heof⟩ := h
  refine ⟨t, ?_, heof⟩
  rw [← hlast, Seam.getLast?_of_suffix hsuffix r'.coming_ne_nil]

/-- Where nothing is left behind the next token, that is the end of input. -/
theorem Ends.ahead_eof {r : Reader} (h : r.Ends) (hrest : r.rest = []) : r.ahead.isEof = true := by
  obtain ⟨t, hlast, heof⟩ := h
  rw [coming, hrest, List.getLast?_singleton] at hlast
  rw [Option.some.inj hlast]
  exact heof

/-- Where the next token is not the end of input, something is left behind it. -/
theorem Ends.rest_ne_nil {r : Reader} (h : r.Ends) (hahead : r.ahead.isEof = false) :
    r.rest ≠ [] := by
  intro hrest
  rw [h.ahead_eof hrest] at hahead
  exact Bool.noConfusion hahead

theorem coming_advance (r : Reader) : r.advance.coming <:+ r.coming := by
  unfold advance coming
  split
  · exact List.suffix_refl _
  · rename_i t ts hrest
    rw [hrest]
    exact List.suffix_cons _ _

theorem current_advance (r : Reader) : r.advance.current = r.ahead := by
  unfold advance
  split <;> rfl

/-- Whether `m` is one token behind `r`; the end of input is never behind. -/
structure Moves (r m : Reader) : Prop where
  current : m.current = r.ahead
  coming : r.ahead.isEof = false → r.coming = m.current :: m.coming

theorem moves_advance {r : Reader} (h : r.Ends) : r.Moves r.advance := by
  refine ⟨r.current_advance, fun hahead => ?_⟩
  obtain ⟨t, ts, hrest⟩ := List.exists_cons_of_ne_nil (h.rest_ne_nil hahead)
  simp [advance, coming, hrest]

theorem room_advance {r : Reader} (h : r.Ends) : r.advance.room ≤ r.room - 1 := by
  cases hrest : r.rest with
  | nil =>
      have heof := h.ahead_eof hrest
      simp [advance, room, hrest, heof]
  | cons t ts =>
      have hroom : r.room = ts.length + 2 := by simp [room, hrest]
      have hle := room_le r.advance
      have hlength : r.advance.rest.length = ts.length := by simp [advance, hrest]
      omega

theorem room_pos {r : Reader} (h : r.current.isEof = false) : 0 < r.room := by
  simp [room, h]

theorem Ends.one_lt_room {r : Reader} (h : r.Ends) (hahead : r.ahead.isEof = false) :
    1 < r.room := by
  obtain ⟨t, ts, hrest⟩ := List.exists_cons_of_ne_nil (h.rest_ne_nil hahead)
  simp [room, hrest]

/-- Moving on to the end of a statement goes as far as moving on some times. -/
theorem skipToBoundary_induct {P : Reader → Prop} {r : Reader} (hr : P r)
    (hadvance : ∀ r, P r → P r.advance) : P r.skipToBoundary := by
  fun_induction skipToBoundary r with
  | case1 r _ => exact hr
  | case2 r _ _ => exact hr
  | case3 r _ t ts hrest _ ih =>
      have hnext := hadvance r hr
      unfold advance at hnext
      rw [hrest] at hnext
      exact ih hnext

/-- What a reading from `r` may come to: it has not gone back, has taken back no
fault, and where it yields nothing it has recorded one. -/
structure Leads {α : Type} (r : Reader) (x : Option α × Reader) : Prop where
  behind : x.2.coming <:+ r.coming
  room : x.2.room ≤ r.room
  grows : r.diagnostics.size ≤ x.2.diagnostics.size
  owns : x.1 = none → r.diagnostics.size < x.2.diagnostics.size

namespace Leads

variable {α β : Type} {r r' : Reader}

theorem here (r : Reader) (a : α) : r.Leads (some a, r) :=
  ⟨List.suffix_refl _, Nat.le_refl _, Nat.le_refl _, nofun⟩

theorem faulty (fault : SyntaxFault) (p : Position) (r : Reader) :
    r.Leads ((none : Option α), r.record fault p) := by
  have hgrown := Parse.refuse_grows (α := α) fault p r
  exact ⟨List.suffix_refl _, Nat.le_refl _, Nat.le_of_lt hgrown, fun _ => hgrown⟩

/-- One reading behind another. -/
theorem trans {a : α} {x : Option β × Reader} (h : r.Leads (some a, r')) (h' : r'.Leads x) :
    r.Leads x where
  behind := h'.behind.trans h.behind
  room := Nat.le_trans h'.room h.room
  grows := Nat.le_trans h.grows h'.grows
  owns hnone := Nat.lt_of_le_of_lt h.grows (h'.owns hnone)

theorem failed (h : r.Leads ((none : Option α), r')) : r.Leads ((none : Option β), r') :=
  ⟨h.behind, h.room, h.grows, fun _ => h.owns rfl⟩

theorem advance (h : r.Ends) (a : α) : r.Leads (some a, r.advance) := by
  have hroom := room_advance h
  refine ⟨r.coming_advance, ?_, ?_, nofun⟩
  · change r.advance.room ≤ r.room
    omega
  · exact Nat.le_of_eq (congrArg Array.size r.diagnostics_advance).symm

theorem skipToBoundary (h : r.Ends) (a : α) : r.Leads (some a, r.skipToBoundary) := by
  refine skipToBoundary_induct (P := fun r' => r.Leads (some a, r')) (here r a) ?_
  intro r' hr'
  exact hr'.trans (advance (h.of_suffix hr'.behind) a)

end Leads

end Reader

namespace Parse

open Reader

variable {α β γ : Type} {n : Nat}

/-- Whether two readings come to the same, and candidly, wherever there is room
for fewer than `n` tokens, and `S` holds of what they read without a fault. -/
def Candid (n : Nat) (S : Reader → α → Reader → Prop) (p q : Parse α) : Prop :=
  ∀ r : Reader, r.Ends → r.room < n → q r = p r ∧ r.Leads (p r) ∧
    ∀ a r', p r = (some a, r') → r'.diagnostics.size ≤ r.diagnostics.size → S r a r'

def Behind (S : α → List Token → Prop) (r : Reader) (a : α) (r' : Reader) : Prop :=
  ∃ ts, r.coming = ts ++ r'.coming ∧ S a ts

def From (S : α → List Token → Prop) (r : Reader) (a : α) (r' : Reader) : Prop :=
  r.current.isEof = false ∧ ∃ ts, r.coming = ts ++ r'.coming ∧ S a (r.current :: ts)

/-- What has been read from the current token on, up to a closing brace, which is
then the current token. -/
def Inside (S : α → List Token → Prop) (r : Reader) (a : α) (r' : Reader) : Prop :=
  r.current.isEof = false ∧ r'.current.isSign .rightBrace = true ∧
    ∃ ts, r.current :: r.coming = ts ++ r'.current :: r'.coming ∧ S a ts

namespace Candid

/-- Where nothing has been read there is nothing to tell. -/
theorem unread {m r' : Reader} {a : α} (h : ((none : Option α), m) = (some a, r')) : False :=
  Option.some_ne_none a (Prod.mk.inj h).1.symm

variable {p q : Parse α} {f g : α → Parse β} {S S' : Reader → α → Reader → Prop}
  {T : Reader → β → Reader → Prop}

/-- Where there is no room at all, nothing is asked of readings. -/
theorem of_zero (hn : n = 0) : Candid n S p q := fun _ _ hroom => by omega

theorem of_leads (h : ∀ r : Reader, r.Ends → r.Leads (p r))
    (htells : ∀ r a r', r.Ends → p r = (some a, r') → S r a r') : Candid n S p p :=
  fun r hr _ => ⟨rfl, h r hr, fun a r' hread _ => htells r a r' hr hread⟩

theorem of_none (h : ∀ r : Reader, r.Ends → r.Leads (p r)) (hnone : ∀ r, (p r).1 = none) :
    Candid n S p p :=
  of_leads h fun r a r' _ hread => by
    have hfound := hnone r
    rw [hread] at hfound
    exact absurd hfound (Option.some_ne_none a)

theorem imp (h : Candid n S p q) (himp : ∀ r a r', S r a r' → S' r a r') : Candid n S' p q := by
  intro r hr hroom
  obtain ⟨hsame, hleads, htells⟩ := h r hr hroom
  exact ⟨hsame, hleads, fun a r' hread hquiet => himp r a r' (htells a r' hread hquiet)⟩

/-- What is read behind a value is told together with what that was read from. -/
theorem bind (h : Candid n S p q)
    (hf : ∀ a, Candid n (fun m b r' => ∀ r, S r a m → T r b r') (f a) (g a)) :
    Candid n T (p >>= f) (q >>= g) := by
  intro r hr hroom
  obtain ⟨hsame, hleads, htells⟩ := h r hr hroom
  rcases hp : p r with ⟨found, m⟩
  rw [hp] at hsame hleads
  cases found with
  | none =>
      rw [bind_none hp, bind_none hsame]
      exact ⟨rfl, hleads.failed, fun _ _ hread _ => (unread hread).elim⟩
  | some a =>
      rw [bind_some hp, bind_some hsame]
      obtain ⟨hsame', hleads', htells'⟩ := hf a m (hr.of_suffix hleads.behind)
        (Nat.lt_of_le_of_lt hleads.room hroom)
      refine ⟨hsame', hleads.trans hleads', fun b r' hread hquiet => ?_⟩
      have hgrown : m.diagnostics.size ≤ r'.diagnostics.size := by
        have hgrows := hleads'.grows
        rwa [hread] at hgrows
      have hbefore : r.diagnostics.size ≤ m.diagnostics.size := hleads.grows
      refine htells' b r' hread (Nat.le_trans hquiet hbefore) r ?_
      exact htells a m hp (Nat.le_trans hgrown hquiet)

theorem pure {a : α} (h : ∀ r, S r a r) : Candid n S (Pure.pure a : Parse α) (Pure.pure a) :=
  of_leads (fun r _ => .here r a) fun r b r' _ hread => by
    rw [pure_apply] at hread
    obtain ⟨hfound, rfl⟩ := Prod.mk.inj hread
    rw [← Option.some.inj hfound]
    exact h r

theorem refuse (fault : SyntaxFault) (p : Position) :
    Candid n S (Parse.refuse fault p : Parse α) (Parse.refuse fault p) :=
  of_none (fun r _ => .faulty fault p r) fun _ => rfl

theorem refuseAhead (label : String) :
    Candid n S (Parse.refuseAhead label : Parse α) (Parse.refuseAhead label) :=
  of_none (fun r _ => .faulty _ _ r) fun _ => rfl

theorem leads_refuseToken (t : Token) (r : Reader) :
    r.Leads ((Parse.refuseToken t : Parse α) r) := by
  unfold Parse.refuseToken
  cases t.kind <;> exact .faulty _ _ r

theorem refuseToken (t : Token) :
    Candid n S (Parse.refuseToken t : Parse α) (Parse.refuseToken t) :=
  of_none (fun r _ => leads_refuseToken t r) (refuseToken_none t)

/-- A refusal, whatever was to follow. -/
theorem refuse_bind (fault : SyntaxFault) (p : Position) (f : α → Parse β) :
    Candid n T ((Parse.refuse fault p : Parse α) >>= f) (Parse.refuse fault p >>= g) :=
  fun r _ _ => ⟨rfl, .faulty fault p r, fun _ _ hread _ => (unread hread).elim⟩

theorem ite {c : Prop} [Decidable c] {p' q' : Parse α} (h : c → Candid n S p q)
    (h' : ¬c → Candid n S p' q') : Candid n S (if c then p else p') (if c then q else q') := by
  by_cases hc : c
  · rw [if_pos hc, if_pos hc]
    exact h hc
  · rw [if_neg hc, if_neg hc]
    exact h' hc

/-- A look at the reader; at a token other than the end of input there is room to
move on. -/
theorem look {f g : Reader → Parse β}
    (h : ∀ r, (r.current.isEof = false → 1 < n) →
      Candid n (fun m b r' => m = r → T m b r') (f r) (g r)) :
    Candid n T (get >>= f) (get >>= g) := by
  intro r hr hroom
  have hbig : r.current.isEof = false → 1 < n := fun heof => by
    have hpos := room_pos heof
    omega
  obtain ⟨hsame, hleads, htells⟩ := h r hbig r hr hroom
  exact ⟨hsame, hleads, fun b r' hread hquiet => htells b r' hread hquiet rfl⟩

/-- A branch that is taken only before a token other than the end of input, and
so has room to move on. -/
theorem fork {c : Reader → Bool} {x x' : Parse β} {y y' : Reader → Parse β}
    (hc : ∀ r, c r = true → r.ahead.isEof = false)
    (h : 2 < n → Candid n (fun r b r' => c r = true → T r b r') x x')
    (h' : ∀ r, Candid n (fun m b r' => m = r → T m b r') (y r) (y' r)) :
    Candid n T (get >>= fun r => if c r then x else y r)
      (get >>= fun r => if c r then x' else y' r) := by
  intro r hr hroom
  rw [get_bind, get_bind]
  by_cases hcr : c r = true
  · have hbig := hr.one_lt_room (hc r hcr)
    rw [if_pos hcr, if_pos hcr]
    obtain ⟨hsame, hleads, htells⟩ := h (by omega) r hr hroom
    exact ⟨hsame, hleads, fun b r' hread hquiet => htells b r' hread hquiet hcr⟩
  · rw [if_neg hcr, if_neg hcr]
    obtain ⟨hsame, hleads, htells⟩ := h' r r hr hroom
    exact ⟨hsame, hleads, fun b r' hread hquiet => htells b r' hread hquiet rfl⟩

/-- A branch whose other side does not depend on where the reader is. -/
theorem branch {c : Reader → Bool} {x x' : Parse β} {y y' : Reader → Parse β}
    (hc : ∀ r, c r = true → r.ahead.isEof = false)
    (h : 2 < n → Candid n (fun r b r' => c r = true → T r b r') x x')
    (h' : ∀ r, Candid n T (y r) (y' r)) :
    Candid n T (get >>= fun r => if c r then x else y r)
      (get >>= fun r => if c r then x' else y' r) :=
  fork hc h fun r => (h' r).imp fun _ _ _ htells _ => htells

/-- A look at the current token. -/
theorem current {f g : Token → Parse β}
    (h : ∀ t, (t.isEof = false → 1 < n) →
      Candid n (fun r b r' => r.current = t → T r b r') (f t) (g t)) :
    Candid n T (Parse.current >>= f) (Parse.current >>= g) := by
  refine look (f := fun r => f r.current) (g := fun r => g r.current) fun r hbig => ?_
  refine (h r.current hbig).imp fun m b r' htells hm => htells ?_
  rw [hm]

theorem advance {f g : Unit → Parse β} (hn : 1 < n)
    (h : Candid (n - 1) (fun m b r' => ∀ r : Reader, r.Moves m → T r b r') (f ()) (g ())) :
    Candid n T (Parse.advance >>= f) (Parse.advance >>= g) := by
  intro r hr hroom
  have hless := room_advance hr
  have hmoved := Leads.advance hr ()
  obtain ⟨hsame, hleads, htells⟩ := h r.advance (hr.of_suffix r.coming_advance) (by omega)
  rw [advance_bind, advance_bind]
  refine ⟨hsame, hmoved.trans hleads, fun b r' hread hquiet => ?_⟩
  have hbefore : r.diagnostics.size ≤ r.advance.diagnostics.size := hmoved.grows
  exact htells b r' hread (Nat.le_trans hquiet hbefore) r (moves_advance hr)

theorem isEof_of_isSign {t : Token} {s : Sign} (h : t.isSign s = true) : t.isEof = false := by
  rw [Token.isEof, kind_of_isSign h]

theorem isKeyword_self {t : Token} {k : Keyword} (h : t.kind = .keyword k) :
    t.isKeyword k = true := by
  rw [isKeyword_of_kind h, beq_self_eq_true]

theorem isEof_of_isKeyword {t : Token} {k : Keyword} (h : t.isKeyword k = true) :
    t.isEof = false := by
  rw [Token.isEof, kind_of_isKeyword h]

theorem isEof_of_isName {t : Token} (h : t.isName = true) : t.isEof = false := by
  unfold Token.isName at h
  split at h
  · rename_i hkind
    rw [Token.isEof, hkind]
  · exact Bool.noConfusion h

/-- Behind a sign that is expected there is less room. -/
theorem expect_bind (s : Sign) {f g : Unit → Parse β}
    (h : 2 < n → Candid (n - 1) (fun m b r' => ∀ r : Reader, m.current.isSign s = true →
      r.coming = m.current :: m.coming → T r b r') (f ()) (g ())) :
    Candid n T (Parse.expect s >>= f) (Parse.expect s >>= g) := by
  have hsplit : ∀ f : Unit → Parse β, (Parse.expect s >>= f) = (get >>= fun r =>
      if r.ahead.isSign s then Parse.advance >>= f else Parse.refuseAhead s.text) := by
    intro f
    funext r
    rw [get_bind, bind_apply, Parse.expect]
    by_cases hsign : r.ahead.isSign s = true
    · rw [if_pos hsign, if_pos hsign]
      rfl
    · rw [if_neg hsign, if_neg hsign]
      rfl
  rw [hsplit, hsplit]
  refine branch (fun r => isEof_of_isSign) (fun hn => advance (by omega) ?_) fun _ => refuseAhead _
  refine (h (by omega)).imp fun m b r' htells r hmoves hsign => htells r ?_ ?_
  · rw [hmoves.current]
    exact hsign
  · exact hmoves.coming (isEof_of_isSign hsign)

theorem expect (s : Sign) :
    Candid n (fun r _ m => m.current.isSign s = true ∧ r.coming = m.current :: m.coming)
      (Parse.expect s) (Parse.expect s) := by
  refine of_leads (fun r hr => ?_) fun r a r' hr hread => ?_
  · unfold Parse.expect
    split
    · exact .advance hr ()
    · exact .faulty _ _ r
  · unfold Parse.expect at hread
    split at hread
    case isTrue hsign =>
        have hmoves := moves_advance hr
        obtain ⟨-, rfl⟩ := Prod.mk.inj hread
        exact ⟨by rw [hmoves.current]; exact hsign, hmoves.coming (isEof_of_isSign hsign)⟩
    case isFalse => exact (unread hread).elim

/-- Behind a name that is expected there is less room. -/
theorem expectName_bind {f g : Ident → Parse β}
    (h : 2 < n → ∀ i, Candid (n - 1) (fun m b r' => ∀ r : Reader, m.current.isName = true →
      i = m.current.ident → r.coming = m.current :: m.coming → T r b r') (f i) (g i)) :
    Candid n T (Parse.expectName >>= f) (Parse.expectName >>= g) := by
  have hsplit : ∀ f : Ident → Parse β, (Parse.expectName >>= f) = (get >>= fun r =>
      if r.ahead.isName then Parse.advance >>= fun _ => Parse.current >>= fun t => f t.ident
      else Parse.refuseAhead (TokenKind.name false).label) := by
    intro f
    funext r
    rw [get_bind, bind_apply, Parse.expectName]
    by_cases hname : r.ahead.isName = true
    · rw [if_pos hname, if_pos hname, advance_bind, current_bind, current_advance]
      rfl
    · rw [if_neg hname, if_neg hname]
      rfl
  rw [hsplit, hsplit]
  refine branch (fun r => isEof_of_isName) (fun hn => advance (by omega) ?_) fun _ => refuseAhead _
  refine current fun t _ => (h (by omega) t.ident).imp ?_
  intro m b r' htells ht r hmoves hname
  refine htells r ?_ (by rw [ht]) ?_
  · rw [hmoves.current]
    exact hname
  · exact hmoves.coming (isEof_of_isName hname)

theorem endStatement :
    Candid n (fun r _ r' => Behind (fun _ => EndSpelt) r () r') Parse.endStatement
      Parse.endStatement := by
  refine of_leads (fun r hr => ?_) fun r a r' hr hread => ?_
  · unfold Parse.endStatement
    split
    · exact .advance hr ()
    · split
      · exact .here r ()
      · split
        · exact leads_refuseToken _ r
        · exact .faulty _ _ r
  · unfold Parse.endStatement at hread
    split at hread
    case isTrue hsign =>
        have hmoves := moves_advance hr
        obtain ⟨-, rfl⟩ := Prod.mk.inj hread
        refine ⟨[r.advance.current], hmoves.coming (isEof_of_isSign hsign), .semicolon ?_⟩
        rw [hmoves.current]
        exact hsign
    case isFalse =>
      split at hread
      · obtain ⟨-, rfl⟩ := Prod.mk.inj hread
        exact ⟨[], rfl, .nothing⟩
      · split at hread
        · have hnone := refuseToken_none (α := Unit) r.ahead r
          rw [hread] at hnone
          exact absurd hnone (Option.some_ne_none a)
        · exact (unread hread).elim

theorem recover : Candid n (fun _ _ _ => True) Parse.recover Parse.recover :=
  of_leads (fun _ hr => .skipToBoundary hr ()) fun _ _ _ _ _ => trivial

/-- What is done behind a reading starts where that left off.  Behind a faulty one
nothing is told, for its faults stay recorded. -/
theorem attempt {bad bad' : Parse β} {good good' : Option α → Parse β}
    {U : Reader → β → Reader → Prop} (h : Candid n S p q) (hbad : Candid n U bad bad')
    (hgood : ∀ a, Candid n (fun m b r' => ∀ r, S r a m → T r b r') (good (some a))
      (good' (some a))) :
    Candid n T (Parse.attempt p bad good) (Parse.attempt q bad' good') := by
  intro r hr hroom
  obtain ⟨hsame, hleads, htells⟩ := h r hr hroom
  have hlands : r.Leads (some (), (p r).2) :=
    ⟨hleads.behind, hleads.room, hleads.grows, nofun⟩
  have hends := hr.of_suffix hleads.behind
  have hless := Nat.lt_of_le_of_lt hleads.room hroom
  by_cases hsize : r.diagnostics.size < (p r).2.diagnostics.size
  · rw [attempt_bad bad good hsize, attempt_bad bad' good' (by rw [hsame]; exact hsize), hsame]
    obtain ⟨hsame', hleads', -⟩ := hbad (p r).2 hends hless
    refine ⟨hsame', hlands.trans hleads', fun b r' hread hquiet => ?_⟩
    have hgrows := hleads'.grows
    rw [hread] at hgrows
    exact absurd (Nat.lt_of_lt_of_le hsize (Nat.le_trans hgrows hquiet)) (Nat.lt_irrefl _)
  · rw [attempt_good bad good hsize, attempt_good bad' good' (by rw [hsame]; exact hsize), hsame]
    obtain ⟨a, ha⟩ := Option.ne_none_iff_exists'.mp fun hnone => hsize (hleads.owns hnone)
    obtain ⟨hsame', hleads', htells'⟩ := hgood a (p r).2 hends hless
    rw [ha]
    refine ⟨hsame', hlands.trans hleads', fun b r' hread hquiet => ?_⟩
    refine htells' b r' hread (Nat.le_trans hquiet hleads.grows) r ?_
    exact htells a (p r).2 (Prod.ext ha rfl) (Nat.not_lt.mp hsize)

end Candid

end Parse

end Scriptlet
