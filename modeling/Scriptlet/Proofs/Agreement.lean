/-
Readings that agree: they yield what they should, and where the second finds no
fault the first does the same, unless its first fault is that expressions nest
too deeply.
-/
import Scriptlet.Proofs.Legible
import Scriptlet.Proofs.Readers

namespace Scriptlet

/-- Whether a token that is a name or a number can be written. -/
def Token.Legible (t : Token) : Prop :=
  match t.kind with
  | .name _ => IsName t.lexeme
  | .int value => 0 ≤ value
  | .float value => IsDecimal value
  | _ => True

namespace Reader

def Legible (r : Reader) : Prop :=
  r.current.Legible ∧ r.ahead.Legible ∧ ∀ t ∈ r.rest, t.Legible

theorem Legible.advance {r : Reader} (h : r.Legible) : r.advance.Legible := by
  obtain ⟨hcurrent, hahead, hrest⟩ := h
  unfold Reader.advance
  split
  · exact ⟨hahead, hahead, hrest⟩
  · rename_i t ts heq
    rw [heq] at hrest
    exact ⟨hahead, hrest t List.mem_cons_self, fun u hu => hrest u (List.mem_cons_of_mem t hu)⟩

theorem Legible.record {r : Reader} (h : r.Legible) (fault : SyntaxFault) (p : Position) :
    (r.record fault p).Legible := h

theorem Legible.skipToBoundary {r : Reader} (h : r.Legible) : r.skipToBoundary.Legible := by
  fun_induction Reader.skipToBoundary r with
  | case1 r _ => exact h
  | case2 r _ _ => exact h
  | case3 r _ t ts heq _ ih =>
      obtain ⟨-, hahead, hrest⟩ := h
      rw [heq] at hrest
      exact ih ⟨hahead, hrest t List.mem_cons_self, fun u hu => hrest u (List.mem_cons_of_mem t hu)⟩

@[simp] theorem diagnostics_advance (r : Reader) : r.advance.diagnostics = r.diagnostics := by
  unfold advance
  split <;> rfl

@[simp] theorem diagnostics_skipToBoundary (r : Reader) :
    r.skipToBoundary.diagnostics = r.diagnostics := by
  fun_induction skipToBoundary r with
  | case1 r _ => rfl
  | case2 r _ _ => rfl
  | case3 r _ t ts heq _ ih => exact ih

/-- Whether a reader has all the diagnostics of another, and then perhaps more. -/
def Extends (r r' : Reader) : Prop := ∃ ds, r'.diagnostics.toList = r.diagnostics.toList ++ ds

/-- Whether the first diagnostic that a reader has beyond those of another says
that expressions nest too deeply. -/
def TooDeep (r r' : Reader) : Prop :=
  ∃ d ds, r'.diagnostics.toList = r.diagnostics.toList ++ d :: ds ∧ d.code = "P005"

theorem Extends.of_eq {r r' : Reader} (h : r'.diagnostics = r.diagnostics) : r.Extends r' :=
  ⟨[], by rw [h, List.append_nil]⟩

theorem Extends.trans {r s t : Reader} (h : r.Extends s) (h' : s.Extends t) : r.Extends t := by
  obtain ⟨ds, hds⟩ := h
  obtain ⟨es, hes⟩ := h'
  exact ⟨ds ++ es, by rw [hes, hds, List.append_assoc]⟩

theorem TooDeep.trans {r s t : Reader} (h : r.TooDeep s) (h' : s.Extends t) : r.TooDeep t := by
  obtain ⟨d, ds, hds, hd⟩ := h
  obtain ⟨es, hes⟩ := h'
  exact ⟨d, ds ++ es, by rw [hes, hds, List.append_assoc, List.cons_append], hd⟩

theorem TooDeep.of_eq {r s t : Reader} (heq : s.diagnostics = r.diagnostics) (h : s.TooDeep t) :
    r.TooDeep t := by
  unfold TooDeep at h ⊢
  rw [heq] at h
  exact h

/-- Where a chain of readers adds no diagnostic, none of them does. -/
theorem Extends.eq_left {r s t : Reader} (h : r.Extends s) (h' : s.Extends t)
    (heq : t.diagnostics = r.diagnostics) : s.diagnostics = r.diagnostics := by
  obtain ⟨ds, hds⟩ := h
  obtain ⟨es, hes⟩ := h'
  rw [heq, hds, List.append_assoc, List.self_eq_append_right] at hes
  obtain ⟨rfl, -⟩ := List.append_eq_nil_iff.mp hes
  rw [List.append_nil] at hds
  exact Array.toList_inj.mp hds

theorem extends_record (r : Reader) (fault : SyntaxFault) (p : Position) :
    r.Extends (r.record fault p) := ⟨[fault.diagnose p], Array.toList_push⟩

end Reader

namespace Parse

variable {α β : Type}

/-- What a reading does at a legible reader: it leaves a legible one with all
diagnostics, and yields only values with `P`. -/
structure Keeps (P : α → Prop) (p : Parse α) (r : Reader) : Prop where
  legible : (p r).2.Legible
  extend : r.Extends (p r).2
  value : ∀ a, (p r).1 = some a → P a

theorem Keeps.congr {P : α → Prop} {p q : Parse α} {r : Reader} (h : Keeps P p r)
    (heq : q r = p r) : Keeps P q r := by
  obtain ⟨hlegible, hextend, hvalue⟩ := h
  rw [← heq] at hlegible hextend hvalue
  exact ⟨hlegible, hextend, hvalue⟩

/-- Whether two readings keep what they should, and where the second adds no
diagnostic the first does the same, or adds first that expressions nest too
deeply. -/
def Agree (P : α → Prop) (p q : Parse α) : Prop :=
  ∀ r, r.Legible → Keeps P p r ∧ Keeps P q r ∧
    ((q r).2.diagnostics = r.diagnostics → p r = q r ∨ r.TooDeep (p r).2)

theorem Agree.same {P : α → Prop} {p : Parse α} (h : ∀ r, r.Legible → Keeps P p r) :
    Agree P p p :=
  fun r hr => ⟨h r hr, h r hr, fun _ => Or.inl rfl⟩

theorem Keeps.bind {P : α → Prop} {Q : β → Prop} {p : Parse α} {f : α → Parse β} {r : Reader}
    (h : Keeps P p r) (hf : ∀ a, P a → ∀ r, r.Legible → Keeps Q (f a) r) :
    Keeps Q (p >>= f) r ∧ (p r).2.Extends ((p >>= f) r).2 := by
  obtain ⟨hlegible, hextends, hvalue⟩ := h
  cases hp : p r with
  | mk found after =>
      rw [hp] at hlegible hextends hvalue
      cases found with
      | none =>
          have hbind := bind_none hp f
          refine ⟨⟨?_, ?_, ?_⟩, ?_⟩
          · rw [hbind]
            exact hlegible
          · rw [hbind]
            exact hextends
          · intro b hb
            rw [hbind] at hb
            exact absurd hb (by simp)
          · rw [hbind]
            exact .of_eq rfl
      | some a =>
          have hbind := bind_some hp f
          obtain ⟨hlegible', hextends', hvalue'⟩ := hf a (hvalue a rfl) after hlegible
          refine ⟨⟨?_, ?_, ?_⟩, ?_⟩
          · rw [hbind]
            exact hlegible'
          · rw [hbind]
            exact hextends.trans hextends'
          · intro b hb
            rw [hbind] at hb
            exact hvalue' b hb
          · rw [hbind]
            exact hextends'

theorem Agree.bind {P : α → Prop} {Q : β → Prop} {p q : Parse α} {f g : α → Parse β}
    (h : Agree P p q) (hf : ∀ a, P a → Agree Q (f a) (g a)) :
    Agree Q (p >>= f) (q >>= g) := by
  intro r hr
  obtain ⟨hp, hq, hsame⟩ := h r hr
  obtain ⟨hpf, hpe⟩ := hp.bind fun a ha r hr => (hf a ha r hr).1
  obtain ⟨hqg, hqe⟩ := hq.bind fun a ha r hr => (hf a ha r hr).2.1
  refine ⟨hpf, hqg, ?_⟩
  intro hquiet
  have hfirst := hq.extend.eq_left hqe hquiet
  rcases hsame hfirst with heq | hdeep
  · cases hqr : q r with
    | mk found after =>
        rw [hqr] at heq hfirst
        cases found with
        | none =>
            left
            rw [bind_none heq, bind_none hqr]
        | some a =>
            obtain ⟨hlegible, -, hvalue⟩ := hq
            rw [hqr] at hlegible hvalue
            rw [bind_some hqr] at hquiet ⊢
            rw [bind_some heq]
            obtain ⟨-, -, hagree⟩ := hf a (hvalue a rfl) after hlegible
            rcases hagree (hquiet.trans hfirst.symm) with heq | hdeep
            · exact Or.inl heq
            · exact Or.inr (hdeep.of_eq hfirst)
  · exact Or.inr (hdeep.trans hpe)

theorem Agree.pure {P : α → Prop} {a : α} (h : P a) :
    Agree P (Pure.pure a : Parse α) (Pure.pure a) := by
  refine .same fun r hr => ⟨hr, .of_eq rfl, ?_⟩
  intro b hb
  cases hb
  exact h

theorem Agree.ite {P : α → Prop} {c : Prop} [Decidable c] {p p' q q' : Parse α}
    (h : c → Agree P p q) (h' : ¬c → Agree P p' q') :
    Agree P (if c then p else p') (if c then q else q') := by
  by_cases hc : c
  · rw [if_pos hc, if_pos hc]
    exact h hc
  · rw [if_neg hc, if_neg hc]
    exact h' hc

theorem Keeps.attempt {P : α → Prop} {Q : β → Prop} {p : Parse α} {bad : Parse β}
    {good : Option α → Parse β} {r : Reader} (h : Keeps P p r)
    (hbad : ∀ r, r.Legible → Keeps Q bad r)
    (hgood : ∀ found, (∀ a, found = some a → P a) → ∀ r, r.Legible → Keeps Q (good found) r) :
    Keeps Q (attempt p bad good) r ∧ (p r).2.Extends (attempt p bad good r).2 := by
  by_cases hsize : r.diagnostics.size < (p r).2.diagnostics.size
  · obtain ⟨hlegible, hextend, hvalue⟩ := hbad _ h.legible
    rw [← attempt_bad bad good hsize] at hlegible hextend hvalue
    exact ⟨⟨hlegible, h.extend.trans hextend, hvalue⟩, hextend⟩
  · obtain ⟨hlegible, hextend, hvalue⟩ := hgood _ h.value _ h.legible
    rw [← attempt_good bad good hsize] at hlegible hextend hvalue
    exact ⟨⟨hlegible, h.extend.trans hextend, hvalue⟩, hextend⟩

theorem Agree.attempt {P : α → Prop} {Q : β → Prop} {p q : Parse α} {bad bad' : Parse β}
    {good good' : Option α → Parse β} (h : Agree P p q) (hbad : Agree Q bad bad')
    (hgood : ∀ found, (∀ a, found = some a → P a) → Agree Q (good found) (good' found)) :
    Agree Q (attempt p bad good) (attempt q bad' good') := by
  intro r hr
  obtain ⟨hp, hq, hsame⟩ := h r hr
  obtain ⟨hpa, hpe⟩ := hp.attempt (fun r hr => (hbad r hr).1)
    (fun found hfound r hr => (hgood found hfound r hr).1)
  obtain ⟨hqa, hqe⟩ := hq.attempt (fun r hr => (hbad r hr).2.1)
    (fun found hfound r hr => (hgood found hfound r hr).2.1)
  refine ⟨hpa, hqa, ?_⟩
  intro hquiet
  have hfirst := hq.extend.eq_left hqe hquiet
  rcases hsame hfirst with heq | hdeep
  · have hsize : ¬r.diagnostics.size < (q r).2.diagnostics.size := by
      rw [hfirst]
      exact Nat.lt_irrefl _
    have hsizeP : ¬r.diagnostics.size < (p r).2.diagnostics.size := by
      rw [heq]
      exact hsize
    rw [attempt_good bad' good' hsize] at hquiet ⊢
    rw [attempt_good bad good hsizeP, heq]
    obtain ⟨-, -, hagree⟩ := hgood _ hq.value _ hq.legible
    rcases hagree (hquiet.trans hfirst.symm) with heq | hdeep
    · exact Or.inl heq
    · exact Or.inr (hdeep.of_eq hfirst)
  · exact Or.inr (hdeep.trans hpe)

theorem agree_recover : Agree (fun _ => True) recover recover :=
  .same fun r hr =>
    ⟨hr.skipToBoundary, .of_eq (Reader.diagnostics_skipToBoundary r), fun _ _ => trivial⟩

theorem agree_get : Agree Reader.Legible get get := by
  refine .same fun r hr => ⟨hr, .of_eq rfl, ?_⟩
  intro r' heq
  cases heq
  exact hr

theorem agree_current : Agree Token.Legible current current := by
  refine .same fun r hr => ⟨hr, .of_eq rfl, ?_⟩
  intro t heq
  cases heq
  exact hr.1

theorem agree_fail {P : α → Prop} : Agree P fail fail :=
  .same fun _ hr => ⟨hr, .of_eq rfl, fun _ h => nomatch h⟩

theorem keeps_refuse {P : α → Prop} (fault : SyntaxFault) (p : Position) {r : Reader}
    (hr : r.Legible) : Keeps P (refuse fault p) r :=
  ⟨hr.record fault p, Reader.extends_record r fault p, fun _ h => nomatch h⟩

theorem agree_refuse {P : α → Prop} (fault : SyntaxFault) (p : Position) :
    Agree P (refuse fault p) (refuse fault p) :=
  .same fun _ hr => keeps_refuse fault p hr

theorem keeps_refuseAhead {P : α → Prop} (label : String) {r : Reader} (hr : r.Legible) :
    Keeps P (refuseAhead label) r :=
  (keeps_refuse _ _ hr : Keeps P (refuse _ _) r).congr rfl

theorem agree_refuseAhead {P : α → Prop} (label : String) :
    Agree P (refuseAhead label) (refuseAhead label) :=
  .same fun _ hr => keeps_refuseAhead label hr

theorem keeps_refuseToken {P : α → Prop} (t : Token) {r : Reader} (hr : r.Legible) :
    Keeps P (refuseToken t) r := by
  unfold refuseToken
  split <;> exact keeps_refuse _ _ hr

theorem agree_refuseToken {P : α → Prop} (t : Token) :
    Agree P (refuseToken t) (refuseToken t) :=
  .same fun _ hr => keeps_refuseToken t hr

theorem keeps_advance {r : Reader} (hr : r.Legible) : Keeps (fun _ => True) advance r :=
  ⟨hr.advance, .of_eq (Reader.diagnostics_advance r), fun _ _ => trivial⟩

theorem agree_advance : Agree (fun _ => True) advance advance :=
  .same fun _ hr => keeps_advance hr

theorem agree_expect (s : Sign) : Agree (fun _ => True) (expect s) (expect s) := by
  refine .same fun r hr => ?_
  by_cases h : r.ahead.isSign s = true
  · exact (keeps_advance hr).congr (if_pos h)
  · exact (keeps_refuseAhead s.text hr).congr (if_neg h)

theorem isName_of_legible {t : Token} (h : t.Legible) (hname : t.isName = true) :
    IsName t.lexeme := by
  unfold Token.isName at hname
  unfold Token.Legible at h
  split at hname
  · rename_i hkind
    rw [hkind] at h
    exact h
  · exact absurd hname Bool.noConfusion

theorem agree_expectName : Agree Ident.Legible expectName expectName := by
  refine .same fun r hr => ?_
  by_cases h : r.ahead.isName = true
  · have hexpect : expectName r = (some ⟨r.ahead.lexeme, r.ahead.position⟩, r.advance) := if_pos h
    refine ⟨?_, ?_, ?_⟩
    · rw [hexpect]
      exact hr.advance
    · rw [hexpect]
      exact .of_eq (Reader.diagnostics_advance r)
    · intro i hi
      rw [hexpect] at hi
      cases hi
      exact isName_of_legible hr.2.1 h
  · exact (keeps_refuseAhead _ hr).congr (if_neg h)

theorem agree_endStatement : Agree (fun _ => True) endStatement endStatement := by
  refine .same fun r hr => ?_
  by_cases hsemicolon : r.ahead.isSign .semicolon = true
  · exact (keeps_advance hr).congr (if_pos hsemicolon)
  by_cases hend : (r.closesAhead || r.breaksAhead) = true
  · have hstays : Keeps (fun _ => True) (Pure.pure ()) r :=
      ⟨hr, .of_eq rfl, fun _ _ => trivial⟩
    exact hstays.congr ((if_neg hsemicolon).trans (if_pos hend))
  by_cases hillegal : r.ahead.isIllegal = true
  · exact (keeps_refuseToken r.ahead hr).congr
      ((if_neg hsemicolon).trans ((if_neg hend).trans (if_pos hillegal)))
  · exact (keeps_refuse _ _ hr).congr
      ((if_neg hsemicolon).trans ((if_neg hend).trans (if_neg hillegal)))

end Parse

end Scriptlet
