/-
Repetition.  What is repeated comes out as many times as is asked for, or else is refused
because it would be too long; how long it would be is settled without a product that an
integer of the language might not hold.
-/
import Mathlib.Algebra.Order.Ring.Int
import Mathlib.Tactic.NormNum
import Scriptlet.Proofs.Asking
import Scriptlet.Proofs.Boundaries

namespace Scriptlet

/-- The bound on the quotient is one on the product. -/
theorem repetitionFault?_eq (size : Nat) (times : Int64) :
    repetitionFault? size times =
      if (maxSequenceLength : Int) < size * times.toInt then some (.repetition size times.toInt)
      else none := by
  unfold repetitionFault?
  have hsign : times ≤ 0 ↔ times.toInt ≤ 0 := Int64.le_iff_toInt_le
  by_cases hnone : times ≤ 0
  · have hproduct : ¬ (maxSequenceLength : Int) < size * times.toInt :=
      not_lt.mpr ((mul_nonpos_of_nonneg_of_nonpos (Int.natCast_nonneg size)
        (hsign.mp hnone)).trans (Int.natCast_nonneg _))
    rw [if_pos hnone, if_neg hproduct]
  · rw [hsign] at hnone
    have hcount : (times.toInt.toNat : Int) = times.toInt := Int.toNat_of_nonneg (by omega)
    have hbound : maxSequenceLength / times.toInt.toNat < size ↔
        (maxSequenceLength : Int) < size * times.toInt := by
      rw [Nat.div_lt_iff_lt_mul (by omega), ← Int.ofNat_lt, Int.natCast_mul, hcount]
    rw [if_neg (mt hsign.mp hnone), if_congr hbound rfl rfl]

/-- A product that is no longer than a sequence may be is an integer of the language. -/
theorem toInt_mul_of_le {size : Nat} {times : Int64} (hpos : 0 < times.toInt)
    (h : size * times.toInt ≤ (maxSequenceLength : Int)) :
    (Int64.ofNat size * times).toInt = size * times.toInt := by
  have hsize : (size : Int) ≤ size * times.toInt :=
    le_mul_of_one_le_right (Int.natCast_nonneg size) hpos
  have hmax : (maxSequenceLength : Int) < 2 ^ 63 := by decide
  rw [Int64.toInt_mul, Int64.toInt_ofNat_of_lt (by omega)]
  refine Int.bmod_eq_of_le ?_ ?_ <;> omega

section Repeats

variable {α : Type}

/-- That a sequence is another one so many times over: it has the length of all of them and,
at each place, what the other one has at the place that is left of it there. -/
structure Repeats (xs ys : List α) (n : Int) : Prop where
  length : (ys.length : Int) = xs.length * n
  getElem? : ∀ i < ys.length, ys[i]? = xs[i % xs.length]?

theorem length_flatten_replicate (xs : List α) (n : Nat) :
    (List.replicate n xs).flatten.length = n * xs.length := by
  rw [List.length_flatten, List.map_replicate, List.sum_replicate_nat]

theorem getElem?_flatten_replicate (xs : List α) {n i : Nat} (h : i < n * xs.length) :
    (List.replicate n xs).flatten[i]? = xs[i % xs.length]? := by
  induction n generalizing i with
  | zero => exact absurd h (by omega)
  | succ n ih =>
      rw [List.replicate_succ, List.flatten_cons]
      rcases Nat.lt_or_ge i xs.length with hfirst | hlater
      · rw [List.getElem?_append_left hfirst, Nat.mod_eq_of_lt hfirst]
      · rw [Nat.succ_mul] at h
        rw [List.getElem?_append_right hlater, ih (by omega), ← Nat.mod_eq_sub_mod hlater]

/-- The copies, one after the other, are the repetition. -/
theorem repeats_flatten_replicate (xs : List α) (n : Nat) :
    Repeats xs (List.replicate n xs).flatten n where
  length := by
    rw [length_flatten_replicate, Nat.mul_comm]
    norm_cast
  getElem? := fun i hi => getElem?_flatten_replicate xs (by
    rwa [length_flatten_replicate] at hi)

/-- Where there is nothing to repeat, there are no copies. -/
theorem copies_of_nothing {xs : List α} {n : Int} (h : n ≤ 0 ∨ xs = []) :
    xs.length * n ≤ 0 ∧ (List.replicate n.toNat xs).flatten = [] := by
  rcases h with hcount | rfl
  · refine ⟨mul_nonpos_of_nonneg_of_nonpos (Int.natCast_nonneg _) hcount, ?_⟩
    rw [Int.toNat_of_nonpos hcount, List.replicate_zero, List.flatten_nil]
  · simp

end Repeats

/-- The copies of some elements are put behind those that there are. -/
theorem toList_repeatInto (items : Array Value) (n : Nat) (before : Array Value) :
    (repeatInto items n before).toList =
      before.toList ++ (List.replicate n items.toList).flatten := by
  induction n generalizing before with
  | zero => rw [repeatInto, List.replicate_zero, List.flatten_nil, List.append_nil]
  | succ n ih =>
      rw [repeatInto, ih, Array.toList_append, List.append_assoc, List.replicate_succ,
        List.flatten_cons]

/-- Doubling gives as many copies as putting one behind the other does. -/
theorem Text.toList_times (t : Text) (n : Nat) :
    (t.times n).toList = (List.replicate n t.toList).flatten := by
  induction n using Nat.strongRecOn with
  | ind n ih =>
      rw [times]
      split
      · rename_i hnone
        rw [hnone]
        rfl
      · rename_i hsome
        have hhalf := ih (n / 2) (by omega)
        split
        · rename_i heven
          have hn : n = n / 2 + n / 2 := by omega
          rw [toList_append, hhalf, ← List.flatten_append, List.replicate_append_replicate, ← hn]
        · rename_i hodd
          have hn : n = n / 2 + n / 2 + 1 := by omega
          rw [toList_append, toList_append, hhalf, ← List.flatten_append,
            List.replicate_append_replicate]
          nth_rewrite 3 [hn]
          rw [List.replicate_succ', List.flatten_append, List.flatten_singleton]

def Value.IsText (v : Value) (_ : Store) (bytes : List UInt8) : Prop :=
  ∃ t k, v = .str t k ∧ t.toList = bytes

/-- That a value is a list that a store did not have, with certain elements. -/
def Value.IsNewList (before : Store) (v : Value) (s : Store) (items : List Value) : Prop :=
  ∃ id, v = .list id ∧ before.lists.size ≤ id ∧ (s.listItems id).toList = items

/-- How the repetition of a sequence ends, where `shows` says which values are which sequences:
it is empty if there is nothing to repeat, exact if it is not too long, and else refused. -/
structure Repetition {α : Type} (xs : List α) (n : Int64)
    (shows : Value → Store → List α → Prop) (s : Store) (o : Outcome) (s' : Store) : Prop where
  nothing : n.toInt ≤ 0 ∨ xs = [] → ∃ v, o = .value v ∧ shows v s' []
  exact : 0 < n.toInt → xs ≠ [] → xs.length * n.toInt ≤ 2 ^ 26 →
    ∃ v ys, o = .value v ∧ shows v s' ys ∧ Repeats xs ys n.toInt ∧
      (Int64.ofNat xs.length * n).toInt = ys.length
  refused : 0 < n.toInt → xs ≠ [] → 2 ^ 26 < xs.length * n.toInt →
    s' = s ∧ ∃ f, o = .failed f ∧ f.fault = .repetition xs.length n.toInt ∧
      f.kind = .numericDomain
  kept : ∀ list < s.lists.size, s'.listItems list = s.listItems list

theorem maxSequenceLength_eq : (maxSequenceLength : Int) = 2 ^ 26 := by decide

section Answers

variable {α : Type} {xs : List α} {n : Int64} {shows : Value → Store → List α → Prop} {s : Store}
  {a : Answer}

/-- An answer that is the copies, or a refusal if they are too many, is the repetition. -/
theorem repetition_of_answer
    (hfits : xs.length * n.toInt ≤ 2 ^ 26 →
      ∃ v, a.1 = .ok v ∧ shows v a.2 (List.replicate n.toInt.toNat xs).flatten)
    (hlong : 2 ^ 26 < xs.length * n.toInt → a = s.refuse (.repetition xs.length n.toInt))
    (hkept : ∀ list < s.lists.size, a.2.listItems list = s.listItems list) :
    Repetition xs n shows s (.ofResult a.1) a.2 where
  nothing := fun hnothing => by
    obtain ⟨hproduct, hempty⟩ := copies_of_nothing hnothing
    obtain ⟨v, hv, hshows⟩ := hfits (hproduct.trans (by decide))
    exact ⟨v, by rw [hv]; rfl, hempty ▸ hshows⟩
  exact := fun hpos _ hproduct => by
    obtain ⟨v, hv, hshows⟩ := hfits hproduct
    have hcount : (n.toInt.toNat : Int) = n.toInt := Int.toNat_of_nonneg hpos.le
    have hrepeats := repeats_flatten_replicate xs n.toInt.toNat
    rw [hcount] at hrepeats
    refine ⟨v, _, by rw [hv]; rfl, hshows, hrepeats, ?_⟩
    rw [hrepeats.length]
    exact toInt_mul_of_le hpos (maxSequenceLength_eq ▸ hproduct)
  refused := fun _ _ hproduct => by
    rw [hlong hproduct]
    exact ⟨rfl, _, rfl, rfl, rfl⟩
  kept := hkept

end Answers

theorem TextMethod.repetition (s : Store) (t : Text) (n : Int64) :
    Repetition t.toList n Value.IsText s
      (.ofResult (repeated s t n).1) (repeated s t n).2 := by
  have hsize : t.size = t.toList.length := rfl
  rw [repeated, repetitionFault?_eq, maxSequenceLength_eq, hsize]
  refine repetition_of_answer (fun hfits => ?_) (fun hlong => ?_) ?_
  · rw [if_neg (not_lt.mpr hfits)]
    exact ⟨_, rfl, _, _, rfl, t.toList_times _⟩
  · rw [if_pos hlong]
  · intro list _
    split <;> rfl

theorem Store.listItems_push (s : Store) (items : Array Value) :
    (s.newList items).2.listItems s.lists.size = items := by
  simp [newList, listItems]

/-- That there is nothing to repeat is no case of its own. -/
theorem ListMethod.repeated_eq (s : Store) (items : Array Value) (n : Int64) :
    repeated s items n =
      if 2 ^ 26 < items.toList.length * n.toInt then
        s.refuse (.repetition items.toList.length n.toInt)
      else s.giveList (repeatInto items n.toInt.toNat #[]) := by
  have hsize : items.size = items.toList.length := rfl
  have hnothing : (items.isEmpty || n ≤ 0) = true ↔ n.toInt ≤ 0 ∨ items.toList = [] := by
    rw [Bool.or_eq_true, decide_eq_true_eq, Array.isEmpty_iff, Int64.le_iff_toInt_le, or_comm,
      Array.toList_eq_nil_iff]
    rfl
  rw [repeated, repetitionFault?_eq, maxSequenceLength_eq, hsize]
  split
  · rename_i h
    obtain ⟨hproduct, hnone⟩ := copies_of_nothing (hnothing.mp h)
    have hmade : repeatInto items n.toInt.toNat #[] = #[] :=
      Array.toList_eq_nil_iff.mp (by rw [toList_repeatInto, hnone, List.append_nil])
    rw [if_neg (not_lt.mpr (hproduct.trans (by decide))), hmade]
  · by_cases hlong : 2 ^ 26 < items.toList.length * n.toInt
    · rw [if_pos hlong, if_pos hlong]
    · rw [if_neg hlong, if_neg hlong]

theorem ListMethod.repetition (s : Store) (items : Array Value) (n : Int64) :
    Repetition items.toList n (Value.IsNewList s) s
      (.ofResult (repeated s items n).1) (repeated s items n).2 := by
  rw [repeated_eq]
  refine repetition_of_answer (fun hfits => ?_) (fun hlong => ?_) fun list hlist => ?_
  · rw [if_neg (not_lt.mpr hfits)]
    refine ⟨_, rfl, _, rfl, le_refl _, ?_⟩
    rw [← List.nil_append (List.flatten _), ← Array.toList_empty, ← toList_repeatInto]
    exact congrArg Array.toList (s.listItems_push _)
  · rw [if_pos hlong]
  · split
    · rfl
    · simp [Store.giveList, Store.newList, Store.listItems, Array.getElem?_push, Nat.ne_of_lt hlist]

namespace Task

/-- The product of a string or a list, as long as it is, and an integer is empty if there is
nothing to repeat, and otherwise the string or the list so many times over, unless that is
longer than a sequence may be; then it is refused.  The lists that there are stay as they are,
and the length is never the result of a product that is not exact. -/
theorem repetition_exact_or_refused (limits : Limits) (s : Store) (n : Int64) (k : Nat) :
    (∀ (x : Text) (id : Nat), ∃ o s',
      (∀ t : Task, t.Gets limits o s' (t.applyBinary s .mul (.str x id) (.int n k)).1
        (t.applyBinary s .mul (.str x id) (.int n k)).2) ∧
      Repetition x.toList n Value.IsText s o s') ∧
    ∀ list : Nat, ∃ o s',
      (∀ t : Task, t.Gets limits o s' (t.applyBinary s .mul (.list list) (.int n k)).1
        (t.applyBinary s .mul (.list list) (.int n k)).2) ∧
      Repetition (s.listItems list).toList n (Value.IsNewList s) s o s' :=
  ⟨fun x _ => ⟨_, _, fun _ => gets_answer (b := .text .mul) rfl rfl rfl,
    TextMethod.repetition s x n⟩,
  fun list => ⟨_, _, fun _ => gets_answer (b := .list .mul) rfl rfl rfl,
    ListMethod.repetition s (s.listItems list) n⟩⟩

end Task

end Scriptlet
