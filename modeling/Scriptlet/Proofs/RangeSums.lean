/-
The sum of a range.  It is computed in whole numbers from the two ends and is the sum of the
integers that the range yields, or else it is refused because it is no integer of the language.
-/
import Mathlib
import Scriptlet.Proofs.Ranges

namespace Scriptlet

namespace RangeMethod

/-- Twice the sum of some integers, one after the other. -/
theorem two_mul_sum_shifted (first : Int) (count : Nat) :
    2 * ∑ i ∈ Finset.range count, (first + i) = (first + (first + count) - 1) * count := by
  induction count with
  | zero => simp
  | succ count ih =>
      rw [Finset.sum_range_succ, mul_add, ih]
      push_cast
      ring

theorem sum_Ico_eq (first last : Int) :
    ∑ i ∈ Finset.Ico first last, i =
      ∑ i ∈ Finset.range (last - first).toNat, (first + i) := by
  rw [Int.Ico_eq_finset_map, Finset.sum_map]
  rfl

/-- Half of the product is the sum, without a remainder. -/
theorem sumOf_eq (first last : Int64) :
    sumOf first last = ∑ i ∈ Finset.Ico first.toInt last.toInt, i := by
  rw [sumOf]
  split
  · rename_i hle
    rw [Int64.le_iff_toInt_le] at hle
    rw [Finset.Ico_eq_empty (not_lt.mpr hle), Finset.sum_empty]
  · rename_i hlt
    rw [Int64.le_iff_toInt_le] at hlt
    have hcount : ((last.toInt - first.toInt).toNat : Int) = last.toInt - first.toInt :=
      Int.toNat_of_nonneg (by omega)
    have htwice := two_mul_sum_shifted first.toInt (last.toInt - first.toInt).toNat
    have hends : first.toInt + (first.toInt + (last.toInt - first.toInt)) - 1 =
        first.toInt + last.toInt - 1 := by omega
    rw [hcount, hends] at htwice
    rw [sum_Ico_eq, ← htwice]
    exact Int.mul_tdiv_cancel_left _ (by decide)

theorem isInt_iff (n : Int) : isInt n = true ↔ -2 ^ 63 ≤ n ∧ n ≤ 2 ^ 63 - 1 := by
  simp only [isInt, Bool.and_eq_true, decide_eq_true_eq]
  exact Iff.rfl

end RangeMethod

/-- The integer in an option, if there is one. -/
def Value.yielded? : Value → Option Int
  | .some (.int n _) _ => Option.some n.toInt
  | _ => Option.none

namespace Task

variable {first last : Int64}

/-- What is yielded adds up to the sum of so many integers from the first on. -/
theorem sum_yielded {vs : List Value}
    (h : ∀ (i : Nat) (v : Value), vs[i]? = some v → YieldedAt first last i v) :
    (vs.filterMap Value.yielded?).sum =
      ∑ i ∈ Finset.range (min vs.length (RangeMethod.extent first last)), (first.toInt + i) := by
  induction vs using List.reverseRecOn with
  | nil => simp
  | append_singleton vs v ih =>
      have hbefore := ih fun i w hw => h i w (by
        obtain ⟨hi, -⟩ := List.getElem?_eq_some_iff.mp hw
        rwa [List.getElem?_append_left hi])
      have hlast := h vs.length v List.getElem?_concat_length
      rw [YieldedAt] at hlast
      rw [List.filterMap_append, List.sum_append, hbefore, List.length_append,
        List.length_singleton]
      split at hlast
      · rename_i hlt
        obtain ⟨n, m, k, rfl, hn⟩ := hlast
        rw [Nat.min_eq_left (Nat.le_of_lt hlt), Nat.min_eq_left hlt, Finset.sum_range_succ, ← hn]
        simp [Value.yielded?]
      · rename_i hge
        obtain rfl := hlast
        rw [Nat.min_eq_right (by omega), Nat.min_eq_right (by omega),
          List.filterMap_cons_none rfl, List.filterMap_nil, List.sum_nil, add_zero]

/-- The sum of a range is that of the integers from its first one on and before its last one,
which are those that iterating over it yields, if it is an integer of the language; and if it is
none the sum is refused. -/
theorem range_sum_exact (limits : Limits) (s : Store) (first last : Int64) (r₀ : Nat) :
    let total := ∑ i ∈ Finset.Ico first.toInt last.toInt, i
    (∀ (t : Task) (p : Position) (env : Environment), ∃ o s',
      t.Gets limits o s' (t.useMember s (.range first last r₀) ⟨"sum", p⟩ env (some [])).1
        (t.useMember s (.range first last r₀) ⟨"sum", p⟩ env (some [])).2 ∧
      (-2 ^ 63 ≤ total ∧ total ≤ 2 ^ 63 - 1 → ∃ n m, o = .value (.int n m) ∧ n.toInt = total) ∧
      (¬ (-2 ^ 63 ≤ total ∧ total ≤ 2 ^ 63 - 1) → ∃ f, o = .failed f ∧
        f.fault = .sumOverflow first.toInt last.toInt ∧ f.kind = .numericDomain)) ∧
    ∃ id s₀, Answers limits s (.range first last r₀) "__iter__" (.rangeIter id) s₀ ∧
      ∀ vs s', Draws limits id s₀ vs s' → RangeMethod.extent first last ≤ vs.length →
        (vs.filterMap Value.yielded?).sum = total := by
  intro total
  refine ⟨fun t p env => ?_, ?_⟩
  · have htotal : RangeMethod.sumOf first last = total := RangeMethod.sumOf_eq first last
    have hmethod : ∀ (r : Except Fault Value) (s' : Store),
        RangeMethod.sum.answer s [.range first last r₀] = (r, s') →
        t.Gets limits
          ((Outcome.ofResult r).withTrace (⟨(Builtin.rangeOf .sum).name, t.file, p⟩ :: t.calls)) s'
          (t.useMember s (.range first last r₀) ⟨"sum", p⟩ env (some [])).1
          (t.useMember s (.range first last r₀) ⟨"sum", p⟩ env (some [])).2 :=
      fun r s' => @gets_method limits t s s' (.rangeOf .sum) (.range first last r₀)
        ⟨"sum", p⟩ env r nofun rfl rfl rfl
    by_cases hfits : -2 ^ 63 ≤ total ∧ total ≤ 2 ^ 63 - 1
    · refine ⟨_, _, hmethod (.ok (.int (Int64.ofInt total) s.fresh))
        { s with fresh := s.fresh + 1 } ?_, fun _ => ⟨_, _, rfl, ?_⟩,
        fun hnot => absurd hfits hnot⟩
      · simp only [RangeMethod.answer, htotal, (RangeMethod.isInt_iff total).mpr hfits, if_true]
        rfl
      · exact Int64.toInt_ofInt_of_le hfits.1 (by omega)
    · have hnot : RangeMethod.isInt total = false :=
        Bool.eq_false_iff.mpr (mt (RangeMethod.isInt_iff total).mp hfits)
      refine ⟨_, _, hmethod (.error (.sumOverflow first.toInt last.toInt)) s ?_,
        fun h => absurd h hfits, fun _ => ⟨_, rfl, rfl, rfl⟩⟩
      simp only [RangeMethod.answer, htotal, hnot, Bool.false_eq_true, if_false]
      rfl
  · obtain ⟨id, s₀, hiter, hcell⟩ := answers_iter limits s first last r₀
    refine ⟨id, s₀, hiter, fun vs s' hdraws hall => ?_⟩
    have hsum := sum_yielded fun i v => hdraws.yielded hcell
    rw [Nat.min_eq_right hall] at hsum
    exact hsum.trans (RangeMethod.sum_Ico_eq first.toInt last.toInt).symm

end Task

end Scriptlet
