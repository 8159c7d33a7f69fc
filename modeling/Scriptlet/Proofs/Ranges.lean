/-
Ranges and their iterators.  What is drawn from the iterator of a range are its integers,
in order and each of them once; what the range or the iterator say of how many there are is
that number with its low 64 bits kept, and so right only as long as it is an integer of the
language.
-/
import Mathlib.Algebra.Group.Nat.Defs
import Scriptlet.Proofs.Asking

namespace Scriptlet

/-- How many integers are in a range. -/
def RangeMethod.extent (first last : Int64) : Nat := (last.toInt - first.toInt).toNat

namespace Task

/-- That a value answers a hook to any thread that has room for it: an outcome that is a value,
and the store that it leaves. -/
def Answers (limits : Limits) (s : Store) (receiver : Value) (name : String) (v : Value)
    (s' : Store) : Prop :=
  ∀ t : Task, t.depth < limits.maxDepth →
    t.Gets limits (.value v) s' (t.doing (.hook receiver name [])) s

/-- What is drawn from the iterator over a range with a number, the first value first, by any
threads and whatever else becomes of the store meanwhile. -/
inductive Draws (limits : Limits) (id : Nat) (s : Store) : List Value → Store → Prop where
  | none : Draws limits id s [] s
  | meanwhile {vs : List Value} {s' s'' : Store} (h : Draws limits id s vs s')
      (hkept : s''.rangeIters[id]? = s'.rangeIters[id]?) : Draws limits id s vs s''
  | next {vs : List Value} {v : Value} {s' s'' : Store} (t : Task) (h : Draws limits id s vs s')
      (hnext : t.Gets limits (.value v) s'' (t.doing (.hook (.rangeIter id) "__next__" [])) s') :
      Draws limits id s (vs ++ [v]) s''

end Task

/-- A count keeps its value in 64 bits just if it is an integer of the language. -/
theorem bmod_eq_self_iff (n : Nat) : (n : Int).bmod (2 ^ 64) = n ↔ n < 2 ^ 63 := by
  rw [Int.bmod_def]
  omega

namespace RangeMethod

theorem extent_eq_zero_iff (first last : Int64) : extent first last = 0 ↔ last ≤ first := by
  rw [extent, Int64.le_iff_toInt_le]
  omega

/-- What is said to be the number of integers in a range is that number with its low 64 bits
kept. -/
theorem count_toInt (first last : Int64) :
    (count first last).toInt = (extent first last : Int).bmod (2 ^ 64) := by
  rw [count]
  split
  · rename_i hle
    rw [(extent_eq_zero_iff first last).mpr hle]
    rfl
  · rename_i hlt
    rw [Int64.le_iff_toInt_le] at hlt
    rw [Int64.toInt_sub, extent, Int.toNat_of_nonneg (by omega)]

/-- The number is right just if it is an integer of the language. -/
theorem count_toInt_eq_iff (first last : Int64) :
    (count first last).toInt = extent first last ↔ extent first last < 2 ^ 63 := by
  rw [count_toInt, bmod_eq_self_iff]

theorem toInt_succ {first last : Int64} (h : ¬ last ≤ first) :
    (first + 1).toInt = first.toInt + 1 := by
  have hlast := last.toInt_lt
  have hfirst := first.le_toInt
  rw [Int64.le_iff_toInt_le] at h
  rw [Int64.toInt_add]
  refine Int.bmod_eq_of_le ?_ ?_ <;> simp <;> omega

end RangeMethod

namespace Task

variable {limits : Limits} {t : Task} {s s' : Store} {id : Nat} {first last : Int64}

theorem gets_hook_answer {b : Builtin} {receiver v : Value} {name : String}
    (hroom : t.depth < limits.maxDepth) (hmember : s.member receiver name = (.ok (.builtin b), s))
    (harity : b.arity = some 1) (hback : b.callsBack = false)
    (hanswer : b.answer s [receiver] = (.ok v, s')) :
    t.Gets limits (.value v) s' (t.doing (.hook receiver name [])) s :=
  gets_hook hroom hmember (gets_answer harity hback hanswer)

/-- A range makes an iterator that stands at its first integer. -/
theorem answers_iter (limits : Limits) (s : Store) (first last : Int64) (r : Nat) :
    ∃ id s', Answers limits s (.range first last r) "__iter__" (.rangeIter id) s' ∧
      s'.rangeIters[id]? = some ⟨first, last⟩ := by
  refine ⟨s.rangeIters.size, { s with rangeIters := s.rangeIters.push ⟨first, last⟩ },
    fun t hroom => gets_hook_answer (b := .rangeOf .iter) hroom rfl rfl rfl rfl, ?_⟩
  exact Array.getElem?_push_size

theorem answers_length (limits : Limits) (s : Store) (first last : Int64) (r : Nat) :
    ∃ m s', Answers limits s (.range first last r) "__len__"
      (.int (RangeMethod.count first last) m) s' :=
  ⟨s.fresh, { s with fresh := s.fresh + 1 },
    fun _ hroom => gets_hook_answer (b := .rangeOf .length) hroom rfl rfl rfl rfl⟩

theorem answers_iter_length (limits : Limits) (hcell : s.rangeIters[id]? = some ⟨first, last⟩) :
    ∃ m s', Answers limits s (.rangeIter id) "__len__"
      (.int (RangeMethod.count first last) m) s' := by
  refine ⟨s.fresh, { s with fresh := s.fresh + 1 },
    fun _ hroom => gets_hook_answer (b := .rangeIter .length) hroom rfl rfl rfl ?_⟩
  change IterMethod.ofRange s .length (.rangeIter id) = _
  simp only [IterMethod.ofRange, hcell]
  rfl

/-- An iterator that has reached the end stays there. -/
theorem answers_next_end (hcell : s.rangeIters[id]? = some ⟨first, last⟩) (hend : last ≤ first) :
    Answers limits s (.rangeIter id) "__next__" .none s := by
  refine fun _ hroom => gets_hook_answer (b := .rangeIter .next) hroom rfl rfl rfl ?_
  change IterMethod.ofRange s .next (.rangeIter id) = _
  simp only [IterMethod.ofRange, hcell, hend, if_true]
  rfl

/-- An iterator that has not reached the end gives the integer that it stands at and goes on to
the next one. -/
theorem answers_next (limits : Limits) (hcell : s.rangeIters[id]? = some ⟨first, last⟩)
    (hgoing : ¬ last ≤ first) :
    ∃ m k s', Answers limits s (.rangeIter id) "__next__" (.some (.int first m) k) s' ∧
      s'.rangeIters[id]? = some ⟨first + 1, last⟩ := by
  let moved := s.rangeIters.modify id fun i => { i with next := i.next + 1 }
  refine ⟨s.fresh, s.fresh + 1, { s with rangeIters := moved, fresh := s.fresh + 2 }, ?_, ?_⟩
  · refine fun _ hroom => gets_hook_answer (b := .rangeIter .next) hroom rfl rfl rfl ?_
    change IterMethod.ofRange s .next (.rangeIter id) = _
    simp only [IterMethod.ofRange, hcell, hgoing, if_false]
    rfl
  · simp [moved, Array.getElem?_modify, hcell]

/-- A value behind which one more is put is one of those before, or that one. -/
theorem getElem?_concat_eq_some {vs : List Value} {v w : Value} {i : Nat}
    (h : (vs ++ [w])[i]? = some v) : vs[i]? = some v ∨ i = vs.length ∧ v = w := by
  rcases Nat.lt_trichotomy i vs.length with hlt | rfl | hgt
  · exact .inl (by rwa [List.getElem?_append_left hlt] at h)
  · exact .inr ⟨rfl, by simpa using h.symm⟩
  · rw [List.getElem?_eq_none (by simpa [Nat.succ_le_iff] using hgt)] at h
    exact nomatch h

/-- Any value that a hook gives is its answer. -/
theorem Answers.eq_of_gets {receiver v w : Value} {name : String} {s'' : Store}
    (h : Answers limits s receiver name v s')
    (hgets : t.Gets limits (.value w) s'' (t.doing (.hook receiver name [])) s) :
    w = v ∧ s'' = s' := by
  by_cases hroom : t.depth < limits.maxDepth
  · obtain ⟨hvalue, hstore⟩ := (h t hroom).unique hgets
    exact ⟨Outcome.value.inj hvalue, hstore⟩
  · have hdeep := gets_hook_tooDeep (Nat.le_of_not_lt hroom) s receiver name []
    exact nomatch (hdeep.unique hgets).1

/-- Once some values have been drawn, the iterator stands so many integers after the first, and
at the end if there are not so many. -/
theorem Draws.stands {vs : List Value} (h : Draws limits id s vs s')
    (hcell : s.rangeIters[id]? = some ⟨first, last⟩) :
    ∃ next, s'.rangeIters[id]? = some ⟨next, last⟩ ∧
      next.toInt = first.toInt + (min vs.length (RangeMethod.extent first last) : Nat) := by
  induction h with
  | none => exact ⟨first, hcell, by simp⟩
  | meanwhile _ hkept ih =>
      obtain ⟨next, hnext, hvalue⟩ := ih
      exact ⟨next, hkept.trans hnext, hvalue⟩
  | @next vs v s' s'' t h hnext ih =>
      obtain ⟨next, hstands, hvalue⟩ := ih
      by_cases hend : last ≤ next
      · have hanswer : Answers limits s' _ _ _ s' := answers_next_end hstands hend
        obtain ⟨-, rfl⟩ := hanswer.eq_of_gets hnext
        refine ⟨next, hstands, ?_⟩
        rw [Int64.le_iff_toInt_le] at hend
        rw [hvalue, List.length_append, List.length_singleton, RangeMethod.extent] at *
        omega
      · obtain ⟨m, k, s₁, hanswer, hmoved⟩ := answers_next limits hstands hend
        obtain ⟨-, rfl⟩ := hanswer.eq_of_gets hnext
        refine ⟨next + 1, hmoved, ?_⟩
        rw [RangeMethod.toInt_succ hend]
        rw [Int64.le_iff_toInt_le] at hend
        rw [List.length_append, List.length_singleton, RangeMethod.extent] at *
        omega

/-- Whether a value is what a range yields at a place: the integer so far after the first one,
and nothing after the last. -/
def YieldedAt (first last : Int64) (i : Nat) (v : Value) : Prop :=
  if i < RangeMethod.extent first last then
    ∃ n m k, v = .some (.int n m) k ∧ n.toInt = first.toInt + i
  else v = .none

/-- The next value is the one that the range yields after those that have been drawn. -/
theorem answers_next_yielded (limits : Limits) {next : Int64} {drawn : Nat}
    (hcell : s.rangeIters[id]? = some ⟨next, last⟩)
    (hnext : next.toInt = first.toInt + (min drawn (RangeMethod.extent first last) : Nat)) :
    ∃ v s', Answers limits s (.rangeIter id) "__next__" v s' ∧ YieldedAt first last drawn v := by
  have hremains : ¬ last ≤ next ↔ drawn < RangeMethod.extent first last := by
    rw [Int64.le_iff_toInt_le, hnext, RangeMethod.extent]
    omega
  unfold YieldedAt
  by_cases hend : last ≤ next
  · refine ⟨.none, s, answers_next_end hcell hend, ?_⟩
    rw [if_neg fun hlt => hremains.mpr hlt hend]
  · obtain ⟨m, k, s', hanswer, -⟩ := answers_next limits hcell hend
    refine ⟨_, s', hanswer, ?_⟩
    rw [if_pos (hremains.mp hend)]
    exact ⟨next, m, k, rfl, by rw [hnext, Nat.min_eq_left (Nat.le_of_lt (hremains.mp hend))]⟩

/-- The values that are drawn are those that the range yields. -/
theorem Draws.yielded {vs : List Value} (h : Draws limits id s vs s')
    (hcell : s.rangeIters[id]? = some ⟨first, last⟩) {i : Nat} {v : Value}
    (hv : vs[i]? = some v) : YieldedAt first last i v := by
  induction h with
  | none => exact nomatch hv
  | meanwhile _ _ ih => exact ih hv
  | @next vs w s' s'' t h hnext ih =>
      rcases getElem?_concat_eq_some hv with hbefore | ⟨rfl, rfl⟩
      · exact ih hbefore
      · obtain ⟨next, hstands, hvalue⟩ := h.stands hcell
        obtain ⟨y, s₁, hanswer, hyielded⟩ := answers_next_yielded limits hstands hvalue
        obtain ⟨rfl, -⟩ := hanswer.eq_of_gets hnext
        exact hyielded

/-- A range yields its integers in order, each of them once, and then nothing any more.  The
length that the range gives, and the number of integers still to come that its iterator gives
after any number of draws, have the low 64 bits of the true number, and so are that number just
if it is an integer of the language. -/
theorem range_yields_and_counts (limits : Limits) (s : Store) (first last : Int64) (r : Nat) :
    let extent := RangeMethod.extent first last
    (∃ n m s', Answers limits s (.range first last r) "__len__" (.int n m) s' ∧
      (∀ t : Task, t.depth < limits.maxDepth → t.Gets limits (.value (.int n m)) s'
        (t.doing (.call (.builtin .len) [.range first last r])) s) ∧
      n.toInt = (extent : Int).bmod (2 ^ 64) ∧ (n.toInt = extent ↔ extent < 2 ^ 63)) ∧
    ∃ id s₀, Answers limits s (.range first last r) "__iter__" (.rangeIter id) s₀ ∧
      ∀ vs s', Draws limits id s₀ vs s' →
        (∀ i v, vs[i]? = some v → YieldedAt first last i v) ∧
        (∃ v s'', Answers limits s' (.rangeIter id) "__next__" v s'' ∧
          YieldedAt first last vs.length v) ∧
        ∃ n m s'', Answers limits s' (.rangeIter id) "__len__" (.int n m) s'' ∧
          n.toInt = ((extent - vs.length : Nat) : Int).bmod (2 ^ 64) ∧
          (n.toInt = (extent - vs.length : Nat) ↔ extent - vs.length < 2 ^ 63) := by
  intro extent
  refine ⟨?_, ?_⟩
  · obtain ⟨m, s', hanswer⟩ := answers_length limits s first last r
    exact ⟨_, m, s', hanswer, fun t hroom => gets_callBack rfl rfl (hanswer t hroom),
      RangeMethod.count_toInt first last,
      RangeMethod.count_toInt_eq_iff first last⟩
  · obtain ⟨id, s₀, hiter, hcell⟩ := answers_iter limits s first last r
    refine ⟨id, s₀, hiter, fun vs s' hdraws => ?_⟩
    obtain ⟨next, hstands, hvalue⟩ := hdraws.stands hcell
    have hremain : RangeMethod.extent next last = extent - vs.length := by
      unfold extent RangeMethod.extent at *
      omega
    obtain ⟨m, s'', hlength⟩ := answers_iter_length limits hstands
    refine ⟨fun i v => hdraws.yielded hcell, answers_next_yielded limits hstands hvalue, _, m, s'',
      hlength, ?_, ?_⟩
    · rw [RangeMethod.count_toInt, hremain]
    · rw [← hremain, RangeMethod.count_toInt_eq_iff]

/-- The length of the widest range comes out as -1. -/
theorem range_yields_and_counts_widest :
    RangeMethod.extent Int64.minValue Int64.maxValue = 2 ^ 64 - 1 ∧
      ∃ m s', Answers ⟨1, 0⟩ default (.range Int64.minValue Int64.maxValue 0) "__len__"
        (.int (-1) m) s' := by
  have hextent : RangeMethod.extent Int64.minValue Int64.maxValue = 2 ^ 64 - 1 := by decide
  obtain ⟨⟨n, m, s', hanswer, -, hcount, -⟩, -⟩ :=
    range_yields_and_counts ⟨1, 0⟩ default Int64.minValue Int64.maxValue 0
  have hn : n = -1 := by
    rw [← Int64.toInt_inj, hcount, hextent]
    decide
  exact ⟨hextent, m, s', hn ▸ hanswer⟩

end Task

end Scriptlet
