/-
Integers on their way between the host and the language.  Each one keeps its low bits, and so it is
the same number on the other side exactly where it has a place there: 64 bits with a sign in the
language, those of the type that is wanted in the host.
-/
import Mathlib
import Scriptlet.Proofs.Descent

namespace Scriptlet

namespace IntType

def least (t : IntType) : Int := if t.isSigned then -twoTo (t.bits - 1) else 0

def greatest (t : IntType) : Int :=
  if t.isSigned then twoTo (t.bits - 1) - 1 else twoTo t.bits - 1

/-- A number is one of the type. -/
def Holds (t : IntType) (n : Int) : Prop := t.least ≤ n ∧ n ≤ t.greatest

instance (t : IntType) (n : Int) : Decidable (t.Holds n) :=
  inferInstanceAs (Decidable (_ ∧ _))

theorem twoTo_pos (n : Nat) : 0 < twoTo n := Nat.two_pow_pos n

theorem twoTo_bits (t : IntType) : twoTo t.bits = 2 * twoTo (t.bits - 1) := by
  cases t <;> rfl

theorem wrap_holds (t : IntType) (n : Int) : t.Holds (t.wrap n) := by
  have hpos := twoTo_pos (t.bits - 1)
  rw [Holds, least, greatest, wrap, twoTo_bits]
  split
  · have hlow := Int.le_bmod (x := n) (m := 2 * twoTo (t.bits - 1)) (by omega)
    have hhigh := Int.bmod_lt (x := n) (m := 2 * twoTo (t.bits - 1)) (by omega)
    omega
  · have hlow := Int.emod_nonneg n (b := (2 * twoTo (t.bits - 1) : Nat)) (by omega)
    have hhigh := Int.emod_lt_of_pos n (b := (2 * twoTo (t.bits - 1) : Nat)) (by omega)
    omega

/-- The low bits are those of the number. -/
theorem wrap_emod (t : IntType) (n : Int) : t.wrap n % twoTo t.bits = n % twoTo t.bits := by
  rw [wrap]
  split
  · exact Int.bmod_emod
  · exact Int.emod_emod_of_dvd _ (Int.dvd_refl _)

theorem wrap_eq_iff (t : IntType) (n : Int) : t.wrap n = n ↔ t.Holds n := by
  refine ⟨fun h => h ▸ t.wrap_holds n, ?_⟩
  rw [Holds, least, greatest, wrap, twoTo_bits]
  rintro ⟨hlow, hhigh⟩
  split at hlow
  · rename_i hsigned
    rw [if_pos hsigned] at hhigh ⊢
    exact Int.bmod_eq_of_le (by omega) (by omega)
  · rename_i hsigned
    rw [if_neg hsigned] at hhigh ⊢
    exact Int.emod_eq_of_lt hlow (by omega)

theorem least_int64_le (t : IntType) : IntType.int64.least ≤ t.least := by
  cases t <;> decide

/-- A number of a type of the host is one of the language unless it is too great. -/
theorem wrap_int64_eq_iff {t : IntType} {n : Int} (hn : t.Holds n) :
    IntType.int64.wrap n = n ↔ n ≤ IntType.int64.greatest := by
  rw [wrap_eq_iff]
  exact and_iff_right (t.least_int64_le.trans hn.1)

end IntType

namespace Marshal

variable {s : Store} {t : IntType} {v : Value} {m : Int64} {id : Nat}

/-- An integer of the language has the low bits of the host's. -/
theorem toValue_int (s : Store) (t : IntType) (n : Int) :
    ∃ m id s', toValue s (.int t n) = (.ok (.int m id), s') ∧
      m.toInt = IntType.int64.wrap n :=
  ⟨Int64.ofInt n, _, _, rfl, Int64.toInt_ofInt⟩

theorem fromValue_int (hv : payload? v = some (.int m id)) (limit : Nat) :
    fromValue s limit (some (.int t)) v = some (.ok (.int t (t.wrap m.toInt))) := by
  rw [fromValue, if_neg (by simp), hv]
  rfl

theorem assign?_of_type {h : HostValue} {wanted : HostType} (htype : h.type = wanted) :
    assign? h wanted = some h := by
  rw [assign?, if_pos (by rw [htype, beq_self_eq_true, Bool.true_or])]

/-- What has the type of its parameter is passed as it is. -/
theorem argument_of_type {wanted : HostType} {h : HostValue}
    (hx : fromValue s (nestingLimit s (some wanted)) (some wanted) v = some (.ok h))
    (hne : h ≠ .nil) (htype : h.type = wanted) (n : Nat) :
    argument s n wanted v = some (.ok h) := by
  rw [argument_of_value hx hne, assign?_of_type htype, Option.some_or]

theorem argument_int (hv : payload? v = some (.int m id)) (n : Nat) :
    argument s n (.int t) v = some (.ok (.int t (t.wrap m.toInt))) :=
  argument_of_type (fromValue_int hv _) nofun rfl n

/-- The items of a list, each of which is an integer, in a slice of integers. -/
theorem fromValues_int {vs : List Value} {ms : List Int64}
    (hvs : List.Forall₂ (fun v m => ∃ id, payload? v = some (.int m id)) vs ms) (limit n : Nat)
    (before : List HostValue) :
    fromValues s limit (.int t) n before vs =
      some (.ok (before.reverse ++ ms.map fun m => .int t (t.wrap m.toInt))) := by
  induction hvs generalizing n before with
  | nil => rw [fromValues, List.map_nil, List.append_nil]
  | @cons v m _ _ hv _ ih =>
      obtain ⟨id, hv⟩ := hv
      have hassign : assign? (.int t (t.wrap m.toInt)) (.int t) = some _ := assign?_of_type rfl
      rw [fromValues_cons (fromValue_int hv limit) (by simp), hassign]
      dsimp only
      rw [ih, List.reverse_cons, List.append_assoc, List.singleton_append, List.map_cons]

theorem argument_ints {list : Nat} {ms : List Int64} (hv : payload? v = some (.list list))
    (hms : List.Forall₂ (fun v m => ∃ id, payload? v = some (.int m id))
      (s.listItems list).toList ms) (n : Nat) :
    argument s n (.slice (.int t)) v =
      some (.ok (.slice (.int t) (ms.map fun m => .int t (t.wrap m.toInt)))) := by
  have hmade : fromValue s (nestingLimit s (some (.slice (.int t)))) (some (.slice (.int t))) v =
      some (.ok (.slice (.int t) (ms.map fun m => .int t (t.wrap m.toInt)))) := by
    rw [fromValue, if_neg (by simp), hv]
    dsimp only [nestingLimit]
    rw [show itemType (some (.slice (.int t))) = .int t from rfl, fromValues_int hms]
    rfl
  exact argument_of_type hmade (by simp) rfl n

end Marshal

namespace HostFunction

open Marshal

/-- Among the arguments of a call an integer stands for a parameter, or a further one, like
any other. -/
theorem arguments_int {s : Store} {sig : Signature} {n : Nat} {t : IntType} {v : Value}
    {m : Int64} {id : Nat} (hwanted : (sig.params[n]?).or sig.further = some (.int t))
    (hv : payload? v = some (.int m id)) (rest : List Value) :
    arguments s n sig (v :: rest) =
      (arguments s (n + 1) sig rest).map (Except.map (.int t (t.wrap m.toInt) :: ·)) := by
  rw [arguments, hwanted]
  dsimp only
  rw [argument_int hv]

/-- An integer crosses the boundary with the host with its low bits, and so it is the same number
on the other side exactly where it has a place there: as a value of the language if it is not
greater than the greatest integer, as an argument or an item of a slice if it is a number of the
type that is wanted. -/
theorem integers_keep_low_bits (s : Store) :
    (∀ t n, t.Holds n → ∃ m id s', toValue s (.int t n) = (.ok (.int m id), s') ∧
      m.toInt = IntType.int64.wrap n ∧ (m.toInt = n ↔ n ≤ IntType.int64.greatest)) ∧
    (∀ t v m id, payload? v = some (.int m id) →
      (∀ limit, fromValue s limit (some (.int t)) v = some (.ok (.int t (t.wrap m.toInt)))) ∧
      (∀ n, argument s n (.int t) v = some (.ok (.int t (t.wrap m.toInt)))) ∧
      (∀ n sig rest, (sig.params[n]?).or sig.further = some (.int t) →
        arguments s n sig (v :: rest) =
          (arguments s (n + 1) sig rest).map (Except.map (.int t (t.wrap m.toInt) :: ·)))) ∧
    (∀ t v list ms, payload? v = some (.list list) →
      List.Forall₂ (fun v m => ∃ id, payload? v = some (.int m id)) (s.listItems list).toList ms →
      ∀ n, argument s n (.slice (.int t)) v =
        some (.ok (.slice (.int t) (ms.map fun m => .int t (t.wrap m.toInt))))) ∧
    ∀ (t : IntType) (n : Int), t.Holds (t.wrap n) ∧ t.wrap n % twoTo t.bits = n % twoTo t.bits ∧
      (t.wrap n = n ↔ t.Holds n) := by
  refine ⟨?_, ?_, ?_, ?_⟩
  · intro t n hn
    obtain ⟨m, id, s', hvalue, hm⟩ := toValue_int s t n
    exact ⟨m, id, s', hvalue, hm, by rw [hm, IntType.wrap_int64_eq_iff hn]⟩
  · intro t v m id hv
    exact ⟨fromValue_int hv, argument_int hv, fun _ _ rest hwanted => arguments_int hwanted hv rest⟩
  · exact fun _ _ _ _ hv hms => argument_ints hv hms
  · exact fun t n => ⟨t.wrap_holds n, t.wrap_emod n, t.wrap_eq_iff n⟩

/-- The number 2 to the 63 of the host is not the integer that it becomes, and 300 becomes 44 as a
byte, by itself and in a list. -/
theorem integers_keep_low_bits_too_great :
    let s : Store := { (default : Store) with lists := #[#[.int 300 0]] }
    (∃ m id s', toValue s (.int .uint64 (2 ^ 63)) = (.ok (.int m id), s') ∧ m.toInt ≠ 2 ^ 63) ∧
      argument s 0 (.int .uint8) (.int 300 0) = some (.ok (.int .uint8 44)) ∧
      argument s 0 (.slice (.int .uint8)) (.list 0) =
        some (.ok (.slice (.int .uint8) [.int .uint8 44])) := by
  intro s
  obtain ⟨houtside, hint, hlist, -⟩ := integers_keep_low_bits s
  obtain ⟨m, id, s', hvalue, -, hm⟩ := houtside .uint64 (2 ^ 63) (by decide)
  have hbyte : IntType.uint8.wrap (300 : Int64).toInt = 44 := by decide
  refine ⟨⟨m, id, s', hvalue, fun h => absurd (hm.mp h) (by decide)⟩, ?_, ?_⟩
  · rw [(hint .uint8 (.int 300 0) 300 0 rfl).2.1, hbyte]
  · rw [hlist .uint8 (.list 0) 0 [300] rfl (.cons ⟨0, rfl⟩ .nil), List.map_singleton, hbyte]

end HostFunction

end Scriptlet
