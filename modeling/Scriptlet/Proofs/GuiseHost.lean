/-
The host in another guise.  What is carried over between the host and the
language is recast, and functions of the host do with it the same.
-/
import Scriptlet.Proofs.GuiseOperations

namespace Scriptlet

section

variable (v : Veil) (s : Store)

namespace Marshal

mutual

theorem toValue_recast (v : Veil) (s : Store) : (h : HostValue) →
    toValue (s.recast v) (h.recast v.toGuise) = v.carried (toValue s h)
  | .nil | .nilPointer _ | .bool _ | .int _ _ | .float64 _ | .float32 _ | .string _
  | .pointer _ | .other _ | .function _ | .object _ => rfl
  | .named _ inner => toValue_recast v s inner
  | .slice _ items | .array _ items => by
    have hitems := toValues_recast v s 0 #[] items
    rw [Array.map_empty] at hitems
    simp only [HostValue.recast, toValue, hitems]
    cases toValues s 0 #[] items with
    | mk made s' =>
        cases made with
        | error reason => rfl
        | ok values =>
            dsimp only [Except.map]
            rw [Store.newList_recast]
            rfl

theorem toValues_recast (v : Veil) (s : Store) (n : Nat) (before : Array Value) :
    (hs : List HostValue) →
    toValues (s.recast v) n (before.map (Value.recast v.toGuise))
        (HostValue.recast.hostValuesRecast v.toGuise hs) =
      ((toValues s n before hs).1.map fun values => values.map (Value.recast v.toGuise),
        (toValues s n before hs).2.recast v)
  | [] => rfl
  | h :: hs => by
    simp only [HostValue.recast.hostValuesRecast, toValues, toValue_recast v s h]
    cases toValue s h with
    | mk made s' =>
        cases made with
        | error reason => rfl
        | ok x =>
            have hrest := toValues_recast v s' (n + 1) (before.push x) hs
            rw [Array.map_push] at hrest
            exact hrest

end

theorem payload?_recast (g : Guise) (x : Value) :
    payload? (x.recast g) = (payload? x).map (Value.recast g) := by
  induction x with
  | some x id ih => exact ih
  | _ => rfl

theorem type_recast (g : Guise) : (h : HostValue) → (h.recast g).type = h.type
  | .array item items => by
    simp only [HostValue.recast, HostValue.hostValuesRecast_eq_map, HostValue.type,
      List.length_map]
  | .named name inner => congrArg (HostType.named name) (type_recast g inner)
  | .nil | .nilPointer _ | .bool _ | .int _ _ | .float64 _ | .float32 _ | .string _
  | .slice _ _ | .pointer _ | .other _ | .function _ | .object _ => rfl

theorem zero_recast (g : Guise) (t : HostType) :
    (HostValue.zero t).recast g = HostValue.zero t := by
  induction t with
  | array size item ih =>
      simp only [HostValue.zero, HostValue.recast, HostValue.hostValuesRecast_eq_map,
        List.map_replicate, ih]
  | named name shape ih => exact congrArg (HostValue.named name) ih
  | _ => rfl

theorem dress_recast (g : Guise) (h : HostValue) (t : HostType) :
    (h.dress t).recast g = (h.recast g).dress t := by
  induction t with
  | named name shape ih => exact congrArg (HostValue.named name) ih
  | _ => rfl

theorem bare_recast (g : Guise) : (h : HostValue) → (h.recast g).bare = h.bare.recast g
  | .named _ inner => bare_recast g inner
  | .nil | .nilPointer _ | .bool _ | .int _ _ | .float64 _ | .float32 _ | .string _
  | .slice _ _ | .array _ _ | .pointer _ | .other _ | .function _ | .object _ => rfl

theorem assign?_recast (g : Guise) (h : HostValue) (wanted : HostType) :
    assign? (h.recast g) wanted = (assign? h wanted).map (HostValue.recast g) := by
  simp only [assign?, type_recast]
  split
  · rfl
  · split
    · exact congrArg some (dress_recast g h wanted).symm
    · rfl

theorem recast_eq_nil_iff (g : Guise) (h : HostValue) : h.recast g = .nil ↔ h = .nil := by
  cases h <;> simp [HostValue.recast]

theorem fromValues_recast_of {limit : Nat}
    (h : ∀ wanted x, fromValue (s.recast v) limit wanted (x.recast v.toGuise) =
      (fromValue s limit wanted x).map (Except.map (HostValue.recast v.toGuise)))
    (item : HostType) (n : Nat) (before : List HostValue) (items : List Value) :
    fromValues (s.recast v) limit item n (before.map (HostValue.recast v.toGuise))
        (items.map (Value.recast v.toGuise)) =
      (fromValues s limit item n before items).map
        (Except.map fun hs => hs.map (HostValue.recast v.toGuise)) := by
  induction items generalizing n before with
  | nil =>
      rw [List.map_nil, fromValues, fromValues, ← List.map_reverse]
      rfl
  | cons x rest ih =>
      have hx := h (some item) x
      rw [List.map_cons]
      cases hmade : fromValue s limit (some item) x with
      | none =>
          rw [fromValues, fromValues, hx, hmade]
          rfl
      | some made =>
          rw [hmade] at hx
          cases made with
          | error reason =>
              rw [fromValues, fromValues, hx, hmade]
              rfl
          | ok host =>
              by_cases hnil : host = .nil
              · subst hnil
                have hrest := ih (n + 1) (HostValue.zero item :: before)
                rw [List.map_cons, zero_recast] at hrest
                rw [fromValues, fromValues, hx, hmade]
                exact hrest
              · have hnil' := mt (recast_eq_nil_iff v.toGuise host).mp hnil
                rw [fromValues_cons hmade hnil, fromValues_cons hx hnil', assign?_recast,
                  type_recast]
                cases assign? host item with
                | none => rfl
                | some h => exact ih (n + 1) (h :: before)

theorem ofInt_recast (g : Guise) (n : Int64) (wanted : Option HostType) :
    (ofInt n wanted).recast g = ofInt n wanted := by
  have hnumber : ∀ t, (numberOf? n t).map (HostValue.recast g) = numberOf? n t := by
    intro t
    induction t with
    | named name shape ih =>
        have hnamed := congrArg (Option.map (HostValue.named name)) ih
        rw [Option.map_map] at hnamed
        simp only [numberOf?, Option.map_map]
        exact hnamed
    | _ => rfl
  unfold ofInt
  cases wanted with
  | none => rfl
  | some t =>
      have hnumber := hnumber t
      rw [Option.bind_some]
      cases hmade : numberOf? n t with
      | none => rfl
      | some h =>
          rw [hmade] at hnumber
          exact Option.some.inj hnumber

theorem ofFloat_recast (g : Guise) (x : Float) (wanted : Option HostType) :
    (ofFloat x wanted).recast g = ofFloat x wanted := by
  unfold ofFloat
  split <;> rfl

/-- What is carried over is recast if what is inside lists is. -/
theorem fromValue_recast_of {limit : Nat}
    (hlist : ∀ (item : HostType) (id : Nat),
      (match limit with
        | 0 => none
        | limit + 1 =>
          (fromValues (s.recast v) limit item 0 [] ((s.recast v).listItems id).toList).map
            (Except.map (HostValue.slice item))) =
        Option.map (Except.map (HostValue.recast v.toGuise))
          (match limit with
            | 0 => none
            | limit + 1 =>
              (fromValues s limit item 0 [] (s.listItems id).toList).map
                (Except.map (HostValue.slice item))))
    (wanted : Option HostType) (x : Value) :
    fromValue (s.recast v) limit wanted (x.recast v.toGuise) =
      (fromValue s limit wanted x).map (Except.map (HostValue.recast v.toGuise)) := by
  unfold fromValue
  split
  · rfl
  · rw [payload?_recast]
    cases payload? x with
    | none => rfl
    | some y =>
        cases y with
        | int n id =>
            exact congrArg (fun h => some (Except.ok h)) (ofInt_recast v.toGuise n wanted).symm
        | float x id =>
            exact congrArg (fun h => some (Except.ok h)) (ofFloat_recast v.toGuise x wanted).symm
        | list id => exact hlist _ id
        | _ => rfl

theorem fromValue_recast (limit : Nat) (wanted : Option HostType) (x : Value) :
    fromValue (s.recast v) limit wanted (x.recast v.toGuise) =
      (fromValue s limit wanted x).map (Except.map (HostValue.recast v.toGuise)) := by
  induction limit generalizing wanted x with
  | zero => exact fromValue_recast_of v s (fun _ _ => rfl) wanted x
  | succ limit ih =>
      apply fromValue_recast_of
      intro item id
      have hitems := fromValues_recast_of v s ih item 0 [] (s.listItems id).toList
      rw [List.map_nil, ← Array.toList_map, ← Store.listItems_recast] at hitems
      dsimp only
      rw [hitems]
      rcases fromValues s limit item 0 [] (s.listItems id).toList with _ | reason | hs
      · rfl
      · rfl
      · have hmap := HostValue.hostValuesRecast_eq_map v.toGuise hs
        exact congrArg (fun hs => some (Except.ok (HostValue.slice item hs))) hmap.symm

theorem nestingLimit_recast (wanted : Option HostType) :
    nestingLimit (s.recast v) wanted = nestingLimit s wanted := by
  simp [nestingLimit, Store.recast]

theorem reshape?_recast (g : Guise) (h : HostValue) (wanted : HostType) :
    reshape? (h.recast g) wanted = (reshape? h wanted).map (HostValue.recast g) := by
  cases h with
  | slice item items =>
      cases wanted with
      | slice item' =>
          simp only [HostValue.recast, reshape?]
          split <;> rfl
      | array size item' =>
          simp only [HostValue.recast, reshape?, HostValue.hostValuesRecast_eq_map,
            List.length_map, ← List.map_take]
          split
          · simp only [Option.map_some, HostValue.recast, HostValue.hostValuesRecast_eq_map]
          · rfl
      | _ => rfl
  | string t =>
      cases wanted with
      | slice item =>
          cases item with
          | int n =>
              cases n <;> simp only [HostValue.recast, reshape?, Option.map_some, Option.map_none,
                HostValue.hostValuesRecast_eq_map, List.map_map, Function.comp_def]
          | _ => rfl
      | _ => rfl
  | _ => cases wanted <;> rfl

theorem convert?_recast (g : Guise) (h : HostValue) (wanted : HostType) :
    convert? (h.recast g) wanted = (convert? h wanted).map (HostValue.recast g) := by
  simp only [convert?, bare_recast, reshape?_recast]
  cases reshape? h.bare wanted.underlying with
  | none => rfl
  | some h => exact congrArg some (dress_recast g h wanted).symm

theorem breaksOver_recast (g : Guise) (h : HostValue) (wanted : HostType) :
    breaksOver (h.recast g) wanted = breaksOver h wanted := by
  cases h with
  | slice item items =>
      simp only [HostValue.recast, HostValue.hostValuesRecast_eq_map, breaksOver]
      cases wanted.underlying with
      | array size item' => simp only [List.length_map]
      | _ => rfl
  | _ => rfl

theorem argument_recast (n : Nat) (wanted : HostType) (x : Value) :
    argument (s.recast v) n wanted (x.recast v.toGuise) =
      (argument s n wanted x).map (Except.map (HostValue.recast v.toGuise)) := by
  have hx := fromValue_recast v s (nestingLimit s (some wanted)) (some wanted) x
  rw [← nestingLimit_recast v s] at hx
  cases hmade : fromValue s (nestingLimit s (some wanted)) (some wanted) x with
  | none =>
      rw [nestingLimit_recast, hmade] at hx
      rw [argument, argument, nestingLimit_recast, hx, hmade]
      rfl
  | some made =>
      rw [nestingLimit_recast, hmade, ← nestingLimit_recast v s] at hx
      cases made with
      | error reason =>
          rw [argument, argument, hx, hmade]
          rfl
      | ok host =>
          by_cases hnil : host = .nil
          · subst hnil
            rw [argument, argument, hx, hmade]
            exact congrArg (fun h => some (@Except.ok Text HostValue h))
              (zero_recast v.toGuise wanted).symm
          · have hnil' := mt (recast_eq_nil_iff v.toGuise host).mp hnil
            rw [argument_of_value hmade hnil, argument_of_value hx hnil', assign?_recast,
              convert?_recast, breaksOver_recast, type_recast]
            cases assign? host wanted with
            | some h => rfl
            | none =>
                cases convert? host wanted with
                | some h => rfl
                | none =>
                    change (if _ then _ else _) = Option.map _ (if _ then _ else _)
                    split <;> rfl

end Marshal

/-- Whether the host, asked in a guise for what a value stands for, answers in that
guise. -/
def Guise.Knows (g : Guise) (h : Host) : Value → Prop
  | .hostFunction f _ _ _ => ∀ args : List HostValue,
    (h.recast g).call (f.recast g) (args.map (HostValue.recast g)) =
      (h.call f args).map fun hs => hs.map (HostValue.recast g)
  | .host p _ => ∀ name : String,
    (h.recast g).member (p.recast g) name = (h.member p name).map (HostMember.recast g)
  | _ => True

namespace HostFunction

theorem arguments_recast (n : Nat) (sig : Signature) (args : List Value) :
    arguments (s.recast v) n sig (args.map (Value.recast v.toGuise)) =
      (arguments s n sig args).map (Except.map fun hs => hs.map (HostValue.recast v.toGuise)) := by
  induction args generalizing n with
  | nil => rfl
  | cons x rest ih =>
      rw [List.map_cons, arguments, arguments]
      cases (sig.params[n]?).or sig.further with
      | none => rfl
      | some wanted =>
          dsimp only
          rw [Marshal.argument_recast, ih]
          rcases Marshal.argument s n wanted x with _ | reason | h
          · rfl
          · rfl
          · rcases arguments s (n + 1) sig rest with _ | reason | hs <;> rfl

theorem collect_recast (hs : List HostValue) (s : Store) (before : Array Value) :
    results.collect (s.recast v) (before.map (Value.recast v.toGuise))
        (hs.map (HostValue.recast v.toGuise)) = v.carried (results.collect s before hs) := by
  induction hs generalizing s before with
  | nil =>
      simp only [List.map_nil, results.collect, Store.newList_recast]
      rfl
  | cons h rest ih =>
      rw [List.map_cons, results.collect, results.collect, Marshal.toValue_recast]
      cases Marshal.toValue s h with
      | mk made s' =>
          cases made with
          | error reason => rfl
          | ok x =>
              have hrest := ih s' (before.push x)
              rw [Array.map_push] at hrest
              exact hrest

theorem results_recast (hs : List HostValue) :
    results (s.recast v) (hs.map (HostValue.recast v.toGuise)) = v.carried (results s hs) := by
  rcases hs with _ | ⟨a, _ | ⟨b, rest⟩⟩
  · rfl
  · exact Marshal.toValue_recast v s a
  · have hall := collect_recast v (a :: b :: rest) s #[]
    rw [Array.map_empty] at hall
    exact hall

/-- A function of a host that answers in a guise does so. -/
theorem call_recast (f : HostFunction) (args : List Value)
    (hknows : ∀ args : List HostValue,
      (s.outside.host.recast v.toGuise).call (f.recast v.toGuise)
          (args.map (HostValue.recast v.toGuise)) =
        (s.outside.host.call f args).map fun hs => hs.map (HostValue.recast v.toGuise)) :
    (f.recast v.toGuise).call (s.recast v) (args.map (Value.recast v.toGuise)) =
      (f.call s args).map v.carried := by
  have hsignature : (f.recast v.toGuise).signature = f.signature := rfl
  have hasked : ∀ hs : List HostValue,
      (s.recast v).askHost (f.recast v.toGuise) (hs.map (HostValue.recast v.toGuise)) =
        ((s.askHost f hs).1.map (fun hs => hs.map (HostValue.recast v.toGuise)),
          (s.askHost f hs).2.recast v) :=
    fun hs => congrArg (·, _) (hknows hs)
  simp only [call, hsignature, List.length_map, arguments_recast]
  split
  · rfl
  · rcases arguments s 0 f.signature args with _ | reason | hs
    · rfl
    · rfl
    · dsimp only [Option.map, Except.map]
      rw [hasked]
      rcases s.askHost f hs with ⟨reason | hs, s'⟩
      · rfl
      · exact congrArg some (results_recast v s' hs)

end HostFunction

theorem HostPointer.member?_recast (p : HostPointer) (name : String)
    (hknows : (s.outside.host.recast v.toGuise).member (p.recast v.toGuise) name =
      (s.outside.host.member p name).map (HostMember.recast v.toGuise)) :
    (p.recast v.toGuise).member? (s.recast v) name =
      (p.member? s name).map (Answer.recast v) := by
  have hhost : (s.recast v).outside.host = s.outside.host.recast v.toGuise := rfl
  simp only [member?, hhost, hknows]
  cases s.outside.host.member p name with
  | none => rfl
  | some m =>
      cases m with
      | method f => rfl
      | field h =>
          dsimp only [Option.map, HostMember.recast]
          rw [Marshal.toValue_recast v s h]
          cases Marshal.toValue s h with
          | mk r s' => cases r <;> rfl

namespace Store

theorem commonMember_recast (x : Value) (name : String) :
    (s.recast v).commonMember (x.recast v.toGuise) name = s.commonMember x name := by
  unfold commonMember
  rw [typeName_recast]

theorem commonMember_answer (x : Value) (name : String) :
    Answer.recast v (s.commonMember x name, s) = (s.commonMember x name, s.recast v) := by
  unfold commonMember
  split <;> rfl

/-- A value has in every guise the same members, if the host answers in that
guise. -/
theorem member_recast (x : Value) (name : String)
    (hknows : v.Knows s.outside.host x) :
    (s.recast v).member (x.recast v.toGuise) name = Answer.recast v (s.member x name) := by
  have hcommon : Answer.recast v (s.commonMember x name, s) =
      ((s.recast v).commonMember (x.recast v.toGuise) name, s.recast v) := by
    rw [commonMember_answer, commonMember_recast]
  cases x with
  | «instance» id =>
      have hfield := field?_recast v s id name
      simp only [member, Value.recast, hfield]
      cases s.field? id name with
      | none => exact hcommon.symm
      | some f => rfl
  | module m =>
      simp only [member, Value.recast]
      cases m.member? name with
      | none => exact hcommon.symm
      | some found => cases found <;> rfl
  | host p id =>
      simp only [member, Value.recast, HostPointer.member?_recast v s p name (hknows name)]
      cases p.member? s name with
      | none => exact hcommon.symm
      | some found => rfl
  | function f id | classOf c id | hostFunction f _ bound id => exact hcommon.symm
  | some y id =>
      have hmethod : (Value.some (y.recast v.toGuise) id).method? name =
          (Value.some y id).method? name := rfl
      simp only [member, Value.recast, hmethod]
      cases (Value.some y id).method? name with
      | none => exact hcommon.symm
      | some m => rfl
  | _ =>
      simp only [member, Value.recast]
      cases Value.method? _ name with
      | none => exact hcommon.symm
      | some m => rfl

end Store

end

end Scriptlet
