/-
Carrying values between the host and the language.
-/
import Scriptlet.Host.Value
import Scriptlet.Store

namespace Scriptlet

namespace Marshal

mutual

/-- The value of the language for a value of the host. -/
def toValue (s : Store) : HostValue → Except Text Value × Store
  | .nil | .nilPointer _ => (.ok .null, s)
  | .bool b => (.ok (.bool b), s)
  | .int _ n =>
    let (v, s) := s.newInt (Int64.ofInt n)
    (.ok v, s)
  | .float64 x =>
    let (v, s) := s.newFloat x
    (.ok v, s)
  | .float32 x =>
    let (v, s) := s.newFloat x.toFloat
    (.ok v, s)
  | .string t =>
    let (v, s) := s.newText t
    (.ok v, s)
  | .slice _ items | .array _ items =>
    match toValues s 0 #[] items with
    | (.error reason, s) => (.error reason, s)
    | (.ok values, s) =>
      let (v, s) := s.newList values
      (.ok v, s)
  | .pointer p =>
    let (v, s) := s.newHost p
    (.ok v, s)
  | .named _ inner => toValue s inner
  | .other typeName => (.error (Text.ofString ("unsupported Go type " ++ typeName)), s)
  | .function f =>
    let (v, s) := s.newHostFunction f "<go func>" false
    (.ok v, s)
  | .object v => (.ok v, s)

/-- The values of the language for values of the host, after those in
`before`; the first has the number `n`. -/
def toValues (s : Store) (n : Nat) (before : Array Value) :
    List HostValue → Except Text (Array Value) × Store
  | [] => (.ok before, s)
  | h :: rest =>
    match toValue s h with
    | (.error reason, s) =>
      (.error (Text.ofString ("element " ++ toString n ++ ": ") ++ reason), s)
    | (.ok v, s) => toValues s (n + 1) (before.push v) rest

end

/-- What is inside an option, and inside that; none if anything is absent. -/
def payload? : Value → Option Value
  | .some v _ => payload? v
  | .none => none
  | v => some v

def numberOf? (n : Int64) : HostType → Option HostValue
  | .int t => some (.int t (t.wrap n.toInt))
  | .float64 => some (.float64 n.toFloat)
  | .float32 => some (.float32 n.toFloat.toFloat32)
  | .named name shape => (numberOf? n shape).map (.named name)
  | _ => none

def ofInt (n : Int64) (wanted : Option HostType) : HostValue :=
  (wanted.bind (numberOf? n)).getD (.int .int n.toInt)

def ofFloat (x : Float) (wanted : Option HostType) : HostValue :=
  if wanted.map HostType.underlying == some .float32 then .float32 x.toFloat32 else .float64 x

/-- A value where one of a type is wanted, if it may stand there as it is. -/
def assign? (h : HostValue) (wanted : HostType) : Option HostValue :=
  if h.type == wanted || wanted == .any then some h
  else if h.type.isComposite && wanted.underlying == h.type then some (h.dress wanted)
  else none

/-- The type that the items of a list are wanted in, where a type is wanted for
the list or not. -/
def itemType (wanted : Option HostType) : HostType :=
  match wanted.map HostType.underlying with
  | some (.slice item) => item
  | _ => .any

mutual

/-- The value of the host for a value of the language, of the type that is
wanted where there is one for it; nothing comes of it if lists are met more than
`limit` deep inside each other. -/
def fromValue (s : Store) (limit : Nat) (wanted : Option HostType) (v : Value) :
    Option (Except Text HostValue) :=
  if wanted == some .object then some (.ok (.object v))
  else
    match payload? v with
    | none | some .null => some (.ok .nil)
    | some (.int n _) => some (.ok (ofInt n wanted))
    | some (.float x _) => some (.ok (ofFloat x wanted))
    | some (.bool b) => some (.ok (.bool b))
    | some (.str t _) => some (.ok (.string t))
    | some (.list id) =>
      match limit with
      | 0 => none
      | limit + 1 =>
        (fromValues s limit (itemType wanted) 0 [] (s.listItems id).toList).map
          (Except.map (HostValue.slice (itemType wanted)))
    | some (.host p _) => some (.ok (.pointer p))
    | some v =>
      some (.error (Text.ofString ("unsupported type for conversion: " ++ v.typeLabel)))
termination_by (limit, 0)

/-- The values of the host for the elements of a list, after those in `before`,
which are last first; the first has the number `n`. -/
def fromValues (s : Store) (limit : Nat) (item : HostType) (n : Nat) (before : List HostValue)
    (items : List Value) : Option (Except Text (List HostValue)) :=
  match items with
  | [] => some (.ok before.reverse)
  | v :: rest =>
    match fromValue s limit (some item) v with
    | none => none
    | some (.error reason) =>
      some (.error (Text.ofString ("element " ++ toString n ++ ": ") ++ reason))
    | some (.ok .nil) => fromValues s limit item (n + 1) (HostValue.zero item :: before) rest
    | some (.ok h) =>
      match assign? h item with
      | some h => fromValues s limit item (n + 1) (h :: before) rest
      | none =>
        some (.error (Text.ofString ("element " ++ toString n ++ ": cannot use " ++ h.type.name ++
          " as " ++ item.name)))
termination_by (limit, items.length + 1)

end

/-- What is not null goes into a list as one of the type of its items. -/
theorem fromValues_cons {s : Store} {limit : Nat} {item : HostType} {x : Value} {h : HostValue}
    (hx : fromValue s limit (some item) x = some (.ok h)) (hne : h ≠ .nil) (n : Nat)
    (before : List HostValue) (rest : List Value) :
    fromValues s limit item n before (x :: rest) =
      match assign? h item with
      | some h => fromValues s limit item (n + 1) (h :: before) rest
      | none =>
        some (.error (Text.ofString ("element " ++ toString n ++ ": cannot use " ++ h.type.name ++
          " as " ++ item.name))) := by
  rw [fromValues, hx]
  cases h with
  | nil => exact absurd rfl hne
  | _ => rfl

/-- How deep lists can be met inside each other, where a type is wanted or not,
before one is met inside itself and nothing ever comes of it. -/
def nestingLimit (s : Store) (wanted : Option HostType) : Nat :=
  s.lists.size + ((wanted.map HostType.depth).getD 0) + 2

/-- The value of the host for a value of the language; none if that never
comes to an end. -/
def ofValue (s : Store) (v : Value) : Option (Except Text HostValue) :=
  fromValue s (nestingLimit s none) none v

/-- A float without its fraction, for an integer type. -/
def truncate (t : IntType) (x : Float) : Int :=
  if t.isSigned || x < 0 then x.toInt64.toInt else x.toUInt64.toNat

/-- A value without names of types as one of a type without a name, where the host changes it
to that by itself. -/
def reshape? (h : HostValue) (wanted : HostType) : Option HostValue :=
  match h, wanted with
  | .bool b, .bool => some (.bool b)
  | .int _ n, .int t => some (.int t (t.wrap n))
  | .int _ n, .float64 => some (.float64 (Int64.ofInt n).toFloat)
  | .int _ n, .float32 => some (.float32 (Int64.ofInt n).toFloat.toFloat32)
  | .float64 x, .int t => some (.int t (t.wrap (truncate t x)))
  | .float32 x, .int t => some (.int t (t.wrap (truncate t x.toFloat)))
  | .float64 x, .float64 => some (.float64 x)
  | .float64 x, .float32 => some (.float32 x.toFloat32)
  | .float32 x, .float64 => some (.float64 x.toFloat)
  | .float32 x, .float32 => some (.float32 x)
  | .string t, .string => some (.string t)
  | .string t, .slice (.int .uint8) =>
    some (.slice (.int .uint8) (t.bytes.toList.map fun b => .int .uint8 b.toNat))
  | .string t, .slice (.int .int32) =>
    some (.slice (.int .int32) (t.chars.toList.map fun c => .int .int32 c.toNat))
  | .slice item items, .slice item' => if item = item' then some (.slice item items) else none
  | .slice item items, .array size item' =>
    if item = item' ∧ size ≤ items.length then some (.array item (items.take size)) else none
  | _, _ => none

/-- A value of the host changed to the type that is wanted, where the host
does that by itself. -/
def convert? (h : HostValue) (wanted : HostType) : Option HostValue :=
  (reshape? h.bare wanted.underlying).map fun h => h.dress wanted

/-- Whether the host breaks down over a value: it would have to make an array of a slice with
too few items. -/
def breaksOver (h : HostValue) (wanted : HostType) : Bool :=
  match h, wanted.underlying with
  | .slice item items, .array size item' => item == item' && items.length < size
  | _, _ => false

/-- The argument with the number `n` for a parameter of a type; none if
carrying it over never comes to an end, or the host breaks down over it. -/
def argument (s : Store) (n : Nat) (wanted : HostType) (v : Value) :
    Option (Except Text HostValue) :=
  (fromValue s (nestingLimit s (some wanted)) (some wanted) v).bind fun
    | .error reason =>
      some (.error (Text.ofString ("argument " ++ toString n ++ " conversion failed: ") ++ reason))
    | .ok .nil => some (.ok (HostValue.zero wanted))
    | .ok h =>
      match (assign? h wanted).or (convert? h wanted) with
      | some h => some (.ok h)
      | none =>
        if breaksOver h wanted then none
        else
          some (.error (Text.ofString ("argument " ++ toString n ++ ": cannot use " ++
            h.type.name ++ " as " ++ wanted.name)))

/-- What is not null is changed to the type of its parameter. -/
theorem argument_of_value {s : Store} {wanted : HostType} {x : Value} {h : HostValue}
    (hx : fromValue s (nestingLimit s (some wanted)) (some wanted) x = some (.ok h))
    (hne : h ≠ .nil) (n : Nat) :
    argument s n wanted x =
      match (assign? h wanted).or (convert? h wanted) with
      | some h => some (.ok h)
      | none =>
        if breaksOver h wanted then none
        else
          some (.error (Text.ofString ("argument " ++ toString n ++ ": cannot use " ++
            h.type.name ++ " as " ++ wanted.name))) := by
  rw [argument, hx]
  cases h with
  | nil => exact absurd rfl hne
  | _ => rfl

end Marshal

end Scriptlet
