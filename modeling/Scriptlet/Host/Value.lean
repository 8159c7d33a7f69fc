/-
The values of the host program, as far as scripts can meet them.
-/
import Scriptlet.Value.Basic

namespace Scriptlet

/-- A value of the host.  `nil` is the value of no type, `named` one of a type
that the host defined, `other` one that scripts can do nothing with, and
`object` a value of the language handed through as it is. -/
inductive HostValue where
  | nil
  | bool (b : Bool)
  | int (t : IntType) (n : Int)
  | float64 (x : Float)
  | float32 (x : Float32)
  | string (t : Text)
  | slice (item : HostType) (items : List HostValue)
  | array (item : HostType) (items : List HostValue)
  | pointer (p : HostPointer)
  | nilPointer (typeName : String)
  | named (name : String) (inner : HostValue)
  | other (typeName : String)
  | function (f : HostFunction)
  | object (v : Value)

instance : Inhabited HostValue := ⟨.nil⟩

namespace HostValue

def type : HostValue → HostType
  | .nil => .any
  | .bool _ => .bool
  | .int t _ => .int t
  | .float64 _ => .float64
  | .float32 _ => .float32
  | .string _ => .string
  | .slice item _ => .slice item
  | .array item items => .array items.length item
  | .pointer p => .pointer p.typeName
  | .nilPointer typeName => .pointer typeName
  | .named name inner => .named name inner.type
  | .other typeName => .other typeName
  | .function _ => .other "func"
  | .object _ => .object

/-- The value that a variable of a type holds before any is given to it. -/
def zero : HostType → HostValue
  | .bool => .bool false
  | .int t => .int t 0
  | .float64 => .float64 0
  | .float32 => .float32 0
  | .string => .string .empty
  | .slice item => .slice item []
  | .array size item => .array item (List.replicate size (zero item))
  | .any | .object => .nil
  | .pointer name => .nilPointer name
  | .named name shape => .named name (zero shape)
  | .other name => .other name

/-- A value without the names of the types that it is of. -/
def bare : HostValue → HostValue
  | .named _ inner => inner.bare
  | h => h

/-- A value as one of a type that was defined from its own. -/
def dress (h : HostValue) : HostType → HostValue
  | .named name shape => .named name (h.dress shape)
  | _ => h

end HostValue

inductive HostMember where
  | method (f : HostFunction)
  | field (h : HostValue)

end Scriptlet
