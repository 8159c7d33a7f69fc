/-
The types of the host program, as far as scripts can meet them.
-/
import Scriptlet.Number.Power

namespace Scriptlet

inductive IntType where
  | int | int8 | int16 | int32 | int64 | uint | uint8 | uint16 | uint32 | uint64
deriving DecidableEq, Repr

namespace IntType

def name : IntType → String
  | .int => "int"
  | .int8 => "int8"
  | .int16 => "int16"
  | .int32 => "int32"
  | .int64 => "int64"
  | .uint => "uint"
  | .uint8 => "uint8"
  | .uint16 => "uint16"
  | .uint32 => "uint32"
  | .uint64 => "uint64"

def bits : IntType → Nat
  | .int | .int64 | .uint | .uint64 => 64
  | .int8 | .uint8 => 8
  | .int16 | .uint16 => 16
  | .int32 | .uint32 => 32

def isSigned : IntType → Bool
  | .int | .int8 | .int16 | .int32 | .int64 => true
  | _ => false

/-- The number of the type that a number becomes by keeping its low bits. -/
def wrap (t : IntType) (n : Int) : Int :=
  if t.isSigned then n.bmod (twoTo t.bits) else n % (twoTo t.bits)

end IntType

/-- The types of the host.  One that the host defines from another has a name of its own, a
pointer type goes by its name, and `other` is a type that no value of a script is carried
over to. -/
inductive HostType where
  | bool
  | int (t : IntType)
  | float64
  | float32
  | string
  | slice (item : HostType)
  | array (size : Nat) (item : HostType)
  | any
  | object
  | pointer (name : String)
  | named (name : String) (shape : HostType)
  | other (name : String)
deriving DecidableEq, Repr

namespace HostType

/-- What the host calls a type. -/
def name : HostType → String
  | .bool => "bool"
  | .int t => t.name
  | .float64 => "float64"
  | .float32 => "float32"
  | .string => "string"
  | .slice item => "[]" ++ item.name
  | .array size item => "[" ++ toString size ++ "]" ++ item.name
  | .any => "interface \x7b\x7d"
  | .object => "evaluator.Object"
  | .pointer name | .named name _ | .other name => name

/-- The type that a type was defined from in the end. -/
def underlying : HostType → HostType
  | .named _ shape => shape.underlying
  | t => t

/-- Whether a type has no name, but is put together from others. -/
def isComposite : HostType → Bool
  | .slice _ | .array _ _ | .pointer _ => true
  | _ => false

/-- How many slices a type is made of before that of the innermost items. -/
def depth : HostType → Nat
  | .slice item => item.depth + 1
  | .named _ shape => shape.depth
  | _ => 0

end HostType

end Scriptlet
