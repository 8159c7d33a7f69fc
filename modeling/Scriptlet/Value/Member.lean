/-
Members of values: fields, methods and the hooks that every value has.
-/
import Scriptlet.Host.Call

namespace Scriptlet

namespace Store

/-- The hook that every value has under a name: its text, and being the same
object. -/
def commonMember (s : Store) (v : Value) : String → Except Fault Value
  | "__repr__" => .ok (.builtin .defaultRepr)
  | "__is_eq__" => .ok (.builtin .sameObject)
  | name => .error (.noAttribute (s.typeName v) name)

def member (s : Store) (v : Value) (name : String) : Except Fault Value × Store :=
  match v with
  | .instance id =>
    match s.field? id name with
    | some field => (.ok field, s)
    | none => (s.commonMember v name, s)
  | .module m =>
    match m.member? name with
    | some (.module inner) => (.ok (.module inner), s)
    | some (.builtin b) => (.ok (.builtin b), s)
    | none => (s.commonMember v name, s)
  | .host p _ =>
    match p.member? s name with
    | some found => found
    | none => (s.commonMember v name, s)
  | _ =>
    match v.method? name with
    | some m => (.ok (.builtin m), s)
    | none => (s.commonMember v name, s)

end Store

end Scriptlet
