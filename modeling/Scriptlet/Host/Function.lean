/-
The functions and things of the host program that scripts can be given.  What
a function does is for the surroundings of a run to say; a script knows what it
takes.
-/
import Scriptlet.Host.Type

namespace Scriptlet

/-- The parameters of a function of the host, and the type of any further
arguments it takes. -/
structure Signature where
  params : List HostType
  further : Option HostType
deriving DecidableEq, Repr

/-- How many arguments there have to be; none if more may follow. -/
def Signature.arity (sig : Signature) : Option Nat :=
  match sig.further with
  | some _ => none
  | none => some sig.params.length

structure HostFunction where
  number : Nat
  signature : Signature
deriving DecidableEq, Repr

/-- A thing of the host that scripts hold by reference, by its number and the name of the
type of the reference. -/
structure HostPointer where
  number : Nat
  typeName : String
deriving DecidableEq, Repr

end Scriptlet
