/-
What a built-in operation answers, and the checks that many of them make.
-/
import Scriptlet.Value.Display

namespace Scriptlet

/-- The value that an operation gives or the cause of its failure, and what it
leaves in the store. -/
abbrev Answer := Except Fault Value × Store

namespace Store

def give (s : Store) (v : Value) : Answer := (.ok v, s)

/-- The answer that there is a failure. -/
def refuse (s : Store) (fault : Fault) : Answer := (.error fault, s)

/-- The answer that is a truth value. -/
def giveBool (s : Store) (b : Bool) : Answer := (.ok (.bool b), s)

def giveInt (s : Store) (n : Int64) : Answer :=
  let (v, s) := s.newInt n
  (.ok v, s)

def giveFloat (s : Store) (x : Float) : Answer :=
  let (v, s) := s.newFloat x
  (.ok v, s)

/-- The answer that is a new string. -/
def giveText (s : Store) (t : Text) : Answer :=
  let (v, s) := s.newText t
  (.ok v, s)

/-- The answer that is a new option around a value. -/
def giveSome (s : Store) (v : Value) : Answer :=
  let (v, s) := s.newSome v
  (.ok v, s)

def giveList (s : Store) (items : Array Value) : Answer :=
  let (v, s) := s.newList items
  (.ok v, s)

/-- The answer to a text that is to be printed: the writer may fail. -/
def printText (s : Store) (t : Text) : Answer :=
  match s.outside.writer t with
  | none => { s with output := s.output ++ t }.give .null
  | some fault =>
    { s with output := s.output ++ t.slice 0 fault.taken }.refuse (.outside "print" fault.reason)

/-- The answer of a method to a receiver that it does not belong to. -/
def refuseReceiver (s : Store) (method : String) (args : List Value) : Answer :=
  match args with
  | [] => s.refuse (.noReceiver method)
  | v :: _ => s.refuse (.wrongReceiver method (s.typeName v))

def refuseType (s : Store) (what expected : String) (v : Value) : Answer :=
  s.refuse (.wrongType what expected (s.typeName v))

/-- The answer of an operator to operands that do not go together. -/
def refuseOperands (s : Store) (symbol : String) (left right : Value) : Answer :=
  s.refuse (.operands symbol (s.typeName left) (s.typeName right))

end Store

/-- Why something of a length cannot be repeated so often: the result would be
longer than a sequence may be. -/
def repetitionFault? (size : Nat) (times : Int64) : Option Fault :=
  if times ≤ 0 then none
  else if maxSequenceLength / times.toInt.toNat < size then some (.repetition size times.toInt)
  else none

end Scriptlet
