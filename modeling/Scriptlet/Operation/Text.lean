/-
Operations of strings.
-/
import Scriptlet.Operation.Basic
import Scriptlet.Text

namespace Scriptlet

namespace TextMethod

/-- A method of a string with no further argument. -/
def alone (s : Store) (m : TextMethod) (t : Text) : Answer :=
  match m with
  | .truth => s.giveBool !t.isEmpty
  | .display => s.giveText t.quote
  | .length => s.giveInt (Int64.ofNat t.length)
  | .iter =>
    let (v, s) := s.newTextIter t
    s.give v
  | .upper => s.giveText t.upper
  | .lower => s.giveText t.lower
  | .trim => s.giveText t.trim
  | _ => s.give .null

def character (s : Store) (t : Text) (index : Int64) : Answer :=
  match if index < 0 then none else t.nth? index.toInt.toNat with
  | some c => s.giveText (Text.ofChar c)
  | none => s.refuse (.textIndex index.toInt t.length)

def repeated (s : Store) (t : Text) (times : Int64) : Answer :=
  match repetitionFault? t.size times with
  | some fault => s.refuse fault
  | none => s.giveText (t.times times.toInt.toNat)

/-- A method of a string with an argument. -/
def applied (s : Store) (m : TextMethod) (receiver : Value) (t : Text) (arg : Value) : Answer :=
  match m, arg with
  | .add, .str u _ => s.giveText (t ++ u)
  | .add, _ => s.refuseOperands NumberOp.add.symbol receiver arg
  | .mul, .int n _ => repeated s t n
  | .mul, _ => s.refuseOperands NumberOp.mul.symbol receiver arg
  | .order op, .str u _ => s.giveBool (op.holds (t.cmp u))
  | .order op, _ => s.refuseOperands op.number.symbol receiver arg
  | .index, .int n _ => character s t n
  | .index, _ => s.refuseType "string index" "Int" arg
  | .contains, .str u _ => s.giveBool (t.contains u)
  | .contains, _ => s.refuseType "contains() argument" "Str" arg
  | .split, .str u _ =>
    let (v, s) := s.newTexts (t.split u).toList
    s.give v
  | .split, _ => s.refuseType "split() separator" "Str" arg
  | _, _ => s.give .null

/-- A method of a string. -/
def answer (s : Store) (m : TextMethod) (args : List Value) : Answer :=
  match args with
  | [.str t _] => m.alone s t
  | [.str t id, arg] => m.applied s (.str t id) t arg
  | _ => s.refuseReceiver m.name args

end TextMethod

end Scriptlet
