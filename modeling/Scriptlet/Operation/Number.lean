/-
Operations of integers, floats, truth values and null.
-/
import Scriptlet.Operation.Basic
import Scriptlet.Number.Remainder

namespace Scriptlet

namespace NumberOp

/-- An operator between integers.  Results keep their low 64 bits, and
division goes toward zero. -/
def ofInts (s : Store) (op : NumberOp) (a b : Int64) : Answer :=
  match op with
  | .add => s.giveInt (a + b)
  | .sub => s.giveInt (a - b)
  | .mul => s.giveInt (a * b)
  | .div => if b = 0 then s.refuse (.divisionByZero "integer division") else s.giveInt (a / b)
  | .mod => if b = 0 then s.refuse (.divisionByZero "integer modulo") else s.giveInt (a % b)
  | .less => s.giveBool (a < b)
  | .greater => s.giveBool (b < a)
  | .lessEq => s.giveBool (a ≤ b)
  | .greaterEq => s.giveBool (b ≤ a)
  | .equal => s.giveBool (a == b)

def ofFloats (s : Store) (op : NumberOp) (a b : Float) : Answer :=
  match op with
  | .add => s.giveFloat (a + b)
  | .sub => s.giveFloat (a - b)
  | .mul => s.giveFloat (a * b)
  | .div => if b == 0 then s.refuse (.divisionByZero "float division") else s.giveFloat (a / b)
  | .mod =>
    if b == 0 then s.refuse (.divisionByZero "float modulo") else s.giveFloat (floatRemainder a b)
  | .less => s.giveBool (a < b)
  | .greater => s.giveBool (b < a)
  | .lessEq => s.giveBool (a ≤ b)
  | .greaterEq => s.giveBool (b ≤ a)
  | .equal => s.giveBool (a == b)

/-- An operator between two values, the left of which must be a number; an
integer beside a float counts as a float. -/
def answer (s : Store) (op : NumberOp) (left right : Value) : Answer :=
  match left, right with
  | .int a _, .int b _ => ofInts s op a b
  | .int a _, .float b _ => ofFloats s op a.toFloat b
  | .float a _, .int b _ => ofFloats s op a b.toFloat
  | .float a _, .float b _ => ofFloats s op a b
  | .int _ _, _ | .float _ _, _ => s.refuseOperands op.symbol left right
  | _, _ => s.refuseReceiver op.hook [left]

end NumberOp

namespace NumberMethod

def ofInt (s : Store) (m : NumberMethod) (v : Value) : Answer :=
  match v with
  | .int n _ =>
    match m with
    | .negate => s.giveInt (-n)
    | .absolute =>
      if n = Int64.minValue then s.refuse (.absOverflow n.toInt)
      else if n < 0 then s.giveInt (-n)
      else s.give v
    | .posit => s.give v
    | .truth => s.giveBool (n != 0)
    | .display => s.giveText (s.display v)
  | _ => s.refuseReceiver m.name [v]

def ofFloat (s : Store) (m : NumberMethod) (v : Value) : Answer :=
  match v with
  | .float x _ =>
    match m with
    | .negate => s.giveFloat (-x)
    | .absolute => s.giveFloat x.abs
    | .posit => s.give v
    | .truth => s.giveBool (x != 0)
    | .display => s.giveText (s.display v)
  | _ => s.refuseReceiver m.name [v]

end NumberMethod

/-- A method of a truth value. -/
def BoolMethod.answer (s : Store) (m : BoolMethod) (args : List Value) : Answer :=
  match m, args with
  | .truth, [.bool b] => s.giveBool b
  | .invert, [.bool b] => s.giveBool !b
  | .display, [.bool b] => s.giveText (s.display (.bool b))
  | .both, [.bool a, .bool b] => s.giveBool (a && b)
  | .either, [.bool a, .bool b] => s.giveBool (a || b)
  | .equal, [.bool a, .bool b] => s.giveBool (a == b)
  | .both, [.bool a, other] => s.refuseOperands m.name (.bool a) other
  | .either, [.bool a, other] => s.refuseOperands m.name (.bool a) other
  | .equal, [.bool a, other] => s.refuseOperands NumberOp.equal.symbol (.bool a) other
  | _, _ => s.refuseReceiver m.name args

/-- A method of null, which it does not look at. -/
def NullMethod.answer (s : Store) (m : NullMethod) (args : List Value) : Answer :=
  match m, args with
  | .truth, _ => s.giveBool false
  | .equal, [_, .null] => s.giveBool true
  | .equal, _ => s.giveBool false
  | .display, _ => s.giveText (s.display .null)

end Scriptlet
