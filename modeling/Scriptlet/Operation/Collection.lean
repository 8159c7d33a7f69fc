/-
Operations of lists, ranges, iterators and options, as far as they ask
nothing of the values inside.
-/
import Scriptlet.Operation.Basic

namespace Scriptlet

/-- The number that an index into something has, if it is not negative. -/
def indexOf? (n : Int64) : Option Nat := if n < 0 then none else some n.toInt.toNat

def Store.element? (s : Store) (list : Nat) (index : Int64) : Option Value :=
  (indexOf? index).bind fun i => (s.listItems list)[i]?

def Store.changeList (s : Store) (list : Nat) (change : Array Value → Array Value) : Store :=
  { s with lists := s.lists.modify list change }

def repeatInto (items : Array Value) : Nat → Array Value → Array Value
  | 0, before => before
  | n + 1, before => repeatInto items n (before ++ items)

namespace ListMethod

def repeated (s : Store) (items : Array Value) (times : Int64) : Answer :=
  if items.isEmpty || times ≤ 0 then s.giveList #[]
  else
    match repetitionFault? items.size times with
    | some fault => s.refuse fault
    | none => s.giveList (repeatInto items times.toInt.toNat #[])

/-- The last element, taken off. -/
def popped (s : Store) (list : Nat) : Answer :=
  match (s.listItems list).back? with
  | none => s.give .none
  | some last => (s.changeList list Array.pop).giveSome last

/-- A method of a list that asks nothing of the elements. -/
def answer (s : Store) (m : ListMethod) (args : List Value) : Answer :=
  match m, args with
  | .length, [.list id] => s.giveInt (Int64.ofNat (s.listItems id).size)
  | .truth, [.list id] => s.giveBool !(s.listItems id).isEmpty
  | .iter, [.list id] =>
    let (v, s) := s.newListIter id
    s.give v
  | .pop, [.list id] => popped s id
  | .push, [.list id, v] => (s.changeList id (fun items => items.push v)).give .null
  | .get, [.list id, .int n _] =>
    match s.element? id n with
    | some v => s.giveSome v
    | none => s.give .none
  | .index, [.list id, .int n _] =>
    match s.element? id n with
    | some v => s.give v
    | none => s.refuse (.listIndex n.toInt)
  | .store, [.list id, .int n _, v] =>
    match s.element? id n with
    | some _ => (s.changeList id (fun items => items.modify n.toInt.toNat (fun _ => v))).give .null
    | none => s.refuse (.listStore n.toInt)
  | .get, [.list _, other] => s.refuseType "list index" "Int" other
  | .index, [.list _, other] => s.refuseType "list index" "Int" other
  | .store, [.list _, other, _] => s.refuseType "list index" "Int" other
  | .add, [.list a, .list b] => s.giveList (s.listItems a ++ s.listItems b)
  | .add, [.list a, other] => s.refuseOperands NumberOp.add.symbol (.list a) other
  | .mul, [.list id, .int n _] => repeated s (s.listItems id) n
  | .mul, [.list id, other] => s.refuseOperands NumberOp.mul.symbol (.list id) other
  | _, _ => s.refuseReceiver m.name args

end ListMethod

namespace IterMethod

/-- A method of an iterator over a list.  The list may change meanwhile. -/
def ofList (s : Store) (m : IterMethod) (v : Value) : Answer :=
  match v with
  | .listIter id =>
    match s.listIters[id]? with
    | none => s.give .none
    | some iter =>
      let items := s.listItems iter.list
      match m with
      | .length => s.giveInt (Int64.ofNat (items.size - iter.index))
      | .next =>
        match items[iter.index]? with
        | none => s.give .none
        | some v =>
          { s with listIters := s.listIters.modify id fun i =>
            { i with index := i.index + 1 } }.giveSome v
  | _ => s.refuseReceiver m.name [v]

def ofText (s : Store) (m : IterMethod) (v : Value) : Answer :=
  match v with
  | .textIter id =>
    match s.textIters[id]? with
    | none => s.give .none
    | some iter =>
      match m with
      | .length => s.giveInt (Int64.ofNat (iter.chars.size - iter.index))
      | .next =>
        match iter.chars[iter.index]? with
        | none => s.give .none
        | some c =>
          let s := { s with textIters := s.textIters.modify id fun i =>
            { i with index := i.index + 1 } }
          let (v, s) := s.newText (Text.ofChar c)
          s.giveSome v
  | _ => s.refuseReceiver m.name [v]

def ofRange (s : Store) (m : IterMethod) (v : Value) : Answer :=
  match v with
  | .rangeIter id =>
    match s.rangeIters[id]? with
    | none => s.give .none
    | some iter =>
      match m with
      | .length => s.giveInt (if iter.last ≤ iter.next then 0 else iter.last - iter.next)
      | .next =>
        if iter.last ≤ iter.next then s.give .none
        else
          let s := { s with rangeIters := s.rangeIters.modify id fun i =>
            { i with next := i.next + 1 } }
          let (v, s) := s.newInt iter.next
          s.giveSome v
  | _ => s.refuseReceiver m.name [v]

end IterMethod

namespace RangeMethod

/-- The number of integers in a range, its low 64 bits kept. -/
def count (first last : Int64) : Int64 := if last ≤ first then 0 else last - first

def sumOf (first last : Int64) : Int :=
  if last ≤ first then 0
  else ((first.toInt + last.toInt - 1) * (last.toInt - first.toInt)).tdiv 2

def isInt (n : Int) : Bool := Int64.minValue.toInt ≤ n && n ≤ Int64.maxValue.toInt

/-- A method of a range. -/
def answer (s : Store) (m : RangeMethod) (args : List Value) : Answer :=
  match m, args with
  | .display, v :: _ => s.giveText (s.display v)
  | .length, [.range first last _] => s.giveInt (count first last)
  | .iter, [.range first last _] =>
    let (v, s) := s.newRangeIter first last
    s.give v
  | .sum, [.range first last _] =>
    let total := sumOf first last
    if isInt total then s.giveInt (Int64.ofInt total)
    else s.refuse (.sumOverflow first.toInt last.toInt)
  | .equal, [.range a b _, .range c d _] => s.giveBool (a == c && b == d)
  | .equal, [.range _ _ _, _] => s.giveBool false
  | _, _ => s.refuseReceiver m.name args

end RangeMethod

/-- A method of an option that asks nothing of the value inside. -/
def OptionMethod.answer (s : Store) (m : OptionMethod) (args : List Value) : Answer :=
  match m, args with
  | .unwrap, [.some v _] => s.give v
  | .unwrap, [.none] => s.refuse .emptyUnwrap
  | .isSome, [.some _ _] => s.giveBool true
  | .isSome, [.none] => s.giveBool false
  | .isNone, [.some _ _] => s.giveBool false
  | .isNone, [.none] => s.giveBool true
  | .truth, [.some _ _] => s.giveBool true
  | .truth, [.none] => s.giveBool false
  | _, _ => s.refuseReceiver m.name args

/-- The range with given bounds; a single bound is the end of one that starts
at 0. -/
def rangeAnswer (s : Store) (args : List Value) : Answer :=
  match args with
  | [.int last _] =>
    let (v, s) := s.newRange 0 last
    s.give v
  | [other] => s.refuseType "range() bound" "Int" other
  | [.int first _, .int last _] =>
    let (v, s) := s.newRange first last
    s.give v
  | [.int _ _, other] => s.refuseType "range() end" "Int" other
  | [other, _] => s.refuseType "range() start" "Int" other
  | _ => s.refuse (.rangeArity args.length)

end Scriptlet
