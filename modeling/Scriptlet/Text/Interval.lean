/-
Sets of code points as sorted tables of closed intervals, and binary search
in them.
-/

namespace Scriptlet.Text

/-- Whether `n` lies in one of the intervals with index from `lo` up to, not
including, `hi`, of a table sorted by position. -/
def searchIntervals (table : Array (Nat × Nat)) (n lo hi : Nat) : Bool :=
  if lo < hi then
    let mid := lo + (hi - lo) / 2
    match table[mid]? with
    | none => false
    | some (first, last) =>
      if n < first then searchIntervals table n lo mid
      else if last < n then searchIntervals table n (mid + 1) hi
      else true
  else false
termination_by hi - lo

def inIntervals (table : Array (Nat × Nat)) (n : Nat) : Bool :=
  searchIntervals table n 0 table.size

end Scriptlet.Text
