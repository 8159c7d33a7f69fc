/-
The text of a value.  A list inside itself shows as `[...]` where it comes
up again; a list that merely occurs twice shows in full both times.
-/
import Scriptlet.Store
import Scriptlet.Number.Shortest

namespace Scriptlet

namespace Store

def listsOff (s : Store) (path : List Nat) : Nat :=
  (List.range s.lists.size).countP (fun id => !path.contains id)

theorem countP_lt_of_mem {α : Type} (weak strong : α → Bool) (xs : List α) (x : α)
    (himp : ∀ y, strong y = true → weak y = true) (hmem : x ∈ xs)
    (hweak : weak x = true) (hstrong : strong x = false) :
    xs.countP strong < xs.countP weak := by
  induction xs with
  | nil => simp at hmem
  | cons y ys ih =>
    have hle : ys.countP strong ≤ ys.countP weak :=
      List.countP_mono_left (fun z _ hz => himp z hz)
    rcases List.mem_cons.1 hmem with rfl | hrest
    · simp only [List.countP_cons, hweak, hstrong, if_true, Bool.false_eq_true, if_false]
      omega
    · have hlt := ih hrest
      rw [List.countP_cons, List.countP_cons]
      by_cases hs : strong y = true
      · rw [if_pos hs, if_pos (himp y hs)]
        omega
      · rw [if_neg hs]
        split <;> omega

/-- Going into a list leaves fewer lists off the path. -/
theorem listsOff_cons_lt (s : Store) (path : List Nat) (id : Nat) (hid : id < s.lists.size)
    (hoff : path.contains id = false) : s.listsOff (id :: path) < s.listsOff path := by
  apply countP_lt_of_mem _ _ _ id
  · intro y hy
    simp_all
  · simpa using hid
  · simpa using hoff
  · simp

/-- The text of a value that holds no other values. -/
def flatText (s : Store) : Value → Text
  | .null => "null"
  | .bool b => if b then "true" else "false"
  | .int n _ => Text.ofInt n.toInt
  | .float x _ => floatText x
  | .str t _ => t.quote
  | .none => "None"
  | .some _ _ => "Some"
  | .range first last _ =>
    Text.ofString ("range(" ++ toString first.toInt ++ ", " ++ toString last.toInt ++ ")")
  | .list _ => "[]"
  | .listIter _ => "<list iterator>"
  | .textIter _ => "<str iterator>"
  | .rangeIter _ => "<range iterator>"
  | .function f _ => Text.ofString ("<fn " ++ f.name ++ ">")
  | .builtin b => Text.ofString ("<builtin " ++ b.name ++ ">")
  | .hostFunction _ name _ _ => Text.ofString ("<builtin " ++ name ++ ">")
  | .classOf c _ => Text.ofString ("<class " ++ c.name ++ ">")
  | .instance id => Text.ofString ("<" ++ s.className id ++ " object>")
  | .module m => Text.ofString ("<module " ++ m.text ++ ">")
  | .thread id => Text.ofString ("<thread " ++ s.threadName id ++ ">")
  | .pool id =>
    Text.ofString ("<thread pool of " ++ toString (s.pools[id]?.getD #[]).size ++ ">")
  | .mutex _ => "<mutex>"
  | .file id =>
    match s.files[id]? with
    | some f => Text.ofString "<file " ++ f.path ++ Text.ofString ">"
    | none => "<file >"
  | .host p _ => Text.ofString ("<host " ++ p.typeName ++ ">")

mutual

def textInside (s : Store) (path : List Nat) (v : Value) : Text :=
  match v with
  | .some inner _ =>
    Text.ofString "Some(" ++ textInside s path inner ++ Text.ofString ")"
  | .list id =>
    if _hon : path.contains id then "[...]"
    else if _hid : id < s.lists.size then
      textsInside s (id :: path) s.lists[id].toList (Text.ofString "[") true
    else "[]"
  | v => s.flatText v
termination_by (s.listsOff path, sizeOf v)
decreasing_by
  · decreasing_tactic
  · apply Prod.Lex.left
    exact s.listsOff_cons_lt path id _hid (by simpa using _hon)

/-- The texts of values inside the lists of a path, after the text `before`;
the first of all has no comma before it. -/
def textsInside (s : Store) (path : List Nat) (items : List Value) (before : Text)
    (isFirst : Bool) : Text :=
  match items with
  | [] => before ++ Text.ofString "]"
  | v :: rest =>
    let opened := if isFirst then before else before ++ Text.ofString ", "
    textsInside s path rest (opened ++ textInside s path v) false
termination_by (s.listsOff path, sizeOf items)

end

/-- The text of a value. -/
def display (s : Store) (v : Value) : Text := s.textInside [] v

end Store

end Scriptlet
