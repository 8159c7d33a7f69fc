/-
Looking at values as they are shown.  Whatever lists and options hold, and be it
themselves, showing a value comes to an end, and a list is shown as `[...]` just
where it comes up inside itself; a list that merely occurs twice is shown in full
both times.
-/
import Mathlib.Logic.Relation
import Scriptlet.Proofs.Boundaries
import Scriptlet.Value.Display

namespace Scriptlet

/-- What is shown of a value: a text of its own, that a list comes up inside
itself, or what is shown of the inside of an option or a list. -/
inductive Sketch where
  | flat (text : Text)
  | again
  | some (inner : Sketch)
  | list (items : List Sketch)

namespace Sketch

mutual

def text : Sketch → Text
  | .flat t => t
  | .again => "[...]"
  | .some k => Text.ofString "Some(" ++ k.text ++ Text.ofString ")"
  | .list ks =>
    Text.ofString "[" ++ Text.join (Text.ofString ", ") (textsOf ks) ++ Text.ofString "]"

def textsOf : List Sketch → List Text
  | [] => []
  | k :: ks => k.text :: textsOf ks

end

theorem textsOf_eq (ks : List Sketch) : textsOf ks = ks.map text := by
  induction ks with
  | nil => rw [textsOf, List.map_nil]
  | cons k ks ih => rw [textsOf, List.map_cons, ih]

/-- The part of a sketch at an address: which element to go into at each list, and 0
at each option. -/
def at? : List Nat → Sketch → Option Sketch
  | [], k => .some k
  | 0 :: address, .some k => k.at? address
  | i :: address, .list ks => ks[i]?.bind (at? address)
  | _ :: _, _ => .none

end Sketch

/-- Whether a value holds no others. -/
def Value.isFlat : Value → Bool
  | .list _ | .some _ _ => false
  | _ => true

namespace Store

/-- Whether a value directly holds another: an option what is inside it, a list its
elements. -/
inductive Contains (s : Store) : Value → Value → Prop where
  | inside (v : Value) (id : Nat) : Contains s (.some v id) v
  | element {v : Value} {id : Nat} (h : v ∈ (s.listItems id).toList) : Contains s (.list id) v

/-- Whether a value is, or holds at some depth, another. -/
abbrev Reaches (s : Store) : Value → Value → Prop := Relation.ReflTransGen s.Contains

/-- Whether a list holds itself at some depth. -/
def Cyclic (s : Store) (id : Nat) : Prop := Relation.TransGen s.Contains (.list id) (.list id)

/-- What holds of a value, and of all that anything holds of which it holds, holds of all
that the value reaches. -/
theorem Reaches.of_closed {s : Store} {P : Value → Prop} {v w : Value} (h : s.Reaches v w)
    (hv : P v) (hclosed : ∀ x y, P x → s.Contains x y → P y) : P w := by
  induction h with
  | refl => exact hv
  | tail _ hcontains ih => exact hclosed _ _ ih hcontains

theorem foldl_join (separator first : Text) (rest : List Text) (before : Text) :
    rest.foldl (fun acc t => acc ++ separator ++ t) (before ++ first) =
      before ++ rest.foldl (fun acc t => acc ++ separator ++ t) first := by
  induction rest generalizing first with
  | nil => rfl
  | cons t rest ih =>
      rw [List.foldl_cons, List.foldl_cons, ← ih]
      simp only [Text.append_assoc]

variable (s : Store)

theorem textsInside_rest (path : List Nat) (items : List Value) (before : Text) :
    s.textsInside path items before false =
      (items.map (s.textInside path)).foldl (fun acc t => acc ++ Text.ofString ", " ++ t) before ++
        Text.ofString "]" := by
  induction items generalizing before with
  | nil => rw [textsInside]; rfl
  | cons v rest ih =>
      rw [textsInside, ih]
      simp

/-- The texts of the elements of a list stand between brackets, with commas between
them. -/
theorem textsInside_eq (path : List Nat) (items : List Value) :
    s.textsInside path items (Text.ofString "[") true =
      Text.ofString "[" ++ Text.join (Text.ofString ", ") (items.map (s.textInside path)) ++
        Text.ofString "]" := by
  cases items with
  | nil => rw [textsInside, List.map_nil, Text.join, Text.append_empty]
  | cons v rest =>
      rw [textsInside, List.map_cons, textsInside_rest, Text.join, if_pos rfl, foldl_join]

theorem textInside_again {path : List Nat} {id : Nat} (h : id ∈ path) :
    s.textInside path (.list id) = "[...]" := by
  rw [textInside, dif_pos (List.contains_iff_mem.mpr h)]

theorem textInside_list {path : List Nat} {id : Nat} (h : id ∉ path) :
    s.textInside path (.list id) =
      Text.ofString "[" ++
        Text.join (Text.ofString ", ") ((s.listItems id).toList.map (s.textInside (id :: path))) ++
        Text.ofString "]" := by
  have hoff : ¬ path.contains id = true := fun hon => h (List.contains_iff_mem.mp hon)
  rw [textInside, dif_neg hoff]
  split
  · rename_i hid
    rw [textsInside_eq, listItems, Array.getElem?_eq_getElem hid, Option.getD_some]
  · rename_i hid
    rw [listItems, Array.getElem?_eq_none (Nat.le_of_not_lt hid)]
    rfl

theorem textInside_some (path : List Nat) (v : Value) (id : Nat) :
    s.textInside path (.some v id) =
      Text.ofString "Some(" ++ s.textInside path v ++ Text.ofString ")" := by
  rw [textInside]

theorem textInside_flat (path : List Nat) {v : Value} (h : v.isFlat = true) :
    s.textInside path v = s.flatText v := by
  cases v with
  | list id | some v id => exact nomatch h
  | _ => rw [textInside] <;> simp

mutual

/-- Showing a value by a routine that keeps the lists being shown in a set: a list that is
in the set shows as that it comes up again; any other is put into the set, its elements are
shown one after the other, and it is taken out. -/
inductive Shows (s : Store) : Finset Nat → Value → Sketch → Finset Nat → Prop where
  | again {seen : Finset Nat} {id : Nat} (h : id ∈ seen) : Shows s seen (.list id) .again seen
  | list {seen left : Finset Nat} {id : Nat} {items : List Sketch} (h : id ∉ seen)
      (hitems : ShowsAll s (insert id seen) (s.listItems id).toList items left) :
      Shows s seen (.list id) (.list items) (left.erase id)
  | some {seen left : Finset Nat} {v : Value} {id : Nat} {inner : Sketch}
      (h : Shows s seen v inner left) : Shows s seen (.some v id) (.some inner) left
  | flat {seen : Finset Nat} {v : Value} (h : v.isFlat = true) :
      Shows s seen v (.flat (s.flatText v)) seen

/-- Showing values one after the other. -/
inductive ShowsAll (s : Store) : Finset Nat → List Value → List Sketch → Finset Nat → Prop where
  | nil {seen : Finset Nat} : ShowsAll s seen [] [] seen
  | cons {seen between left : Finset Nat} {v : Value} {k : Sketch} {vs : List Value}
      {ks : List Sketch} (h : Shows s seen v k between) (hrest : ShowsAll s between vs ks left) :
      ShowsAll s seen (v :: vs) (k :: ks) left

end

variable {s}

/-- The set is left as it was found. -/
theorem Shows.restores {seen left : Finset Nat} {v : Value} {k : Sketch}
    (h : s.Shows seen v k left) : left = seen := by
  induction h using Shows.rec
    (motive_2 := fun seen _ _ left _ => left = seen) with
  | again _ | flat _ | nil => rfl
  | list hid _ ih => rw [ih, Finset.erase_insert hid]
  | some _ ih => exact ih
  | cons _ _ ih ihrest => exact ihrest.trans ih

theorem ShowsAll.restores {seen left : Finset Nat} {vs : List Value} {ks : List Sketch}
    (h : s.ShowsAll seen vs ks left) : left = seen := by
  induction vs generalizing ks seen with
  | nil => cases h; rfl
  | cons v vs ih =>
      cases h with
      | cons hv hrest => exact (ih hrest).trans hv.restores

/-- A list that is off the path shows with its elements. -/
theorem shows_list {path : List Nat} {id : Nat} {ks : List Sketch} (hid : id ∉ path)
    (hks : s.ShowsAll (id :: path).toFinset (s.listItems id).toList ks (id :: path).toFinset)
    (htexts : (s.listItems id).toList.map (s.textInside (id :: path)) = ks.map Sketch.text) :
    ∃ k, s.Shows path.toFinset (.list id) k path.toFinset ∧
      s.textInside path (.list id) = k.text := by
  have hoff : id ∉ path.toFinset := fun hmem => hid (List.mem_toFinset.mp hmem)
  refine ⟨.list ks, ?_, ?_⟩
  · rw [List.toFinset_cons] at hks
    have hshown := Shows.list hoff hks
    rwa [Finset.erase_insert hoff] at hshown
  · rw [textInside_list s hid, htexts, Sketch.text, Sketch.textsOf_eq]

/-- The routine comes to an end with any value and any set, and the text of what it shows
is the text of the value inside the lists of the set. -/
theorem shows_textInside (path : List Nat) (v : Value) :
    ∃ k, s.Shows path.toFinset v k path.toFinset ∧ s.textInside path v = k.text := by
  -- A value and the elements of a list come to their ends together.
  refine textInside.induct s
    (fun path v => ∃ k, s.Shows path.toFinset v k path.toFinset ∧ s.textInside path v = k.text)
    (fun path items _ _ => ∃ ks, s.ShowsAll path.toFinset items ks path.toFinset ∧
      items.map (s.textInside path) = ks.map Sketch.text) ?_ ?_ ?_ ?_ ?_ ?_ ?_ path v
  · intro path v id ⟨k, hk, htext⟩
    exact ⟨.some k, .some hk, by rw [textInside_some, htext, Sketch.text]⟩
  · intro path id hon
    have hid : id ∈ path := List.contains_iff_mem.mp hon
    exact ⟨.again, .again (List.mem_toFinset.mpr hid), by rw [textInside_again s hid, Sketch.text]⟩
  · intro path id hon hsize ⟨ks, hks, htexts⟩
    have hid : id ∉ path := fun hmem => hon (List.contains_iff_mem.mpr hmem)
    have hitems : s.listItems id = s.lists[id] := by
      rw [listItems, Array.getElem?_eq_getElem hsize, Option.getD_some]
    exact shows_list hid (by rwa [hitems]) (by rwa [hitems])
  · intro path id hon hsize
    have hid : id ∉ path := fun hmem => hon (List.contains_iff_mem.mpr hmem)
    have hitems : s.listItems id = #[] := by
      rw [listItems, Array.getElem?_eq_none (Nat.le_of_not_lt hsize), Option.getD_none]
    have hnone : s.ShowsAll (id :: path).toFinset (s.listItems id).toList []
        (id :: path).toFinset := by
      rw [hitems]
      exact .nil
    exact shows_list hid hnone (by rw [hitems]; rfl)
  · intro path v hsome hlist
    have hflat : v.isFlat = true := by
      cases v with
      | list id => exact absurd rfl (hlist id)
      | some inner id => exact absurd rfl (hsome inner id)
      | _ => rfl
    exact ⟨.flat (s.flatText v), .flat hflat, by rw [textInside_flat s path hflat, Sketch.text]⟩
  · intro path before isFirst
    exact ⟨[], .nil, rfl⟩
  · intro path before isFirst v rest opened ⟨k, hk, htext⟩ ⟨ks, hks, htexts⟩
    exact ⟨k :: ks, .cons hk hks, by rw [List.map_cons, List.map_cons, htext, htexts]⟩

/-- The routine can show a value in one way only. -/
theorem Shows.unique {seen left left' : Finset Nat} {v : Value} {k k' : Sketch}
    (h : s.Shows seen v k left) (h' : s.Shows seen v k' left') : k' = k := by
  induction h using Shows.rec
    (motive_2 := fun seen vs ks _ _ => ∀ ks' left', s.ShowsAll seen vs ks' left' → ks' = ks)
    generalizing k' left' with
  | again hon =>
      cases h' with
      | again _ => rfl
      | list hoff _ => exact absurd hon hoff
      | flat hflat => exact nomatch hflat
  | list hoff _ ih =>
      cases h' with
      | again hon => exact absurd hon hoff
      | list _ hitems => rw [ih _ _ hitems]
      | flat hflat => exact nomatch hflat
  | some _ ih =>
      cases h' with
      | some hinner => rw [ih hinner]
      | flat hflat => exact nomatch hflat
  | flat hflat =>
      cases h' with
      | flat _ => rfl
      | again _ | list _ _ | some _ => exact nomatch hflat
  | nil =>
      rename_i h'
      cases h'
      rfl
  | cons hfirst _ ih ihrest =>
      rename_i h'
      cases h' with
      | cons hfirst' hrest' =>
          rw [hfirst'.restores, ← hfirst.restores] at hrest'
          rw [ih hfirst', ihrest _ _ hrest']

theorem ShowsAll.length_eq {seen left : Finset Nat} {vs : List Value} {ks : List Sketch}
    (h : s.ShowsAll seen vs ks left) : ks.length = vs.length := by
  induction vs generalizing ks seen with
  | nil => cases h; rfl
  | cons v vs ih =>
      cases h with
      | cons _ hrest => rw [List.length_cons, List.length_cons, ih hrest]

/-- Each of some values is shown with the set as it was before the first of them. -/
theorem ShowsAll.get {seen left : Finset Nat} {vs : List Value} {ks : List Sketch}
    (h : s.ShowsAll seen vs ks left) {i : Nat} {k : Sketch} (hk : ks[i]? = .some k) :
    ∃ v, vs[i]? = .some v ∧ s.Shows seen v k seen := by
  induction vs generalizing ks seen i with
  | nil => cases h; exact nomatch hk
  | cons v vs ih =>
      cases h with
      | cons hv hrest =>
          obtain rfl := hv.restores
          cases i with
          | zero =>
              obtain rfl := Option.some.inj hk
              exact ⟨v, rfl, hv⟩
          | succ i => exact ih hrest hk

def at? (s : Store) : List Nat → Value → Option Value
  | [], v => .some v
  | 0 :: address, .some v _ => s.at? address v
  | i :: address, .list id => (s.listItems id).toList[i]?.bind (s.at? address)
  | _ :: _, _ => .none

/-- The lists that an address goes into, from the outermost. -/
def listsOn (s : Store) : List Nat → Value → List Nat
  | [], _ => []
  | 0 :: address, .some v _ => s.listsOn address v
  | i :: address, .list id =>
    id :: ((s.listItems id).toList[i]?.map (s.listsOn address)).getD []
  | _ :: _, _ => []

/-- What a value shows as when it is inside some lists: a list that is one of them as that
it comes up again, any other with as many parts as it has elements. -/
def Depicts (s : Store) (inside : Finset Nat) : Value → Sketch → Prop
  | .list id, k =>
    if id ∈ inside then k = .again
    else ∃ items, k = .list items ∧ items.length = (s.listItems id).size
  | .some _ _, k => ∃ inner, k = .some inner
  | v, k => k = .flat (s.flatText v)

theorem depicts_flat {inside : Finset Nat} {v : Value} (h : v.isFlat = true) :
    s.Depicts inside v (.flat (s.flatText v)) := by
  cases v with
  | list id | some v id => exact nomatch h
  | _ => rfl

/-- What is shown of a whole value. -/
theorem Shows.depicts {seen left : Finset Nat} {v : Value} {k : Sketch}
    (h : s.Shows seen v k left) : s.Depicts seen v k := by
  cases h with
  | again hon => rw [Depicts, if_pos hon]
  | list hoff hitems =>
      rw [Depicts, if_neg hoff]
      exact ⟨_, rfl, hitems.length_eq.trans (Array.length_toList)⟩
  | some _ => exact ⟨_, rfl⟩
  | flat hflat => exact depicts_flat hflat

/-- What is shown at an address is what is there, inside the lists of the set and of the
address. -/
theorem Shows.depicts_at {seen left : Finset Nat} {v : Value} {k part : Sketch}
    {address : List Nat} (h : s.Shows seen v k left) (hpart : k.at? address = .some part) :
    ∃ w, s.at? address v = .some w ∧
      s.Depicts (seen ∪ (s.listsOn address v).toFinset) w part := by
  induction address generalizing seen left v k with
  | nil =>
      obtain rfl := Option.some.inj hpart
      exact ⟨v, rfl, by simpa [listsOn] using h.depicts⟩
  | cons i address ih =>
      cases h with
      | again _ | flat _ => simp [Sketch.at?] at hpart
      | some hinner =>
          cases i with
          | zero => exact ih hinner hpart
          | succ i => simp [Sketch.at?] at hpart
      | list hoff hitems =>
          rw [Sketch.at?] at hpart
          obtain ⟨k, hk, hpart⟩ := Option.bind_eq_some_iff.mp hpart
          obtain ⟨v, hv, hshown⟩ := hitems.get hk
          obtain ⟨w, hw, hdepicts⟩ := ih hshown hpart
          refine ⟨w, by rw [at?, hv]; exact hw, ?_⟩
          rw [listsOn, hv, Option.map_some, Option.getD_some, List.toFinset_cons,
            Finset.union_insert, ← Finset.insert_union]
          exact hdepicts

/-- Showing a value comes to an end whatever lists and options hold, and leaves the set of
the lists being shown as it was.  The text is that of one sketch of the value, in which
every list that is among those it stands in is abbreviated, and no other. -/
theorem shows_once_abbreviating_ancestors (s : Store) (seen : Finset Nat) (v : Value) :
    ∃ k : Sketch,
      (∀ k' left, s.Shows seen v k' left ↔ k' = k ∧ left = seen) ∧
      (∀ path, path.toFinset = seen → s.textInside path v = k.text) ∧
      ∀ address part, k.at? address = some part →
        ∃ w, s.at? address v = some w ∧
          s.Depicts (seen ∪ (s.listsOn address v).toFinset) w part := by
  obtain ⟨k, hk, -⟩ := shows_textInside (s := s) seen.toList v
  rw [Finset.toList_toFinset] at hk
  refine ⟨k, fun k' left => ?_, fun path hpath => ?_, fun _ _ => hk.depicts_at⟩
  · constructor
    · intro h
      exact ⟨hk.unique h, h.restores⟩
    · rintro ⟨rfl, rfl⟩
      exact hk
  · obtain ⟨k', hk', htext⟩ := shows_textInside (s := s) path v
    rw [hpath] at hk'
    rw [htext, hk.unique hk']

end Store

end Scriptlet
