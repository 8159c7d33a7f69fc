/-
Data that is carried between the host and the language and back.  A value of the language mirrors
one of the host: what the host's becomes mirrors it, what mirrors it becomes it again, and all
that mirror the same one have one text.
-/
import Mathlib
import Scriptlet.Proofs.HostIntegers
import Scriptlet.Proofs.Sharing
import Scriptlet.Proofs.Showing

namespace Scriptlet

namespace HostValue

/-- Data of the host that the language has values for: nothing, numbers, texts, and sequences of
such data. -/
inductive IsData : HostValue → Prop where
  | nil : IsData .nil
  | bool (b : Bool) : IsData (.bool b)
  | int (t : IntType) (n : Int) (hn : t.Holds n) (hgreatest : n ≤ IntType.int64.greatest) :
      IsData (.int t n)
  | float64 (x : Float) : IsData (.float64 x)
  | float32 (x : Float32) : IsData (.float32 x)
  | string (text : Text) : IsData (.string text)
  | named (name : String) (inner : HostValue) (h : IsData inner) : IsData (.named name inner)
  | slice (item : HostType) (hs : List HostValue) (h : ∀ h ∈ hs, IsData h) :
      IsData (.slice item hs)
  | array (item : HostType) (hs : List HostValue) (h : ∀ h ∈ hs, IsData h) :
      IsData (.array item hs)

mutual

/-- Data in the widest type of its kind. -/
def widened : HostValue → HostValue
  | .int _ n => .int .int n
  | .float32 x => .float64 x.toFloat
  | .named _ inner => inner.widened
  | .slice _ hs | .array _ hs => .slice .any (allWidened hs)
  | h => h

/-- Some data, each in the widest type of its kind. -/
def allWidened : List HostValue → List HostValue
  | [] => []
  | h :: hs => h.widened :: allWidened hs

end

mutual

/-- The text that the language shows for data of the host. -/
def shown : HostValue → Text
  | .nil => "null"
  | .bool b => if b then "true" else "false"
  | .int _ n => Text.ofInt n
  | .float64 x => floatText x
  | .string text => text.quote
  | .slice _ hs => Text.listed (allShown hs)
  | _ => .empty

/-- The texts that the language shows for some data of the host. -/
def allShown : List HostValue → List Text
  | [] => []
  | h :: hs => h.shown :: allShown hs

end

end HostValue

namespace Store

mutual

/-- A value of the language stands for data of the host in the widest types. -/
inductive Mirrors (s : Store) : Value → HostValue → Prop where
  | null : Mirrors s .null .nil
  | bool (b : Bool) : Mirrors s (.bool b) (.bool b)
  | int (m : Int64) (id : Nat) : Mirrors s (.int m id) (.int .int m.toInt)
  | float (x : Float) (id : Nat) : Mirrors s (.float x id) (.float64 x)
  | str (text : Text) (id : Nat) : Mirrors s (.str text id) (.string text)
  | list {id : Nat} {hs : List HostValue} (hid : id < s.lists.size)
      (hitems : AllMirror s (s.listItems id).toList hs) :
      Mirrors s (.list id) (.slice .any hs)

/-- Values stand for data, each for its own. -/
inductive AllMirror (s : Store) : List Value → List HostValue → Prop where
  | nil : AllMirror s [] []
  | cons {v : Value} {h : HostValue} {vs : List Value} {hs : List HostValue}
      (hv : Mirrors s v h) (hvs : AllMirror s vs hs) : AllMirror s (v :: vs) (h :: hs)

end

/-- Values of the language that are data: null, numbers, texts, and lists of such values that do
not come up inside themselves. -/
inductive IsData (s : Store) : Value → Prop where
  | null : IsData s .null
  | bool (b : Bool) : IsData s (.bool b)
  | int (m : Int64) (id : Nat) : IsData s (.int m id)
  | float (x : Float) (id : Nat) : IsData s (.float x id)
  | str (text : Text) (id : Nat) : IsData s (.str text id)
  | list (id : Nat) (hid : id < s.lists.size) (h : ∀ v ∈ (s.listItems id).toList, IsData s v) :
      IsData s (.list id)

variable {s s' : Store} {v : Value} {h : HostValue} {vs : List Value} {hs : List HostValue}

theorem exists_allMirror (hvs : ∀ v ∈ vs, ∃ h, s.Mirrors v h) : ∃ hs, s.AllMirror vs hs := by
  induction vs with
  | nil => exact ⟨[], .nil⟩
  | cons v vs ih =>
      obtain ⟨⟨h, hv⟩, hvs⟩ := List.forall_mem_cons.mp hvs
      obtain ⟨hs, hvs⟩ := ih hvs
      exact ⟨h :: hs, .cons hv hvs⟩

/-- Data of the language stands for data of the host. -/
theorem IsData.exists_mirrors (hv : s.IsData v) : ∃ h, s.Mirrors v h := by
  induction hv with
  | null => exact ⟨_, .null⟩
  | bool b => exact ⟨_, .bool b⟩
  | int m id => exact ⟨_, .int m id⟩
  | float x id => exact ⟨_, .float x id⟩
  | str text id => exact ⟨_, .str text id⟩
  | list id hid _ ih =>
      obtain ⟨hs, hitems⟩ := exists_allMirror ih
      exact ⟨_, .list hid hitems⟩

/-- What is stood for is data of the host in the widest types. -/
theorem Mirrors.isData_widened (hv : s.Mirrors v h) : h.IsData ∧ h.widened = h := by
  induction hv using Mirrors.rec
    (motive_2 := fun _ hs _ => (∀ h ∈ hs, h.IsData) ∧ HostValue.allWidened hs = hs) with
  | null => exact ⟨.nil, rfl⟩
  | bool b => exact ⟨.bool b, rfl⟩
  | int m id => exact ⟨.int .int _ ⟨m.le_toInt, m.toInt_le⟩ m.toInt_le, rfl⟩
  | float x id => exact ⟨.float64 x, rfl⟩
  | str text id => exact ⟨.string text, rfl⟩
  | list _ _ ih => exact ⟨.slice _ _ ih.1, by rw [HostValue.widened, ih.2]⟩
  | nil => exact ⟨nofun, rfl⟩
  | cons _ _ ih ihrest =>
      exact ⟨List.forall_mem_cons.mpr ⟨ih.1, ihrest.1⟩,
        by rw [HostValue.allWidened, ih.2, ihrest.2]⟩

theorem mapM_succ {α β : Type} {f g : α → Option β} {xs : List α} {ys : List β}
    (hfg : ∀ x y, f x = some y → g x = some y) (h : xs.mapM f = some ys) :
    xs.mapM g = some ys := by
  induction xs generalizing ys with
  | nil => exact h
  | cons x xs ih =>
      rw [List.mapM_cons] at h ⊢
      obtain ⟨y, hy, h⟩ := Option.bind_eq_some_iff.mp h
      obtain ⟨zs, hzs, h⟩ := Option.bind_eq_some_iff.mp h
      exact Option.bind_eq_some_iff.mpr
        ⟨y, hfg x y hy, Option.bind_eq_some_iff.mpr ⟨zs, ih hzs, h⟩⟩

theorem render?_succ {room : Nat} {text : Text} (h : s.render? room v = some text) :
    s.render? (room + 1) v = some text := by
  induction room generalizing v text with
  | zero => exact nomatch h
  | succ room ih =>
      cases v with
      | list id =>
          rw [render?] at h ⊢
          obtain ⟨texts, htexts, hlisted⟩ := Option.map_eq_some_iff.mp h
          exact Option.map_eq_some_iff.mpr
            ⟨texts, mapM_succ (fun _ _ hx => ih hx) htexts, hlisted⟩
      | some w id =>
          rw [render?] at h ⊢
          obtain ⟨inner, hinner, htext⟩ := Option.map_eq_some_iff.mp h
          exact Option.map_eq_some_iff.mpr ⟨inner, ih hinner, htext⟩
      | _ => exact h

theorem render?_mono {room room' : Nat} (hle : room ≤ room') {text : Text}
    (h : s.render? room v = some text) : s.render? room' v = some text := by
  induction hle with
  | refl => exact h
  | step _ ih => exact render?_succ ih

/-- With room enough, the text of a value is that of what it stands for. -/
theorem Mirrors.exists_render? (hv : s.Mirrors v h) :
    ∃ room, s.render? room v = some h.shown := by
  induction hv using Mirrors.rec (motive_2 := fun vs hs _ =>
    ∃ room, vs.mapM (s.render? room) = some (HostValue.allShown hs)) with
  | null | bool | int | float | str => exact ⟨1, rfl⟩
  | list hid _ ih =>
      obtain ⟨room, hroom⟩ := ih
      exact ⟨room + 1, by rw [render?, hroom]; rfl⟩
  | nil => exact ⟨0, rfl⟩
  | cons _ _ ih ihrest =>
      obtain ⟨room, hroom⟩ := ih
      obtain ⟨room', hroom'⟩ := ihrest
      refine ⟨max room room', ?_⟩
      rw [List.mapM_cons, render?_mono (Nat.le_max_left _ _) hroom,
        mapM_succ (fun _ _ hx => render?_mono (Nat.le_max_right _ _) hx) hroom']
      rfl

theorem Mirrors.display_eq (hv : s.Mirrors v h) : s.display v = h.shown :=
  have ⟨_, hroom⟩ := hv.exists_render?
  display_of_render? hroom

open Marshal in
/-- A value becomes what it stands for, as an item of a list as well as by itself. -/
theorem Mirrors.exists_fromValue (hv : s.Mirrors v h) :
    ∃ limit, ∀ wanted, wanted = none ∨ wanted = some .any →
      fromValue s limit wanted v = some (.ok h) := by
  induction hv using Mirrors.rec (motive_2 := fun vs hs _ => ∃ limit, ∀ n before,
    fromValues s limit .any n before vs = some (.ok (before.reverse ++ hs))) with
  | null | bool | int | float | str =>
      refine ⟨0, ?_⟩
      rintro _ (rfl | rfl) <;> (rw [fromValue, if_neg (by simp)]; rfl)
  | list hid _ ih =>
      obtain ⟨limit, hlimit⟩ := ih
      refine ⟨limit + 1, ?_⟩
      rintro _ (rfl | rfl) <;>
        (rw [fromValue, if_neg (by simp)]
         change Option.map _ (fromValues s limit .any 0 [] _) = _
         rw [hlimit]
         rfl)
  | nil => exact ⟨0, fun n before => by rw [fromValues, List.append_nil]⟩
  | @cons v h vs hs _ _ ih ihrest =>
      obtain ⟨limit, hlimit⟩ := ih
      obtain ⟨limit', hlimit'⟩ := ihrest
      refine ⟨max limit limit', fun n before => ?_⟩
      have hfirst := fromValue_mono (Nat.le_max_left limit limit') (hlimit _ (.inr rfl))
      have hpass : assign? h .any = some h := if_pos (Bool.or_true _)
      have hrest : ∀ n before, fromValues s (max limit limit') .any n before vs =
          some (.ok (before.reverse ++ hs)) := fun n before =>
        fromValues_congr (fun _ _ h => fromValue_mono (Nat.le_max_right _ _) h) _ _ _
          (hlimit' n before)
      by_cases hnil : h = .nil
      · rw [fromValues, hfirst, hnil]
        dsimp only [HostValue.zero]
        rw [hrest, List.reverse_cons, List.append_assoc, List.singleton_append]
      · rw [fromValues_cons hfirst hnil, hpass]
        dsimp only
        rw [hrest, List.reverse_cons, List.append_assoc, List.singleton_append]

theorem Mirrors.ofValue_eq (hv : s.Mirrors v h) : Marshal.ofValue s v = some (.ok h) :=
  have ⟨_, hlimit⟩ := hv.exists_fromValue
  Marshal.fromValue_nestingLimit (hlimit none (.inl rfl))

def GainsLists (s s' : Store) : Prop :=
  ∃ made fresh, s' = { s with lists := s.lists ++ made, fresh := fresh }

theorem GainsLists.refl (s : Store) : s.GainsLists s :=
  ⟨#[], s.fresh, by rw [Array.append_empty]⟩

theorem GainsLists.trans {s'' : Store} (h : s.GainsLists s') (h' : s'.GainsLists s'') :
    s.GainsLists s'' := by
  obtain ⟨made, fresh, rfl⟩ := h
  obtain ⟨made', fresh', rfl⟩ := h'
  exact ⟨made ++ made', fresh', by rw [Array.append_assoc]⟩

theorem gainsLists_fresh (s : Store) (fresh : Nat) : s.GainsLists { s with fresh := fresh } :=
  ⟨#[], fresh, by rw [Array.append_empty]⟩

theorem GainsLists.size_le (h : s.GainsLists s') : s.lists.size ≤ s'.lists.size := by
  obtain ⟨made, fresh, rfl⟩ := h
  exact Array.size_append ▸ Nat.le_add_right _ _

theorem GainsLists.listItems_eq (h : s.GainsLists s') {id : Nat} (hid : id < s.lists.size) :
    s'.listItems id = s.listItems id := by
  obtain ⟨made, fresh, rfl⟩ := h
  rw [listItems, listItems, Array.getElem?_append_left hid]

/-- A value stands for the same data wherever its lists are as they were. -/
theorem Mirrors.of_lists (hv : s.Mirrors v h) (hsize : s.lists.size ≤ s'.lists.size)
    (hitems : ∀ id < s.lists.size, s'.listItems id = s.listItems id) : s'.Mirrors v h := by
  induction hv using Mirrors.rec (motive_2 := fun vs hs _ => s'.AllMirror vs hs) with
  | null => exact .null
  | bool b => exact .bool b
  | int m id => exact .int m id
  | float x id => exact .float x id
  | str text id => exact .str text id
  | list hid _ ih => exact .list (hid.trans_le hsize) (hitems _ hid ▸ ih)
  | nil => exact .nil
  | cons _ _ ih ihrest => exact .cons ih ihrest

theorem AllMirror.snoc (hvs : s.AllMirror vs hs) (hv : s.Mirrors v h) :
    s.AllMirror (vs ++ [v]) (hs ++ [h]) := by
  induction vs generalizing hs with
  | nil =>
      cases hvs
      exact .cons hv .nil
  | cons v vs ih =>
      cases hvs with
      | cons hfirst hrest => exact .cons hfirst (ih hrest)

theorem AllMirror.of_gainsLists (hvs : s.AllMirror vs hs) (hgain : s.GainsLists s') :
    s'.AllMirror vs hs := by
  induction vs generalizing hs with
  | nil =>
      cases hvs
      exact .nil
  | cons v vs ih =>
      cases hvs with
      | cons hv hrest =>
          exact .cons (hv.of_lists hgain.size_le fun _ => hgain.listItems_eq) (ih hrest)

/-- What some data becomes, one after the other, stands for them. -/
theorem exists_toValues {hs : List HostValue}
    (hhs : ∀ h ∈ hs, ∀ s : Store, ∃ v s', Marshal.toValue s h = (.ok v, s') ∧
      s.GainsLists s' ∧ s'.Mirrors v h.widened)
    (s : Store) (n : Nat) (before : Array Value) (done : List HostValue)
    (hbefore : s.AllMirror before.toList done) :
    ∃ values s', Marshal.toValues s n before hs = (.ok values, s') ∧ s.GainsLists s' ∧
      s'.AllMirror values.toList (done ++ HostValue.allWidened hs) := by
  induction hs generalizing s n before done with
  | nil =>
      refine ⟨before, s, by rw [Marshal.toValues], .refl s, ?_⟩
      rwa [HostValue.allWidened, List.append_nil]
  | cons h hs ih =>
      obtain ⟨hfirst, hhs⟩ := List.forall_mem_cons.mp hhs
      obtain ⟨v, between, hv, hgain, hmirrors⟩ := hfirst s
      have hbefore' : between.AllMirror (before.push v).toList (done ++ [h.widened]) := by
        rw [Array.toList_push]
        exact (hbefore.of_gainsLists hgain).snoc hmirrors
      obtain ⟨values, s', hvalues, hgain', hall⟩ := ih hhs between (n + 1) _ _ hbefore'
      refine ⟨values, s', ?_, hgain.trans hgain', ?_⟩
      · rw [Marshal.toValues, hv]
        exact hvalues
      · rwa [HostValue.allWidened, List.append_cons]

/-- A new list stands for a slice of what its items stand for. -/
theorem AllMirror.newList {items : Array Value} (h : s.AllMirror items.toList hs) :
    s.GainsLists (s.newList items).2 ∧
      (s.newList items).2.Mirrors (s.newList items).1 (.slice .any hs) := by
  have hgain : s.GainsLists (s.newList items).2 := ⟨#[items], s.fresh, rfl⟩
  have hitems : (s.newList items).2.listItems s.lists.size = items := by
    rw [listItems]
    exact congrArg (Option.getD · #[]) Array.getElem?_push_size
  refine ⟨hgain, .list (Array.size_push _ ▸ Nat.lt_succ_self _) ?_⟩
  rw [hitems]
  exact h.of_gainsLists hgain

/-- What data of the host becomes stands for it. -/
theorem exists_toValue (hh : h.IsData) (s : Store) :
    ∃ v s', Marshal.toValue s h = (.ok v, s') ∧ s.GainsLists s' ∧ s'.Mirrors v h.widened := by
  induction hh generalizing s with
  | nil => exact ⟨_, _, rfl, .refl s, .null⟩
  | bool b => exact ⟨_, _, rfl, .refl s, .bool b⟩
  | int t n hn hgreatest =>
      have hm : (Int64.ofInt n).toInt = n :=
        Int64.toInt_ofInt.trans ((IntType.wrap_int64_eq_iff hn).mpr hgreatest)
      have hint : ∀ s' : Store, s'.Mirrors (.int (Int64.ofInt n) s.fresh) (.int .int n) :=
        fun s' => by
          have hmirrors : s'.Mirrors _ _ := .int (Int64.ofInt n) s.fresh
          rwa [hm] at hmirrors
      exact ⟨_, _, rfl, gainsLists_fresh s _, hint _⟩
  | float64 x => exact ⟨_, _, rfl, gainsLists_fresh s _, .float x _⟩
  | float32 x => exact ⟨_, _, rfl, gainsLists_fresh s _, .float _ _⟩
  | string text => exact ⟨_, _, rfl, gainsLists_fresh s _, .str text _⟩
  | named name inner _ ih =>
      rw [Marshal.toValue, HostValue.widened]
      exact ih s
  | slice item hs _ ih | array item hs _ ih =>
      obtain ⟨values, s', hvalues, hgain, hall⟩ := exists_toValues ih s 0 #[] [] .nil
      obtain ⟨hgain', hmirrors⟩ := hall.newList
      exact ⟨_, _, by rw [Marshal.toValue, hvalues], hgain.trans hgain', hmirrors⟩

/-- Data of the language becomes data of the host, and that becomes a value with the same
text. -/
theorem IsData.again (hv : s.IsData v) : ∃ h v' s', Marshal.ofValue s v = some (.ok h) ∧
    Marshal.toValue s h = (.ok v', s') ∧ s'.display v' = s.display v := by
  obtain ⟨h, hmirrors⟩ := hv.exists_mirrors
  obtain ⟨hdata, hwidened⟩ := hmirrors.isData_widened
  obtain ⟨v', s', hvalue, -, hmirrors'⟩ := exists_toValue hdata s
  rw [hwidened] at hmirrors'
  exact ⟨h, v', s', hmirrors.ofValue_eq, hvalue,
    hmirrors'.display_eq.trans hmirrors.display_eq.symm⟩

end Store

namespace Session

theorem global?_setGlobal (s : Session) (name other : String) (v : Value) :
    (s.setGlobal name v).global? other = if name = other then some v else s.global? other :=
  s.store.scopes.globals.get?_set name other v

theorem set_of_toValue {s : Session} {h : HostValue} {v : Value} {store : Store}
    (hvalue : Marshal.toValue s.store h = (.ok v, store)) (name : String) :
    s.set name h = (.ok .nil, (s.withStore store).setGlobal name v) := by
  rw [set, hvalue]

/-- A name that is set to what stands for data is found to be the data. -/
theorem get_setGlobal {s : Session} {v : Value} {h : HostValue} (hv : s.store.Mirrors v h)
    (name : String) : (s.setGlobal name v).get name = some (.ok h) := by
  have hmirrors : (s.setGlobal name v).store.Mirrors v h :=
    hv.of_lists (Nat.le_refl _) fun _ _ => rfl
  rw [get, global?_setGlobal, if_pos rfl]
  dsimp only
  rw [exported, hmirrors.ofValue_eq]
  rfl

/-- Another name, and a list that there was, are as they were. -/
theorem kept_setGlobal {s : Session} {store : Store} (hgain : s.store.GainsLists store)
    (name : String) (v : Value) :
    (∀ other, other ≠ name →
      ((s.withStore store).setGlobal name v).global? other = s.global? other) ∧
    ∀ id < s.store.lists.size,
      ((s.withStore store).setGlobal name v).store.listItems id = s.store.listItems id := by
  refine ⟨fun other hother => ?_, fun id hid => hgain.listItems_eq hid⟩
  obtain ⟨made, fresh, rfl⟩ := hgain
  rw [global?_setGlobal, if_neg (Ne.symm hother)]
  rfl

end Session

/-- Data of the host becomes a value that becomes the data again, in the widest type, and so a
name that is set to it is found to be it, while no other name is changed and no list, and the
store only comes to hold more lists; data of the language becomes data of the host that becomes
a value with the same text. -/
theorem data_roundtrip :
    (∀ (s : Session) (name : String) (h : HostValue), h.IsData →
      (∃ v store, Marshal.toValue s.store h = (.ok v, store) ∧
        Marshal.ofValue store v = some (.ok h.widened) ∧ s.store.GainsLists store ∧
        s.set name h = (.ok .nil, (s.withStore store).setGlobal name v)) ∧
      (s.set name h).1 = .ok .nil ∧ (s.set name h).2.get name = some (.ok h.widened) ∧
      (∀ other, other ≠ name → (s.set name h).2.global? other = s.global? other) ∧
      ∀ id < s.store.lists.size, (s.set name h).2.store.listItems id = s.store.listItems id) ∧
    (∀ (s : Store) (v : Value), s.IsData v → ∃ h v' s', Marshal.ofValue s v = some (.ok h) ∧
      Marshal.toValue s h = (.ok v', s') ∧ s'.display v' = s.display v) := by
  refine ⟨fun s name h hh => ?_, fun s v hv => hv.again⟩
  obtain ⟨v, store, hvalue, hgain, hmirrors⟩ := Store.exists_toValue hh s.store
  have hset := Session.set_of_toValue hvalue name
  refine ⟨⟨v, store, hvalue, hmirrors.ofValue_eq, hgain, hset⟩, ?_⟩
  rw [hset]
  exact ⟨rfl, Session.get_setGlobal (s := s.withStore store) hmirrors name,
    Session.kept_setGlobal hgain name v⟩

/-- A slice that holds nothing, a byte and an array of strings of a type of their own is found to
be a slice with the same in it; a list that holds another one twice keeps its text. -/
theorem data_roundtrip_nested :
    let label : HostType := .named "main.Label" .string
    let h : HostValue :=
      .slice .any [.nil, .int .uint8 7, .array label [.named "main.Label" (.string "a")]]
    let s : Session := .start (.bare (.ofNumbers 0 0)) fun _ => .error "no files"
    (h.IsData ∧ (s.set "x" h).2.get "x" =
      some (.ok (.slice .any [.nil, .int .int 7, .slice .any [.string "a"]]))) ∧
    (Store.twins.IsData (.list 0) ∧ ∃ h v' s',
      Marshal.ofValue Store.twins (.list 0) = some (.ok h) ∧
      Marshal.toValue Store.twins h = (.ok v', s') ∧
      s'.display v' = Store.twins.display (.list 0)) := by
  intro label h s
  have hh : h.IsData := by
    refine .slice _ _ (List.forall_mem_cons.mpr ⟨.nil, List.forall_mem_cons.mpr
      ⟨.int .uint8 7 (by decide) (by decide), List.forall_mem_singleton.mpr (.array _ _ ?_)⟩⟩)
    exact List.forall_mem_singleton.mpr (.named _ _ (.string "a"))
  have hinner : Store.twins.IsData (.list 1) :=
    .list 1 (by decide) (List.forall_mem_singleton.mpr .null)
  have houter : Store.twins.IsData (.list 0) :=
    .list 0 (by decide) (List.forall_mem_cons.mpr ⟨hinner, List.forall_mem_singleton.mpr hinner⟩)
  obtain ⟨hhost, hlanguage⟩ := data_roundtrip
  exact ⟨⟨hh, (hhost s "x" h hh).2.2.1⟩, houter, hlanguage Store.twins (.list 0) houter⟩

end Scriptlet
