/-
Operations in another guise.  What comes to an end by itself answers in every
guise the same, recast: texts, members, built-in operations and functions of
the host look at nothing that a guise changes.
-/
import Scriptlet.Proofs.Guise

namespace Scriptlet

namespace Bindings

variable {α β : Type} (f : α → β)

theorem find_map (name : String) (entries : List (String × α)) :
    find name (entries.map fun entry => (entry.1, f entry.2)) = (find name entries).map f := by
  induction entries with
  | nil => rfl
  | cons entry rest ih =>
      rw [List.map_cons]
      unfold find
      split
      · rfl
      · exact ih

theorem put_map (name : String) (x : α) (entries : List (String × α)) :
    put name (f x) (entries.map fun entry => (entry.1, f entry.2)) =
      (put name x entries).map fun entry => (entry.1, f entry.2) := by
  induction entries with
  | nil => rfl
  | cons entry rest ih =>
      rw [List.map_cons]
      unfold put
      split
      · rfl
      · rw [ih]
        rfl

theorem get?_map (b : Bindings α) (name : String) : (b.map f).get? name = (b.get? name).map f :=
  find_map f name b.entries

theorem set_map (b : Bindings α) (name : String) (x : α) :
    (b.map f).set name (f x) = (b.set name x).map f :=
  congrArg Bindings.mk (put_map f name x b.entries)

theorem setAll_map (b : Bindings α) (entries : List (String × α)) :
    (b.map f).setAll (entries.map fun entry => (entry.1, f entry.2)) =
      (b.setAll entries).map f := by
  induction entries generalizing b with
  | nil => rfl
  | cons entry rest ih => rw [List.map_cons, setAll, setAll, set_map, ih]

end Bindings

/-- Changing an element and mapping an array may be exchanged where the changes
go together. -/
theorem modify_map {α β : Type} {f : α → β} {change : α → α} {change' : β → β}
    (h : ∀ x, change' (f x) = f (change x)) (xs : Array α) (i : Nat) :
    (xs.map f).modify i change' = (xs.modify i change).map f := by
  apply Array.ext_getElem?
  intro j
  simp only [Array.getElem?_modify, Array.getElem?_map]
  split
  · simp [Function.comp_def, h]
  · rfl

namespace Scopes

variable {α β : Type} (f : α → β)

theorem get?_map (s : Scopes α) (name : String) (env : Environment) :
    (s.map f).get? name env = (s.get? name env).map f := by
  induction env with
  | nil => exact s.globals.get?_map f name
  | cons frame outer ih =>
      have hinner : (s.map f).frames[frame]?.bind (fun b => b.get? name) =
          (s.frames[frame]?.bind fun b => b.get? name).map f := by
        simp only [map, Array.getElem?_map]
        cases s.frames[frame]? with
        | none => rfl
        | some b => exact Bindings.get?_map f b name
      rw [get?, get?, hinner]
      cases s.frames[frame]?.bind fun b => b.get? name with
      | none => exact ih
      | some x => rfl

theorem set_map (s : Scopes α) (env : Environment) (name : String) (x : α) :
    (s.map f).set env name (f x) = (s.set env name x).map f := by
  cases env with
  | nil => simp [set, map, Bindings.set_map]
  | cons frame outer =>
      simp only [set, map, mk.injEq, true_and]
      exact modify_map (fun b => b.set_map f name x) s.frames frame

theorem extend_map (s : Scopes α) (env : Environment) (frame : Bindings α) :
    (s.map f).extend env (frame.map f) =
      ((s.extend env frame).1, (s.extend env frame).2.map f) := by
  simp [extend, map]

end Scopes

namespace Value

variable (g : Guise) (a b : Value)

/-- What neither is code, nor holds a value, nor is of the host looks the same in
every guise, and nothing else looks like it. -/
@[simp] theorem recast_eq_iff {u : Value} (hsome : ∀ x id, u ≠ .some x id)
    (hfunction : ∀ f id, u ≠ .function f id) (hclass : ∀ c id, u ≠ .classOf c id)
    (hhostFunction : ∀ f name bound id, u ≠ .hostFunction f name bound id)
    (hhost : ∀ p id, u ≠ .host p id) : a.recast g = u ↔ a = u := by
  cases a with
  | some x id => exact iff_of_false (hsome _ _).symm (hsome _ _).symm
  | function f id => exact iff_of_false (hfunction _ _).symm (hfunction _ _).symm
  | classOf c id => exact iff_of_false (hclass _ _).symm (hclass _ _).symm
  | hostFunction f name bound id =>
      exact iff_of_false (hhostFunction _ _ _ _).symm (hhostFunction _ _ _ _).symm
  | host p id => exact iff_of_false (hhost _ _).symm (hhost _ _).symm
  | _ => exact Iff.rfl

@[simp] theorem recast_eq_some_iff {x : Value} {id : Nat} :
    a.recast g = .some x id ↔ ∃ y, a = .some y id ∧ y.recast g = x := by
  cases a with
  | some y i =>
      simp only [recast, some.injEq]
      constructor
      · rintro ⟨hx, rfl⟩
        exact ⟨y, ⟨rfl, rfl⟩, hx⟩
      · rintro ⟨z, ⟨rfl, rfl⟩, hx⟩
        exact ⟨hx, rfl⟩
  | _ => simp [recast]

theorem same_recast : (a.recast g).same (b.recast g) = a.same b := by
  cases a <;> cases b <;> rfl

end Value

/-- The items are recast one by one. -/
theorem HostValue.hostValuesRecast_eq_map (g : Guise) (hs : List HostValue) :
    HostValue.recast.hostValuesRecast g hs = hs.map (HostValue.recast g) := by
  induction hs with
  | nil => rfl
  | cons h hs ih => rw [recast.hostValuesRecast, ih, List.map_cons]

/-- What carrying a value over gives, recast. -/
def Veil.carried {ε : Type} (v : Veil) (r : Except ε Value × Store) : Except ε Value × Store :=
  (r.1.map (Value.recast v.toGuise), r.2.recast v)

section

variable (v : Veil) (s : Store)

namespace Store

theorem listItems_recast (id : Nat) :
    (s.recast v).listItems id = (s.listItems id).map (Value.recast v.toGuise) := by
  simp only [listItems, recast, Array.getElem?_map]
  cases s.lists[id]? <;> simp

theorem element?_recast (id : Nat) (n : Int64) :
    (s.recast v).element? id n = (s.element? id n).map (Value.recast v.toGuise) := by
  simp only [element?, listItems_recast]
  cases indexOf? n with
  | none => rfl
  | some i => exact Array.getElem?_map

theorem className_recast (id : Nat) : (s.recast v).className id = s.className id := by
  simp only [className, recast, Array.getElem?_map]
  cases s.instances[id]? <;> rfl

@[simp] theorem typeName_recast (x : Value) :
    (s.recast v).typeName (x.recast v.toGuise) = s.typeName x := by
  cases x with
  | «instance» id => exact className_recast v s id
  | _ => rfl

theorem calleeName_recast (x : Value) :
    (s.recast v).calleeName (x.recast v.toGuise) = s.calleeName x := by
  cases x with
  | «instance» id => exact className_recast v s id
  | _ => rfl

theorem field?_recast (id : Nat) (name : String) :
    (s.recast v).field? id name = (s.field? id name).map (Value.recast v.toGuise) := by
  simp [field?, recast, Option.bind_map, Option.map_bind, Function.comp_def, Instance.recast,
    Bindings.get?_map]

theorem flatText_recast (x : Value) :
    (s.recast v).flatText (x.recast v.toGuise) = s.flatText x := by
  cases x with
  | «instance» id =>
      simp only [Value.recast, flatText, className_recast]
  | _ => rfl

theorem textInside_recast (path : List Nat) (x : Value) :
    (s.recast v).textInside path (x.recast v.toGuise) = s.textInside path x := by
  have hlist : ∀ id, Value.recast v.toGuise (.list id) = .list id := fun _ => rfl
  -- The texts of values and of the items of a list recast together.
  refine textInside.induct s
    (fun path x => (s.recast v).textInside path (x.recast v.toGuise) = s.textInside path x)
    (fun path items before isFirst =>
      (s.recast v).textsInside path (items.map (Value.recast v.toGuise)) before isFirst =
        s.textsInside path items before isFirst) ?_ ?_ ?_ ?_ ?_ ?_ ?_ path x
  · intro path inner id ih
    rw [Value.recast, textInside, textInside, ih]
  · intro path id hon
    rw [hlist, textInside, textInside, dif_pos hon, dif_pos hon]
  · intro path id hon hid ih
    have hsize : id < (s.recast v).lists.size := by
      simpa [recast] using hid
    rw [hlist, textInside, textInside, dif_neg hon, dif_neg hon, dif_pos hid, dif_pos hsize, ← ih]
    simp [recast]
  · intro path id hon hid
    have hsize : ¬ id < (s.recast v).lists.size := by
      simpa [recast] using hid
    rw [hlist, textInside, textInside, dif_neg hon, dif_neg hon, dif_neg hid, dif_neg hsize]
  · intro path x hsome hlist
    rw [textInside, textInside, flatText_recast]
    · exact hsome
    · exact hlist
    · simp_all
    · simp_all
  · intro path before isFirst
    rw [List.map_nil, textsInside, textsInside]
  · intro path before isFirst x rest opened ihx ih
    rw [List.map_cons, textsInside, textsInside, ihx]
    exact ih

theorem display_recast (x : Value) : (s.recast v).display (x.recast v.toGuise) = s.display x :=
  textInside_recast v s [] x

theorem newList_recast (items : Array Value) :
    (s.recast v).newList (items.map (Value.recast v.toGuise)) =
      ((s.newList items).1.recast v.toGuise, (s.newList items).2.recast v) := by
  simp [newList, recast, Value.recast]

theorem giveList_recast (items : Array Value) :
    (s.recast v).giveList (items.map (Value.recast v.toGuise)) =
      Answer.recast v (s.giveList items) := by
  simp only [giveList, newList_recast]
  rfl

theorem printText_recast (t : Text) :
    (s.recast v).printText t = Answer.recast v (s.printText t) := by
  have hwriter : (s.recast v).outside.writer t = s.outside.writer t := rfl
  simp only [printText, hwriter]
  cases s.outside.writer t <;> rfl

theorem newTexts_recast (texts : List Text) :
    (s.recast v).newTexts texts =
      ((s.newTexts texts).1.recast v.toGuise, (s.newTexts texts).2.recast v) := by
  have hadd : ∀ (s : Store) (items : Array Value),
      newTexts.addTexts (items.map (Value.recast v.toGuise), s.recast v) texts =
        ((newTexts.addTexts (items, s) texts).1.map (Value.recast v.toGuise),
          (newTexts.addTexts (items, s) texts).2.recast v) := by
    induction texts with
    | nil => exact fun _ _ => rfl
    | cons t rest ih =>
        intro s items
        simp only [newTexts.addTexts]
        rw [← ih, Array.map_push]
        rfl
  simp only [newTexts, ← newList_recast]
  have h := hadd s #[]
  rw [Array.map_empty] at h
  rw [h]

theorem refuse_recast {fault : Fault} (h : fault.recast v.toGuise = fault) :
    (s.recast v).refuse fault = Answer.recast v (s.refuse fault) := by
  simp only [refuse, Answer.recast, h]

theorem refuseReceiver_recast (method : String) (args : List Value) :
    (s.recast v).refuseReceiver method (args.map (Value.recast v.toGuise)) =
      Answer.recast v (s.refuseReceiver method args) := by
  cases args with
  | nil => rfl
  | cons x rest =>
      simp only [refuseReceiver, List.map_cons, typeName_recast]
      rfl

theorem refuseType_recast (what expected : String) (x : Value) :
    (s.recast v).refuseType what expected (x.recast v.toGuise) =
      Answer.recast v (s.refuseType what expected x) := by
  simp only [refuseType, typeName_recast]
  rfl

theorem refuseOperands_recast (symbol : String) (x y : Value) :
    (s.recast v).refuseOperands symbol (x.recast v.toGuise) (y.recast v.toGuise) =
      Answer.recast v (s.refuseOperands symbol x y) := by
  simp only [refuseOperands, typeName_recast]
  rfl

theorem changeList_recast (list : Nat) {change change' : Array Value → Array Value}
    (h : ∀ items : Array Value, change' (items.map (Value.recast v.toGuise)) =
      (change items).map (Value.recast v.toGuise)) :
    (s.recast v).changeList list change' = (s.changeList list change).recast v := by
  simp only [changeList, recast, modify_map h]

end Store

theorem repetitionFault?_recast (g : Guise) {size : Nat} {times : Int64} {fault : Fault}
    (h : repetitionFault? size times = some fault) : fault.recast g = fault := by
  unfold repetitionFault? at h
  split at h
  · exact nomatch h
  · split at h
    · obtain rfl := Option.some.inj h
      rfl
    · exact nomatch h

namespace NumberOp

theorem ofInts_recast (op : NumberOp) (a b : Int64) :
    ofInts (s.recast v) op a b = Answer.recast v (ofInts s op a b) := by
  cases op with
  | div | mod =>
      simp only [ofInts]
      split <;> rfl
  | _ => rfl

theorem ofFloats_recast (op : NumberOp) (a b : Float) :
    ofFloats (s.recast v) op a b = Answer.recast v (ofFloats s op a b) := by
  cases op with
  | div | mod =>
      simp only [ofFloats]
      split <;> rfl
  | _ => rfl

theorem answer_recast (op : NumberOp) (left right : Value) :
    answer (s.recast v) op (left.recast v.toGuise) (right.recast v.toGuise) =
      Answer.recast v (answer s op left right) := by
  cases left with
  | int a i =>
      cases right with
      | int b j => exact ofInts_recast v s op a b
      | float b j => exact ofFloats_recast v s op a.toFloat b
      | _ => exact Store.refuseOperands_recast v s op.symbol (.int a i) _
  | float a i =>
      cases right with
      | int b j => exact ofFloats_recast v s op a b.toFloat
      | float b j => exact ofFloats_recast v s op a b
      | _ => exact Store.refuseOperands_recast v s op.symbol (.float a i) _
  | _ => exact Store.refuseReceiver_recast v s op.hook [_]

end NumberOp

namespace NumberMethod

theorem ofInt_recast (m : NumberMethod) (x : Value) :
    ofInt (s.recast v) m (x.recast v.toGuise) = Answer.recast v (ofInt s m x) := by
  cases x with
  | int n id =>
      cases m with
      | absolute =>
          simp only [ofInt, Value.recast]
          split
          · rfl
          · split <;> rfl
      | display => exact congrArg (s.recast v).giveText (Store.display_recast v s (.int n id))
      | _ => rfl
  | _ => exact Store.refuseReceiver_recast v s m.name [_]

theorem ofFloat_recast (m : NumberMethod) (x : Value) :
    ofFloat (s.recast v) m (x.recast v.toGuise) = Answer.recast v (ofFloat s m x) := by
  cases x with
  | float x id =>
      cases m with
      | display => exact congrArg (s.recast v).giveText (Store.display_recast v s (.float x id))
      | _ => rfl
  | _ => exact Store.refuseReceiver_recast v s m.name [_]

end NumberMethod

theorem BoolMethod.answer_recast (m : BoolMethod) (args : List Value) :
    BoolMethod.answer (s.recast v) m (args.map (Value.recast v.toGuise)) =
      Answer.recast v (BoolMethod.answer s m args) := by
  fun_cases BoolMethod.answer s m args with
  | case3 b => exact congrArg (s.recast v).giveText (Store.display_recast v s (.bool b))
  | case7 a other hother | case8 a other hother | case9 a other hother =>
      have hrecast : ∀ b, other.recast v.toGuise = .bool b → False := by simpa using hother
      rw [List.map_cons, List.map_cons, List.map_nil, Value.recast, BoolMethod.answer]
      · exact Store.refuseOperands_recast v s _ (.bool a) other
      all_goals simp_all
  | case10 m args =>
      rw [BoolMethod.answer]
      · exact Store.refuseReceiver_recast v s m.name args
      all_goals
        intros
        rename_i hargs
        simp only [List.map_eq_cons_iff, List.map_eq_nil_iff, Value.recast_eq_iff, ne_eq,
          reduceCtorEq, not_false_eq_true, implies_true] at hargs
        obtain ⟨_, _, rfl, rfl, hargs⟩ := hargs
        first
        | subst hargs
          solve_by_elim
        | obtain ⟨_, _, rfl, rfl, rfl⟩ := hargs
          solve_by_elim
  | _ => rfl

theorem NullMethod.answer_recast (m : NullMethod) (args : List Value) :
    NullMethod.answer (s.recast v) m (args.map (Value.recast v.toGuise)) =
      Answer.recast v (NullMethod.answer s m args) := by
  cases m with
  | equal =>
      rcases args with _ | ⟨a, _ | ⟨b, _ | ⟨c, rest⟩⟩⟩
      · rfl
      · rfl
      · cases b <;> rfl
      · cases b <;> rfl
  | display => exact congrArg (s.recast v).giveText (Store.display_recast v s .null)
  | truth => rfl

namespace TextMethod

theorem alone_recast (m : TextMethod) (t : Text) :
    alone (s.recast v) m t = Answer.recast v (alone s m t) := by
  cases m <;> rfl

theorem character_recast (t : Text) (index : Int64) :
    character (s.recast v) t index = Answer.recast v (character s t index) := by
  unfold character
  split <;> rfl

theorem repeated_recast (t : Text) (times : Int64) :
    TextMethod.repeated (s.recast v) t times = Answer.recast v (TextMethod.repeated s t times) := by
  unfold TextMethod.repeated
  split <;> rename_i hfault
  · rw [Store.refuse_recast v s (repetitionFault?_recast v.toGuise hfault)]
  · rfl

theorem applied_recast (m : TextMethod) (receiver : Value) (t : Text) (arg : Value) :
    applied (s.recast v) m (receiver.recast v.toGuise) t (arg.recast v.toGuise) =
      Answer.recast v (applied s m receiver t arg) := by
  cases m with
  | add =>
      cases arg with
      | str u id => rfl
      | _ => exact Store.refuseOperands_recast v s _ receiver _
  | mul =>
      cases arg with
      | int n id => exact repeated_recast v s t n
      | _ => exact Store.refuseOperands_recast v s _ receiver _
  | order op =>
      cases arg with
      | str u id => rfl
      | _ => exact Store.refuseOperands_recast v s _ receiver _
  | index =>
      cases arg with
      | int n id => exact character_recast v s t n
      | _ => exact Store.refuseType_recast v s _ _ _
  | contains =>
      cases arg with
      | str u id => rfl
      | _ => exact Store.refuseType_recast v s _ _ _
  | split =>
      cases arg with
      | str u id =>
          simp only [applied, Value.recast, Store.newTexts_recast]
          rfl
      | _ => exact Store.refuseType_recast v s _ _ _
  | _ => cases arg <;> rfl

theorem answer_recast (m : TextMethod) (args : List Value) :
    answer (s.recast v) m (args.map (Value.recast v.toGuise)) =
      Answer.recast v (answer s m args) := by
  rcases args with _ | ⟨a, _ | ⟨b, _ | ⟨c, rest⟩⟩⟩
  · rfl
  · cases a with
    | str t id => exact alone_recast v s m t
    | _ => exact Store.refuseReceiver_recast v s _ [_]
  · cases a with
    | str t id => exact applied_recast v s m (.str t id) t b
    | _ => exact Store.refuseReceiver_recast v s _ [_, b]
  · cases a <;> exact Store.refuseReceiver_recast v s _ (_ :: b :: c :: rest)

end TextMethod

theorem repeatInto_recast (g : Guise) (items : Array Value) (times : Nat) (before : Array Value) :
    repeatInto (items.map (Value.recast g)) times (before.map (Value.recast g)) =
      (repeatInto items times before).map (Value.recast g) := by
  induction times generalizing before with
  | zero => rfl
  | succ times ih => rw [repeatInto, repeatInto, ← Array.map_append, ih]

namespace ListMethod

theorem repeated_recast (items : Array Value) (times : Int64) :
    ListMethod.repeated (s.recast v) (items.map (Value.recast v.toGuise)) times =
      Answer.recast v (ListMethod.repeated s items times) := by
  have hnone := Store.giveList_recast v s #[]
  have hmany := Store.giveList_recast v s (repeatInto items times.toInt.toNat #[])
  rw [Array.map_empty] at hnone
  rw [← repeatInto_recast, Array.map_empty] at hmany
  have hempty : (items.map (Value.recast v.toGuise)).isEmpty = items.isEmpty := by
    simp [Array.isEmpty]
  unfold ListMethod.repeated
  rw [hempty, Array.size_map]
  split
  · exact hnone
  · split <;> rename_i hfault
    · exact Store.refuse_recast v s (repetitionFault?_recast v.toGuise hfault)
    · exact hmany

theorem popped_recast (list : Nat) :
    popped (s.recast v) list = Answer.recast v (popped s list) := by
  have hback : ((s.listItems list).map (Value.recast v.toGuise)).back? =
      (s.listItems list).back?.map (Value.recast v.toGuise) := by
    simp [Array.back?]
  have hpop : ∀ items : Array Value, (items.map (Value.recast v.toGuise)).pop =
      items.pop.map (Value.recast v.toGuise) := by
    simp
  simp only [popped, Store.listItems_recast, hback, Store.changeList_recast v s list hpop]
  cases (s.listItems list).back? <;> rfl

theorem answer_recast (m : ListMethod) (args : List Value) :
    answer (s.recast v) m (args.map (Value.recast v.toGuise)) =
      Answer.recast v (answer s m args) := by
  rcases args with _ | ⟨a, rest⟩
  · cases m <;> rfl
  · cases a with
    | list id =>
        rcases rest with _ | ⟨b, _ | ⟨c, _ | ⟨d, rest⟩⟩⟩
        · cases m with
          | length =>
              simp only [answer, List.map_cons, List.map_nil, Value.recast, Store.listItems_recast,
                Array.size_map]
              rfl
          | truth =>
              simp only [answer, List.map_cons, List.map_nil, Value.recast, Store.listItems_recast,
                Array.isEmpty, Array.size_map]
              rfl
          | pop => exact popped_recast v s id
          | _ => rfl
        · cases m with
          | push =>
              refine congrArg (fun s => Store.give s .null) (Store.changeList_recast v s id ?_)
              exact fun items => Array.map_push.symm
          | get | index =>
              cases b with
              | int n i =>
                  simp only [answer, List.map_cons, List.map_nil, Value.recast,
                    Store.element?_recast]
                  cases s.element? id n <;> rfl
              | _ => exact Store.refuseType_recast v s _ _ _
          | add =>
              cases b with
              | list other =>
                  simp only [answer, List.map_cons, List.map_nil, Value.recast,
                    Store.listItems_recast, ← Array.map_append]
                  exact Store.giveList_recast v s _
              | _ => exact Store.refuseOperands_recast v s _ (.list id) _
          | mul =>
              cases b with
              | int n i =>
                  simp only [answer, List.map_cons, List.map_nil, Value.recast,
                    Store.listItems_recast]
                  exact repeated_recast v s _ n
              | _ => exact Store.refuseOperands_recast v s _ (.list id) _
          | store => cases b <;> rfl
          | _ => rfl
        · cases m with
          | store =>
              cases b with
              | int n i =>
                  simp only [answer, List.map_cons, List.map_nil, Value.recast,
                    Store.element?_recast]
                  cases s.element? id n with
                  | none => rfl
                  | some x =>
                      have hset : ∀ (items : Array Value) (i : Nat),
                          (items.map (Value.recast v.toGuise)).modify i
                            (fun _ => c.recast v.toGuise) =
                            (items.modify i fun _ => c).map (Value.recast v.toGuise) :=
                        fun items i => modify_map (fun _ => by rfl) items i
                      exact congrArg (fun s => Store.give s .null)
                        (Store.changeList_recast v s id fun items => hset items _)
              | _ => exact Store.refuseType_recast v s _ _ _
          | get | index | add | mul => cases b <;> rfl
          | _ => rfl
        · cases m with
          | get | index | store | add | mul => cases b <;> rfl
          | _ => rfl
    | _ => cases m <;> exact Store.refuseReceiver_recast v s _ (_ :: rest)

end ListMethod

namespace IterMethod

theorem ofList_recast (m : IterMethod) (x : Value) :
    ofList (s.recast v) m (x.recast v.toGuise) = Answer.recast v (ofList s m x) := by
  cases x with
  | listIter id =>
      have hiters : (s.recast v).listIters = s.listIters := rfl
      simp only [ofList, Value.recast, Store.listItems_recast, Array.size_map, Array.getElem?_map,
        hiters]
      cases s.listIters[id]? with
      | none => rfl
      | some iter =>
          cases m with
          | length => rfl
          | next =>
              dsimp only
              cases (s.listItems iter.list)[iter.index]? <;> rfl
  | _ => exact Store.refuseReceiver_recast v s m.name [_]

theorem ofText_recast (m : IterMethod) (x : Value) :
    ofText (s.recast v) m (x.recast v.toGuise) = Answer.recast v (ofText s m x) := by
  cases x with
  | textIter id =>
      have hiters : (s.recast v).textIters = s.textIters := rfl
      simp only [ofText, Value.recast, hiters]
      cases s.textIters[id]? with
      | none => rfl
      | some iter =>
          cases m with
          | length => rfl
          | next =>
              dsimp only
              cases iter.chars[iter.index]? <;> rfl
  | _ => exact Store.refuseReceiver_recast v s m.name [_]

theorem ofRange_recast (m : IterMethod) (x : Value) :
    ofRange (s.recast v) m (x.recast v.toGuise) = Answer.recast v (ofRange s m x) := by
  cases x with
  | rangeIter id =>
      have hiters : (s.recast v).rangeIters = s.rangeIters := rfl
      simp only [ofRange, Value.recast, hiters]
      cases s.rangeIters[id]? with
      | none => rfl
      | some iter =>
          cases m with
          | length => rfl
          | next =>
              dsimp only
              split <;> rfl
  | _ => exact Store.refuseReceiver_recast v s m.name [_]

end IterMethod

theorem RangeMethod.answer_recast (m : RangeMethod) (args : List Value) :
    RangeMethod.answer (s.recast v) m (args.map (Value.recast v.toGuise)) =
      Answer.recast v (RangeMethod.answer s m args) := by
  rcases args with _ | ⟨a, rest⟩
  · cases m <;> rfl
  · cases m with
    | display => exact congrArg (s.recast v).giveText (Store.display_recast v s a)
    | sum =>
        cases a with
        | range first last id =>
            cases rest with
            | nil =>
                simp only [RangeMethod.answer, List.map_cons, List.map_nil, Value.recast]
                split <;> rfl
            | cons b rest => rfl
        | _ => exact Store.refuseReceiver_recast v s _ (_ :: rest)
    | length | iter =>
        cases a with
        | range first last id => cases rest <;> rfl
        | _ => exact Store.refuseReceiver_recast v s _ (_ :: rest)
    | equal =>
        cases a with
        | range first last id =>
            rcases rest with _ | ⟨b, _ | ⟨c, rest⟩⟩
            · rfl
            · cases b <;> rfl
            · cases b <;> rfl
        | _ => exact Store.refuseReceiver_recast v s _ (_ :: rest)

theorem OptionMethod.answer_recast (m : OptionMethod) (args : List Value) :
    OptionMethod.answer (s.recast v) m (args.map (Value.recast v.toGuise)) =
      Answer.recast v (OptionMethod.answer s m args) := by
  rcases args with _ | ⟨a, _ | ⟨b, rest⟩⟩
  · cases m <;> rfl
  · cases a with
    | none | some x id => cases m <;> rfl
    | _ => cases m <;> exact Store.refuseReceiver_recast v s _ [_]
  · cases a <;> cases m <;> exact Store.refuseReceiver_recast v s _ (_ :: b :: rest)

theorem rangeAnswer_recast (args : List Value) :
    rangeAnswer (s.recast v) (args.map (Value.recast v.toGuise)) =
      Answer.recast v (rangeAnswer s args) := by
  have harity : ∀ (s : Store) (a b c : Value) (rest : List Value),
      rangeAnswer s (a :: b :: c :: rest) =
        s.refuse (.rangeArity (a :: b :: c :: rest).length) := fun s a b c rest => by
    simp only [rangeAnswer]
  rcases args with _ | ⟨a, _ | ⟨b, _ | ⟨c, rest⟩⟩⟩
  · rfl
  · cases a with
    | int last id => rfl
    | _ => exact Store.refuseType_recast v s _ _ _
  · cases a with
    | int first i =>
        cases b with
        | int last j => rfl
        | _ => exact Store.refuseType_recast v s _ _ _
    | _ => exact Store.refuseType_recast v s _ _ _
  · have hlength : ((a :: b :: c :: rest).map (Value.recast v.toGuise)).length =
        (a :: b :: c :: rest).length := List.length_map _
    rw [List.map_cons, List.map_cons, List.map_cons, harity, harity]
    exact congrArg (fun n => Store.refuse (s.recast v) (.rangeArity n)) hlength

namespace Store

theorem askFiles_recast (r : FileRequest) :
    (s.recast v).askFiles r = ((s.askFiles r).1, (s.askFiles r).2.recast v) := rfl

theorem readText_recast (path : Text) :
    (s.recast v).readText path = Answer.recast v (s.readText path) := by
  simp only [readText, askFiles_recast]
  obtain ⟨reply, s'⟩ := s.askFiles (.readAll path)
  cases reply <;> rfl

theorem writeText_recast (path bytes : Text) :
    (s.recast v).writeText path bytes = Answer.recast v (s.writeText path bytes) := by
  simp only [writeText, askFiles_recast]
  obtain ⟨reply, s'⟩ := s.askFiles (.writeAll path bytes)
  cases reply <;> rfl

theorem removeFile_recast (path : Text) :
    (s.recast v).removeFile path = Answer.recast v (s.removeFile path) := by
  simp only [removeFile, askFiles_recast]
  obtain ⟨reply, s'⟩ := s.askFiles (.remove path)
  cases reply <;> rfl

theorem listDirectory_recast (path : Text) :
    (s.recast v).listDirectory path = Answer.recast v (s.listDirectory path) := by
  simp only [listDirectory, askFiles_recast]
  obtain ⟨reply, s'⟩ := s.askFiles (.names path)
  cases reply with
  | error reason => rfl
  | ok names =>
      simp only [newTexts_recast]
      rfl

theorem openFile_recast (path : Text) :
    (s.recast v).openFile path = Answer.recast v (s.openFile path) := by
  simp only [openFile, askFiles_recast]
  obtain ⟨reply, s'⟩ := s.askFiles (.openFile path)
  cases reply <;> rfl

theorem readOpen_recast (id : Nat) (path : Text) :
    (s.recast v).readOpen id path = Answer.recast v (s.readOpen id path) := by
  simp only [readOpen, askFiles_recast]
  obtain ⟨reply, s'⟩ := s.askFiles (.read id)
  cases reply <;> rfl

theorem writeOpen_recast (id : Nat) (path part : Text) :
    (s.recast v).writeOpen id path part = Answer.recast v (s.writeOpen id path part) := by
  simp only [writeOpen, askFiles_recast]
  obtain ⟨reply, s'⟩ := s.askFiles (.write id part)
  cases reply <;> rfl

theorem closeOpen_recast (id : Nat) (path : Text) :
    (s.recast v).closeOpen id path = Answer.recast v (s.closeOpen id path) := by
  have hclosed : (s.recast v).setFile id ⟨path, true⟩ =
      (s.setFile id ⟨path, true⟩).recast v := rfl
  simp only [closeOpen, hclosed, askFiles_recast]
  obtain ⟨reply, s'⟩ := (s.setFile id ⟨path, true⟩).askFiles (.close id)
  cases reply <;> rfl

end Store

namespace FileMethod

theorem ofFile_recast (m : FileMethod) (id : Nat) (f : OpenFile) (arg : Option Value) :
    ofFile (s.recast v) m id f (arg.map (Value.recast v.toGuise)) =
      Answer.recast v (ofFile s m id f arg) := by
  cases m with
  | read =>
      simp only [ofFile]
      split
      · rfl
      · exact Store.readOpen_recast v s id f.path
  | close =>
      simp only [ofFile]
      split
      · rfl
      · exact Store.closeOpen_recast v s id f.path
  | write =>
      cases arg with
      | none => rfl
      | some x =>
          cases x with
          | str part i =>
              simp only [ofFile, Option.map_some, Value.recast]
              split
              · rfl
              · exact Store.writeOpen_recast v s id f.path part
          | _ => exact Store.refuseType_recast v s _ _ _

theorem answer_recast (m : FileMethod) (args : List Value) :
    answer (s.recast v) m (args.map (Value.recast v.toGuise)) =
      Answer.recast v (answer s m args) := by
  rcases args with _ | ⟨a, rest⟩
  · rfl
  · cases a with
    | file id =>
        have hfiles : (s.recast v).files = s.files := rfl
        simp only [answer, List.map_cons, Value.recast, List.head?_map, hfiles]
        cases s.files[id]? with
        | none => rfl
        | some f => exact ofFile_recast v s m id f rest.head?
    | _ => exact Store.refuseReceiver_recast v s _ (_ :: rest)

end FileMethod

theorem Store.newMutex_recast (x : Value) :
    (s.recast v).newMutex (x.recast v.toGuise) =
      ((s.newMutex x).1.recast v.toGuise, (s.newMutex x).2.recast v) := by
  simp [newMutex, recast, Value.recast, MutexCell.recast]

/-- Every operation that neither calls back nor waits answers in every guise the
same. -/
theorem Builtin.answer_recast (b : Builtin) (args : List Value) :
    b.answer (s.recast v) (args.map (Value.recast v.toGuise)) =
      Answer.recast v (b.answer s args) := by
  cases b with
  | range => exact rangeAnswer_recast v s args
  | text m => exact TextMethod.answer_recast v s m args
  | bool m => exact BoolMethod.answer_recast v s m args
  | null m => exact NullMethod.answer_recast v s m args
  | list m => exact ListMethod.answer_recast v s m args
  | rangeOf m => exact RangeMethod.answer_recast v s m args
  | option m => exact OptionMethod.answer_recast v s m args
  | file m => exact FileMethod.answer_recast v s m args
  | threadPool | nowMs =>
      cases args with
      | nil => rfl
      | cons a rest => exact Store.refuseReceiver_recast v s _ (a :: rest)
  | someOf | iterSelf | mutex | defaultRepr | int m | float m | listIter m | textIter m
  | rangeIter m =>
      rcases args with _ | ⟨a, _ | ⟨b, rest⟩⟩
      · rfl
      · first
        | rfl
        | exact congrArg (s.recast v).giveText (Store.display_recast v s a)
        | exact NumberMethod.ofInt_recast v s m a
        | exact NumberMethod.ofFloat_recast v s m a
        | exact IterMethod.ofList_recast v s m a
        | exact IterMethod.ofText_recast v s m a
        | exact IterMethod.ofRange_recast v s m a
        | exact congrArg (fun made : Value × Store => made.2.give made.1)
            (Store.newMutex_recast v s a)
      · exact Store.refuseReceiver_recast v s _ (a :: b :: rest)
  | sameObject | number op =>
      rcases args with _ | ⟨a, _ | ⟨b, _ | ⟨c, rest⟩⟩⟩
      · rfl
      · exact Store.refuseReceiver_recast v s _ [a]
      · first
        | exact NumberOp.answer_recast v s op a b
        | exact congrArg (s.recast v).giveBool (Value.same_recast v.toGuise a b)
      · exact Store.refuseReceiver_recast v s _ (a :: b :: c :: rest)
  | readText | fileExists | removeFile | listDir | openFile =>
      rcases args with _ | ⟨a, _ | ⟨b, rest⟩⟩
      · rfl
      · cases a with
        | str path id =>
            first
            | rfl
            | exact Store.readText_recast v s path
            | exact Store.removeFile_recast v s path
            | exact Store.listDirectory_recast v s path
            | exact Store.openFile_recast v s path
        | _ => exact Store.refuseType_recast v s _ _ _
      · cases a with
        | str path id => exact Store.refuseReceiver_recast v s _ (.str path id :: b :: rest)
        | _ => exact Store.refuseReceiver_recast v s _ (_ :: b :: rest)
  | writeText =>
      rcases args with _ | ⟨a, _ | ⟨b, _ | ⟨c, rest⟩⟩⟩
      · rfl
      · cases a with
        | str path i => exact Store.refuseReceiver_recast v s _ [.str path i]
        | _ => exact Store.refuseReceiver_recast v s _ [_]
      · cases a with
        | str path i =>
            cases b with
            | str bytes j => exact Store.writeText_recast v s path bytes
            | _ => exact Store.refuseType_recast v s _ _ _
        | _ => exact Store.refuseType_recast v s _ _ _
      · cases a with
        | str path i => cases b <;> rfl
        | _ => exact Store.refuseReceiver_recast v s _ (_ :: b :: c :: rest)
  | thread m =>
      cases m with
      | id =>
          rcases args with _ | ⟨a, _ | ⟨b, rest⟩⟩
          · rfl
          · cases a with
            | thread id => rfl
            | _ => exact Store.refuseReceiver_recast v s _ [_]
          · cases a with
            | thread id => exact Store.refuseReceiver_recast v s _ (.thread id :: b :: rest)
            | _ => exact Store.refuseReceiver_recast v s _ (_ :: b :: rest)
      | join => exact Store.refuseReceiver_recast v s _ args
  | pool m =>
      cases m with
      | length =>
          rcases args with _ | ⟨a, _ | ⟨b, rest⟩⟩
          · rfl
          · cases a with
            | pool id => rfl
            | _ => exact Store.refuseReceiver_recast v s _ [_]
          · cases a with
            | pool id => exact Store.refuseReceiver_recast v s _ (.pool id :: b :: rest)
            | _ => exact Store.refuseReceiver_recast v s _ (_ :: b :: rest)
      | spawn | join => exact Store.refuseReceiver_recast v s _ args
  | _ => exact Store.refuseReceiver_recast v s _ args

end

end Scriptlet
