/-
What the values that a script holds are made of: instances that were made
before, and, as long as no thread is spawned and nothing of a host is bound,
neither threads nor things of the host.  Operations that come to an end by
themselves keep it so, count no step and lock no mutex.
-/
import Scriptlet.Operation
import Scriptlet.Value.Member

namespace Scriptlet

/-- Whether the instances in a value are among the first `n`, and it is neither
a thread nor of a host. -/
def Value.Below (n : Nat) : Value → Prop
  | .instance id => id < n
  | .some v _ => v.Below n
  | .thread _ | .hostFunction _ _ _ _ | .host _ _ => False
  | _ => True

theorem Value.Below.mono {n m : Nat} {v : Value} (h : v.Below n) (hle : n ≤ m) : v.Below m := by
  induction v with
  | «instance» id => exact Nat.lt_of_lt_of_le h hle
  | some v id ih => exact ih h
  | thread id | hostFunction f name bound id | host p id => exact h.elim
  | _ => trivial

/-- Whether the values of all bound names are made of the first `n` instances. -/
def Bindings.Below (n : Nat) (b : Bindings Value) : Prop := ∀ entry ∈ b.entries, entry.2.Below n

namespace Bindings

variable {n : Nat} {b : Bindings Value}

theorem Below.mono {m : Nat} (h : b.Below n) (hle : n ≤ m) : b.Below m :=
  fun entry hmem => (h entry hmem).mono hle

theorem below_empty : (empty : Bindings Value).Below n := List.forall_mem_nil _

theorem Below.set (h : b.Below n) {name : String} {v : Value} (hv : v.Below n) :
    (b.set name v).Below n := by
  obtain ⟨entries⟩ := b
  change ∀ entry ∈ put name v entries, entry.2.Below n
  induction entries with
  | nil => exact List.forall_mem_singleton.mpr hv
  | cons entry rest ih =>
      obtain ⟨hentry, hrest⟩ := List.forall_mem_cons.mp h
      unfold put
      split
      · exact List.forall_mem_cons.mpr ⟨hv, hrest⟩
      · exact List.forall_mem_cons.mpr ⟨hentry, ih hrest⟩

theorem Below.setAll (h : b.Below n) {entries : List (String × Value)}
    (hentries : ∀ entry ∈ entries, entry.2.Below n) : (b.setAll entries).Below n := by
  induction entries generalizing b with
  | nil => exact h
  | cons entry rest ih =>
      obtain ⟨hentry, hrest⟩ := List.forall_mem_cons.mp hentries
      exact ih (h.set hentry) hrest

theorem Below.get? (h : b.Below n) {name : String} {v : Value} (hv : b.get? name = some v) :
    v.Below n := by
  obtain ⟨entries⟩ := b
  change find name entries = some v at hv
  induction entries with
  | nil => exact nomatch hv
  | cons entry rest ih =>
      obtain ⟨hentry, hrest⟩ := List.forall_mem_cons.mp h
      unfold find at hv
      split at hv
      · obtain rfl := Option.some.inj hv
        exact hentry
      · exact ih hrest hv

end Bindings

/-- Whether the values of all names are made of the first `n` instances. -/
structure Scopes.Below (n : Nat) (s : Scopes Value) : Prop where
  globals : s.globals.Below n
  frames : ∀ b ∈ s.frames, b.Below n

namespace Scopes

variable {n : Nat} {s : Scopes Value}

theorem Below.mono {m : Nat} (h : s.Below n) (hle : n ≤ m) : s.Below m :=
  ⟨h.globals.mono hle, fun b hb => (h.frames b hb).mono hle⟩

theorem Below.get? (h : s.Below n) {name : String} {env : Environment} {v : Value}
    (hv : s.get? name env = some v) : v.Below n := by
  induction env with
  | nil => exact h.globals.get? hv
  | cons frame outer ih =>
      unfold Scopes.get? at hv
      split at hv <;> rename_i hfound
      · obtain rfl := Option.some.inj hv
        obtain ⟨b, hb, hget⟩ := Option.bind_eq_some_iff.mp hfound
        exact (h.frames b (Array.mem_of_getElem? hb)).get? hget
      · exact ih hv

end Scopes

/-- What holds of all elements of an array holds of them after one was changed
into something of which it holds too. -/
theorem forall_mem_modify {α : Type} {P : α → Prop} {xs : Array α} (h : ∀ x ∈ xs, P x) (i : Nat)
    {f : α → α} (hf : ∀ x ∈ xs, P (f x)) : ∀ x ∈ xs.modify i f, P x := by
  intro x hx
  obtain ⟨j, hj⟩ := Array.mem_iff_getElem?.mp hx
  rw [Array.getElem?_modify] at hj
  split at hj
  · obtain ⟨y, hy, rfl⟩ := Option.map_eq_some_iff.mp hj
    exact hf y (Array.mem_of_getElem? hy)
  · exact h x (Array.mem_of_getElem? hj)

theorem forall_mem_push {α : Type} {P : α → Prop} {xs : Array α} (h : ∀ x ∈ xs, P x) {x : α}
    (hx : P x) : ∀ y ∈ xs.push x, P y := by
  intro y hy
  rcases Array.mem_push.mp hy with hmem | rfl
  · exact h y hmem
  · exact hx

theorem forall_mem_pop {α : Type} {P : α → Prop} {xs : Array α} (h : ∀ x ∈ xs, P x) :
    ∀ x ∈ xs.pop, P x := by
  intro x hx
  obtain ⟨i, hi⟩ := Array.mem_iff_getElem?.mp hx
  rw [Array.getElem?_pop] at hi
  split at hi
  · exact h x (Array.mem_of_getElem? hi)
  · exact nomatch hi

namespace Scopes

variable {n : Nat} {s : Scopes Value}

theorem Below.set (h : s.Below n) (env : Environment) {name : String} {v : Value}
    (hv : v.Below n) : (s.set env name v).Below n := by
  cases env with
  | nil => exact ⟨h.globals.set hv, h.frames⟩
  | cons frame outer =>
      exact ⟨h.globals, forall_mem_modify h.frames _ fun b hb => (h.frames b hb).set hv⟩

theorem Below.extend (h : s.Below n) (env : Environment) {frame : Bindings Value}
    (hframe : frame.Below n) : (s.extend env frame).2.Below n :=
  ⟨h.globals, forall_mem_push h.frames hframe⟩

end Scopes

namespace Store

def Locked (s : Store) (id : Nat) : Prop := ∃ cell ∈ s.mutexes[id]?, cell.locked = true

/-- The lists, the mutexes, the pools and the number of steps of a store. -/
def objects (s : Store) : Array (Array Value) × Array MutexCell × Array (Array Nat) × Nat :=
  (s.lists, s.mutexes, s.pools, s.steps)

/-- Whether all that is in lists and mutexes is made of the first `n` instances,
and no thread is in a pool. -/
structure Objects (n : Nat) (s : Store) : Prop where
  lists : ∀ items ∈ s.lists, ∀ v ∈ items, v.Below n
  mutexes : ∀ cell ∈ s.mutexes, cell.value.Below n
  pools : ∀ ids ∈ s.pools, ids = #[]

/-- What an operation may answer and leave in a store: a value made of the first
`n` instances, and everything in lists and mutexes so too, with the same steps
counted and no further mutex locked. -/
structure Answers (n : Nat) (s : Store) (a : Answer) : Prop where
  value : ∀ v, a.1 = .ok v → v.Below n
  objects : a.2.Objects n
  steps : a.2.steps = s.steps
  locks : ∀ id, a.2.Locked id → s.Locked id

variable {n : Nat} {s s' : Store} {v : Value}

theorem Objects.of_objects (h : s.Objects n) (hsame : s'.objects = s.objects) : s'.Objects n := by
  simp only [Store.objects, Prod.mk.injEq] at hsame
  obtain ⟨hlists, hmutexes, hpools, -⟩ := hsame
  obtain ⟨hl, hm, hp⟩ := h
  refine ⟨?_, ?_, ?_⟩
  · rwa [hlists]
  · rwa [hmutexes]
  · rwa [hpools]

/-- Nothing is in a pool, so nothing has to be waited for there. -/
theorem Objects.pool_empty (h : s.Objects n) (id : Nat) : s.pools[id]?.getD #[] = #[] := by
  cases hpool : s.pools[id]? with
  | none => rfl
  | some ids => exact h.pools ids (Array.mem_of_getElem? hpool)

theorem mutexes_of_objects (hsame : s'.objects = s.objects) : s'.mutexes = s.mutexes :=
  congrArg (fun o => o.2.1) hsame

theorem steps_of_objects (hsame : s'.objects = s.objects) : s'.steps = s.steps :=
  congrArg (fun o => o.2.2.2) hsame

theorem locked_of_mutexes (hsame : s'.mutexes = s.mutexes) {id : Nat} (h : s'.Locked id) :
    s.Locked id := by
  unfold Locked at h ⊢
  rwa [hsame] at h

namespace Answers

theorem ok (hs : s.Objects n) (hsame : s'.objects = s.objects) (hv : v.Below n) :
    Answers n s (.ok v, s') := by
  refine ⟨?_, hs.of_objects hsame, steps_of_objects hsame,
    fun _ => locked_of_mutexes (mutexes_of_objects hsame)⟩
  intro u hu
  obtain rfl := Except.ok.inj hu
  exact hv

theorem error (hs : s.Objects n) (hsame : s'.objects = s.objects) {fault : Fault} :
    Answers n s (.error fault, s') :=
  ⟨nofun, hs.of_objects hsame, steps_of_objects hsame, fun _ =>
    locked_of_mutexes (mutexes_of_objects hsame)⟩

/-- An answer may be prepared by changes that count no step and leave the
mutexes. -/
theorem after {a : Answer} (h : Answers n s' a) (hsteps : s'.steps = s.steps)
    (hmutexes : s'.mutexes = s.mutexes) : Answers n s a := by
  refine ⟨h.value, h.objects, h.steps.trans hsteps, ?_⟩
  intro id hid
  exact locked_of_mutexes hmutexes (h.locks id hid)

end Answers

theorem Objects.listItems (h : s.Objects n) (id : Nat) : ∀ v ∈ s.listItems id, v.Below n := by
  unfold Store.listItems
  cases hitems : s.lists[id]? with
  | none => exact fun v hv => absurd hv (Array.not_mem_empty v)
  | some items => exact h.lists items (Array.mem_of_getElem? hitems)

theorem Objects.element? (h : s.Objects n) {id : Nat} {i : Int64} (hv : s.element? id i = some v) :
    v.Below n := by
  obtain ⟨j, -, hj⟩ := Option.bind_eq_some_iff.mp hv
  exact h.listItems id v (Array.mem_of_getElem? hj)

theorem answers_giveList (hs : s.Objects n) {items : Array Value}
    (hitems : ∀ v ∈ items, v.Below n) : Answers n s (s.giveList items) := by
  refine ⟨?_, ⟨forall_mem_push hs.lists hitems, hs.mutexes, hs.pools⟩, rfl, fun _ h => h⟩
  intro v hv
  obtain rfl := Except.ok.inj hv
  trivial

theorem addTexts_below (texts : List Text) (s : Store) (items : Array Value)
    (hitems : ∀ v ∈ items, v.Below n) :
    (∀ v ∈ (newTexts.addTexts (items, s) texts).1, v.Below n) ∧
      (newTexts.addTexts (items, s) texts).2.objects = s.objects := by
  induction texts generalizing s items with
  | nil => exact ⟨hitems, rfl⟩
  | cons t rest ih => exact ih _ _ (forall_mem_push hitems trivial)

theorem answers_newTexts (hs : s.Objects n) (texts : List Text) :
    Answers n s (.ok (s.newTexts texts).1, (s.newTexts texts).2) := by
  obtain ⟨hitems, hsame⟩ :=
    addTexts_below texts s #[] (fun v hv => absurd hv (Array.not_mem_empty v))
  exact (answers_giveList (hs.of_objects hsame) hitems).after (steps_of_objects hsame)
    (mutexes_of_objects hsame)

theorem Objects.changeList (hs : s.Objects n) (id : Nat) {change : Array Value → Array Value}
    (hchange : ∀ items : Array Value, (∀ v ∈ items, v.Below n) → ∀ v ∈ change items, v.Below n) :
    (s.changeList id change).Objects n :=
  ⟨forall_mem_modify hs.lists id fun items hitems => hchange items (hs.lists items hitems),
    hs.mutexes, hs.pools⟩

theorem answers_giveSome (hs : s.Objects n) (hsame : s'.objects = s.objects) (hv : v.Below n) :
    Answers n s (s'.giveSome v) := .ok hs hsame (show (Value.some v s'.fresh).Below n from hv)

theorem answers_refuseReceiver (hs : s.Objects n) (method : String) (args : List Value) :
    Answers n s (s.refuseReceiver method args) := by
  cases args with
  | nil => exact .error hs rfl
  | cons v rest => exact .error hs rfl

theorem answers_refuse (hs : s.Objects n) (hsame : s'.objects = s.objects) {fault : Fault} :
    Answers n s (s'.refuse fault) := .error hs hsame

theorem answers_printText (hs : s.Objects n) (t : Text) : Answers n s (s.printText t) := by
  unfold printText
  split
  · exact .ok hs rfl trivial
  · exact answers_refuse hs (by rfl)

theorem answers_answerDone (hs : s.Objects n) (hsame : s'.objects = s.objects) (action : Text)
    (reply : Except Text Unit) : Answers n s (s'.answerDone action reply) := by
  cases reply with
  | ok done => exact .ok hs hsame trivial
  | error reason => exact .error hs hsame

theorem answers_readText (hs : s.Objects n) (path : Text) : Answers n s (s.readText path) := by
  unfold readText
  split <;> rename_i heq <;> obtain ⟨-, rfl⟩ := Prod.mk.inj heq
  · exact .ok hs rfl trivial
  · exact answers_refuse hs (by rfl)

theorem answers_listDirectory (hs : s.Objects n) (path : Text) :
    Answers n s (s.listDirectory path) := by
  unfold listDirectory
  split <;> rename_i heq <;> obtain ⟨-, rfl⟩ := Prod.mk.inj heq
  · have hafter : (s.askFiles (.names path)).2.Objects n := hs.of_objects rfl
    exact (answers_newTexts hafter _).after rfl rfl
  · exact answers_refuse hs (by rfl)

theorem answers_openFile (hs : s.Objects n) (path : Text) : Answers n s (s.openFile path) := by
  unfold openFile
  split <;> rename_i heq <;> obtain ⟨-, rfl⟩ := Prod.mk.inj heq
  · exact .ok hs rfl trivial
  · exact answers_refuse hs (by rfl)

theorem answers_readOpen (hs : s.Objects n) (id : Nat) (path : Text) :
    Answers n s (s.readOpen id path) := by
  unfold readOpen
  split <;> rename_i heq <;> obtain ⟨-, rfl⟩ := Prod.mk.inj heq
  · exact .ok hs rfl trivial
  · exact answers_refuse hs (by rfl)

theorem answers_writeOpen (hs : s.Objects n) (id : Nat) (path part : Text) :
    Answers n s (s.writeOpen id path part) := by
  unfold writeOpen
  split <;> rename_i heq <;> obtain ⟨-, rfl⟩ := Prod.mk.inj heq
  · exact .ok hs rfl trivial
  · exact answers_refuse hs (by rfl)

theorem answers_writeText (hs : s.Objects n) (path bytes : Text) :
    Answers n s (s.writeText path bytes) :=
  have hsame : (s.askFiles (.writeAll path bytes)).2.objects = s.objects := rfl
  answers_answerDone hs hsame _ _

theorem answers_removeFile (hs : s.Objects n) (path : Text) : Answers n s (s.removeFile path) :=
  have hsame : (s.askFiles (.remove path)).2.objects = s.objects := rfl
  answers_answerDone hs hsame _ _

theorem answers_closeOpen (hs : s.Objects n) (id : Nat) (path : Text) :
    Answers n s (s.closeOpen id path) :=
  have hsame : ((s.setFile id ⟨path, true⟩).askFiles (.close id)).2.objects = s.objects := rfl
  answers_answerDone hs hsame _ _

end Store

open Store

variable {n : Nat} {s : Store}

namespace NumberOp

theorem answers_ofInts (hs : s.Objects n) (op : NumberOp) (a b : Int64) :
    Answers n s (ofInts s op a b) := by
  cases op with
  | div | mod =>
      simp only [ofInts]
      split
      · exact .error hs rfl
      · exact .ok hs rfl trivial
  | _ => exact .ok hs rfl trivial

theorem answers_ofFloats (hs : s.Objects n) (op : NumberOp) (a b : Float) :
    Answers n s (ofFloats s op a b) := by
  cases op with
  | div | mod =>
      simp only [ofFloats]
      split
      · exact .error hs rfl
      · exact .ok hs rfl trivial
  | _ => exact .ok hs rfl trivial

theorem answers_answer (hs : s.Objects n) (op : NumberOp) (left right : Value) :
    Answers n s (answer s op left right) := by
  unfold answer
  split
  · exact answers_ofInts hs _ _ _
  · exact answers_ofFloats hs _ _ _
  · exact answers_ofFloats hs _ _ _
  · exact answers_ofFloats hs _ _ _
  · exact .error hs rfl
  · exact .error hs rfl
  · exact answers_refuseReceiver hs _ _

end NumberOp

namespace NumberMethod

theorem answers_ofInt (hs : s.Objects n) (m : NumberMethod) (v : Value) :
    Answers n s (ofInt s m v) := by
  unfold ofInt
  split
  · cases m with
    | absolute =>
        dsimp only
        split
        · exact .error hs rfl
        · split <;> exact .ok hs rfl trivial
    | negate | posit | truth | display => exact .ok hs rfl trivial
  · exact answers_refuseReceiver hs _ _

theorem answers_ofFloat (hs : s.Objects n) (m : NumberMethod) (v : Value) :
    Answers n s (ofFloat s m v) := by
  unfold ofFloat
  split
  · cases m <;> exact .ok hs rfl trivial
  · exact answers_refuseReceiver hs _ _

end NumberMethod

theorem BoolMethod.answers_answer (hs : s.Objects n) (m : BoolMethod) (args : List Value) :
    Answers n s (BoolMethod.answer s m args) := by
  unfold BoolMethod.answer
  split
  iterate 6 exact .ok hs rfl trivial
  iterate 3 exact .error hs rfl
  exact answers_refuseReceiver hs _ _

theorem NullMethod.answers_answer (hs : s.Objects n) (m : NullMethod) (args : List Value) :
    Answers n s (NullMethod.answer s m args) := by
  unfold NullMethod.answer
  split <;> exact .ok hs rfl trivial

namespace TextMethod

theorem answers_alone (hs : s.Objects n) (m : TextMethod) (t : Text) :
    Answers n s (alone s m t) := by
  cases m <;> exact .ok hs rfl trivial

theorem answers_character (hs : s.Objects n) (t : Text) (index : Int64) :
    Answers n s (character s t index) := by
  unfold character
  split
  · exact .ok hs rfl trivial
  · exact .error hs rfl

theorem answers_repeated (hs : s.Objects n) (t : Text) (times : Int64) :
    Answers n s (TextMethod.repeated s t times) := by
  unfold TextMethod.repeated
  split
  · exact .error hs rfl
  · exact .ok hs rfl trivial

theorem answers_applied (hs : s.Objects n) (m : TextMethod) (receiver : Value) (t : Text)
    (arg : Value) : Answers n s (applied s m receiver t arg) := by
  unfold applied
  split
  · exact .ok hs rfl trivial
  · exact .error hs rfl
  · exact answers_repeated hs _ _
  · exact .error hs rfl
  · exact .ok hs rfl trivial
  · exact .error hs rfl
  · exact answers_character hs _ _
  · exact .error hs rfl
  · exact .ok hs rfl trivial
  · exact .error hs rfl
  · exact answers_newTexts hs _
  · exact .error hs rfl
  · exact .ok hs rfl trivial

theorem answers_answer (hs : s.Objects n) (m : TextMethod) (args : List Value) :
    Answers n s (answer s m args) := by
  unfold answer
  split
  · exact answers_alone hs _ _
  · exact answers_applied hs _ _ _ _
  · exact answers_refuseReceiver hs _ _

end TextMethod

theorem repeatInto_below {items : Array Value} (hitems : ∀ v ∈ items, v.Below n) (times : Nat)
    {before : Array Value} (hbefore : ∀ v ∈ before, v.Below n) :
    ∀ v ∈ repeatInto items times before, v.Below n := by
  induction times generalizing before with
  | zero => exact hbefore
  | succ times ih => exact ih (Array.forall_mem_append.mpr ⟨hbefore, hitems⟩)

namespace ListMethod

theorem answers_repeated (hs : s.Objects n) {items : Array Value}
    (hitems : ∀ v ∈ items, v.Below n) (times : Int64) :
    Answers n s (ListMethod.repeated s items times) := by
  have hnone : ∀ v ∈ (#[] : Array Value), v.Below n := fun v hv => absurd hv (Array.not_mem_empty v)
  unfold ListMethod.repeated
  split
  · exact answers_giveList hs hnone
  · split
    · exact .error hs rfl
    · exact answers_giveList hs (repeatInto_below hitems _ hnone)

theorem answers_popped (hs : s.Objects n) (list : Nat) : Answers n s (popped s list) := by
  unfold popped
  split <;> rename_i hlast
  · exact .ok hs rfl trivial
  · have hpopped : (s.changeList list Array.pop).Objects n := by
      apply hs.changeList
      exact fun items hitems => forall_mem_pop hitems
    have hvalue := hs.listItems list _ (Array.mem_of_back? hlast)
    exact (answers_giveSome hpopped rfl hvalue).after rfl rfl

theorem answers_answer (hs : s.Objects n) (m : ListMethod) {args : List Value}
    (hargs : ∀ v ∈ args, v.Below n) : Answers n s (answer s m args) := by
  unfold answer
  split
  · exact .ok hs rfl trivial
  · exact .ok hs rfl trivial
  · exact .ok hs rfl trivial
  · exact answers_popped hs _
  · rename_i id v
    have hpushed : (s.changeList id fun items => items.push v).Objects n := by
      apply hs.changeList
      intro items hitems
      exact forall_mem_push hitems (hargs v (by simp))
    have hnull : Answers n _ ((s.changeList id fun items => items.push v).give .null) :=
      .ok hpushed rfl trivial
    exact hnull.after rfl rfl
  · split <;> rename_i hfound
    · exact answers_giveSome hs rfl (hs.element? hfound)
    · exact .ok hs rfl trivial
  · split <;> rename_i hfound
    · exact .ok hs rfl (hs.element? hfound)
    · exact .error hs rfl
  · split
    · rename_i id i _ v _ _ _
      have hstored : (s.changeList id fun items =>
          items.modify i.toInt.toNat fun _ => v).Objects n := by
        apply hs.changeList
        intro items hitems
        exact forall_mem_modify hitems _ fun _ _ => hargs v (by simp)
      have hnull : Answers n _ ((s.changeList id fun items =>
          items.modify i.toInt.toNat fun _ => v).give .null) := .ok hstored rfl trivial
      exact hnull.after rfl rfl
    · exact .error hs rfl
  · exact .error hs rfl
  · exact .error hs rfl
  · exact .error hs rfl
  · exact answers_giveList hs (Array.forall_mem_append.mpr ⟨hs.listItems _, hs.listItems _⟩)
  · exact .error hs rfl
  · exact answers_repeated hs (hs.listItems _) _
  · exact .error hs rfl
  · exact answers_refuseReceiver hs _ _

end ListMethod

namespace IterMethod

theorem answers_ofList (hs : s.Objects n) (m : IterMethod) (v : Value) :
    Answers n s (ofList s m v) := by
  unfold ofList
  split
  · split
    · exact .ok hs rfl trivial
    · cases m with
      | length => exact .ok hs rfl trivial
      | next =>
          dsimp only
          split <;> rename_i hfound
          · exact .ok hs rfl trivial
          · exact answers_giveSome hs rfl (hs.listItems _ _ (Array.mem_of_getElem? hfound))
  · exact answers_refuseReceiver hs _ _

theorem answers_ofText (hs : s.Objects n) (m : IterMethod) (v : Value) :
    Answers n s (ofText s m v) := by
  unfold ofText
  split
  · split
    · exact .ok hs rfl trivial
    · cases m with
      | length => exact .ok hs rfl trivial
      | next => dsimp only; split <;> exact .ok hs rfl trivial
  · exact answers_refuseReceiver hs _ _

theorem answers_ofRange (hs : s.Objects n) (m : IterMethod) (v : Value) :
    Answers n s (ofRange s m v) := by
  unfold ofRange
  split
  · split
    · exact .ok hs rfl trivial
    · cases m with
      | length => exact .ok hs rfl trivial
      | next => dsimp only; split <;> exact .ok hs rfl trivial
  · exact answers_refuseReceiver hs _ _

end IterMethod

theorem RangeMethod.answers_answer (hs : s.Objects n) (m : RangeMethod) (args : List Value) :
    Answers n s (RangeMethod.answer s m args) := by
  unfold RangeMethod.answer
  split
  · exact .ok hs rfl trivial
  · exact .ok hs rfl trivial
  · exact .ok hs rfl trivial
  · dsimp only
    split
    · exact .ok hs rfl trivial
    · exact .error hs rfl
  · exact .ok hs rfl trivial
  · exact .ok hs rfl trivial
  · exact answers_refuseReceiver hs _ _

theorem OptionMethod.answers_answer (hs : s.Objects n) (m : OptionMethod) {args : List Value}
    (hargs : ∀ v ∈ args, v.Below n) : Answers n s (OptionMethod.answer s m args) := by
  unfold OptionMethod.answer
  split
  · rename_i v id
    exact .ok hs rfl (hargs (.some v id) (by simp))
  · exact .error hs rfl
  iterate 6 exact .ok hs rfl trivial
  exact answers_refuseReceiver hs _ _

theorem answers_rangeAnswer (hs : s.Objects n) (args : List Value) :
    Answers n s (rangeAnswer s args) := by
  unfold rangeAnswer
  split
  · exact .ok hs rfl trivial
  · exact .error hs rfl
  · exact .ok hs rfl trivial
  · exact .error hs rfl
  · exact .error hs rfl
  · exact .error hs rfl

namespace FileMethod

theorem answers_ofFile (hs : s.Objects n) (m : FileMethod) (id : Nat) (f : OpenFile)
    (arg : Option Value) : Answers n s (ofFile s m id f arg) := by
  unfold ofFile
  split
  · exact .ok hs rfl trivial
  · split
    · exact .error hs rfl
    · exact answers_writeOpen hs _ _ _
  · exact .error hs rfl
  · split
    · exact .error hs rfl
    · exact answers_readOpen hs _ _
  · split
    · exact .error hs rfl
    · exact answers_closeOpen hs _ _

theorem answers_answer (hs : s.Objects n) (m : FileMethod) (args : List Value) :
    Answers n s (answer s m args) := by
  unfold answer
  split
  · split
    · exact answers_ofFile hs _ _ _ _
    · exact .ok hs rfl trivial
  · exact answers_refuseReceiver hs _ _

end FileMethod

theorem answers_newMutex (hs : s.Objects n) {v : Value} (hv : v.Below n) :
    Answers n s (.ok (s.newMutex v).1, (s.newMutex v).2) := by
  refine ⟨?_, ⟨hs.lists, forall_mem_push hs.mutexes hv, hs.pools⟩, rfl, ?_⟩
  · intro u hu
    obtain rfl := Except.ok.inj hu
    trivial
  · rintro id ⟨cell, hcell, hlocked⟩
    change (s.mutexes.push ⟨v, false⟩)[id]? = some cell at hcell
    rw [Array.getElem?_push] at hcell
    split at hcell
    · obtain rfl := Option.some.inj hcell
      exact nomatch hlocked
    · exact ⟨cell, hcell, hlocked⟩

theorem answers_newPool (hs : s.Objects n) :
    Answers n s (.ok s.newPool.1, s.newPool.2) := by
  refine ⟨?_, ⟨hs.lists, hs.mutexes, forall_mem_push hs.pools rfl⟩, rfl, fun _ h => h⟩
  intro u hu
  obtain rfl := Except.ok.inj hu
  trivial

/-- An operation that neither calls back nor waits answers with what it was
given, or what is in lists, besides new things. -/
theorem Builtin.answers_answer (hs : s.Objects n) (b : Builtin) {args : List Value}
    (hargs : ∀ v ∈ args, v.Below n) : Answers n s (b.answer s args) := by
  unfold Builtin.answer
  split
  · exact answers_rangeAnswer hs _
  · rename_i v
    exact .ok hs rfl (hargs v (by simp))
  · rename_i v
    exact answers_newMutex hs (hargs v (by simp))
  · exact answers_newPool hs
  · exact .ok hs rfl trivial
  · exact answers_readText hs _
  · exact .error hs rfl
  · exact answers_writeText hs _ _
  · exact .error hs rfl
  · exact .error hs rfl
  · exact .ok hs rfl trivial
  · exact .error hs rfl
  · exact answers_removeFile hs _
  · exact .error hs rfl
  · exact answers_listDirectory hs _
  · exact .error hs rfl
  · exact answers_openFile hs _
  · exact .error hs rfl
  · exact .ok hs rfl trivial
  · exact .ok hs rfl trivial
  · rename_i v
    exact .ok hs rfl (hargs v (by simp))
  · exact NumberOp.answers_answer hs _ _ _
  · exact NumberMethod.answers_ofInt hs _ _
  · exact NumberMethod.answers_ofFloat hs _ _
  · exact TextMethod.answers_answer hs _ _
  · exact BoolMethod.answers_answer hs _ _
  · exact NullMethod.answers_answer hs _ _
  · exact ListMethod.answers_answer hs _ hargs
  · exact IterMethod.answers_ofList hs _ _
  · exact IterMethod.answers_ofText hs _ _
  · exact IterMethod.answers_ofRange hs _ _
  · exact RangeMethod.answers_answer hs _ _
  · exact OptionMethod.answers_answer hs _ hargs
  · exact .ok hs rfl trivial
  · exact .ok hs rfl trivial
  · exact FileMethod.answers_answer hs _ _
  · exact answers_refuseReceiver hs _ _

namespace Store

/-- Whether all values in a store are made of instances that there are, and the
fields of each instance only of those made before it. -/
structure Holds (s : Store) : Prop where
  scopes : s.scopes.Below s.instances.size
  objects : s.Objects s.instances.size
  fields : ∀ (i : Nat) (x : Instance), s.instances[i]? = some x → x.fields.Below i

/-- What an instance holds was made before it. -/
theorem Holds.field? {s : Store} (hs : s.Holds) {id : Nat} {name : String} {v : Value}
    (hv : s.field? id name = some v) : v.Below id := by
  obtain ⟨x, hx, hget⟩ := Option.bind_eq_some_iff.mp hv
  exact (hs.fields id x hx).get? hget

theorem commonMember_below {s : Store} {v f : Value} {name : String} {n : Nat}
    (h : s.commonMember v name = .ok f) : f.Below n := by
  unfold commonMember at h
  split at h
  · obtain rfl := Except.ok.inj h
    trivial
  · obtain rfl := Except.ok.inj h
    trivial
  · exact nomatch h

/-- Looking up a member changes nothing, and finds what the store holds or a
built-in operation. -/
theorem Holds.member {s : Store} (hs : s.Holds) {v : Value} (hv : v.Below s.instances.size)
    (name : String) :
    (s.member v name).2 = s ∧
      ∀ f, (s.member v name).1 = .ok f → f.Below s.instances.size := by
  unfold Store.member
  split
  · split <;> rename_i hfound
    · refine ⟨rfl, ?_⟩
      intro f hf
      obtain rfl := Except.ok.inj hf
      exact (hs.field? hfound).mono (Nat.le_of_lt hv)
    · exact ⟨rfl, fun f hf => commonMember_below hf⟩
  · split
    · refine ⟨rfl, ?_⟩
      intro f hf
      obtain rfl := Except.ok.inj hf
      trivial
    · refine ⟨rfl, ?_⟩
      intro f hf
      obtain rfl := Except.ok.inj hf
      trivial
    · exact ⟨rfl, fun f hf => commonMember_below hf⟩
  · exact hv.elim
  · split
    · refine ⟨rfl, ?_⟩
      intro f hf
      obtain rfl := Except.ok.inj hf
      trivial
    · exact ⟨rfl, fun f hf => commonMember_below hf⟩

/-- The store before a script runs holds built-in things only. -/
theorem holds_initial : initial.Holds := by
  refine ⟨⟨?_, ?_⟩, ⟨?_, ?_, ?_⟩, ?_⟩
  · refine Bindings.below_empty.setAll ?_
    refine List.forall_mem_append.mpr ⟨?_, ?_⟩
    · intro entry hmem
      obtain ⟨b, -, rfl⟩ := List.mem_map.mp hmem
      trivial
    · exact List.forall_mem_cons.mpr ⟨trivial, List.forall_mem_singleton.mpr trivial⟩
  · exact fun b hb => absurd hb (Array.not_mem_empty b)
  · exact fun items hitems => absurd hitems (Array.not_mem_empty items)
  · exact fun cell hcell => absurd hcell (Array.not_mem_empty cell)
  · exact fun ids hids => absurd hids (Array.not_mem_empty ids)
  · exact nofun

end Store

end Scriptlet
