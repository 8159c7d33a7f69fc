/-
Operations that come to an end by themselves bind no name, make no instance and use
no mutex: they leave alone the part of the store in which names, instances, threads
and the insides of mutexes stand, but for the one that makes a mutex.
-/
import Scriptlet.Operation
import Scriptlet.Value.Member

namespace Scriptlet

namespace Store

/-- The names, the instances and the threads of a store. -/
def settled (s : Store) : Scopes Value × Array Instance × Array ThreadCell :=
  (s.scopes, s.instances, s.threads)

/-- What of a store is settled, and the insides of its mutexes. -/
def standing (s : Store) :
    (Scopes Value × Array Instance × Array ThreadCell) × Array MutexCell :=
  (s.settled, s.mutexes)

theorem settled_of_standing {s s' : Store} (h : s'.standing = s.standing) :
    s'.settled = s.settled := congrArg Prod.fst h

theorem mutexes_of_standing {s s' : Store} (h : s'.standing = s.standing) :
    s'.mutexes = s.mutexes := congrArg Prod.snd h

@[simp] theorem standing_newTexts (s : Store) (texts : List Text) :
    (s.newTexts texts).2.standing = s.standing := by
  have hadd : ∀ (texts : List Text) (acc : Array Value × Store),
      (newTexts.addTexts acc texts).2.standing = acc.2.standing := by
    intro texts
    induction texts with
    | nil => intro acc; rfl
    | cons t rest ih => intro acc; exact ih _
  exact hadd texts (#[], s)

@[simp] theorem standing_refuseReceiver (s : Store) (method : String) (args : List Value) :
    (s.refuseReceiver method args).2.standing = s.standing := by
  cases args <;> rfl

@[simp] theorem standing_printText (s : Store) (t : Text) :
    (s.printText t).2.standing = s.standing := by
  unfold printText
  split <;> rfl

@[simp] theorem standing_answerDone (s : Store) (action : Text) (reply : Except Text Unit) :
    (s.answerDone action reply).2.standing = s.standing := by
  cases reply <;> rfl

@[simp] theorem standing_writeText (s : Store) (path bytes : Text) :
    (s.writeText path bytes).2.standing = s.standing := standing_answerDone _ _ _

@[simp] theorem standing_removeFile (s : Store) (path : Text) :
    (s.removeFile path).2.standing = s.standing := standing_answerDone _ _ _

@[simp] theorem standing_readText (s : Store) (path : Text) :
    (s.readText path).2.standing = s.standing := by
  simp only [readText, askFiles]
  split <;> rename_i heq <;> obtain ⟨-, rfl⟩ := Prod.mk.inj heq <;> rfl

@[simp] theorem standing_listDirectory (s : Store) (path : Text) :
    (s.listDirectory path).2.standing = s.standing := by
  simp only [listDirectory, askFiles]
  split <;> rename_i heq <;> obtain ⟨-, rfl⟩ := Prod.mk.inj heq
  · exact standing_newTexts _ _
  · rfl

@[simp] theorem standing_openFile (s : Store) (path : Text) :
    (s.openFile path).2.standing = s.standing := by
  simp only [openFile, askFiles]
  split <;> rename_i heq <;> obtain ⟨-, rfl⟩ := Prod.mk.inj heq <;> rfl

@[simp] theorem standing_readOpen (s : Store) (id : Nat) (path : Text) :
    (s.readOpen id path).2.standing = s.standing := by
  simp only [readOpen, askFiles]
  split <;> rename_i heq <;> obtain ⟨-, rfl⟩ := Prod.mk.inj heq <;> rfl

@[simp] theorem standing_closeOpen (s : Store) (id : Nat) (path : Text) :
    (s.closeOpen id path).2.standing = s.standing := standing_answerDone _ _ _

@[simp] theorem standing_writeOpen (s : Store) (id : Nat) (path part : Text) :
    (s.writeOpen id path part).2.standing = s.standing := by
  simp only [writeOpen, askFiles]
  split <;> rename_i heq <;> obtain ⟨-, rfl⟩ := Prod.mk.inj heq <;> rfl

end Store

namespace NumberOp

@[simp] theorem standing_ofInts (s : Store) (op : NumberOp) (a b : Int64) :
    (ofInts s op a b).2.standing = s.standing := by
  cases op <;> simp only [ofInts] <;> first | rfl | (split <;> rfl)

@[simp] theorem standing_ofFloats (s : Store) (op : NumberOp) (a b : Float) :
    (ofFloats s op a b).2.standing = s.standing := by
  cases op <;> simp only [ofFloats] <;> first | rfl | (split <;> rfl)

@[simp] theorem standing_answer (s : Store) (op : NumberOp) (left right : Value) :
    (answer s op left right).2.standing = s.standing := by
  unfold answer
  split <;> first | rfl | simp

end NumberOp

namespace NumberMethod

@[simp] theorem standing_ofInt (s : Store) (m : NumberMethod) (v : Value) :
    (ofInt s m v).2.standing = s.standing := by
  unfold ofInt
  split
  · cases m with
    | absolute => dsimp only; split <;> first | rfl | (split <;> rfl)
    | negate | posit | truth | display => rfl
  · exact Store.standing_refuseReceiver _ _ _

@[simp] theorem standing_ofFloat (s : Store) (m : NumberMethod) (v : Value) :
    (ofFloat s m v).2.standing = s.standing := by
  unfold ofFloat
  split
  · cases m <;> rfl
  · exact Store.standing_refuseReceiver _ _ _

end NumberMethod

@[simp] theorem BoolMethod.standing_answer (s : Store) (m : BoolMethod) (args : List Value) :
    (BoolMethod.answer s m args).2.standing = s.standing := by
  unfold BoolMethod.answer
  split <;> first | rfl | simp

@[simp] theorem NullMethod.standing_answer (s : Store) (m : NullMethod) (args : List Value) :
    (NullMethod.answer s m args).2.standing = s.standing := by
  unfold NullMethod.answer
  split <;> rfl

namespace TextMethod

@[simp] theorem standing_alone (s : Store) (m : TextMethod) (t : Text) :
    (alone s m t).2.standing = s.standing := by
  cases m <;> rfl

@[simp] theorem standing_character (s : Store) (t : Text) (index : Int64) :
    (character s t index).2.standing = s.standing := by
  unfold character
  split <;> rfl

@[simp] theorem standing_repeated (s : Store) (t : Text) (times : Int64) :
    (TextMethod.repeated s t times).2.standing = s.standing := by
  unfold TextMethod.repeated
  split <;> rfl

@[simp] theorem standing_applied (s : Store) (m : TextMethod) (receiver : Value) (t : Text)
    (arg : Value) : (applied s m receiver t arg).2.standing = s.standing := by
  unfold applied
  split <;> first | rfl | exact Store.standing_newTexts _ _ | simp

@[simp] theorem standing_answer (s : Store) (m : TextMethod) (args : List Value) :
    (answer s m args).2.standing = s.standing := by
  unfold answer
  split <;> simp

end TextMethod

namespace ListMethod

@[simp] theorem standing_repeated (s : Store) (items : Array Value) (times : Int64) :
    (ListMethod.repeated s items times).2.standing = s.standing := by
  unfold ListMethod.repeated
  split
  · rfl
  · split <;> rfl

@[simp] theorem standing_popped (s : Store) (list : Nat) :
    (popped s list).2.standing = s.standing := by
  unfold popped
  split <;> rfl

@[simp] theorem standing_answer (s : Store) (m : ListMethod) (args : List Value) :
    (answer s m args).2.standing = s.standing := by
  unfold answer
  split <;> first | rfl | (split <;> rfl) | simp

end ListMethod

namespace IterMethod

@[simp] theorem standing_ofList (s : Store) (m : IterMethod) (v : Value) :
    (ofList s m v).2.standing = s.standing := by
  unfold ofList
  split
  · split
    · rfl
    · cases m with
      | length => rfl
      | next => dsimp only; split <;> rfl
  · exact Store.standing_refuseReceiver _ _ _

@[simp] theorem standing_ofText (s : Store) (m : IterMethod) (v : Value) :
    (ofText s m v).2.standing = s.standing := by
  unfold ofText
  split
  · split
    · rfl
    · cases m with
      | length => rfl
      | next => dsimp only; split <;> rfl
  · exact Store.standing_refuseReceiver _ _ _

@[simp] theorem standing_ofRange (s : Store) (m : IterMethod) (v : Value) :
    (ofRange s m v).2.standing = s.standing := by
  unfold ofRange
  split
  · split
    · rfl
    · cases m with
      | length => rfl
      | next => dsimp only; split <;> rfl
  · exact Store.standing_refuseReceiver _ _ _

end IterMethod

@[simp] theorem RangeMethod.standing_answer (s : Store) (m : RangeMethod) (args : List Value) :
    (RangeMethod.answer s m args).2.standing = s.standing := by
  unfold RangeMethod.answer
  split <;> first | rfl | (dsimp only; split <;> rfl) | simp

@[simp] theorem OptionMethod.standing_answer (s : Store) (m : OptionMethod) (args : List Value) :
    (OptionMethod.answer s m args).2.standing = s.standing := by
  unfold OptionMethod.answer
  split <;> first | rfl | simp

@[simp] theorem standing_rangeAnswer (s : Store) (args : List Value) :
    (rangeAnswer s args).2.standing = s.standing := by
  unfold rangeAnswer
  split <;> rfl

namespace FileMethod

@[simp] theorem standing_ofFile (s : Store) (m : FileMethod) (id : Nat) (f : OpenFile)
    (arg : Option Value) : (ofFile s m id f arg).2.standing = s.standing := by
  unfold ofFile
  split <;> first | rfl | (split <;> first | rfl | simp)

@[simp] theorem standing_answer (s : Store) (m : FileMethod) (args : List Value) :
    (answer s m args).2.standing = s.standing := by
  unfold answer
  split
  · split
    · exact standing_ofFile _ _ _ _ _
    · rfl
  · exact Store.standing_refuseReceiver _ _ _

end FileMethod

/-- An operation that neither calls back nor waits leaves alone what stands, unless it
makes a mutex. -/
theorem Builtin.standing_answer (s : Store) {b : Builtin} (hb : b ≠ .mutex) (args : List Value) :
    (b.answer s args).2.standing = s.standing := by
  unfold Builtin.answer
  split <;> first | rfl | exact absurd rfl hb | simp

/-- An operation that neither calls back nor waits binds nothing. -/
theorem Builtin.settled_answer (s : Store) (b : Builtin) (args : List Value) :
    (b.answer s args).2.settled = s.settled := by
  by_cases hb : b = .mutex
  · subst hb
    unfold Builtin.answer
    split <;> first | rfl | exact Store.settled_of_standing (by simp)
  · exact Store.settled_of_standing (b.standing_answer s hb args)

namespace Marshal

mutual

theorem standing_toValue (s : Store) : ∀ h : HostValue, (toValue s h).2.standing = s.standing
  | .nil | .nilPointer _ | .bool _ | .int _ _ | .float64 _ | .float32 _ | .string _
  | .pointer _ | .other _ | .function _ | .object _ => rfl
  | .named _ inner => by
      unfold toValue
      exact standing_toValue s inner
  | .slice _ items | .array _ items => by
      have hitems := standing_toValues s 0 #[] items
      unfold toValue
      split <;> rename_i heq <;> rw [heq] at hitems <;> exact hitems

theorem standing_toValues (s : Store) (n : Nat) (before : Array Value) :
    ∀ items : List HostValue, (toValues s n before items).2.standing = s.standing
  | [] => rfl
  | h :: rest => by
      have hfirst := standing_toValue s h
      unfold toValues
      split <;> rename_i s' heq <;> rw [heq] at hfirst
      · exact hfirst
      · exact (standing_toValues s' (n + 1) _ rest).trans hfirst

end

end Marshal

namespace HostFunction

theorem standing_results (s : Store) (hs : List HostValue) :
    (results s hs).2.standing = s.standing := by
  have hcollect : ∀ (hs : List HostValue) (s : Store) (before : Array Value),
      (results.collect s before hs).2.standing = s.standing := by
    intro hs
    induction hs with
    | nil => intro s before; rfl
    | cons h rest ih =>
        intro s before
        have hfirst := Marshal.standing_toValue s h
        unfold results.collect
        split <;> rename_i s' heq <;> rw [heq] at hfirst
        · exact hfirst
        · exact (ih s' _).trans hfirst
  unfold results
  split
  · rfl
  · exact Marshal.standing_toValue _ _
  · exact hcollect _ _ _

/-- A function of the host binds nothing and uses no mutex. -/
theorem standing_call {s s' : Store} {f : HostFunction} {args : List Value} {r : Except Text Value}
    (h : f.call s args = some (r, s')) : s'.standing = s.standing := by
  unfold call at h
  dsimp only at h
  split at h
  · obtain ⟨-, rfl⟩ := Prod.mk.inj (Option.some.inj h)
    rfl
  · obtain ⟨made, -, hcarried⟩ := Option.map_eq_some_iff.mp h
    cases made with
    | error reason =>
        obtain ⟨-, rfl⟩ := Prod.mk.inj hcarried
        rfl
    | ok hs =>
        dsimp only [Store.askHost] at hcarried
        split at hcarried <;> rename_i heq <;> obtain ⟨-, rfl⟩ := Prod.mk.inj heq
        · obtain ⟨-, rfl⟩ := Prod.mk.inj hcarried
          rfl
        · rename_i results
          exact (congrArg (fun a => a.2.standing) hcarried).symm.trans (standing_results _ results)

end HostFunction

theorem HostPointer.standing_member? {s : Store} {p : HostPointer} {name : String}
    {found : Except Fault Value × Store} (h : p.member? s name = some found) :
    found.2.standing = s.standing := by
  unfold HostPointer.member? at h
  split at h
  · exact nomatch h
  · obtain rfl := Option.some.inj h
    rfl
  · rename_i field _
    have hvalue := Marshal.standing_toValue s field
    split at h <;> rename_i heq <;> rw [heq] at hvalue <;> obtain rfl := Option.some.inj h <;>
      exact hvalue

/-- Looking up a member binds nothing and uses no mutex. -/
@[simp] theorem Store.standing_member (s : Store) (v : Value) (name : String) :
    (s.member v name).2.standing = s.standing := by
  unfold Store.member
  split
  · split <;> rfl
  · split <;> rfl
  · split
    · rename_i hfound
      exact HostPointer.standing_member? hfound
    · rfl
  · split <;> rfl

namespace Store

theorem threads_of_settled {s s' : Store} (h : s'.settled = s.settled) :
    s'.threads = s.threads := congrArg (fun parts => parts.2.2) h

theorem settled_refuseReceiver (s : Store) (method : String) (args : List Value) :
    (s.refuseReceiver method args).2.settled = s.settled :=
  settled_of_standing (standing_refuseReceiver s method args)

theorem settled_member (s : Store) (v : Value) (name : String) :
    (s.member v name).2.settled = s.settled := settled_of_standing (standing_member s v name)

end Store

theorem HostFunction.settled_call {s s' : Store} {f : HostFunction} {args : List Value}
    {r : Except Text Value} (h : f.call s args = some (r, s')) : s'.settled = s.settled :=
  Store.settled_of_standing (standing_call h)

end Scriptlet
