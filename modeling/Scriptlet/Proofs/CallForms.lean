/-
What a call can do, said once: of a built-in operation that calls back, of a
function of the host, of any value, and through a hook.  What holds of all
calls is shown by cases on the form.
-/
import Scriptlet.Machine.Call

namespace Scriptlet

namespace Task

variable {limits : Limits} {t : Task} {s : Store} {r : Task × Store}

/-- The forms of an operation that calls back, with what it is given and what
comes of it. -/
inductive BackForm (t : Task) (s : Store) :
    Builtin → List Value → Task × Store → Prop
  | print (args : List Value) : BackForm t s .print args (t.printing s [] args)
  | freshText {b : Builtin} (v : Value) :
      BackForm t s b [v] ((t.pushed .freshText).askText v, s)
  | someText {b : Builtin} (v : Value) (id : Nat) :
      BackForm t s b [.some v id] ((t.pushed .someText).askText v, s)
  | text {b : Builtin} {args : List Value} (text : Text) :
      BackForm t s b args (t.answered (s.giveText text))
  | length (v : Value) : BackForm t s .len [v] (t.doing (.hook v "__len__" []), s)
  | spawned {b : Builtin} {args : List Value} (v : Value) (pools : Array (Array Nat)) :
      BackForm t s b args
        (t.having (.thread (s.newThread v t.file).1),
          { (s.newThread v t.file).2 with pools := pools })
  | sleep {args : List Value} (ms : Float) :
      BackForm t s .sleep args (t.sleeping s ms, s)
  | restless (v : Value) :
      BackForm t s .sleep [v]
        (t.answered (s.refuseType "sleep() duration" "a number" v))
  | assertTruth (v : Value) :
      BackForm t s .assert [v] ((t.pushed .assertTruth).askTruth v, s)
  | assertEqual {b : Builtin} (x y : Value) (wanted : Bool) :
      BackForm t s b [x, y] ((t.pushed (.assertEqual x y wanted)).askEqual s x y, s)
  | seek {b : Builtin} (id : Nat) (v : Value) (onlyWhether : Bool) :
      BackForm t s b [.list id, v]
        (t.seek s v 0 onlyWhether (s.listItems id).toList, s)
  | listText (id : Nat) :
      BackForm t s (.list .display) [.list id]
        (t.listText s [] (s.listItems id).toList)
  | comparePairs {x y : Nat} {pairs : List (Value × Value)} (h : listPairs s x y = .inr pairs) :
      BackForm t s (.list .equal) [.list x, .list y] (t.comparePairs s pairs, s)
  | decided {b : Builtin} {args : List Value} (answer : Bool) :
      BackForm t s b args (t.having (.bool answer), s)
  | optionEqual (x y : Value) (i j : Nat) :
      BackForm t s (.option .equal) [.some x i, .some y j] (t.askEqual s x y, s)
  | locked {id : Nat} {cell : MutexCell} (m : MutexMethod) (rest : List Value)
      (hcell : s.mutexes[id]? = some cell) (h : cell.locked = true) :
      BackForm t s (.mutexOf m) (.mutex id :: rest) (t, s)
  | useMutex {id : Nat} {cell : MutexCell} (m : MutexMethod) (rest : List Value)
      (hcell : s.mutexes[id]? = some cell) (h : ¬cell.locked = true) :
      BackForm t s (.mutexOf m) (.mutex id :: rest) (t.useMutex s m id cell rest.head?)
  | noMutex {id : Nat} (m : MutexMethod) (rest : List Value) (h : s.mutexes[id]? = none) :
      BackForm t s (.mutexOf m) (.mutex id :: rest) (t.having .null, s)
  | joinThread (id : Nat) :
      BackForm t s (.thread .join) [.thread id] (t.joinThread s id, s)
  | joinPool (id : Nat) :
      BackForm t s (.pool .join) [.pool id]
        (t.doing (.joining (s.pools[id]?.getD #[]).toList), s)
  | refused {b : Builtin} {args : List Value} :
      BackForm t s b args (t.answered (s.refuseReceiver b.name args))

theorem callBack_form {b : Builtin} {args : List Value} (h : t.callBack s b args = r) :
    BackForm t s b args r := by
  subst h
  unfold callBack
  split
  · exact .print _
  · exact .freshText _
  · exact .text _
  · exact .freshText _
  · exact .length _
  · exact .spawned _ _
  · exact .sleep _
  · exact .sleep _
  · exact .restless _
  · exact .assertTruth _
  · exact .assertEqual _ _ true
  · exact .assertEqual _ _ false
  · exact .seek _ _ true
  · exact .seek _ _ false
  · exact .listText _
  · split <;> rename_i hpairs
    · exact .decided _
    · exact .comparePairs hpairs
  · exact .decided false
  · exact .decided true
  · exact .optionEqual _ _ _ _
  · exact .decided false
  · exact .decided false
  · exact .text _
  · exact .someText _ _
  · split <;> rename_i hcell
    · split <;> rename_i hlocked
      · exact .locked _ _ hcell hlocked
      · exact .useMutex _ _ hcell hlocked
    · exact .noMutex _ _ hcell
  · exact .joinThread _
  · exact .spawned _ _
  · exact .joinPool _
  · exact .refused

/-- The forms of a call of a function of the host. -/
inductive HostForm (t : Task) (s : Store) (f : HostFunction) : Task × Store → Prop
  | failing (fault : Fault) : HostForm t s f (t.failing fault, s)
  | endless : HostForm t s f (t, s)
  | having {args : List Value} {v : Value} {s' : Store} (h : f.call s args = some (.ok v, s')) :
      HostForm t s f (t.having v, s')
  | refused {args : List Value} {reason : Text} {s' : Store} (name : String)
      (h : f.call s args = some (.error reason, s')) :
      HostForm t s f (t.failing (.hostCall name reason), s')

theorem callHost_form {f : HostFunction} {name : String} {bound : Bool} {args : List Value}
    (h : t.callHost s f name bound args = r) : HostForm t s f r := by
  subst h
  unfold callHost
  refine iteInduction (fun _ => .failing _) fun _ => iteInduction (fun _ => .failing _) fun _ => ?_
  split <;> rename_i heq
  · exact .endless
  · exact .having heq
  · exact .refused name heq

/-- The forms of a call of a value. -/
inductive CallForm (t : Task) (s : Store) :
    Value → List Value → Task × Store → Prop
  | arity {callee : Value} {args : List Value} (name : String) (expected : Nat) :
      CallForm t s callee args (t.failing (.arity name expected args.length), s)
  | function {f : Closure} {args : List Value} (id : Nat) (h : args.length = f.params.length) :
      CallForm t s (.function f id) args
        (t.awaiting (.leaveFunction f.name)
            (.block f.body
              (s.scopes.extend f.env (Bindings.empty.setAll (f.params.zip args))).1),
          { s with
            scopes := (s.scopes.extend f.env (Bindings.empty.setAll (f.params.zip args))).2 })
  | callBack {b : Builtin} {args : List Value}
      (harity : ¬b.arity.any (fun n => n != args.length) = true) (h : b.callsBack = true) :
      CallForm t s (.builtin b) args (t.callBack s b args)
  | answered {b : Builtin} {args : List Value}
      (harity : ¬b.arity.any (fun n => n != args.length) = true) (h : ¬b.callsBack = true) :
      CallForm t s (.builtin b) args (t.answered (b.answer s args))
  | host (f : HostFunction) (name : String) (bound : Bool) (id : Nat) (args : List Value) :
      CallForm t s (.hostFunction f name bound id) args (t.callHost s f name bound args)
  | new {c : ClassDef} {args : List Value} (id : Nat) (h : args.length = c.fields.length) :
      CallForm t s (.classOf c id) args
        (t.having (instantiate s c id args (t.scope.getD [])).1,
          (instantiate s c id args (t.scope.getD [])).2)
  | forwarded {id : Nat} {f : Value} (args : List Value) (h : s.field? id "__call__" = some f) :
      CallForm t s (.instance id) args
        (t.awaiting .leaveInstance (.call f (.instance id :: args)), s)
  | notCallable (callee : Value) (args : List Value) :
      CallForm t s callee args (t.failing (.notCallable (s.typeName callee)), s)

theorem call_form {callee : Value} {args : List Value} (h : t.call s callee args = r) :
    CallForm t s callee args r := by
  subst h
  unfold call
  split
  · split <;> rename_i hcount
    · exact .arity _ _
    · exact .function _ (Decidable.not_not.mp hcount)
  · split <;> rename_i harity
    · exact .arity _ _
    · split <;> rename_i hback
      · exact .callBack harity hback
      · exact .answered harity hback
  · exact .host _ _ _ _ _
  · split <;> rename_i hcount
    · exact .arity _ _
    · exact .new _ (Decidable.not_not.mp hcount)
  · split <;> rename_i hfield
    · exact .forwarded _ hfield
    · exact .notCallable _ _
  · exact .notCallable _ _

/-- The forms of a call of a hook. -/
inductive HookForm (limits : Limits) (t : Task) (s : Store) (receiver : Value) (name : String)
    (args : List Value) : Task × Store → Prop
  | tooDeep (h : limits.maxDepth < t.depth + 1) :
      HookForm limits t s receiver name args (t.failing .tooDeep, s)
  | missing {fault : Fault} {s' : Store} (h : s.member receiver name = (.error fault, s')) :
      HookForm limits t s receiver name args (t.failing fault, s')
  | found {f : Value} {s' : Store} (hdepth : t.depth < limits.maxDepth)
      (h : s.member receiver name = (.ok f, s')) :
      HookForm limits t s receiver name args
        ({ t with
            control := .call f (receiver :: args)
            frames := .leaveHook :: t.frames
            depth := t.depth + 1 }, s')

theorem callHook_form {receiver : Value} {name : String} {args : List Value}
    (h : t.callHook limits s receiver name args = r) :
    HookForm limits t s receiver name args r := by
  subst h
  unfold callHook
  split <;> rename_i hdepth
  · exact .tooDeep hdepth
  · split <;> rename_i hmember
    · exact .missing hmember
    · exact .found (by omega) hmember

end Task

end Scriptlet
