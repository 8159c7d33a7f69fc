/-
Calls: of functions, classes and instances, and of the built-in operations
that call back into the script or wait for another thread.
-/
import Scriptlet.Machine.Basic

namespace Scriptlet

namespace Task

def askTruth (t : Task) (v : Value) : Task :=
  match v with
  | .bool b => t.having (.bool b)
  | v => t.awaiting (.check .truth v) (.hook v HookCheck.truth.hook [])

def askText (t : Task) (v : Value) : Task :=
  t.awaiting (.check .text v) (.hook v HookCheck.text.hook [])

/-- Whether two values can be equal: they are of one type, and instances of one
class. -/
def comparable (s : Store) (a b : Value) : Bool :=
  match a, b with
  | .instance i, .instance j =>
    (s.instances[i]?.map Instance.classId) == (s.instances[j]?.map Instance.classId)
  | a, b => a.typeLabel == b.typeLabel

def askEqual (t : Task) (s : Store) (a b : Value) : Task :=
  if comparable s a b then
    t.awaiting (.check .equality a) (.hook a HookCheck.equality.hook [b])
  else t.having (.bool false)

/-- Calls something from a place in the script, so that it stands in traces. -/
def applying (t : Task) (s : Store) (callee : Value) (args : List Value) (site : Position) :
    Task :=
  { t with
    control := .call callee args
    frames := .leaveCall :: t.frames
    calls := ⟨s.calleeName callee, t.file, site⟩ :: t.calls }

/-- Goes on printing values; a string shows as it is. -/
def printing (t : Task) (s : Store) (done : List Text) : List Value → Task × Store
  | [] =>
    t.answered (s.printText
      (Text.join (Text.ofString " ") done.reverse ++ Text.ofString "\n"))
  | .str text _ :: rest => printing t s (text :: done) rest
  | v :: rest => ((t.pushed (.printing done rest)).askText v, s)

def listText (t : Task) (s : Store) (done : List Text) : List Value → Task × Store
  | [] =>
    t.answered (s.giveText
      (Text.ofString "[" ++ Text.join (Text.ofString ", ") done.reverse ++ Text.ofString "]"))
  | v :: rest => ((t.pushed (.listText done rest)).askText v, s)

def comparePairs (t : Task) (s : Store) : List (Value × Value) → Task
  | [] => t.having (.bool true)
  | (a, b) :: rest => (t.pushed (.pairs rest)).askEqual s a b

def seek (t : Task) (s : Store) (target : Value) (index : Nat) (onlyWhether : Bool) :
    List Value → Task
  | [] => t.having (if onlyWhether then .bool false else .none)
  | v :: rest => (t.pushed (.seeking target index onlyWhether rest)).askEqual s v target

def nanoseconds (ms : Float) : Nat :=
  let n := ms * 1000000
  if n < 9.0e18 then n.toUInt64.toNat else 0

def sleeping (t : Task) (s : Store) (ms : Float) : Task :=
  if ms ≤ 0 then t.having .null
  else t.doing (.asleep (s.outside.elapsed + nanoseconds ms))

/-- Wakes up at a time, or where the run is called off. -/
def sleepOn (t : Task) (s : Store) (wakeUp : Nat) : Task :=
  match s.outside.calledOff with
  | some reason => t.failing (.cancelled reason)
  | none => if s.outside.elapsed < wakeUp then t else t.having .null

/-- The method of a mutex that nobody else has locked. -/
def useMutex (t : Task) (s : Store) (m : MutexMethod) (id : Nat) (cell : MutexCell)
    (arg : Option Value) : Task × Store :=
  let v := arg.getD .null
  match m with
  | .get => (t.having cell.value, s)
  | .set => (t.having .null,
      { s with mutexes := s.mutexes.modify id fun c => { c with value := v } })
  | .update =>
    ((t.pushed (.updating id)).applying s v [cell.value] .nowhere,
      { s with mutexes := s.mutexes.modify id fun c => { c with locked := true } })

/-- What threads left behind, in order: the values, or the failure of the first
that failed; none while one of them still runs. -/
def joined? (s : Store) : List Nat → Option (Except Failure (List Value))
  | [] => some (.ok [])
  | id :: rest =>
    match s.threads[id]?, joined? s rest with
    | some (.ended (.ok v)), some (.ok vs) => some (.ok (v :: vs))
    | some (.ended (.ok _)), some (.error f) => some (.error f)
    | some (.ended (.error f)), some _ => some (.error { f with thread := some id })
    | _, _ => none

def joinThread (t : Task) (s : Store) (id : Nat) : Task :=
  match s.threads[id]? with
  | some (.ended (.ok v)) => t.having v
  | some (.ended (.error f)) => t.doing (.outcome (.failed { f with thread := some id }))
  | _ => t

def joinAll (t : Task) (s : Store) (ids : List Nat) : Task × Store :=
  match joined? s ids with
  | none => (t, s)
  | some (.error f) => (t.doing (.outcome (.failed f)), s)
  | some (.ok vs) => t.answered (s.giveList vs.toArray)

/-- Whether two lists are equal, where it needs no look at the elements; else
the pairs of elements to compare. -/
def listPairs (s : Store) (a b : Nat) : Bool ⊕ List (Value × Value) :=
  let left := s.listItems a
  let right := s.listItems b
  if a = b then .inl true
  else if left.size ≠ right.size then .inl false
  else .inr (left.toList.zip right.toList)

def callBack (t : Task) (s : Store) (b : Builtin) (args : List Value) : Task × Store :=
  match b, args with
  | .print, args => t.printing s [] args
  | .repr, [v] => ((t.pushed .freshText).askText v, s)
  | .str, [.str text _] => t.answered (s.giveText text)
  | .str, [v] => ((t.pushed .freshText).askText v, s)
  | .len, [v] => (t.doing (.hook v "__len__" []), s)
  | .spawn, [v] =>
    let (id, s) := s.newThread v t.file
    (t.having (.thread id), s)
  | .sleep, [.int n _] => (t.sleeping s n.toFloat, s)
  | .sleep, [.float x _] => (t.sleeping s x, s)
  | .sleep, [v] => t.answered (s.refuseType "sleep() duration" "a number" v)
  | .assert, [v] => ((t.pushed .assertTruth).askTruth v, s)
  | .assertEq, [a, b] => ((t.pushed (.assertEqual a b true)).askEqual s a b, s)
  | .assertNe, [a, b] => ((t.pushed (.assertEqual a b false)).askEqual s a b, s)
  | .list .contains, [.list id, v] => (t.seek s v 0 true (s.listItems id).toList, s)
  | .list .find, [.list id, v] => (t.seek s v 0 false (s.listItems id).toList, s)
  | .list .display, [.list id] => t.listText s [] (s.listItems id).toList
  | .list .equal, [.list a, .list b] =>
    match listPairs s a b with
    | .inl answer => (t.having (.bool answer), s)
    | .inr pairs => (t.comparePairs s pairs, s)
  | .list .equal, [.list _, _] => (t.having (.bool false), s)
  | .option .equal, [.none, .none] => (t.having (.bool true), s)
  | .option .equal, [.some a _, .some b _] => (t.askEqual s a b, s)
  | .option .equal, [.none, _] => (t.having (.bool false), s)
  | .option .equal, [.some _ _, _] => (t.having (.bool false), s)
  | .option .display, [.none] => t.answered (s.giveText "None")
  | .option .display, [.some v _] => ((t.pushed .someText).askText v, s)
  | .mutexOf m, .mutex id :: rest =>
    match s.mutexes[id]? with
    | some cell => if cell.locked then (t, s) else t.useMutex s m id cell rest.head?
    | none => (t.having .null, s)
  | .thread .join, [.thread id] => (t.joinThread s id, s)
  | .pool .spawn, [.pool pool, v] =>
    let (id, s) := s.newThread v t.file
    (t.having (.thread id), { s with pools := s.pools.modify pool fun ids => ids.push id })
  | .pool .join, [.pool id] => (t.doing (.joining (s.pools[id]?.getD #[]).toList), s)
  | b, args => t.answered (s.refuseReceiver b.name args)

def methodClosures (s : Store) (c : ClassDef) (env : Environment) (before : List (String × Value)) :
    List Func → List (String × Value) × Store
  | [] => (before.reverse, s)
  | f :: rest =>
    let (v, s) := s.newFunction
      ⟨c.name ++ "." ++ f.ident.name, f.params.map fun p => p.name.name, f.body, env⟩
    methodClosures s c env ((f.ident.name, v) :: before) rest

/-- A new instance: its fields hold the arguments, and its methods see what the
place of the call sees. -/
def instantiate (s : Store) (c : ClassDef) (classId : Nat) (args : List Value)
    (env : Environment) : Value × Store :=
  let (methods, s) := methodClosures s c env [] c.methods
  s.newInstance ⟨c, classId, ((Bindings.empty.setAll (c.fields.zip args)).setAll methods)⟩

/-- Calls a function of the host; a bound one does not look at its receiver.  The
thread never gets past carrying over arguments that do not come to an end. -/
def callHost (t : Task) (s : Store) (f : HostFunction) (name : String) (bound : Bool)
    (args : List Value) : Task × Store :=
  let expected := f.signature.arity.map fun n => if bound then n + 1 else n
  if expected.any (fun n => n != args.length) then
    (t.failing (.arity name (expected.getD 0) args.length), s)
  else if bound && args.isEmpty then (t.failing (.noReceiver name), s)
  else
    match f.call s (if bound then args.tail else args) with
    | none => (t, s)
    | some (.ok v, s) => (t.having v, s)
    | some (.error reason, s) => (t.failing (.hostCall name reason), s)

def call (t : Task) (s : Store) (callee : Value) (args : List Value) : Task × Store :=
  match callee with
  | .function f _ =>
    if args.length ≠ f.params.length then
      (t.failing (.arity f.name f.params.length args.length), s)
    else
      let (env, scopes) := s.scopes.extend f.env (Bindings.empty.setAll (f.params.zip args))
      (t.awaiting (.leaveFunction f.name) (.block f.body env), { s with scopes := scopes })
  | .builtin b =>
    if b.arity.any (fun n => n != args.length) then
      (t.failing (.arity b.name (b.arity.getD 0) args.length), s)
    else if b.callsBack then t.callBack s b args
    else t.answered (b.answer s args)
  | .hostFunction f name bound _ => t.callHost s f name bound args
  | .classOf c id =>
    if args.length ≠ c.fields.length then
      (t.failing (.arity c.name c.fields.length args.length), s)
    else
      let (v, s) := instantiate s c id args (t.scope.getD [])
      (t.having v, s)
  | .instance id =>
    match s.field? id "__call__" with
    | some f => (t.awaiting .leaveInstance (.call f (callee :: args)), s)
    | none => (t.failing (.notCallable (s.typeName callee)), s)
  | v => (t.failing (.notCallable (s.typeName v)), s)

def callHook (limits : Limits) (t : Task) (s : Store) (receiver : Value) (name : String)
    (args : List Value) : Task × Store :=
  if limits.maxDepth < t.depth + 1 then (t.failing .tooDeep, s)
  else
    match s.member receiver name with
    | (.error fault, s) => (t.failing fault, s)
    | (.ok f, s) =>
      ({ t with
          control := .call f (receiver :: args)
          frames := .leaveHook :: t.frames
          depth := t.depth + 1 }, s)

end Task

end Scriptlet
