/-
Surroundings in good order, for runs that are meant to come to an end: of the
threads that can go on the newest does, the clock moves on while all sleep, the
writer takes everything, and files lie on a disk.
-/
import Scriptlet.Disk.Answer
import Scriptlet.Machine.World

namespace Scriptlet

/-- Surroundings in good order: what the wall clock shows first, in nanoseconds, why the run is
called off from the start, if it is, the disk, and how the host answers in each world. -/
structure Surroundings where
  clock : Nat
  calledOff : Option Text
  disk : Disk
  host : World → Host

namespace Surroundings

/-- Surroundings without a host. -/
def ofDisk (disk : Disk) (clock : Nat) : Surroundings :=
  ⟨clock, none, disk, fun _ => .bare⟩

def threadText (n : Nat) : String :=
  String.ofList ("00000000-0000-4000-8000-".toList ++ Text.hexDigits 12 n)

/-- What the surroundings are like when so many threads were started, so many nanoseconds have
passed, and requests were made. -/
@[noinline]
def outside (r : Surroundings) (threads elapsed : Nat) (asked : List Request) (host : Host) :
    Outside where
  now := Int64.ofNat ((r.clock + elapsed) / 1000000)
  elapsed := elapsed
  calledOff := r.calledOff
  threadName := threadText threads
  writer := fun _ => none
  files := r.disk.system asked
  host := host

/-- Whether a thread cannot go on before another thread, or the clock, does. -/
def waits (r : Surroundings) (s : Store) (elapsed : Nat) (t : Task) : Bool :=
  match t.control with
  | .asleep wakeUp => elapsed < wakeUp && r.calledOff.isNone
  | .joining ids => (Task.joined? s ids).isNone
  | .call (.builtin (.mutexOf m)) (.mutex id :: rest) =>
    rest.length + 1 == m.arity && (s.mutexes[id]?.any fun cell => cell.locked)
  | .call (.builtin (.thread .join)) [.thread id] => (Task.joined? s [id]).isNone
  | _ => false

def isUnstarted : ThreadCell → Bool
  | .waits _ _ => true
  | _ => false

/-- The thread whose turn it is; none if all wait. -/
def turn? (r : Surroundings) (w : World) (elapsed : Nat) : Option (Option Nat) :=
  match w.store.threads.findIdx? isUnstarted with
  | some id => some (some id)
  | none =>
    match w.threads.find? fun entry => !r.waits w.store elapsed entry.2 with
    | some (id, _) => some (some id)
    | none => if r.waits w.store elapsed w.main then none else some none

def wakeUp? (t : Task) : Option Nat :=
  match t.control with
  | .asleep time => some time
  | _ => none

def nextTime (w : World) (elapsed : Nat) : Nat :=
  match ((w.main :: w.threads.map Prod.snd).filterMap wakeUp?).min? with
  | some time => max elapsed time
  | none => elapsed

/-- What happens next in a world. -/
def event (r : Surroundings) (w : World) : Event :=
  let threads := w.store.threads.size
  let asked := w.store.asked
  let host := r.host w
  let elapsed := w.store.outside.elapsed
  match r.turn? w elapsed with
  | some actor => ⟨actor, r.outside threads elapsed asked host⟩
  | none =>
    let later := nextTime w elapsed
    ⟨(r.turn? w later).getD none, r.outside threads later asked host⟩

def terms (r : Surroundings) (limits : Limits) : Terms := ⟨limits, r.event⟩

end Surroundings

end Scriptlet
