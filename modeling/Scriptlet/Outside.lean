/-
The surroundings of a run, at one of its steps: what the clocks show, whether
the run was called off, and how the writer, the file system and the host answer.
Nothing is assumed of them, and at the next step they may be others.
-/
import Scriptlet.Host.Value

namespace Scriptlet

/-- What a script asks of the file system.  An open file goes by its number. -/
inductive FileRequest where
  | readAll (path : Text)
  | writeAll (path bytes : Text)
  | look (path : Text)
  | remove (path : Text)
  | names (path : Text)
  | openFile (path : Text)
  | read (file : Nat)
  | write (file : Nat) (bytes : Text)
  | close (file : Nat)

/-- What the file system gives where it does what is asked: the bytes of a file, the names
in a directory, or how many bytes it wrote. -/
abbrev FileRequest.Reply : FileRequest → Type
  | .readAll _ | .read _ => Text
  | .names _ => List Text
  | .write _ _ => Nat
  | _ => Unit

/-- A writer that failed: how many bytes it took before, and why it took no more. -/
structure WriteFault where
  taken : Nat
  reason : Text

/-- How the host answers: what a function of it gives for arguments of the types that it takes,
and what a thing of it has under a name. -/
structure Host where
  call : HostFunction → List HostValue → Except Text (List HostValue)
  member : HostPointer → String → Option HostMember

/-- What the surroundings show and answer at a step.  A failure comes with its reason. -/
structure Outside where
  /-- Milliseconds on the wall clock. -/
  now : Int64
  /-- Nanoseconds on the clock that sleepers wake up by. -/
  elapsed : Nat
  /-- Why the run was called off, if it was. -/
  calledOff : Option Text
  /-- What a thread that comes into being is called. -/
  threadName : String
  writer : Text → Option WriteFault
  files : (r : FileRequest) → Except Text r.Reply
  host : Host

/-- A host with nothing to it. -/
def Host.bare : Host := ⟨fun _ _ => .error "no host", fun _ _ => none⟩

namespace Outside

/-- Surroundings that take every text, and have no files and nothing of a host. -/
def bare : Outside where
  now := 0
  elapsed := 0
  calledOff := none
  threadName := ""
  writer := fun _ => none
  files := fun _ => .error "no file system"
  host := .bare

instance : Inhabited Outside := ⟨bare⟩

end Outside

/-- What a script asked of what may remember it. -/
inductive Request where
  | file (r : FileRequest)
  | call (f : HostFunction) (args : List HostValue)

end Scriptlet
