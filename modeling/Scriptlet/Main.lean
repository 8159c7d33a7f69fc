/-
The program behind the command line.  The command itself is a function of the
files it looks at, so they are fetched as it asks for them, and what it changed
is written back at the end.
-/
import Scriptlet.Command
import Std.Time.Format

namespace Scriptlet

namespace Launch

/-- The content of a file, if there is one to read. -/
def fetch (path : Text) : IO (Option Text) := do
  match path.toString? with
  | none => return none
  | some name =>
    try return some ⟨← IO.FS.readBinFile name⟩
    catch _ => return none

/-- Adds the files that paths lead to. -/
def fetchAll (d : Disk) : List Text → IO Disk
  | [] => return d
  | path :: rest => do
    match ← fetch path with
    | none => fetchAll d rest
    | some content => fetchAll (d.withFile path content) rest

/-- Runs a command again and again, with more of the files it asks for each
time, until it has asked for no others. -/
partial def settle (inv : Invocation) (known : List Text) : IO (Option (Disk × Response)) := do
  match Command.run longHorizon inv with
  | none => return none
  | some r =>
    let wanted := (r.consulted.filter fun path => !known.contains path).eraseDups
    if wanted.isEmpty then return some (inv.disk, r)
    else
      let disk ← fetchAll inv.disk wanted
      settle { inv with disk := disk } (wanted ++ known)

/-- Writes a file, in a directory that comes into being if it is missing. -/
def save (path content : Text) : IO Unit := do
  match path.toString?, (Path.directory path).toString? with
  | some name, some directory =>
    IO.FS.createDirAll directory
    IO.FS.writeBinFile name content.bytes
  | _, _ => return ()

/-- Removes a file. -/
def discard (path : Text) : IO Unit := do
  match path.toString? with
  | some name => IO.FS.removeFile name
  | none => return ()

def writeBack (before after : Disk) : IO Unit := do
  for (path, content) in after.files do
    if !before.files.contains (path, content) then save path content
  for (path, _) in before.files do
    if !(after.files.any fun entry => entry.1 == path) then discard path

/-- All that is left of a stream, after some bytes. -/
partial def readAll (stream : IO.FS.Stream) (before : ByteArray) : IO ByteArray := do
  let part ← stream.read 65536
  if part.isEmpty then return before else readAll stream (before ++ part)

def terminalColors : IO Bool := do
  let wanted := (← IO.getEnv "NO_COLOR").isNone && (← IO.getEnv "TERM") != some "dumb"
  return wanted && (← (← IO.getStderr).isTty)

/-- What the command is given by its surroundings. -/
def invocation (args : List String) : IO Invocation := do
  let stdin ← if Command.readsInput args then readAll (← IO.getStdin) .empty else pure .empty
  let now ← Std.Time.Timestamp.now
  let time := (Std.Time.DateTime.ofTimestamp now Std.Time.TimeZone.ZoneRules.UTC).format
    "uuuu-MM-dd'T'HH:mm:ssXXX"
  let inv : Invocation :=
    ⟨args, ⟨stdin⟩, (← IO.getEnv "PETTY_CONFIG").getD "", ← terminalColors, time,
      now.toNanosecondsSinceUnixEpoch.val.toNat, .emptyTree⟩
  return { inv with disk := ← fetchAll inv.disk (Command.firstPaths inv) }

end Launch

end Scriptlet

/-- Runs the command line. -/
def main (args : List String) : IO UInt32 := do
  let inv ← Scriptlet.Launch.invocation args
  match ← Scriptlet.Launch.settle inv (Scriptlet.Command.firstPaths inv) with
  | none => return 2
  | some (before, r) =>
    Scriptlet.Launch.writeBack before r.disk
    (← IO.getStdout).write r.stdout.bytes
    (← IO.getStderr).write r.stderr.bytes
    return r.code.toUInt32
