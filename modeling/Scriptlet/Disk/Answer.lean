/-
A disk as the file system of a run.
-/
import Scriptlet.Disk.Basic
import Scriptlet.Outside

namespace Scriptlet.Disk

def openFile (d : Disk) (path : Text) : Except DiskFault Unit × Disk :=
  match d.openForWriting path with
  | (.ok content, d) => (.ok (), { d with handles := d.handles.push ⟨content, 0⟩ })
  | (.error fault, d) => (.error fault, d)

/-- Moves the place in an open file on. -/
def seek (d : Disk) (n offset : Nat) : Disk :=
  { d with handles := d.handles.modify n fun h => { h with offset := offset } }

def readOpen (d : Disk) (n : Nat) : Text × Disk :=
  match d.handles[n]? with
  | none => (.empty, d)
  | some h =>
    let bytes := d.content h.content
    (bytes.drop h.offset, d.seek n (max h.offset bytes.size))

def writeOpen (d : Disk) (n : Nat) (part : Text) : Disk :=
  match d.handles[n]? with
  | none => d
  | some h =>
    let bytes := overwrite (d.content h.content) h.offset part
    (d.setContent h.content bytes).seek n (h.offset + part.size)

def answer (d : Disk) : (r : FileRequest) → Except DiskFault r.Reply × Disk
  | .readAll path => (d.read path, d)
  | .writeAll path bytes =>
    match d.write path bytes with
    | (none, d) => (.ok (), d)
    | (some fault, d) => (.error fault, d)
  | .look path => (if d.pathExists path then .ok () else .error .missing, d)
  | .remove path =>
    match d.remove path with
    | .ok d => (.ok (), d)
    | .error fault => (.error fault, d)
  | .names path => (d.list path, d)
  | .openFile path => d.openFile path
  | .read n =>
    let (bytes, d) := d.readOpen n
    (.ok bytes, d)
  | .write n part => (.ok part.size, d.writeOpen n part)
  | .close _ => (.ok (), d)

/-- What a disk has become by requests, the latest first. -/
def after (d : Disk) : List Request → Disk
  | [] => d
  | .file r :: rest => ((d.after rest).answer r).2
  | .call _ _ :: rest => d.after rest

def system (d : Disk) (asked : List Request) (r : FileRequest) : Except Text r.Reply :=
  ((d.after asked).answer r).1.mapError DiskFault.message

end Scriptlet.Disk
