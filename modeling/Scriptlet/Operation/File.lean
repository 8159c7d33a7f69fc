/-
Operations of the file system and of open files, which go by what the file
system answers.
-/
import Scriptlet.Operation.Basic

namespace Scriptlet

namespace Store

/-- The answer that is nothing but that the file system did something. -/
def answerDone (s : Store) (action : Text) (reply : Except Text Unit) : Answer :=
  match reply with
  | .ok () => s.give .null
  | .error reason => s.refuse (.outside action reason)

def readText (s : Store) (path : Text) : Answer :=
  match s.askFiles (.readAll path) with
  | (.ok bytes, s) => s.giveText bytes
  | (.error reason, s) => s.refuse (.outside "read_text" reason)

def writeText (s : Store) (path bytes : Text) : Answer :=
  let (reply, s) := s.askFiles (.writeAll path bytes)
  s.answerDone "write_text" reply

/-- Whether a path leads anywhere. -/
def fileExists (s : Store) (path : Text) : Answer :=
  let (reply, s) := s.askFiles (.look path)
  s.giveBool reply.isOk

def removeFile (s : Store) (path : Text) : Answer :=
  let (reply, s) := s.askFiles (.remove path)
  s.answerDone "remove" reply

def listDirectory (s : Store) (path : Text) : Answer :=
  match s.askFiles (.names path) with
  | (.ok names, s) =>
    let (v, s) := s.newTexts (names.mergeSort fun a b => (a.cmp b).isLE)
    s.give v
  | (.error reason, s) => s.refuse (.outside "list_dir" reason)

def openFile (s : Store) (path : Text) : Answer :=
  match s.askFiles (.openFile path) with
  | (.ok (), s) =>
    let (v, s) := s.newFile ⟨path, false⟩
    s.give v
  | (.error reason, s) => s.refuse (.outside "open" reason)

def readOpen (s : Store) (id : Nat) (path : Text) : Answer :=
  match s.askFiles (.read id) with
  | (.ok bytes, s) => s.giveText bytes
  | (.error reason, s) => s.refuse (.outside (Text.ofString "read " ++ path) reason)

def writeOpen (s : Store) (id : Nat) (path part : Text) : Answer :=
  match s.askFiles (.write id part) with
  | (.ok count, s) => s.giveInt (Int64.ofNat count)
  | (.error reason, s) => s.refuse (.outside (Text.ofString "write " ++ path) reason)

def closeOpen (s : Store) (id : Nat) (path : Text) : Answer :=
  let (reply, s) := (s.setFile id ⟨path, true⟩).askFiles (.close id)
  s.answerDone (Text.ofString "close " ++ path) reply

end Store

namespace FileMethod

def ofFile (s : Store) (m : FileMethod) (id : Nat) (f : OpenFile) (arg : Option Value) : Answer :=
  match m, arg with
  | .write, none => s.give .null
  | .write, some (.str part _) =>
    if f.closed then s.refuse (.closedFile f.path) else s.writeOpen id f.path part
  | .write, some other => s.refuseType "write() content" "Str" other
  | .read, _ => if f.closed then s.refuse (.closedFile f.path) else s.readOpen id f.path
  | .close, _ => if f.closed then s.refuse (.closedFile f.path) else s.closeOpen id f.path

/-- A method of an open file. -/
def answer (s : Store) (m : FileMethod) (args : List Value) : Answer :=
  match args with
  | .file id :: rest =>
    match s.files[id]? with
    | some f => m.ofFile s id f rest.head?
    | none => s.give .null
  | _ => s.refuseReceiver m.name args

end FileMethod

end Scriptlet
