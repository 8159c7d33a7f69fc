/-
A store of files.  It has one of two sets of rules: those of a file system
held in memory, where a directory comes into being with the first file in it,
and those of a directory tree of the operating system.
-/
import Scriptlet.Disk.Path

namespace Scriptlet

/-- What a path leads to.  A file is given by the number of its content, which
open files share. -/
inductive DiskNode where
  | directory
  | file (content : Nat)
deriving DecidableEq, Repr

inductive DiskRules where
  | memory
  | tree
deriving DecidableEq, Repr

/-- An open file: its content, and the place where reading and writing go on. -/
structure DiskHandle where
  content : Nat
  offset : Nat

/-- A store of files, seen from the directory `root`.  A file in memory is
found in its directory only through a link.  Open files are numbered as they were opened. -/
structure Disk where
  rules : DiskRules
  root : Text
  nodes : List (Text × DiskNode)
  links : List (Text × Text)
  contents : Array Text
  handles : Array DiskHandle

/-- Why an operation on files failed. -/
inductive DiskFault where
  | outside
  | missing
  | isDirectory (path : Text)
  | notEmpty (path : Text)
  | system (action : String) (path : Text) (reason : String)
deriving DecidableEq

/-- The wording of a fault. -/
def DiskFault.message : DiskFault → Text
  | .outside => "chroot boundary crossed"
  | .missing => "file does not exist"
  | .isDirectory path => Text.ofString "cannot open directory: " ++ path
  | .notEmpty path => Text.ofString "dir: " ++ path ++ Text.ofString " contains files"
  | .system action path reason =>
      Text.ofString (action ++ " ") ++ path ++ Text.ofString (": " ++ reason)

namespace Disk

def inMemory : Disk := ⟨.memory, Path.slash, [], [], #[], #[]⟩

def emptyTree : Disk := ⟨.tree, Path.here, [], [], #[], #[]⟩

instance : Inhabited Disk := ⟨inMemory⟩

/-- What a clean path leads to. -/
def node? (d : Disk) (path : Text) : Option DiskNode :=
  (d.nodes.find? (fun entry => entry.1 == path)).map Prod.snd

def addNode (d : Disk) (path : Text) (node : DiskNode) : Disk :=
  { d with nodes := (path, node) :: d.nodes }

def addLink (d : Disk) (directory name : Text) : Disk :=
  if d.links.contains (directory, name) then d
  else { d with links := (directory, name) :: d.links }

/-- Takes a path away. -/
def dropNode (d : Disk) (path : Text) : Disk :=
  { d with
    nodes := d.nodes.filter (fun entry => entry.1 != path)
    links := d.links.filter (fun link => link != (Path.parent path, Path.base path)) }

def content (d : Disk) (n : Nat) : Text := d.contents[n]?.getD .empty

def setContent (d : Disk) (n : Nat) (bytes : Text) : Disk :=
  { d with contents := d.contents.modify n (fun _ => bytes) }

def newContent (d : Disk) : Nat × Disk :=
  (d.contents.size, { d with contents := d.contents.push .empty })

/-- Enters a path into its directory, which comes into being if it is missing;
below a file nothing is entered.  A path has at most `limit` components. -/
def linkUp : Nat → Disk → Text → Disk
  | 0, d, _ => d
  | limit + 1, d, path =>
    if Path.base path == Path.slash then d
    else
      let directory := Path.parent path
      match d.node? directory with
      | some (.file _) => d
      | some .directory => d.addLink directory (Path.base path)
      | none => (linkUp limit (d.addNode directory .directory) directory).addLink directory
          (Path.base path)

def createInMemory (d : Disk) (path : Text) : Nat × Disk :=
  let (n, d) := d.newContent
  (n, linkUp ((Path.parts path).length + 2) (d.addNode path (.file n)) path)

/-- The greatest size of a name in a directory tree. -/
def longestName : Nat := 255

/-- The size from which on the operating system takes no path. -/
def pathLimit : Nat := 4096

def refusedPath? (path : Text) : Option String :=
  if path.contains "\x00" then some "invalid argument"
  else if pathLimit ≤ path.size then some "file name too long"
  else none

/-- What some components lead to from a place in a directory tree; all but the
last must name directories. -/
def follow (d : Disk) (place : Text) (node : DiskNode) : List Text → Except String DiskNode
  | [] => .ok node
  | part :: rest =>
    match node with
    | .file _ => .error "not a directory"
    | .directory =>
      if part.isEmpty || part == Path.here then d.follow place .directory rest
      else
        let next := Path.join place part
        if part == Path.above then d.follow next .directory rest
        else if longestName < part.size then .error "file name too long"
        else
          match d.node? next with
          | some node => d.follow next node rest
          | none => .error "no such file or directory"

/-- What a path leads to in a directory tree. -/
def walk (d : Disk) (path : Text) : Except String DiskNode :=
  match refusedPath? path with
  | some reason => .error reason
  | none =>
    if path.isEmpty then .error "no such file or directory"
    else
      let start := if Path.isRooted path then Path.slash else Path.here
      d.follow start .directory (path.split Path.slash).toList

/-- Makes all directories of a list of paths, each in the one before, up to the
first that cannot be made. -/
def makeDirectories (d : Disk) : List Text → Option DiskFault × Disk
  | [] => (none, d)
  | p :: rest =>
    let fault (reason : String) := (some (DiskFault.system "mkdir" p reason), d)
    let name := Path.base p
    match refusedPath? p, d.node? p with
    | some reason, _ => fault reason
    | none, some .directory => d.makeDirectories rest
    | none, some (.file _) => fault "not a directory"
    | none, none =>
      if name == Path.above then d.makeDirectories rest
      else if longestName < name.size then fault "file name too long"
      else (d.addNode p .directory).makeDirectories rest

def openForReading (d : Disk) (name : Text) : Except DiskFault Nat :=
  if Path.escapes name then .error .outside
  else
    let path := Path.join d.root name
    match d.rules with
    | .memory =>
      match d.node? path with
      | none => .error .missing
      | some .directory => .error (.isDirectory path)
      | some (.file n) => .ok n
    | .tree =>
      match d.walk path with
      | .error reason => .error (.system "open" path reason)
      | .ok .directory => .error (.system "read" path "is a directory")
      | .ok (.file n) => .ok n

/-- The content of a file for writing, which comes into being if it is
missing.  Directories that were made for it stay even where it cannot be. -/
def openForWriting (d : Disk) (name : Text) : Except DiskFault Nat × Disk :=
  if Path.escapes name then (.error .outside, d)
  else
    let path := Path.join d.root name
    match d.rules with
    | .memory =>
      match d.node? path with
      | none =>
        let (n, d) := d.createInMemory path
        (.ok n, d)
      | some .directory => (.error (.isDirectory path), d)
      | some (.file n) => (.ok n, d)
    | .tree =>
      match d.makeDirectories (Path.prefixes (Path.parent path)) with
      | (some fault, d) => (.error fault, d)
      | (none, d) =>
        match d.walk path with
        | .ok .directory => (.error (.system "open" path "is a directory"), d)
        | .ok (.file n) => (.ok n, d)
        | .error "no such file or directory" =>
          let (n, d) := d.newContent
          (.ok n, d.addNode path (.file n))
        | .error reason => (.error (.system "open" path reason), d)

/-- The bytes of a file. -/
def read (d : Disk) (name : Text) : Except DiskFault Text :=
  (d.openForReading name).map d.content

/-- Replaces all of a file; what is left of the disk where that fails comes
with the fault. -/
def write (d : Disk) (name bytes : Text) : Option DiskFault × Disk :=
  match d.openForWriting name with
  | (.error fault, d) => (some fault, d)
  | (.ok n, d) => (none, d.setContent n bytes)

def withFile (d : Disk) (path bytes : Text) : Disk :=
  let way := (path.split Path.slash).toList
  let places := (List.range way.length).map fun n => Path.clean (Text.join Path.slash (way.take n))
  let d := places.foldl (fun d p => if (d.node? p).isSome then d else d.addNode p .directory) d
  let (n, d) := d.newContent
  (d.addNode (Path.clean path) (.file n)).setContent n bytes

/-- The bytes of a file of a directory tree that is named from its top, where a
fault names it as it was given. -/
def readNamed (d : Disk) (name : Text) : Except DiskFault Text :=
  match d.walk name with
  | .error reason => .error (.system "open" name reason)
  | .ok .directory => .error (.system "read" name "is a directory")
  | .ok (.file n) => .ok (d.content n)

def pathExists (d : Disk) (name : Text) : Bool :=
  if Path.escapes name then false
  else
    let path := Path.join d.root name
    match d.rules with
    | .memory => (d.node? path).isSome
    | .tree => (d.walk path).isOk

def childNames (d : Disk) (path : Text) : List Text :=
  d.nodes.filterMap fun entry =>
    if Path.parent entry.1 == path && entry.1 != path then some (Path.base entry.1) else none

def linkedNames (d : Disk) (path : Text) : List Text :=
  d.links.filterMap fun link => if link.1 == path then some link.2 else none

def remove (d : Disk) (name : Text) : Except DiskFault Disk :=
  if Path.escapes name then .error .outside
  else
    let path := Path.join d.root name
    match d.rules with
    | .memory =>
      match d.node? path with
      | none => .error .missing
      | some .directory =>
        if (d.linkedNames path).isEmpty then .ok (d.dropNode path) else .error (.notEmpty path)
      | some (.file _) => .ok (d.dropNode path)
    | .tree =>
      match d.walk path with
      | .error reason => .error (.system "remove" path reason)
      | .ok (.file _) => .ok (d.dropNode path)
      | .ok .directory =>
        if path == Path.here then .error (.system "remove" path "invalid argument")
        else if path != Path.above && (d.childNames path).isEmpty then .ok (d.dropNode path)
        else .error (.system "remove" path "directory not empty")

/-- The names in a directory. -/
def list (d : Disk) (name : Text) : Except DiskFault (List Text) :=
  if Path.escapes name then .error .outside
  else
    let path := Path.join d.root name
    match d.rules with
    | .memory => .ok (d.linkedNames path)
    | .tree =>
      match d.walk path with
      | .error reason => .error (.system "open" path reason)
      | .ok (.file _) => .error (.system "readdirent" path "not a directory")
      | .ok .directory => .ok (d.childNames path)

/-- Bytes with `part` written over them from `offset` on; a gap before it is
filled with zeros. -/
def overwrite (bytes : Text) (offset : Nat) (part : Text) : Text :=
  let gap : Text := Text.times "\x00" (offset - bytes.size)
  bytes.slice 0 offset ++ gap ++ part ++ bytes.drop (offset + part.size)

/-- All files with their paths; in memory those that links lead to from the
root. -/
def files (d : Disk) : List (Text × Text) :=
  match d.rules with
  | .tree => d.nodes.filterMap fun entry =>
      match entry.2 with
      | .file n => some (entry.1, d.content n)
      | .directory => none
  | .memory => below (d.links.length + 1) Path.slash
where
  below : Nat → Text → List (Text × Text)
    | 0, _ => []
    | limit + 1, directory =>
      (d.linkedNames directory).flatMap fun name =>
        let path := Path.join directory name
        match d.node? path with
        | some (.file n) => [(path, d.content n)]
        | some .directory => below limit path
        | none => []

end Disk

end Scriptlet
