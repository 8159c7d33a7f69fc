/-
Paths of files: byte strings with components between slashes.
-/
import Scriptlet.Text.Utf8

namespace Scriptlet.Path

def slash : Text := "/"

/-- The component that names a directory itself. -/
def here : Text := "."

/-- The component that names the directory around. -/
def above : Text := ".."

def isRooted (p : Text) : Bool := p.startsWith slash

/-- The components that count, the last first: `..` takes back the one before
it, and at the root nothing. -/
def resolve (rooted : Bool) : List Text → List Text → List Text
  | [], done => done
  | part :: rest, done =>
    if part.isEmpty || part == here then resolve rooted rest done
    else if part == above then
      match done with
      | [] => resolve rooted rest (if rooted then [] else [above])
      | last :: before =>
        if last == above then resolve rooted rest (above :: done) else resolve rooted rest before
    else resolve rooted rest (part :: done)

/-- The components of the shortest path to the same place. -/
def parts (p : Text) : List Text :=
  (resolve (isRooted p) (p.split slash).toList []).reverse

/-- The path with some components. -/
def ofParts (rooted : Bool) (ps : List Text) : Text :=
  let inner := Text.join slash ps
  if rooted then slash ++ inner else if ps.isEmpty then here else inner

/-- The shortest path to the same place. -/
def clean (p : Text) : Text := ofParts (isRooted p) (parts p)

/-- The path of `name` seen from the directory `base`. -/
def join (base name : Text) : Text :=
  if name.isEmpty then clean base else clean (base ++ slash ++ name)

/-- The directory that a clean path lies in. -/
def parent (p : Text) : Text := ofParts (isRooted p) (parts p).dropLast

/-- The directory that a path names a file in: all up to its last slash. -/
def directory (p : Text) : Text :=
  match (p.split slash).toList.dropLast with
  | [] => here
  | before => clean (Text.join slash before ++ slash)

/-- The last component of a clean path. -/
def base (p : Text) : Text :=
  match (parts p).getLast? with
  | some name => name
  | none => if isRooted p then slash else here

/-- Whether a path leads out of the directory it is seen from. -/
def escapes (p : Text) : Bool := (clean p).startsWith (above ++ slash)

/-- Every path on the way to a clean path, the longest last. -/
def prefixes (p : Text) : List Text :=
  let ps := parts p
  (List.range ps.length).map (fun n => ofParts (isRooted p) (ps.take (n + 1)))

end Scriptlet.Path
