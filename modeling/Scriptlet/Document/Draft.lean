/-
What a document says about settings.
-/
import Scriptlet.Document.Meaning
import Scriptlet.Settings

namespace Scriptlet.Settings

open Document

def fieldNames : List String := ["log_level", "max_depth", "max_steps", "color", "fs_root"]

/-- The value that a part of a document gives; a part with parts gives none. -/
def scalar? : Node → Option Scalar
  | .scalar s => some s
  | .alias _ target => scalar? target
  | .list _ | .map _ | .loop _ => none

/-- What a part of a document gives where a text is wanted: a text, or nothing
where it stands for nothing. -/
def text? (n : Node) : Option (Option String) :=
  (scalar? n).bind fun s =>
    s.meaning?.bind fun
      | .nothing => some none
      | _ => s.wording?.map fun t => some (String.ofList t.chars.toList)

def integer? (n : Node) : Option (Option Int) :=
  (scalar? n).bind fun s =>
    s.meaning?.bind fun
      | .nothing => some none
      | m => m.integer?.map some

/-- Takes one entry of a document over; a name that means nothing is passed
over, and so is a value that stands for nothing. -/
def Draft.entry (d : Draft) (name : String) (value : Node) : Option Draft :=
  match name with
  | "log_level" => (text? value).map fun t => { d with logLevel := t.getD d.logLevel }
  | "max_depth" => (integer? value).map fun n => { d with maxDepth := n.getD d.maxDepth }
  | "max_steps" => (integer? value).map fun n => { d with maxSteps := n.getD d.maxSteps }
  | "color" => (text? value).map fun t => { d with color := t.getD d.color }
  | "fs_root" => (text? value).map fun t => { d with fsRoot := t.getD d.fsRoot }
  | _ => some d

/-- What tells the keys of a map apart: the kind of each and its text. -/
def keyLabel : Node → Nat × String
  | .scalar s => (0, s.text)
  | .list _ => (1, "")
  | .map _ => (2, "")
  | .alias name _ | .loop name => (3, name)

/-- Whether a key asks for the entries of another map. -/
def isMerge : Node → Bool
  | .scalar s =>
    s.text == "<<" && (s.namedTag? == some "!!merge" || (s.namedTag?.isNone && s.plain))
  | _ => false

def entries? : Node → Option (List (Node × Node))
  | .map entries | .alias _ (.map entries) => some entries
  | _ => none

/-- The maps whose entries a key asks for. -/
def merged? : Node → Option (List (List (Node × Node)))
  | .list items => items.mapM entries?
  | n => (entries? n).map fun entries => [entries]

/-- Settings as far as they are known, and the names that are settled. -/
structure Progress where
  draft : Draft
  settled : List String

/-- Takes one entry over.  In a map that others ask for, what is settled stays;
elsewhere nothing is settled twice. -/
def Progress.entry (p : Progress) (borrowed : Bool) (key value : Node) : Option Progress :=
  match text? key with
  | none => none
  | some none => some p
  | some (some name) =>
    if p.settled.contains name then
      if !borrowed && fieldNames.contains name then none else some p
    else (p.draft.entry name value).map fun d => ⟨d, name :: p.settled⟩

/-- Takes the entries of a map over, and then those that it asks for, through
at most `limit` maps.  No key may come up twice. -/
def Progress.entries (p : Progress) : Nat → (borrowed : Bool) → List (Node × Node) → Option Progress
  | 0, _, _ => none
  | limit + 1, borrowed, entries =>
    if (entries.map fun entry => keyLabel entry.1).Nodup then do
      let own := entries.filter fun entry => !isMerge entry.1
      let p ← own.foldlM (fun p entry => p.entry borrowed entry.1 entry.2) p
      match entries.find? fun entry => isMerge entry.1 with
      | none => return p
      | some (_, asked) =>
        (← merged? asked).foldlM (fun p entries => p.entries limit true entries) p
    else none

/-- What a document says about settings. -/
def Draft.ofNode (d : Draft) (limit : Nat) : Node → Option Draft
  | .map entries => (Progress.entries ⟨d, []⟩ limit false entries).map Progress.draft
  | .scalar s =>
    match s.meaning? with
    | some .nothing => some d
    | _ => none
  | _ => none

/-- Takes over into a draft what the text of a document says. -/
def Draft.read (d : Draft) (source : Text) : Except Text Draft :=
  let read := (read? source).bind fun
    | none => some d
    | some root => d.ofNode (source.size + 1) root
  match read with
  | some d => .ok d
  | none => .error "yaml: not a flat document of settings"

end Scriptlet.Settings
