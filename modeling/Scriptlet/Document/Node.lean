/-
What a document says, as a tree of values, lists and maps.
-/
import Scriptlet.Document.Lexeme

namespace Scriptlet.Document

/-- A value as it is written: its tag, if it has one, whether it is plain, and
its text. -/
structure Scalar where
  tag? : Option String
  plain : Bool
  text : String
deriving DecidableEq, Repr

/-- What a part of a document says.  An alias repeats a part with an anchor
that came before; a loop repeats one that it is itself inside. -/
inductive Node where
  | scalar (s : Scalar)
  | list (items : List Node)
  | map (entries : List (Node × Node))
  | alias (name : String) (target : Node)
  | loop (name : String)

/-- A value that is not written. -/
def Node.blank : Node := .scalar ⟨none, true, ""⟩

/-- What is left to do of a document: the lexemes that are left, the parts with
anchors so far, the last first, where one that is not complete stands for
nothing, and the meanings of handles. -/
structure Remaining where
  lexemes : List Lexeme
  anchors : List (String × Option Node)
  handles : List (String × String)

/-- Reads something off what is left, if that can be done. -/
abbrev Build (α : Type) := StateT Remaining Option α

namespace Build

/-- The next lexeme, if it can be read. -/
def peek : Build Lexeme := do
  match (← get).lexemes with
  | [] => return .finish
  | .broken :: _ => failure
  | l :: _ => return l

def pass : Build Unit := modify fun s => { s with lexemes := s.lexemes.tail }

def record (anchor? : Option String) (node? : Option Node) : Build Unit :=
  match anchor? with
  | some name => modify fun s => { s with anchors := (name, node?) :: s.anchors }
  | none => pure ()

/-- What an anchor names. -/
def lookUp (name : String) : Build Node := do
  match (← get).anchors.find? fun entry => entry.1 == name with
  | some (_, some node) => return .alias name node
  | some (_, none) => return .loop name
  | none => failure

/-- A tag with the meaning of its handle. -/
def expand (handle suffix : String) : Build String := do
  if handle.isEmpty then return suffix
  else
    match (← get).handles.find? fun entry => entry.1 == handle with
    | some (_, meaning) => return meaning ++ suffix
    | none => failure

/-- The anchor and the tag in front of a part, in either order. -/
def properties : Build (Option String × Option String) := do
  match ← peek with
  | .anchor name =>
    pass
    match ← peek with
    | .tag handle suffix =>
      pass
      return (some name, some (← expand handle suffix))
    | _ => return (some name, none)
  | .tag handle suffix =>
    pass
    let anchor? ← match ← peek with
      | .anchor name =>
        pass
        pure (some name)
      | _ => pure none
    return (anchor?, some (← expand handle suffix))
  | _ => return (none, none)

mutual

/-- A part of a document.  Collections by indentation can stand only outside
brackets, and one list only after a key. -/
def node : Nat → (free afterKey : Bool) → Build Node
  | 0, _, _ => failure
  | limit + 1, free, afterKey => do
    match ← peek with
    | .alias name =>
      pass
      lookUp name
    | _ =>
      let (anchor?, tag?) ← properties
      let collection (read : Build Node) : Build Node := do
        record anchor? none
        let n ← read
        record anchor? (some n)
        return n
      match ← peek with
      | .scalar plain text =>
        pass
        let n := Node.scalar ⟨tag?, plain, text⟩
        record anchor? (some n)
        return n
      | .openList =>
        pass
        collection (.list <$> bracketItems limit true)
      | .openMap =>
        pass
        collection (.map <$> bracketEntries limit true)
      | .item =>
        if afterKey then collection (.list <$> looseItems limit) else bare anchor? tag?
      | .blockSequence =>
        if free then
          pass
          collection (.list <$> blockItems limit)
        else bare anchor? tag?
      | .blockMapping =>
        if free then
          pass
          collection (.map <$> blockEntries limit)
        else bare anchor? tag?
      | _ => bare anchor? tag?

/-- A part that is not written, which an anchor or a tag must announce. -/
def bare (anchor? tag? : Option String) : Build Node :=
  if anchor?.isSome || tag?.isSome then do
    let n := Node.scalar ⟨tag?, true, ""⟩
    record anchor? (some n)
    return n
  else failure

def blockItems : Nat → Build (List Node)
  | 0 => failure
  | limit + 1 => do
    match ← peek with
    | .item =>
      pass
      let n ← match ← peek with
        | .item | .blockEnd => pure Node.blank
        | _ => node limit true false
      return n :: (← blockItems limit)
    | .blockEnd =>
      pass
      return []
    | _ => failure

/-- The items of a list that is indented no deeper than its key. -/
def looseItems : Nat → Build (List Node)
  | 0 => failure
  | limit + 1 => do
    match ← peek with
    | .item =>
      pass
      let n ← match ← peek with
        | .item | .key | .value | .blockEnd => pure Node.blank
        | _ => node limit true false
      return n :: (← looseItems limit)
    | _ => return []

def blockEntries : Nat → Build (List (Node × Node))
  | 0 => failure
  | limit + 1 => do
    let part : Build Node := do
      pass
      match ← peek with
      | .key | .value | .blockEnd => return Node.blank
      | _ => node limit true true
    match ← peek with
    | .key =>
      let k ← part
      let v ← match ← peek with
        | .value => part
        | _ => pure Node.blank
      return (k, v) :: (← blockEntries limit)
    | .blockEnd =>
      pass
      return []
    | _ => failure

/-- The items of a list in brackets.  A key makes an item a map of one entry. -/
def bracketItems : Nat → (first : Bool) → Build (List Node)
  | 0, _ => failure
  | limit + 1, first => do
    unless first do
      match ← peek with
      | .comma => pass
      | .closeList => pure ()
      | _ => failure
    match ← peek with
    | .closeList =>
      pass
      return []
    | .key =>
      pass
      let k ← match ← peek with
        | .value | .comma | .closeList =>
          pass
          pure Node.blank
        | _ => node limit false false
      let v ← match ← peek with
        | .value =>
          pass
          match ← peek with
          | .comma | .closeList => pure Node.blank
          | _ => node limit false false
        | _ => pure Node.blank
      return .map [(k, v)] :: (← bracketItems limit false)
    | _ =>
      let n ← node limit false false
      return n :: (← bracketItems limit false)

def bracketEntries : Nat → (first : Bool) → Build (List (Node × Node))
  | 0, _ => failure
  | limit + 1, first => do
    unless first do
      match ← peek with
      | .comma => pass
      | .closeMap => pure ()
      | _ => failure
    let part : Build Node := do
      pass
      match ← peek with
      | .value | .comma | .closeMap => return Node.blank
      | _ => node limit false false
    match ← peek with
    | .closeMap =>
      pass
      return []
    | .key =>
      let k ← part
      let v ← match ← peek with
        | .value => part
        | _ => pure Node.blank
      return (k, v) :: (← bracketEntries limit false)
    | _ =>
      let n ← node limit false false
      return (n, Node.blank) :: (← bracketEntries limit false)

end

def usualHandles : List (String × String) := [("!", "!"), ("!!", "tag:yaml.org,2002:")]

/-- What directives say before a document: its version, at most once, and the
meanings of handles, each at most once. -/
def directives : Nat → (versioned : Bool) → List (String × String) → Build (List (String × String))
  | 0, _, _ => failure
  | limit + 1, versioned, handles => do
    match ← peek with
    | .version major minor =>
      pass
      if versioned || major != 1 || minor != 1 then failure
      else directives limit true handles
    | .handle name meaning =>
      pass
      if handles.any fun entry => entry.1 == name then failure
      else directives limit versioned ((name, meaning) :: handles)
    | _ => return handles

/-- What the first document says; it may say nothing.  The lexeme after it has
to be readable. -/
def document (limit : Nat) : Build (Option Node) := do
  match ← peek with
  | .finish => return none
  | .version _ _ | .handle _ _ | .documentStart =>
    let handles ← directives limit false []
    modify fun s => { s with handles := handles ++ usualHandles }
    match ← peek with
    | .documentStart =>
      pass
      match ← peek with
      | .version _ _ | .handle _ _ | .documentStart | .documentEnd | .finish =>
        return some Node.blank
      | _ => rooted
    | _ => failure
  | _ => rooted
where
  rooted : Build (Option Node) := do
    let n ← node limit true false
    let _ ← peek
    return some n

end Build

/-- What a document says: nothing where it cannot be read, and nothing inside
where it is empty. -/
def read? (t : Text) : Option (Option Node) :=
  let ls := lexemes (.ofText t)
  ((Build.document (4 * ls.length + 4)).run ⟨ls, [], Build.usualHandles⟩).map Prod.fst

end Scriptlet.Document
