/-
Names and what they are bound to.  An environment is a stack of frames over
the global names; environments share frames, so a binding made through one is
seen through all that hold the frame.
-/

namespace Scriptlet

/-- Names with their values; no name occurs twice. -/
structure Bindings (α : Type) where
  entries : List (String × α)

namespace Bindings

variable {α : Type}

/-- No names. -/
def empty : Bindings α := ⟨[]⟩

instance : Inhabited (Bindings α) := ⟨empty⟩

/-- The value of a name among entries. -/
def find (name : String) : List (String × α) → Option α
  | [] => none
  | (n, v) :: rest => if n = name then some v else find name rest

/-- Entries with the value of a name replaced, or the name added at the end. -/
def put (name : String) (value : α) : List (String × α) → List (String × α)
  | [] => [(name, value)]
  | (n, v) :: rest =>
    if n = name then (name, value) :: rest else (n, v) :: put name value rest

/-- The value of a name. -/
def get? (b : Bindings α) (name : String) : Option α := find name b.entries

/-- Binds a name. -/
def set (b : Bindings α) (name : String) (value : α) : Bindings α :=
  ⟨put name value b.entries⟩

def names (b : Bindings α) : List String :=
  (b.entries.map Prod.fst).mergeSort (fun s t => s ≤ t)

/-- Binds names to values pairwise, from left to right. -/
def setAll (b : Bindings α) : List (String × α) → Bindings α
  | [] => b
  | (n, v) :: rest => (b.set n v).setAll rest

end Bindings

/-- The frames on which a name is looked up before the globals, the innermost
first; each is given by its number. -/
abbrev Environment := List Nat

/-- All frames there are, and the global names. -/
structure Scopes (α : Type) where
  globals : Bindings α
  frames : Array (Bindings α)

namespace Scopes

variable {α : Type}

/-- No frame and no global name. -/
def empty : Scopes α := ⟨.empty, #[]⟩

instance : Inhabited (Scopes α) := ⟨empty⟩

/-- The value of a name: that of the innermost frame that binds it, else the
global one. -/
def get? (s : Scopes α) (name : String) : Environment → Option α
  | [] => s.globals.get? name
  | frame :: outer =>
    match s.frames[frame]?.bind (fun b => b.get? name) with
    | some v => some v
    | none => get? s name outer

/-- Binds a name in the innermost frame, or globally if there is none. -/
def set (s : Scopes α) (env : Environment) (name : String) (value : α) : Scopes α :=
  match env with
  | [] => { s with globals := s.globals.set name value }
  | frame :: _ => { s with frames := s.frames.modify frame (fun b => b.set name value) }

/-- An environment with a new innermost frame. -/
def extend (s : Scopes α) (env : Environment) (frame : Bindings α) : Environment × Scopes α :=
  (s.frames.size :: env, { s with frames := s.frames.push frame })

/-- The environment that a closure made here keeps: the same frames. -/
def capture (_ : Scopes α) (env : Environment) : Environment := env

end Scopes

end Scriptlet
