/-
Everything that a running script can change: variables, the insides of
mutable objects and the output, beside what the surroundings show it.
-/
import Scriptlet.Failure
import Scriptlet.Outside

namespace Scriptlet

/-- The inside of an instance; its fields stay as they are made. -/
structure Instance where
  classDef : ClassDef
  classId : Nat
  fields : Bindings Value

/-- The inside of an iterator over a list: how far it got in which list. -/
structure ListIter where
  list : Nat
  index : Nat

/-- The inside of an iterator over a string: its characters and how far it
got. -/
structure TextIter where
  chars : Array Char
  index : Nat

/-- The inside of an iterator over a range: the next value and the end. -/
structure RangeIter where
  next : Int64
  last : Int64

/-- The inside of a mutex: its value, and whether an update is going on. -/
structure MutexCell where
  value : Value
  locked : Bool

/-- What is known of a thread: what it is to call and in which file that was
said, that it runs, or what it left behind. -/
inductive ThreadCell where
  | waits (callee : Value) (file : String)
  | runs
  | ended (result : Except Failure Value)

structure OpenFile where
  path : Text
  closed : Bool

/-- What a running script can change.  Objects are numbered from 0 on in each
of the tables, and `fresh` is the next identity of an object that is in none.
`steps` counts the nodes that all threads together began to evaluate, `asked`
holds what was asked of the surroundings, the latest first, and `outside` is
what these are like at the present step. -/
structure Store where
  scopes : Scopes Value
  lists : Array (Array Value)
  listIters : Array ListIter
  textIters : Array TextIter
  rangeIters : Array RangeIter
  instances : Array Instance
  mutexes : Array MutexCell
  threads : Array ThreadCell
  threadNames : Array String
  pools : Array (Array Nat)
  files : Array OpenFile
  output : Text
  asked : List Request
  steps : Nat
  fresh : Nat
  outside : Outside

namespace Store

/-- The store with nothing in it. -/
def bare : Store where
  scopes := .empty
  lists := #[]
  listIters := #[]
  textIters := #[]
  rangeIters := #[]
  instances := #[]
  mutexes := #[]
  threads := #[]
  threadNames := #[]
  pools := #[]
  files := #[]
  output := .empty
  asked := []
  steps := 0
  fresh := 0
  outside := .bare

instance : Inhabited Store := ⟨bare⟩

/-- What the global names stand for before a script runs. -/
def firstGlobals : Bindings Value :=
  Bindings.empty.setAll
    (Builtin.globals.map (fun entry => (entry.1, .builtin entry.2)) ++
      [("None", .none), ("std", .module .std)])

/-- The store with only the first global names and no step counted, but with
all objects, files and output that there are. -/
def renewed (s : Store) : Store :=
  { s with scopes := { s.scopes with globals := firstGlobals }, steps := 0 }

/-- The store before a script runs. -/
def initial : Store := bare.renewed

def newInt (s : Store) (n : Int64) : Value × Store :=
  (.int n s.fresh, { s with fresh := s.fresh + 1 })

def newFloat (s : Store) (x : Float) : Value × Store :=
  (.float x s.fresh, { s with fresh := s.fresh + 1 })

def newText (s : Store) (t : Text) : Value × Store :=
  (.str t s.fresh, { s with fresh := s.fresh + 1 })

def newSome (s : Store) (v : Value) : Value × Store :=
  (.some v s.fresh, { s with fresh := s.fresh + 1 })

def newRange (s : Store) (first last : Int64) : Value × Store :=
  (.range first last s.fresh, { s with fresh := s.fresh + 1 })

def newFunction (s : Store) (f : Closure) : Value × Store :=
  (.function f s.fresh, { s with fresh := s.fresh + 1 })

def newClass (s : Store) (c : ClassDef) : Value × Store :=
  (.classOf c s.fresh, { s with fresh := s.fresh + 1 })

def newHostFunction (s : Store) (f : HostFunction) (name : String) (bound : Bool) :
    Value × Store :=
  (.hostFunction f name bound s.fresh, { s with fresh := s.fresh + 1 })

def newHost (s : Store) (p : HostPointer) : Value × Store :=
  (.host p s.fresh, { s with fresh := s.fresh + 1 })

def newList (s : Store) (items : Array Value) : Value × Store :=
  (.list s.lists.size, { s with lists := s.lists.push items })

def newTexts (s : Store) (texts : List Text) : Value × Store :=
  let (items, s) := addTexts (#[], s) texts
  s.newList items
where
  addTexts : Array Value × Store → List Text → Array Value × Store
    | acc, [] => acc
    | (items, s), t :: rest =>
      let (v, s) := s.newText t
      addTexts (items.push v, s) rest

def newListIter (s : Store) (list : Nat) : Value × Store :=
  (.listIter s.listIters.size, { s with listIters := s.listIters.push ⟨list, 0⟩ })

/-- A new iterator over the characters of a string. -/
def newTextIter (s : Store) (t : Text) : Value × Store :=
  (.textIter s.textIters.size, { s with textIters := s.textIters.push ⟨t.chars, 0⟩ })

def newRangeIter (s : Store) (first last : Int64) : Value × Store :=
  (.rangeIter s.rangeIters.size, { s with rangeIters := s.rangeIters.push ⟨first, last⟩ })

def newInstance (s : Store) (i : Instance) : Value × Store :=
  (.instance s.instances.size, { s with instances := s.instances.push i })

def newMutex (s : Store) (v : Value) : Value × Store :=
  (.mutex s.mutexes.size, { s with mutexes := s.mutexes.push ⟨v, false⟩ })

/-- A new thread, which is to make a call; the surroundings say what it is called. -/
def newThread (s : Store) (callee : Value) (file : String) : Nat × Store :=
  (s.threads.size,
    { s with
      threads := s.threads.push (.waits callee file)
      threadNames := s.threadNames.push s.outside.threadName })

def newPool (s : Store) : Value × Store :=
  (.pool s.pools.size, { s with pools := s.pools.push #[] })

def newFile (s : Store) (f : OpenFile) : Value × Store :=
  (.file s.files.size, { s with files := s.files.push f })

def listItems (s : Store) (id : Nat) : Array Value := s.lists[id]?.getD #[]

def className (s : Store) (id : Nat) : String :=
  match s.instances[id]? with
  | some i => i.classDef.name
  | none => "Instance"

/-- What messages call the type of a value; an instance goes by its class. -/
def typeName (s : Store) : Value → String
  | .instance id => s.className id
  | v => v.typeLabel

def threadName (s : Store) (id : Nat) : String := s.threadNames[id]?.getD ""

/-- What a stack trace calls a callable. -/
def calleeName (s : Store) : Value → String
  | .function f _ => f.name
  | .builtin b => b.name
  | .hostFunction _ name _ _ => name
  | .classOf c _ => c.name
  | v => s.typeName v

def field? (s : Store) (id : Nat) (name : String) : Option Value :=
  s.instances[id]?.bind (fun i => i.fields.get? name)

def askFiles (s : Store) (r : FileRequest) : Except Text r.Reply × Store :=
  (s.outside.files r, { s with asked := .file r :: s.asked })

/-- What a function of the host gives for arguments. -/
def askHost (s : Store) (f : HostFunction) (args : List HostValue) :
    Except Text (List HostValue) × Store :=
  (s.outside.host.call f args, { s with asked := .call f args :: s.asked })

def setThread (s : Store) (id : Nat) (cell : ThreadCell) : Store :=
  { s with threads := s.threads.modify id (fun _ => cell) }

def setFile (s : Store) (id : Nat) (f : OpenFile) : Store :=
  { s with files := s.files.modify id (fun _ => f) }

end Store

end Scriptlet
