/-
The values of the language.  Every value is an object with an identity: what
can change lives in the store under the object's number, and what cannot is
held directly, with a number that tells one object from another.
-/
import Scriptlet.Syntax.Basic
import Scriptlet.Environment
import Scriptlet.Value.Builtin
import Scriptlet.Host.Function

namespace Scriptlet

/-- A function of a script: its body runs in the frames where it was made. -/
structure Closure where
  name : String
  params : List String
  body : Block
  env : Environment

/-- A class of a script.  Its methods become closures when an instance is
made. -/
structure ClassDef where
  name : String
  fields : List String
  methods : List Func

/-- A value.  The last number of a constructor is its identity. -/
inductive Value where
  | null
  | bool (b : Bool)
  | int (n : Int64) (id : Nat)
  | float (x : Float) (id : Nat)
  | str (t : Text) (id : Nat)
  | none
  | some (v : Value) (id : Nat)
  | range (first last : Int64) (id : Nat)
  | list (id : Nat)
  | listIter (id : Nat)
  | textIter (id : Nat)
  | rangeIter (id : Nat)
  | function (f : Closure) (id : Nat)
  | builtin (b : Builtin)
  | hostFunction (f : HostFunction) (name : String) (bound : Bool) (id : Nat)
  | classOf (c : ClassDef) (id : Nat)
  | instance (id : Nat)
  | module (m : ModuleName)
  | thread (id : Nat)
  | pool (id : Nat)
  | mutex (id : Nat)
  | file (id : Nat)
  | host (p : HostPointer) (id : Nat)

instance : Inhabited Value := ⟨.null⟩

namespace Value

/-- How many of the least integers exist only once. -/
def smallInts : Int64 := 256

/-- Whether an integer exists only once. -/
def isSmall (n : Int64) : Bool := 0 ≤ n && n < smallInts

/-- Whether two values are one object. -/
def same : Value → Value → Bool
  | .null, .null => true
  | .bool a, .bool b => a == b
  | .int a i, .int b j => a == b && (isSmall a || i == j)
  | .float _ i, .float _ j => i == j
  | .str _ i, .str _ j => i == j
  | .none, .none => true
  | .some _ i, .some _ j => i == j
  | .range _ _ i, .range _ _ j => i == j
  | .list i, .list j => i == j
  | .listIter i, .listIter j => i == j
  | .textIter i, .textIter j => i == j
  | .rangeIter i, .rangeIter j => i == j
  | .function _ i, .function _ j => i == j
  | .builtin a, .builtin b => a == b
  | .hostFunction _ _ _ i, .hostFunction _ _ _ j => i == j
  | .classOf _ i, .classOf _ j => i == j
  | .instance i, .instance j => i == j
  | .module a, .module b => a == b
  | .thread i, .thread j => i == j
  | .pool i, .pool j => i == j
  | .mutex i, .mutex j => i == j
  | .file i, .file j => i == j
  | .host _ i, .host _ j => i == j
  | _, _ => false

def typeLabel : Value → String
  | .null => "Null"
  | .bool _ => "Bool"
  | .int _ _ => "Int"
  | .float _ _ => "Float"
  | .str _ _ => "Str"
  | .none | .some _ _ => "Option"
  | .range _ _ _ => "Range"
  | .list _ => "List"
  | .listIter _ => "ListIterator"
  | .textIter _ => "StrIterator"
  | .rangeIter _ => "RangeIterator"
  | .function _ _ => "Function"
  | .builtin _ | .hostFunction _ _ _ _ => "Builtin"
  | .classOf _ _ => "Class"
  | .instance _ => "Instance"
  | .module _ => "Module"
  | .thread _ => "ThreadHandle"
  | .pool _ => "ThreadPool"
  | .mutex _ => "Mutex"
  | .file _ => "File"
  | .host _ _ => "Host"

def method? (v : Value) (name : String) : Option Builtin :=
  match v with
  | .int _ _ =>
    match NumberOp.ofHook? name with
    | .some op => .some (.number op)
    | .none => (NumberMethod.ofName? name).map .int
  | .float _ _ =>
    match NumberOp.ofHook? name with
    | .some op => .some (.number op)
    | .none => (NumberMethod.ofName? name).map .float
  | .str _ _ => (TextMethod.ofName? name).map .text
  | .bool _ => (BoolMethod.ofName? name).map .bool
  | .null => (NullMethod.ofName? name).map .null
  | .none | .some _ _ => (OptionMethod.ofName? name).map .option
  | .range _ _ _ => (RangeMethod.ofName? name).map .rangeOf
  | .list _ => (ListMethod.ofName? name).map .list
  | .listIter _ =>
    if name == "__iter__" then .some .iterSelf else (IterMethod.ofName? name).map .listIter
  | .textIter _ =>
    if name == "__iter__" then .some .iterSelf else (IterMethod.ofName? name).map .textIter
  | .rangeIter _ =>
    if name == "__iter__" then .some .iterSelf else (IterMethod.ofName? name).map .rangeIter
  | .thread _ => (ThreadMethod.ofName? name).map .thread
  | .mutex _ => (MutexMethod.ofName? name).map .mutexOf
  | .pool _ => (PoolMethod.ofName? name).map .pool
  | .file _ => (FileMethod.ofName? name).map .file
  | _ => .none

end Value

end Scriptlet
