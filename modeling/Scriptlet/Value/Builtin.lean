/-
The operations that are built in: global functions, the members of the
standard modules, and the methods of the built-in types.
-/

namespace Scriptlet

inductive NumberOp where
  | add | sub | mul | div | mod | less | greater | lessEq | greaterEq | equal
deriving DecidableEq, Repr

def NumberOp.hook : NumberOp → String
  | .add => "__add__"
  | .sub => "__sub__"
  | .mul => "__mul__"
  | .div => "__div__"
  | .mod => "__mod__"
  | .less => "__lt__"
  | .greater => "__gt__"
  | .lessEq => "__lt_eq__"
  | .greaterEq => "__gt_eq__"
  | .equal => "__is_eq__"

/-- The spelling of an operator. -/
def NumberOp.symbol : NumberOp → String
  | .add => "+"
  | .sub => "-"
  | .mul => "*"
  | .div => "/"
  | .mod => "%"
  | .less => "<"
  | .greater => ">"
  | .lessEq => "<="
  | .greaterEq => ">="
  | .equal => "=="

def NumberOp.ofHook? : String → Option NumberOp
  | "__add__" => some .add
  | "__sub__" => some .sub
  | "__mul__" => some .mul
  | "__div__" => some .div
  | "__mod__" => some .mod
  | "__lt__" => some .less
  | "__gt__" => some .greater
  | "__lt_eq__" => some .lessEq
  | "__gt_eq__" => some .greaterEq
  | "__is_eq__" => some .equal
  | _ => none

/-- Methods that integers and floats have each for themselves. -/
inductive NumberMethod where
  | negate | absolute | posit | truth | display
deriving DecidableEq, Repr

inductive OrderOp where
  | less | greater | lessEq | greaterEq | equal
deriving DecidableEq, Repr

inductive TextMethod where
  | add | mul | order (op : OrderOp) | truth | display | length | index | iter
  | contains | split | upper | lower | trim
deriving DecidableEq, Repr

inductive BoolMethod where
  | truth | invert | both | either | equal | display
deriving DecidableEq, Repr

inductive NullMethod where
  | truth | equal | display
deriving DecidableEq, Repr

inductive ListMethod where
  | length | get | index | store | push | pop | contains | find | display | add | mul | truth
  | iter | equal
deriving DecidableEq, Repr

inductive IterMethod where
  | next | length
deriving DecidableEq, Repr

inductive RangeMethod where
  | length | iter | sum | equal | display
deriving DecidableEq, Repr

inductive OptionMethod where
  | unwrap | isSome | isNone | truth | equal | display
deriving DecidableEq, Repr

inductive ThreadMethod where
  | join | id
deriving DecidableEq, Repr

inductive MutexMethod where
  | get | set | update
deriving DecidableEq, Repr

inductive PoolMethod where
  | spawn | join | length
deriving DecidableEq, Repr

inductive FileMethod where
  | read | write | close
deriving DecidableEq, Repr

/-- The built-in operations.  Two mentions of one are the same object. -/
inductive Builtin where
  | print | repr | str | len | range | someOf | spawn | sleep | mutex
  | readText | writeText | fileExists | removeFile | listDir | openFile
  | nowMs | threadPool
  | assert | assertEq | assertNe
  | defaultRepr | sameObject | iterSelf
  | number (op : NumberOp)
  | int (m : NumberMethod)
  | float (m : NumberMethod)
  | text (m : TextMethod)
  | bool (m : BoolMethod)
  | null (m : NullMethod)
  | list (m : ListMethod)
  | listIter (m : IterMethod)
  | textIter (m : IterMethod)
  | rangeOf (m : RangeMethod)
  | rangeIter (m : IterMethod)
  | option (m : OptionMethod)
  | thread (m : ThreadMethod)
  | mutexOf (m : MutexMethod)
  | pool (m : PoolMethod)
  | file (m : FileMethod)
deriving DecidableEq, Repr

inductive ModuleName where
  | std | fs | time | thread | test
deriving DecidableEq, Repr

/-- What a module is called. -/
def ModuleName.text : ModuleName → String
  | .std => "std"
  | .fs => "fs"
  | .time => "time"
  | .thread => "thread"
  | .test => "test"

namespace NumberMethod

/-- What a method of numbers is called. -/
def name : NumberMethod → String
  | .negate => "__neg__"
  | .absolute => "abs"
  | .posit => "__pos__"
  | .truth => "__bool__"
  | .display => "__repr__"

def ofName? : String → Option NumberMethod
  | "__neg__" => some .negate
  | "abs" => some .absolute
  | "__pos__" => some .posit
  | "__bool__" => some .truth
  | "__repr__" => some .display
  | _ => none

end NumberMethod

/-- The operator that an order belongs to. -/
def OrderOp.number : OrderOp → NumberOp
  | .less => .less
  | .greater => .greater
  | .lessEq => .lessEq
  | .greaterEq => .greaterEq
  | .equal => .equal

def OrderOp.holds : OrderOp → Ordering → Bool
  | .less, o => o == .lt
  | .greater, o => o == .gt
  | .lessEq, o => o != .gt
  | .greaterEq, o => o != .lt
  | .equal, o => o == .eq

namespace TextMethod

/-- What a method of strings is called. -/
def name : TextMethod → String
  | .add => "__add__"
  | .mul => "__mul__"
  | .order op => op.number.hook
  | .truth => "__bool__"
  | .display => "__repr__"
  | .length => "len"
  | .index => "__get_index__"
  | .iter => "__iter__"
  | .contains => "contains"
  | .split => "split"
  | .upper => "upper"
  | .lower => "lower"
  | .trim => "trim"

/-- How many arguments a method of strings takes, the receiver included. -/
def arity : TextMethod → Nat
  | .add | .mul | .order _ | .index | .contains | .split => 2
  | _ => 1

def ofName? : String → Option TextMethod
  | "__add__" => some .add
  | "__mul__" => some .mul
  | "__lt__" => some (.order .less)
  | "__gt__" => some (.order .greater)
  | "__lt_eq__" => some (.order .lessEq)
  | "__gt_eq__" => some (.order .greaterEq)
  | "__is_eq__" => some (.order .equal)
  | "__bool__" => some .truth
  | "__repr__" => some .display
  | "len" | "__len__" => some .length
  | "__get_index__" => some .index
  | "__iter__" => some .iter
  | "contains" => some .contains
  | "split" => some .split
  | "upper" => some .upper
  | "lower" => some .lower
  | "trim" => some .trim
  | _ => none

end TextMethod

namespace BoolMethod

/-- What a method of truth values is called. -/
def name : BoolMethod → String
  | .truth => "__bool__"
  | .invert => "__not__"
  | .both => "__and__"
  | .either => "__or__"
  | .equal => "__is_eq__"
  | .display => "__repr__"

/-- How many arguments a method of truth values takes, the receiver included. -/
def arity : BoolMethod → Nat
  | .both | .either | .equal => 2
  | _ => 1

def ofName? : String → Option BoolMethod
  | "__bool__" => some .truth
  | "__not__" => some .invert
  | "__and__" => some .both
  | "__or__" => some .either
  | "__is_eq__" => some .equal
  | "__repr__" => some .display
  | _ => none

end BoolMethod

namespace NullMethod

/-- What a method of null is called. -/
def name : NullMethod → String
  | .truth => "__bool__"
  | .equal => "__is_eq__"
  | .display => "__repr__"

/-- How many arguments a method of null takes, the receiver included. -/
def arity : NullMethod → Nat
  | .equal => 2
  | _ => 1

def ofName? : String → Option NullMethod
  | "__bool__" => some .truth
  | "__is_eq__" => some .equal
  | "__repr__" => some .display
  | _ => none

end NullMethod

namespace ListMethod

/-- What a method of lists is called. -/
def name : ListMethod → String
  | .length => "len"
  | .get => "get"
  | .index => "__get_index__"
  | .store => "__set_index__"
  | .push => "push"
  | .pop => "pop"
  | .contains => "contains"
  | .find => "find"
  | .display => "__repr__"
  | .add => "__add__"
  | .mul => "__mul__"
  | .truth => "__bool__"
  | .iter => "__iter__"
  | .equal => "__is_eq__"

/-- How many arguments a method of lists takes, the receiver included. -/
def arity : ListMethod → Nat
  | .length | .pop | .display | .truth | .iter => 1
  | .store => 3
  | _ => 2

def ofName? : String → Option ListMethod
  | "len" | "__len__" => some .length
  | "get" => some .get
  | "__get_index__" => some .index
  | "set" | "__set_index__" => some .store
  | "push" => some .push
  | "pop" => some .pop
  | "contains" => some .contains
  | "find" => some .find
  | "__repr__" => some .display
  | "__add__" => some .add
  | "__mul__" => some .mul
  | "__bool__" => some .truth
  | "__iter__" => some .iter
  | "__is_eq__" => some .equal
  | _ => none

end ListMethod

namespace IterMethod

/-- What a method of iterators is called. -/
def name : IterMethod → String
  | .next => "__next__"
  | .length => "__len__"

def ofName? : String → Option IterMethod
  | "__next__" => some .next
  | "__len__" => some .length
  | _ => none

end IterMethod

namespace RangeMethod

/-- What a method of ranges is called. -/
def name : RangeMethod → String
  | .length => "len"
  | .iter => "__iter__"
  | .sum => "sum"
  | .equal => "__is_eq__"
  | .display => "__repr__"

/-- How many arguments a method of ranges takes, the receiver included. -/
def arity : RangeMethod → Nat
  | .equal => 2
  | _ => 1

def ofName? : String → Option RangeMethod
  | "len" | "__len__" => some .length
  | "__iter__" => some .iter
  | "sum" => some .sum
  | "__is_eq__" => some .equal
  | "__repr__" => some .display
  | _ => none

end RangeMethod

namespace OptionMethod

/-- What a method of options is called. -/
def name : OptionMethod → String
  | .unwrap => "unwrap"
  | .isSome => "is_some"
  | .isNone => "is_none"
  | .truth => "__bool__"
  | .equal => "__is_eq__"
  | .display => "__repr__"

/-- How many arguments a method of options takes, the receiver included. -/
def arity : OptionMethod → Nat
  | .equal => 2
  | _ => 1

def ofName? : String → Option OptionMethod
  | "unwrap" => some .unwrap
  | "is_some" => some .isSome
  | "is_none" => some .isNone
  | "__bool__" => some .truth
  | "__is_eq__" => some .equal
  | "__repr__" => some .display
  | _ => none

end OptionMethod

namespace ThreadMethod

/-- What a method of thread handles is called. -/
def name : ThreadMethod → String
  | .join => "join"
  | .id => "id"

def ofName? : String → Option ThreadMethod
  | "join" => some .join
  | "id" => some .id
  | _ => none

end ThreadMethod

namespace MutexMethod

/-- What a method of mutexes is called. -/
def name : MutexMethod → String
  | .get => "get"
  | .set => "set"
  | .update => "update"

/-- How many arguments a method of mutexes takes, the receiver included. -/
def arity : MutexMethod → Nat
  | .get => 1
  | _ => 2

def ofName? : String → Option MutexMethod
  | "get" => some .get
  | "set" => some .set
  | "update" => some .update
  | _ => none

end MutexMethod

namespace PoolMethod

/-- What a method of thread pools is called. -/
def name : PoolMethod → String
  | .spawn => "spawn"
  | .join => "join"
  | .length => "len"

/-- How many arguments a method of thread pools takes, the receiver included. -/
def arity : PoolMethod → Nat
  | .spawn => 2
  | _ => 1

def ofName? : String → Option PoolMethod
  | "spawn" => some .spawn
  | "join" => some .join
  | "len" => some .length
  | _ => none

end PoolMethod

namespace FileMethod

/-- What a method of open files is called. -/
def name : FileMethod → String
  | .read => "read"
  | .write => "write"
  | .close => "close"

/-- How many arguments a method of open files takes, the receiver included. -/
def arity : FileMethod → Nat
  | .write => 2
  | _ => 1

def ofName? : String → Option FileMethod
  | "read" => some .read
  | "write" => some .write
  | "close" => some .close
  | _ => none

end FileMethod

namespace Builtin

/-- What a built-in operation is called. -/
def name : Builtin → String
  | .print => "print"
  | .repr => "repr"
  | .str => "str"
  | .len => "len"
  | .range => "range"
  | .someOf => "Some"
  | .spawn => "spawn"
  | .sleep => "sleep"
  | .mutex => "Mutex"
  | .readText => "fs.read_text"
  | .writeText => "fs.write_text"
  | .fileExists => "fs.exists"
  | .removeFile => "fs.remove"
  | .listDir => "fs.list_dir"
  | .openFile => "fs.open"
  | .nowMs => "time.now_ms"
  | .threadPool => "ThreadPool"
  | .assert => "test.assert"
  | .assertEq => "test.assert_eq"
  | .assertNe => "test.assert_ne"
  | .defaultRepr => "__repr__"
  | .sameObject => "__is_eq__"
  | .iterSelf => "__iter__"
  | .number op => op.hook
  | .int m | .float m => m.name
  | .text m => m.name
  | .bool m => m.name
  | .null m => m.name
  | .list m => m.name
  | .listIter m | .textIter m | .rangeIter m => m.name
  | .rangeOf m => m.name
  | .option m => m.name
  | .thread m => m.name
  | .mutexOf m => m.name
  | .pool m => m.name
  | .file m => m.name

/-- How many arguments a built-in operation takes, the receiver of a method
included; none if any number will do. -/
def arity : Builtin → Option Nat
  | .print | .range => none
  | .nowMs | .threadPool => some 0
  | .writeText | .assertEq | .assertNe | .sameObject | .number _ => some 2
  | .text m => some m.arity
  | .bool m => some m.arity
  | .null m => some m.arity
  | .list m => some m.arity
  | .rangeOf m => some m.arity
  | .option m => some m.arity
  | .mutexOf m => some m.arity
  | .pool m => some m.arity
  | .file m => some m.arity
  | _ => some 1

def globals : List (String × Builtin) :=
  [.print, .repr, .str, .len, .range, .someOf, .spawn, .sleep, .mutex].map fun b => (b.name, b)

end Builtin

inductive ModuleMember where
  | module (m : ModuleName)
  | builtin (b : Builtin)

def ModuleName.member? : ModuleName → String → Option ModuleMember
  | .std, "fs" => some (.module .fs)
  | .std, "time" => some (.module .time)
  | .std, "thread" => some (.module .thread)
  | .std, "test" => some (.module .test)
  | .fs, "read_text" => some (.builtin .readText)
  | .fs, "write_text" => some (.builtin .writeText)
  | .fs, "exists" => some (.builtin .fileExists)
  | .fs, "remove" => some (.builtin .removeFile)
  | .fs, "list_dir" => some (.builtin .listDir)
  | .fs, "open" => some (.builtin .openFile)
  | .time, "now_ms" => some (.builtin .nowMs)
  | .time, "sleep" => some (.builtin .sleep)
  | .thread, "spawn" => some (.builtin .spawn)
  | .thread, "sleep" => some (.builtin .sleep)
  | .thread, "ThreadPool" => some (.builtin .threadPool)
  | .test, "assert" => some (.builtin .assert)
  | .test, "assert_eq" => some (.builtin .assertEq)
  | .test, "assert_ne" => some (.builtin .assertNe)
  | _, _ => none

end Scriptlet
