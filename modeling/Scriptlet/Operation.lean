/-
The built-in operations that come to an end by themselves.  Those that call
back into a script, or wait for another thread, are left to the machine.
-/
import Scriptlet.Operation.Number
import Scriptlet.Operation.Text
import Scriptlet.Operation.Collection
import Scriptlet.Operation.File

namespace Scriptlet

namespace Builtin

def callsBack : Builtin → Bool
  | .print | .repr | .str | .len | .spawn | .sleep | .assert | .assertEq | .assertNe
  | .list .contains | .list .find | .list .display | .list .equal
  | .option .equal | .option .display
  | .mutexOf _ | .thread .join | .pool .spawn | .pool .join => true
  | _ => false

def answer (s : Store) (b : Builtin) (args : List Value) : Answer :=
  match b, args with
  | .range, args => rangeAnswer s args
  | .someOf, [v] => s.giveSome v
  | .mutex, [v] =>
    let (m, s) := s.newMutex v
    s.give m
  | .threadPool, [] =>
    let (p, s) := s.newPool
    s.give p
  | .nowMs, [] => s.giveInt s.outside.now
  | .readText, [.str path _] => s.readText path
  | .readText, [other] => s.refuseType "read_text() path" "Str" other
  | .writeText, [.str path _, .str bytes _] => s.writeText path bytes
  | .writeText, [.str _ _, other] => s.refuseType "write_text() content" "Str" other
  | .writeText, [other, _] => s.refuseType "write_text() path" "Str" other
  | .fileExists, [.str path _] => s.fileExists path
  | .fileExists, [other] => s.refuseType "exists() path" "Str" other
  | .removeFile, [.str path _] => s.removeFile path
  | .removeFile, [other] => s.refuseType "remove() path" "Str" other
  | .listDir, [.str path _] => s.listDirectory path
  | .listDir, [other] => s.refuseType "list_dir() path" "Str" other
  | .openFile, [.str path _] => s.openFile path
  | .openFile, [other] => s.refuseType "open() path" "Str" other
  | .defaultRepr, [v] => s.giveText (s.display v)
  | .sameObject, [a, b] => s.giveBool (a.same b)
  | .iterSelf, [v] => s.give v
  | .number op, [a, b] => op.answer s a b
  | .int m, [v] => m.ofInt s v
  | .float m, [v] => m.ofFloat s v
  | .text m, args => m.answer s args
  | .bool m, args => m.answer s args
  | .null m, args => m.answer s args
  | .list m, args => m.answer s args
  | .listIter m, [v] => m.ofList s v
  | .textIter m, [v] => m.ofText s v
  | .rangeIter m, [v] => m.ofRange s v
  | .rangeOf m, args => m.answer s args
  | .option m, args => m.answer s args
  | .thread .id, [.thread id] => s.giveText (s.threadName id)
  | .pool .length, [.pool id] => s.giveInt (Int64.ofNat (s.pools[id]?.getD #[]).size)
  | .file m, args => m.answer s args
  | b, args => s.refuseReceiver b.name args

end Builtin

end Scriptlet
