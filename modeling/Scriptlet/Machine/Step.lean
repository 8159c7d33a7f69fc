/-
The steps of a thread.
-/
import Scriptlet.Machine.Resume

namespace Scriptlet

namespace Task

/-- One step of a thread.  A thread that waits, or has a result, stays as it
is. -/
def step (limits : Limits) (t : Task) (s : Store) : Task × Store :=
  match t.control with
  | .expr e env =>
    match t.refusal limits s with
    | (some fault, s) => (t.failing fault, s)
    | (none, s) => (t.entered (some e.position) env).beginExpr s env e
  | .stmt stmt env =>
    match t.refusal limits s with
    | (some fault, s) => (t.failing fault, s)
    | (none, s) => (t.entered (some stmt.position) env).beginStmt s env stmt
  | .block b env =>
    match t.refusal limits s with
    | (some fault, s) => (t.failing fault, s)
    | (none, s) => ((t.entered (some b.position) env).beginBlock env b.statements, s)
  | .program statements env =>
    match t.refusal limits s with
    | (some fault, s) => (t.failing fault, s)
    | (none, s) => ((t.entered none env).beginProgram env statements, s)
  | .call callee args => t.call s callee args
  | .hook receiver name args => t.callHook limits s receiver name args
  | .asleep wakeUp => (t.sleepOn s wakeUp, s)
  | .joining ids => t.joinAll s ids
  | .outcome o =>
    match t.frames with
    | [] => (t, s)
    | f :: rest => { t with frames := rest }.resume s o f

end Task

end Scriptlet
