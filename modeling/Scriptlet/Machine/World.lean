/-
All threads of a run.  Which of them goes on, and what the surroundings are like
meanwhile, is an event; a run follows the events that its surroundings feed it,
whatever these are, so what holds of every run holds for every order of steps.
-/
import Scriptlet.Machine.Step

namespace Scriptlet

/-- A run: the store, the main thread, the other threads that were started and
have not ended, the newest first, and how many events there were. -/
structure World where
  store : Store
  main : Task
  threads : List (Nat × Task)
  age : Nat

/-- What happens next: the thread with a number, or else the main thread, may go on, and the
surroundings are as they are meanwhile. -/
structure Event where
  actor : Option Nat
  outside : Outside

/-- The terms of a run: its limits, and what happens next in each world. -/
structure Terms extends Limits where
  feed : World → Event

namespace World

/-- A world before anything runs. -/
def ofStore (s : Store) (file : String) : World := ⟨s, .idle file, [], 0⟩

instance : Inhabited World := ⟨ofStore default ""⟩

/-- What a thread left behind. -/
def resultOf : Outcome → Except Failure Value
  | .value v | .returned v => .ok v
  | .failed f => .error f
  | .left | .skipped => .ok .null

/-- Lets the thread with a number go on, among threads; one that has a result ends. -/
def advance (limits : Limits) (id : Nat) (s : Store) :
    List (Nat × Task) → List (Nat × Task) × Store
  | [] => ([], s)
  | (n, t) :: rest =>
    if n = id then
      match t.result? with
      | some o => (rest, s.setThread id (.ended (resultOf o)))
      | none =>
        let (t, s) := t.step limits s
        ((n, t) :: rest, s)
    else
      let (rest, s) := advance limits id s rest
      ((n, t) :: rest, s)

/-- Lets the main thread, or else the thread with a number, go on; one that waits to be
started starts. -/
def act (limits : Limits) (w : World) (actor : Option Nat) : World :=
  let ⟨s, main, threads, age⟩ := w
  match actor with
  | none =>
    let (main, s) := main.step limits s
    ⟨s, main, threads, age⟩
  | some id =>
    match s.threads[id]? with
    | some (.waits callee file) =>
      ⟨s.setThread id .runs, main,
        (id, (Task.idle file).applying s callee [] .nowhere) :: threads, age⟩
    | _ =>
      let (threads, s) := advance limits id s threads
      ⟨s, main, threads, age⟩

/-- The world in other surroundings, one event later. -/
def within (w : World) (o : Outside) : World :=
  let ⟨s, main, threads, age⟩ := w
  ⟨{ s with outside := o }, main, threads, age + 1⟩

/-- What becomes of a world by an event. -/
def move (limits : Limits) (w : World) (e : Event) : World :=
  (w.within e.outside).act limits e.actor

def step (terms : Terms) (w : World) : World := w.move terms.toLimits (terms.feed w)

/-- Runs until the main thread has a result, for at most `horizon` steps. -/
def finish (terms : Terms) : Nat → World → Option (Outcome × World)
  | 0, _ => none
  | horizon + 1, w =>
    match w.main.result? with
    | some o => some (o, w)
    | none => finish terms horizon (w.step terms)

/-- The world whose main thread has something to do. -/
def doing (w : World) (c : Control) : World := { w with main := { w.main with control := c } }

def inFile (w : World) (file : String) : World := { w with main := { w.main with file := file } }

def evalStmt (terms : Terms) (horizon : Nat) (w : World) (s : Stmt) :
    Option (Outcome × World) :=
  finish terms horizon (w.doing (.stmt s []))

end World

/-- How the run of a program ended: the values of its statements, the failure
that ended it early, if any, and the world it left. -/
structure Ending where
  results : List Value
  failure : Option Failure
  world : World

namespace World

/-- Runs statements one by one, after those with the values in `done`, which
are last first. -/
def runFrom (terms : Terms) (horizon : Nat) (w : World) (done : List Value) :
    List Stmt → Option Ending
  | [] => some ⟨done.reverse, none, w⟩
  | s :: rest =>
    match w.evalStmt terms horizon s with
    | none => none
    | some (.value v, w) => runFrom terms horizon w (v :: done) rest
    | some (.returned v, w) => some ⟨(v :: done).reverse, none, w⟩
    | some (.failed f, w) => some ⟨done.reverse, some f, w⟩
    | some (.left, w) =>
      some ⟨done.reverse, some ((Failure.ofFault (.strayBreak none)).locate s.position), w⟩
    | some (.skipped, w) =>
      some ⟨done.reverse, some ((Failure.ofFault (.strayContinue none)).locate s.position), w⟩

/-- Runs a program: one value for each statement, up to one that fails, or one
that returns, which ends the program with its value. -/
def run (terms : Terms) (horizon : Nat) (w : World) (p : Program) : Option Ending :=
  (if p.file.isEmpty then w else w.inFile p.file).runFrom terms horizon [] p.statements

def eval (terms : Terms) (horizon : Nat) (w : World) (p : Program) :
    Option (Outcome × World) :=
  finish terms horizon (w.doing (.program p.statements []))

def evalExpr (terms : Terms) (horizon : Nat) (w : World) (e : Expr) :
    Option (Outcome × World) :=
  finish terms horizon (w.doing (.expr e []))

/-- Calls a value from outside any script. -/
def apply (terms : Terms) (horizon : Nat) (w : World) (callee : Value) (args : List Value) :
    Option (Outcome × World) :=
  finish terms horizon { w with main := w.main.applying w.store callee args .nowhere }

end World

/-- Steps enough for any run that ends in practice. -/
def longHorizon : Nat := 4611686018427387904

end Scriptlet
