/-
A source text on its way from tokens over statements to results.
-/
import Scriptlet.Syntax.Parser
import Scriptlet.Machine.World

namespace Scriptlet

/-- What is to be executed. -/
inductive Root where
  | program (p : Program)
  | statement (s : Stmt)

def Stmt.nodeName : Stmt → String
  | .expr _ _ _ => "*ast.ExpressionStatement"
  | .assign _ _ _ | .store _ _ _ _ _ => "*ast.AssignStatement"
  | .choose _ _ _ => "*ast.IfStatement"
  | .repeatWhile _ _ _ => "*ast.WhileStatement"
  | .forEach _ _ _ _ => "*ast.ForStatement"
  | .declare _ => "*ast.FunctionStatement"
  | .classDef _ _ _ _ => "*ast.ClassStatement"
  | .giveBack _ _ => "*ast.ReturnStatement"
  | .leave _ => "*ast.BreakStatement"
  | .skip _ => "*ast.ContinueStatement"

/-- A source text and what the stages have made of it so far. -/
structure Job where
  source : Text
  file : String
  tokens : Option (List Token)
  root : Option Root
  diagnostics : List Diagnostic
  results : List Value
  store : Store

inductive Stage where
  | lex | parse | execute | unwrap | direct
deriving DecidableEq, Repr

namespace Job

def noFile : String := "<stdin>"

def runCode : String := "R001"

def directCode : String := "tree-walk"

def ofSource (source : Text) (file : String) (store : Store) : Job :=
  ⟨source, file, none, none, [], [], store⟩

/-- Makes the tokens of the source. -/
def lex (j : Job) : Job := { j with tokens := some (Lexer.tokens j.source) }

/-- Makes a program of the tokens, of which only the end is left then. -/
def parse (j : Job) : Job :=
  match j.tokens with
  | none => { j with diagnostics := j.diagnostics ++ [SyntaxFault.noTokens.diagnose .nowhere] }
  | some tokens =>
    let (statements, found) := Parser.statementsOf tokens
    { j with
      tokens := some (tokens.drop (tokens.length - 1))
      root := some (.program ⟨j.file, statements⟩)
      diagnostics := (j.diagnostics ++ found).map (Diagnostic.inFile j.file) }

/-- Puts the first statement of a program in the place of the program. -/
def unwrap (j : Job) : Job :=
  match j.root with
  | some (.program ⟨_, first :: _⟩) => { j with root := some (.statement first) }
  | _ => j

/-- Why a job cannot be executed. -/
inductive Refusal where
  | nothing
  | faulty (d : Diagnostic)
  | notAProgram (s : Stmt)

/-- The wording of a refusal. -/
def Refusal.message : Refusal → Text
  | .nothing => "no AST to execute"
  | .faulty d => d.text
  | .notAProgram s => Text.ofString ("AST root is not a Program: " ++ s.nodeName)

def program (j : Job) : Except Refusal Program :=
  match j.root with
  | none => .error .nothing
  | some root =>
    match j.diagnostics with
    | d :: _ => .error (.faulty d)
    | [] =>
      match root with
      | .program p => .ok p
      | .statement s => .error (.notAProgram s)

def world (j : Job) : World :=
  World.ofStore j.store.renewed (if j.file.isEmpty then noFile else j.file)

def run (terms : Terms) (horizon : Nat) (j : Job) (p : Program) : Option Ending :=
  j.world.run terms horizon p

def eval (terms : Terms) (horizon : Nat) (j : Job) (p : Program) : Option (Outcome × World) :=
  j.world.eval terms horizon p

def ended (j : Job) (e : Ending) (found : List Diagnostic) : Job :=
  { j with
    results := j.results ++ e.results
    diagnostics := j.diagnostics ++ found
    store := e.world.store }

def failureDiagnostic (file : String) (f : Failure) : Diagnostic :=
  ⟨runCode, f.position.line, f.position.column, f.diagnosis file, file⟩

def execute (terms : Terms) (horizon : Nat) (j : Job) : Option Job :=
  match j.program with
  | .error .nothing | .error (.faulty _) => some j
  | .error refusal =>
    some { j with diagnostics := j.diagnostics ++ [⟨runCode, 0, 0, refusal.message, j.file⟩] }
  | .ok p =>
    (j.run terms horizon p).map fun e =>
      j.ended e (e.failure.toList.map (failureDiagnostic j.file))

/-- Executes the program, and says so if that cannot be. -/
def direct (terms : Terms) (horizon : Nat) (j : Job) : Option Job :=
  let report (message : Text) : Diagnostic := ⟨directCode, 0, 0, message, ""⟩
  match j.program with
  | .error refusal => some { j with diagnostics := j.diagnostics ++ [report refusal.message] }
  | .ok p =>
    (j.run terms horizon p).map fun e =>
      j.ended e (e.failure.toList.map fun f => report f.text)

/-- Lets a stage work on a job. -/
def perform (terms : Terms) (horizon : Nat) (j : Job) : Stage → Option Job
  | .lex => some j.lex
  | .parse => some j.parse
  | .unwrap => some j.unwrap
  | .execute => j.execute terms horizon
  | .direct => j.direct terms horizon

/-- Lets stages work on a job one after the other. -/
def performAll (terms : Terms) (horizon : Nat) (j : Job) : List Stage → Option Job
  | [] => some j
  | stage :: rest => (j.perform terms horizon stage).bind fun j => j.performAll terms horizon rest

def allStages : List Stage := [.lex, .parse, .execute]

def addedNames (s : Store) : List String :=
  s.scopes.globals.names.filter fun name => (Store.firstGlobals.get? name).isNone

end Job

end Scriptlet
