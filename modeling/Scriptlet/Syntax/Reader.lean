/-
Reading tokens with one token of lookahead, and recording what is wrong with
them.
-/
import Scriptlet.Syntax.Basic
import Scriptlet.Diagnostic

namespace Scriptlet

/-- What may be kept of the calls of a parser that are active: it changes where a call
begins and where it ends. -/
class Account (κ : Type) where
  enter : κ → κ
  leave : κ → κ

/-- No account is kept. -/
instance : Account Unit := ⟨id, id⟩

/-- A place in a token sequence: the current token, the one after it, and the
rest.  The last token repeats for ever. -/
structure Reader (κ : Type := Unit) where
  current : Token
  ahead : Token
  rest : List Token
  diagnostics : Array Diagnostic
  account : κ

namespace Reader

variable {κ : Type}

def ofTokens : List Token → Reader
  | [] => ⟨default, default, [], #[], ()⟩
  | [t] => ⟨t, t, [], #[], ()⟩
  | t :: u :: rest => ⟨t, u, rest, #[], ()⟩

/-- Moves one token on. -/
def advance (r : Reader κ) : Reader κ :=
  match r.rest with
  | [] => { r with current := r.ahead }
  | t :: ts => { r with current := r.ahead, ahead := t, rest := ts }

def record (r : Reader κ) (fault : SyntaxFault) (p : Position) : Reader κ :=
  { r with diagnostics := r.diagnostics.push (fault.diagnose p) }

/-- Whether the current token ends a statement. -/
def atBoundary (r : Reader κ) : Bool :=
  r.current.isSign .semicolon || r.current.isSign .rightBrace || r.current.isEof

/-- Whether the block or the input ends with the next token. -/
def closesAhead (r : Reader κ) : Bool := r.ahead.isSign .rightBrace || r.ahead.isEof

/-- Whether the next token stands on another line than the current one. -/
def breaksAhead (r : Reader κ) : Bool := r.ahead.position.line != r.current.position.line

/-- Moves on to the end of the current statement, so that one fault does not
bring on others. -/
def skipToBoundary (r : Reader κ) : Reader κ :=
  if r.atBoundary || r.closesAhead then r
  else
    match h : r.rest with
    | [] => r
    | t :: ts =>
      have : ts.length < r.rest.length := by simp [h]
      skipToBoundary { r with current := r.ahead, ahead := t, rest := ts }
termination_by r.rest.length

end Reader

/-- A reading that yields a value, or gives up; either way it leaves the
reader somewhere. -/
def ParseOf (κ α : Type) : Type := Reader κ → Option α × Reader κ

/-- A reading of which no account is kept. -/
abbrev Parse : Type → Type := ParseOf Unit

namespace Parse

variable {κ : Type}

instance : Monad (ParseOf κ) where
  pure a := fun r => (some a, r)
  bind p f := fun r =>
    match p r with
    | (some a, r') => f a r'
    | (none, r') => (none, r')

/-- The reader as it stands. -/
def get : ParseOf κ (Reader κ) := fun r => (some r, r)

def current : ParseOf κ Token := fun r => (some r.current, r)

/-- Gives up. -/
def fail {α : Type} : ParseOf κ α := fun r => (none, r)

/-- Moves one token on. -/
def advance : ParseOf κ Unit := fun r => (some (), r.advance)

/-- Gives up with a fault at a place. -/
def refuse {α : Type} (fault : SyntaxFault) (p : Position) : ParseOf κ α :=
  fun r => (none, r.record fault p)

/-- Gives up where expressions nest too deeply, and moves on to the end of the statement. -/
def refuseDeep {α : Type} : ParseOf κ α := fun r =>
  (none, (r.record .tooDeep r.current.position).skipToBoundary)

/-- Gives up with a fault at the next token, where another kind was expected. -/
def refuseAhead {α : Type} (label : String) : ParseOf κ α := fun r =>
  refuse (.expectedToken label r.ahead.describe) r.ahead.position r

/-- Moves on if the next token is the given sign. -/
def expect (s : Sign) : ParseOf κ Unit := fun r =>
  if r.ahead.isSign s then advance r else refuseAhead s.text r

def expectName : ParseOf κ Ident := fun r =>
  if r.ahead.isName then (some ⟨r.ahead.lexeme, r.ahead.position⟩, r.advance)
  else refuseAhead (TokenKind.name false).label r

def refuseToken {α : Type} (t : Token) : ParseOf κ α :=
  match t.kind with
  | .illegal reason => refuse (.illegal t.lexeme reason) t.position
  | _ => refuse (.unexpected t.describe) t.position

/-- Accepts the end of a statement: a semicolon, which is read, a line end, or
the end of the block or the input. -/
def endStatement : ParseOf κ Unit := fun r =>
  if r.ahead.isSign .semicolon then advance r
  else if r.closesAhead || r.breaksAhead then (some (), r)
  else if r.ahead.isIllegal then refuseToken r.ahead r
  else refuse (.expectedEnd r.ahead.describe) r.ahead.position r

/-- Moves on to the end of the current statement. -/
def recover : ParseOf κ Unit := fun r => (some (), r.skipToBoundary)

/-- A reading, with what is done behind it where it adds a diagnostic and where it
adds none. -/
def attempt {α β : Type} (p : ParseOf κ α) (bad : ParseOf κ β) (good : Option α → ParseOf κ β) :
    ParseOf κ β := fun r =>
  let (found, after) := p r
  if r.diagnostics.size < after.diagnostics.size then bad after else good found after

/-- A reading that is a call of which the account is kept. -/
def counted {α : Type} [Account κ] (p : ParseOf κ α) : ParseOf κ α := fun r =>
  let (found, after) := p { r with account := Account.enter r.account }
  (found, { after with account := Account.leave after.account })

end Parse

end Scriptlet
