/-
Reading tokens as a program: statements by their first token, expressions by
operator precedence.  A faulty statement is reported and left out, and reading
goes on after it.  Every function that calls itself through others takes the
number of calls it may still make; a sequence of tokens bounds it.  How deep
expressions may nest is a number given to all of them.
-/
import Scriptlet.Syntax.Reader
import Scriptlet.Token.Stream

namespace Scriptlet.Parser

open Parse

variable {κ : Type}

def maxNesting : Nat := 500

def loosest : Nat := 0

/-- The precedence of an operator before its operand. -/
def unaryPrecedence : Nat := 7

/-- The precedence of calls, subscripts and members. -/
def suffixPrecedence : Nat := 8

/-- How tightly a token binds as the continuation of an expression. -/
def precedenceOf (t : Token) : Nat :=
  match t.kind with
  | .sign .leftParen | .sign .leftBracket | .sign .dot => suffixPrecedence
  | .sign s =>
    match BinaryOp.ofSign? s with
    | some op => op.precedence
    | none => loosest
  | _ => loosest

/-- Whether the next token continues an expression at a precedence.  On a new
line only a member access does. -/
def continuesAt (precedence : Nat) (r : Reader κ) : Bool :=
  precedence < precedenceOf r.ahead && (!r.breaksAhead || r.ahead.isSign .dot)

/-- The hint after a colon, if the next token is one. -/
def optionalHint : ParseOf κ (Option Ident) := do
  if (← get).ahead.isSign .colon then
    advance
    return some (← expectName)
  return none

/-- The parameters after those in `done`, up to the closing parenthesis. -/
def moreParams : Nat → List Param → ParseOf κ (List Param)
  | 0, _ => fail
  | fuel + 1, done => do
    let ident ← expectName
    if done.any (fun p => p.name.name == ident.name) then
      refuse (.duplicateParam ident.name) ident.position
    let hint ← optionalHint
    let params := done ++ [⟨ident, hint⟩]
    if (← get).ahead.isSign .comma then
      advance
      if (← get).ahead.isSign .rightParen then
        advance
        return params
      moreParams fuel params
    else
      expect .rightParen
      return params

def params (fuel : Nat) : ParseOf κ (List Param) := do
  if (← get).ahead.isSign .rightParen then
    advance
    return []
  moreParams fuel []

def assignTo (start : Token) (equals : Position) (target value : Expr) : ParseOf κ Stmt :=
  match target with
  | .name ident => pure (.assign equals ident value)
  | .index bracket object subscript => pure (.store equals bracket object subscript value)
  | _ => refuse (.badTarget start.describe) start.position

/-- Whether an expression can be assigned to. -/
def isTarget : Expr → Bool
  | .name _ | .index _ _ _ => true
  | _ => false

section

variable [Account κ] (limit : Nat)

mutual

/-- An expression that begins at the current token and binds more tightly
than `precedence`; it stands inside `nesting` others. -/
def expression : Nat → Nat → Nat → ParseOf κ Expr
  | 0, _, _ => fail
  | fuel + 1, nesting, precedence => counted do
    if limit ≤ nesting then refuseDeep
    else
      let left ← operand fuel (nesting + 1)
      continued fuel (nesting + 1) precedence left
termination_by structural n => n

def operand : Nat → Nat → ParseOf κ Expr
  | 0, _ => fail
  | fuel + 1, nesting => do
    let t ← current
    match t.kind with
    | .name _ => return .name ⟨t.lexeme, t.position⟩
    | .int value => return .int t.position t.lexeme value
    | .float value => return .float t.position t.lexeme value
    | .str => return .str t.position t.lexeme
    | .keyword k =>
      match k with
      | .trueWord => return .bool t.position true
      | .falseWord => return .bool t.position false
      | .nullWord => return .null t.position
      | .fnWord =>
        expect .leftParen
        let ps ← params fuel
        expect .leftBrace
        return .lambda t.position ps (← block fuel nesting)
      | _ => refuseToken t
    | .sign s =>
      match s with
      | .leftBracket => return .list t.position (← expressions fuel nesting .rightBracket)
      | .leftParen =>
        advance
        let inner ← expression fuel nesting loosest
        expect .rightParen
        return inner
      | .bang =>
        advance
        return .unary t.position .invert (← expression fuel nesting unaryPrecedence)
      | .minus =>
        advance
        return .unary t.position .negate (← expression fuel nesting unaryPrecedence)
      | .plus =>
        advance
        return .unary t.position .posit (← expression fuel nesting unaryPrecedence)
      | _ => refuseToken t
    | .illegal _ | .eof => refuseToken t
termination_by structural n => n

/-- The whole of an expression whose first part is `left`. -/
def continued : Nat → Nat → Nat → Expr → ParseOf κ Expr
  | 0, _, _, _ => fail
  | fuel + 1, nesting, precedence, left => do
    if continuesAt precedence (← get) then
      advance
      let longer ← extended fuel nesting left
      continued fuel nesting precedence longer
    else return left
termination_by structural n => n

/-- The expression `left` with the operator, call, subscript or member that
begins at the current token. -/
def extended : Nat → Nat → Expr → ParseOf κ Expr
  | 0, _, _ => fail
  | fuel + 1, nesting, left => do
    let t ← current
    match t.kind with
    | .sign .leftParen => return .call t.position left (← expressions fuel nesting .rightParen)
    | .sign .leftBracket =>
      advance
      let subscript ← expression fuel nesting loosest
      expect .rightBracket
      return .index t.position left subscript
    | .sign .dot =>
      let field ← expectName
      let r ← get
      if r.ahead.isSign .leftParen && !r.breaksAhead then
        advance
        return .method t.position left field (← expressions fuel nesting .rightParen)
      return .member t.position left field
    | .sign s =>
      match BinaryOp.ofSign? s with
      | some op =>
        advance
        return .binary t.position op left (← expression fuel nesting op.precedence)
      | none => refuseToken t
    | _ => refuseToken t
termination_by structural n => n

/-- Expressions separated by commas, up to `closing`; a comma may follow the
last. -/
def expressions : Nat → Nat → Sign → ParseOf κ (List Expr)
  | 0, _, _ => fail
  | fuel + 1, nesting, closing => do
    if (← get).ahead.isSign closing then
      advance
      return []
    advance
    let first ← expression fuel nesting loosest
    moreExpressions fuel nesting closing [first]
termination_by structural n => n

/-- The expressions after those in `done`, which are last first. -/
def moreExpressions : Nat → Nat → Sign → List Expr → ParseOf κ (List Expr)
  | 0, _, _, _ => fail
  | fuel + 1, nesting, closing, done => do
    if (← get).ahead.isSign .comma then
      advance
      if (← get).ahead.isSign closing then
        advance
        return done.reverse
      advance
      let item ← expression fuel nesting loosest
      moreExpressions fuel nesting closing (item :: done)
    else
      expect closing
      return done.reverse
termination_by structural n => n

def block : Nat → Nat → ParseOf κ Block
  | 0, _ => fail
  | fuel + 1, nesting => counted do
    let opening ← current
    advance
    let statements ← blockStatements fuel nesting opening.position []
    return .mk opening.position statements
termination_by structural n => n

def blockStatements : Nat → Nat → Position → List Stmt → ParseOf κ (List Stmt)
  | 0, _, _, _ => fail
  | fuel + 1, nesting, opened, done => do
    let t ← current
    if t.isSign .rightBrace then return done.reverse
    else if t.isEof then refuse (.unclosedBlock opened) t.position
    else
      attempt (statement fuel nesting)
        (do
          recover
          if (← get).current.isSign .rightBrace then return done.reverse
          else
            advance
            blockStatements fuel nesting opened done)
        (fun found => do
          advance
          match found with
          | some (some s) => blockStatements fuel nesting opened (s :: done)
          | _ => blockStatements fuel nesting opened done)
termination_by structural n => n

/-- The statement that begins at the current token; a lone semicolon is none. -/
def statement : Nat → Nat → ParseOf κ (Option Stmt)
  | 0, _ => fail
  | fuel + 1, nesting => counted do
    let t ← current
    match t.kind with
    | .sign .semicolon => return none
    | .keyword .fnWord =>
      if (← get).ahead.isName then return some (.declare (← function fuel nesting))
      else return some (← expressionStatement fuel nesting)
    | .keyword .classWord => return some (← classStatement fuel nesting)
    | .keyword .ifWord => return some (← choice fuel nesting t.position [])
    | .keyword .whileWord =>
      advance
      let condition ← expression fuel nesting loosest
      expect .leftBrace
      return some (.repeatWhile t.position condition (← block fuel nesting))
    | .keyword .forWord =>
      let item ← expectName
      let r ← get
      if r.ahead.isKeyword .inWord || r.ahead.isSign .colon then
        advance
        advance
        let source ← expression fuel nesting loosest
        expect .leftBrace
        return some (.forEach t.position item source (← block fuel nesting))
      else refuseAhead (TokenKind.keyword .inWord).label
    | .keyword .returnWord =>
      let r ← get
      if r.ahead.isSign .semicolon then
        advance
        return some (.giveBack t.position none)
      else if r.closesAhead || r.breaksAhead then return some (.giveBack t.position none)
      else
        advance
        let value ← expression fuel nesting loosest
        endStatement
        return some (.giveBack t.position (some value))
    | .keyword .breakWord =>
      endStatement
      return some (.leave t.position)
    | .keyword .continueWord =>
      endStatement
      return some (.skip t.position)
    | _ => return some (← expressionStatement fuel nesting)
termination_by structural n => n

/-- An expression by itself, or an assignment to it. -/
def expressionStatement : Nat → Nat → ParseOf κ Stmt
  | 0, _ => fail
  | fuel + 1, nesting => do
    let start ← current
    let found ← expression fuel nesting loosest
    if (← get).ahead.isSign .assign then
      advance
      let equals ← current
      if isTarget found then
        advance
        let value ← expression fuel nesting loosest
        endStatement
        assignTo start equals.position found value
      else refuse (.badTarget start.describe) start.position
    else
      endStatement
      return .expr start.position start.lexeme found
termination_by structural n => n

def function : Nat → Nat → ParseOf κ Func
  | 0, _ => fail
  | fuel + 1, nesting => do
    let keyword ← current
    let ident ← expectName
    expect .leftParen
    let ps ← params fuel
    let hint ← optionalHint
    expect .leftBrace
    return .mk keyword.position ident ps hint (← block fuel nesting)
termination_by structural n => n

def classStatement : Nat → Nat → ParseOf κ Stmt
  | 0, _ => fail
  | fuel + 1, nesting => do
    let keyword ← current
    let ident ← expectName
    let fields ← (do
      if (← get).ahead.isSign .leftParen then
        advance
        params fuel
      else return [])
    if (← get).ahead.isSign .leftBrace then
      advance
      let opening ← current
      advance
      let methods ← classMethods fuel nesting opening.position []
      return .classDef keyword.position ident fields methods
    else
      endStatement
      return .classDef keyword.position ident fields []
termination_by structural n => n

def classMethods : Nat → Nat → Position → List Func → ParseOf κ (List Func)
  | 0, _, _, _ => fail
  | fuel + 1, nesting, opened, done => do
    let t ← current
    match t.kind with
    | .sign .rightBrace => return done.reverse
    | .sign .semicolon =>
      advance
      classMethods fuel nesting opened done
    | .keyword .fnWord =>
      if (← get).ahead.isName then
        let f ← function fuel nesting
        advance
        classMethods fuel nesting opened (f :: done)
      else refuseAhead (TokenKind.name false).label
    | .eof => refuse (.unclosedClass opened) t.position
    | _ => refuse (.notAMethod t.describe) t.position
termination_by structural n => n

/-- The choice that began at `start`, whose branches so far are `done`, last
first, and whose next condition follows the current keyword. -/
def choice : Nat → Nat → Position → List Branch → ParseOf κ Stmt
  | 0, _, _, _ => fail
  | fuel + 1, nesting, start, done => do
    let keyword ← current
    advance
    let condition ← expression fuel nesting loosest
    expect .leftBrace
    let body ← block fuel nesting
    let branches := .mk keyword.position condition body :: done
    let r ← get
    if r.ahead.isKeyword .elifWord then
      advance
      choice fuel nesting start branches
    else if r.ahead.isKeyword .elseWord then
      advance
      expect .leftBrace
      return .choose start branches.reverse (some (← block fuel nesting))
    else return .choose start branches.reverse none
termination_by structural n => n

end

/-- The statements of a program after those in `done`, which are last first,
up to the end of input. -/
def programStatements : Nat → List Stmt → Reader κ → List Stmt × Reader κ
  | 0, done, r => (done.reverse, r)
  | fuel + 1, done, r =>
    if r.current.isEof then (done.reverse, r)
    else
      let (found, after) := statement limit fuel 0 r
      if r.diagnostics.size < after.diagnostics.size then
        programStatements fuel done after.skipToBoundary.advance
      else
        match found with
        | some (some s) => programStatements fuel (s :: done) after.advance
        | _ => programStatements fuel done after.advance

end

def callsFor (n : Nat) : Nat := 8 * (n + 4)

/-- What reading a token sequence yields where expressions nest at most `limit`
deep: the statements without a fault, and all diagnostics. -/
def statementsWithin (limit : Nat) (tokens : List Token) : List Stmt × List Diagnostic :=
  let (found, r) := programStatements limit (callsFor tokens.length) [] (Reader.ofTokens tokens)
  (found, r.diagnostics.toList)

/-- What reading a token sequence yields: the statements without a fault, and
all diagnostics. -/
def statementsOf (tokens : List Token) : List Stmt × List Diagnostic :=
  statementsWithin maxNesting tokens

/-- What reading a source text yields: the statements without a fault, and all
diagnostics. -/
def parse (source : Text) : List Stmt × List Diagnostic := statementsOf (Lexer.tokens source)

end Scriptlet.Parser
