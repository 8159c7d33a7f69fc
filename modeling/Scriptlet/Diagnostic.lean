/-
Diagnostics: what is reported about a source text or a run, with the place
and the file it concerns.
-/
import Scriptlet.Token.Basic

namespace Scriptlet

/-- A report.  A place whose line is 0 and an empty file are not shown. -/
structure Diagnostic where
  code : String
  line : Int
  column : Int
  message : Text
  file : String
deriving DecidableEq

namespace Diagnostic

/-- The diagnostic on one line, unless its message has more. -/
def text (d : Diagnostic) : Text :=
  let place := toString d.line ++ ":" ++ toString d.column ++ ": "
  let file := if d.file.isEmpty then "" else d.file ++ ":"
  let head :=
    if d.line ≠ 0 then file ++ place
    else if d.file.isEmpty then "" else file ++ " "
  Text.ofString (head ++ "error [" ++ d.code ++ "]: ") ++ d.message

/-- Says which file a diagnostic belongs to, unless it knows. -/
def inFile (file : String) (d : Diagnostic) : Diagnostic :=
  if d.file.isEmpty then { d with file := file } else d

end Diagnostic

/-- What can be wrong with a source text. -/
inductive SyntaxFault where
  | illegal (lexeme reason : String)
  | unexpected (found : String)
  | expectedToken (label found : String)
  | expectedEnd (found : String)
  | duplicateParam (name : String)
  | unclosedBlock (opened : Position)
  | unclosedClass (opened : Position)
  | notAMethod (found : String)
  | badTarget (found : String)
  | tooDeep
  | noTokens
deriving DecidableEq

namespace SyntaxFault

/-- The class of a fault. -/
def code : SyntaxFault → String
  | .illegal _ _ => "L001"
  | .unexpected _ => "P002"
  | .badTarget _ => "P004"
  | .tooDeep => "P005"
  | _ => "P001"

/-- The wording of a fault. -/
def message : SyntaxFault → String
  | .illegal lexeme reason => "illegal token " ++ Text.quoteString lexeme ++ ": " ++ reason
  | .unexpected found => "unexpected " ++ found
  | .expectedToken label found =>
    "expected next token to be " ++ label ++ ", got " ++ found ++ " instead"
  | .expectedEnd found => "expected end of statement, got " ++ found
  | .duplicateParam name => "duplicate parameter " ++ Text.quoteString name
  | .unclosedBlock p =>
    "expected '\x7d' to close block opened at " ++ toString p.line ++ ":" ++ toString p.column
  | .unclosedClass p =>
    "expected '\x7d' to close class body opened at " ++ toString p.line ++ ":" ++ toString p.column
  | .notAMethod found => "class body may only contain methods, got " ++ found
  | .badTarget found => "cannot assign to " ++ found
  | .tooDeep => "expression too complex: recursion depth limit exceeded"
  | .noTokens => "parser: token stream is nil"

def diagnose (fault : SyntaxFault) (p : Position) : Diagnostic :=
  ⟨fault.code, p.line, p.column, fault.message, ""⟩

end SyntaxFault

end Scriptlet
