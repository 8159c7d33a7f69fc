/-
Sample programs drawn from bytes.  Each choice takes one byte, and where no
bytes are left the first alternative is chosen.
-/
import Scriptlet.Text.Quoted

namespace Scriptlet

namespace Sampler

abbrev Draw := StateM (List UInt8)

def below (n : Nat) : Draw Nat := fun bytes =>
  match bytes with
  | [] => (0, [])
  | b :: rest => if n = 0 then (0, b :: rest) else (b.toNat % n, rest)

def oneOf (words : List String) : Draw String := do
  return words.getD (← below words.length) ""

/-- What `draw` draws `n` times. -/
def several (draw : Draw String) : Nat → Draw (List String)
  | 0 => return []
  | n + 1 => do
    let first ← draw
    return first :: (← several draw n)

def levels : Nat := 5

def maxStatements : Nat := 6

def variableName : Draw String := oneOf ["x", "y", "z", "xs", "s"]

def params : Draw String := do
  let n ← below 3
  return ", ".intercalate ((List.range n).map fun i => "p" ++ toString i)

def literal : Draw String := do
  match ← below 9 with
  | 0 => return toString (← below 256)
  | 1 => oneOf ["9223372036854775807", "4294967296", "0", "-1"]
  | 2 =>
    let whole ← below 100
    return toString whole ++ "." ++ toString (← below 100)
  | 3 => return Text.quoteString (← oneOf ["", "ab", "héllo", "a,b"])
  | 4 => oneOf ["true", "false"]
  | 5 => return "null"
  | 6 => return "None"
  | 7 => return "[]"
  | _ => return "range(" ++ toString (← below 50) ++ ")"

def expression : Nat → Draw String
  | 0 => literal
  | level + 1 => do
    match ← below 14 with
    | 0 | 1 => literal
    | 2 | 3 => variableName
    | 4 | 5 =>
      let op ← oneOf ["+", "-", "*", "/", "%", "==", "!=", "<", ">", "<=", ">=", "&&", "||"]
      let left ← expression level
      return left ++ " " ++ op ++ " " ++ (← expression level)
    | 6 =>
      let op ← oneOf ["-", "!"]
      return op ++ (← expression level)
    | 7 => return "(" ++ (← expression level) ++ ")"
    | 8 =>
      let first ← expression level
      return "[" ++ first ++ ", " ++ (← expression level) ++ "]"
    | 9 =>
      let name ← variableName
      return name ++ "[" ++ (← expression level) ++ "]"
    | 10 =>
      let method ← oneOf ["len()", "sum()", "push(x)", "pop()", "get(0)", "unwrap()", "abs()",
        "split(\",\")"]
      return (← variableName) ++ "." ++ method
    | 11 =>
      let callee ← oneOf ["len", "range", "Some", "str", "repr", "f0", "f1", "C0", "C1"]
      return callee ++ "(" ++ (← expression level) ++ ")"
    | 12 =>
      let names ← params
      return "fn(" ++ names ++ ") \x7b return " ++ (← expression level) ++ " \x7d"
    | _ =>
      let left ← literal
      return left ++ " * " ++ (← literal)

def assignment (level : Nat) : Draw String := do
  let name ← variableName
  return name ++ " = " ++ (← expression level)

/-- Statements between braces; in a loop some of them leave or skip. -/
def block (inLoop : Bool) (statement : Draw String) : Draw (List String) := do
  let n ← below 3
  several (line inLoop statement) (n + 1)
where
  line (inLoop : Bool) (statement : Draw String) : Draw String := do
    if inLoop then
      if (← below 4) = 0 then oneOf ["break", "continue"] else statement
    else statement

def braces (lines : List String) : String := "\x7b\n" ++ "\n".intercalate lines ++ "\n\x7d"

def functionBody (level : Nat) (statement : Draw String) : Draw String := do
  let lines ← block false statement
  return braces (lines ++ ["return " ++ (← expression level)])

def method (level : Nat) (statement : Draw String) : Draw String := do
  let name ← oneOf ["get", "__add__", "__repr__", "__bool__", "__is_eq__", "__iter__", "__next__"]
  return "fn " ++ name ++ "(self, o) " ++ (← functionBody level statement)

def classText (level : Nat) (statement : Draw String) : Draw String := do
  let name := "C" ++ toString (← below 3)
  if (← below 3) = 0 then return "class " ++ name ++ "(" ++ (← params) ++ ");"
  else
    let n ← below 3
    let methods ← several (method level statement) (n + 1)
    return "class " ++ name ++ "(" ++ (← params) ++ ") \x7b " ++ "\n".intercalate methods ++ " \x7d"

def choice (level : Nat) (statement : Draw String) : Draw String := do
  let condition ← expression level
  let first := "if " ++ condition ++ " " ++ braces (← block false statement)
  let second ←
    if (← below 2) = 0 then do
      let condition ← expression level
      pure (" elif " ++ condition ++ " " ++ braces (← block false statement))
    else pure ""
  let third ←
    if (← below 2) = 0 then do pure (" else " ++ braces (← block false statement)) else pure ""
  return first ++ second ++ third

def statement : Nat → Draw String
  | 0 => assignment 0
  | level + 1 => do
    match ← below 12 with
    | 0 | 1 | 2 => assignment level
    | 3 =>
      let n ← below 3
      let names ← params
      return "fn f" ++ toString n ++ "(" ++ names ++ ") " ++
        (← functionBody level (statement level))
    | 4 => classText level (statement level)
    | 5 => choice level (statement level)
    | 6 =>
      let name ← variableName
      let source ← expression level
      return "for " ++ name ++ " in " ++ source ++ " " ++ braces (← block true (statement level))
    | 7 =>
      let condition ← expression level
      return "while " ++ condition ++ " " ++ braces (← block true (statement level))
    | 8 =>
      let name ← variableName
      let subscript ← expression level
      return name ++ "[" ++ subscript ++ "] = " ++ (← expression level)
    | 9 => return "print(" ++ (← expression level) ++ ")"
    | _ => expression level

def program : Draw String := do
  let n ← below maxStatements
  let lines ← several (statement levels) (n + 1)
  return String.join (lines.map fun line => line ++ "\n")

def programOf (bytes : List UInt8) : String := (program bytes).1

end Sampler

end Scriptlet
