/-
The report of diagnostics to a person, in colors where that is wanted.
-/
import Scriptlet.Diagnostic
import Scriptlet.Text.Blank

namespace Scriptlet

/-- Ways to set off a text on a terminal. -/
inductive Style where
  | bold | dim | red | yellow | cyan
deriving DecidableEq, Repr

namespace Style

/-- The number that switches a style on, and the one that switches it off. -/
def codes : Style → Nat × Nat
  | .bold => (1, 22)
  | .dim => (2, 22)
  | .red => (31, 39)
  | .yellow => (33, 39)
  | .cyan => (36, 39)

/-- The sequence that gives a number to the terminal. -/
def control (n : Nat) : Text := Text.ofString ("\x1b[" ++ toString n ++ "m")

/-- A text in a style, if there are to be styles. -/
def apply (style : Style) (colors : Bool) (t : Text) : Text :=
  if colors then control style.codes.1 ++ t ++ control style.codes.2 else t

end Style

namespace Report

/-- The first line of a diagnostic, with the place in front set off. -/
def headLine (colors : Bool) (line : Text) : Text :=
  match line.find? ": error " with
  | some 0 | none => line
  | some i => Style.cyan.apply colors (line.slice 0 i) ++ line.drop i

def furtherLine (colors : Bool) (line : Text) : Text :=
  if line.trim == "Stack trace:" then Style.yellow.apply colors line
  else Style.dim.apply colors line

def item (colors : Bool) (d : Diagnostic) : Text :=
  match (d.text.split "\n").toList with
  | [] => .empty
  | first :: rest =>
    rest.foldl (fun acc line => acc ++ furtherLine colors line ++ Text.ofString "\n")
      (Text.ofString "- " ++ headLine colors first ++ Text.ofString "\n")

/-- The whole report. -/
def text (colors : Bool) (ds : List Diagnostic) : Text :=
  ds.foldl (fun acc d => acc ++ item colors d)
    (Style.bold.apply colors (Style.red.apply colors "Processing failed with errors:") ++
      Text.ofString "\n")

end Report

def sourceExtensions : List String := [".petty", ".pt"]

def isSourceFile (path : String) : Bool :=
  sourceExtensions.any fun ext => Text.endsWith path ext

end Scriptlet
