/-
Settings of the interpreter.  How a document is read is left to a reader that
is given, and may refuse it.
-/
import Scriptlet.Machine.Basic
import Scriptlet.Text.Quoted

namespace Scriptlet

inductive ColorMode where
  | auto | always | never
deriving DecidableEq, Repr

/-- What a color mode is called. -/
def ColorMode.name : ColorMode → String
  | .auto => "auto"
  | .always => "always"
  | .never => "never"

/-- Settings of the interpreter. -/
structure Settings where
  logLevel : String
  maxDepth : Int
  maxSteps : Int
  color : ColorMode
  fsRoot : String
deriving DecidableEq, Repr

inductive SettingsFault where
  | document (reason : Text)
  | depth (n : Int)
  | steps (n : Int)
  | color (mode : String)

/-- The wording of what is wrong with settings. -/
def SettingsFault.message : SettingsFault → Text
  | .document reason => Text.ofString "config: " ++ reason
  | .depth n => Text.ofString ("config: max_depth must be positive, got " ++ toString n)
  | .steps n => Text.ofString ("config: max_steps must not be negative, got " ++ toString n)
  | .color mode => Text.ofString ("config: unknown color mode " ++ Text.quoteString mode)

namespace Settings

/-- The settings where nothing else is said. -/
def default : Settings := ⟨"info", Limits.defaultDepth, 0, .auto, ""⟩

instance : Inhabited Settings := ⟨default⟩

/-- Settings as they are written, before the color mode is understood. -/
structure Draft where
  logLevel : String
  maxDepth : Int
  maxSteps : Int
  color : String
  fsRoot : String

/-- What is written where nothing is. -/
def Draft.default : Draft :=
  ⟨Settings.default.logLevel, Settings.default.maxDepth, Settings.default.maxSteps,
    Settings.default.color.name, Settings.default.fsRoot⟩

/-- The color mode with a name; no name stands for the usual mode. -/
def colorMode? : String → Option ColorMode
  | "auto" | "" => some .auto
  | "always" => some .always
  | "never" => some .never
  | _ => none

def Draft.settings (d : Draft) : Except SettingsFault Settings :=
  if d.maxDepth ≤ 0 then .error (.depth d.maxDepth)
  else if d.maxSteps < 0 then .error (.steps d.maxSteps)
  else
    match colorMode? d.color with
    | some mode => .ok ⟨d.logLevel, d.maxDepth, d.maxSteps, mode, d.fsRoot⟩
    | none => .error (.color d.color)

/-- The settings of a document, which a reader takes over into a draft. -/
def parse (read : Draft → Text → Except Text Draft) (source : Text) :
    Except SettingsFault Settings :=
  match read .default source with
  | .error reason => .error (.document reason)
  | .ok d => d.settings

def limits (s : Settings) : Limits := .ofNumbers s.maxDepth s.maxSteps

end Settings

end Scriptlet
