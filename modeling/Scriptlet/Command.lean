/-
The command line, as a function of everything it looks at.
-/
import Scriptlet.Document.Draft
import Scriptlet.Job
import Scriptlet.Report
import Scriptlet.Surroundings
import Scriptlet.Syntax.Layout

namespace Scriptlet

/-- What a command is given: its arguments, the standard input, the file of
settings that the environment names, whether the terminal shows colors, the
time as log lines show it, the clock, and the files of the working directory. -/
structure Invocation where
  args : List String
  stdin : Text
  settingsFile : String
  terminalColors : Bool
  time : String
  clock : Nat
  disk : Disk

/-- What a command leaves: its exit code, what it wrote, the files, and the
paths in the working directory that the script named. -/
structure Response where
  code : Nat
  stdout : Text
  stderr : Text
  disk : Disk
  consulted : List Text

namespace Command

def version : String := "0.3.0"

def settingsName : String := "petty.yaml"

/-- How the command is used. -/
def usage : String :=
  "Usage:\n" ++
  "  petty <file>          run a script\n" ++
  "  petty -e \"<source>\"   run source given on the command line\n" ++
  "  petty -fmt <file>     print the formatted source of a script\n" ++
  "  petty -version        print the version\n" ++
  "  petty -               read the script from stdin\n"

/-- The reply of a command that ran no script. -/
def plainResponse (inv : Invocation) (code : Nat) (stdout stderr : Text) : Response :=
  ⟨code, stdout, stderr, inv.disk, []⟩

/-- The source that a path names; a dash names the standard input. -/
def readSource (inv : Invocation) (path : String) : Except DiskFault Text :=
  if path == "-" then .ok inv.stdin else inv.disk.readNamed path

/-- The reply to a source that cannot be read. -/
def unreadable (inv : Invocation) (path : String) (fault : DiskFault) : Response :=
  plainResponse inv 1 .empty
    (Text.ofString ("Error reading file " ++ path ++ ": ") ++ fault.message ++ Text.ofString "\n")

/-- Where the settings for a script are: in the file that the environment names,
or beside the script. -/
def settingsPath (inv : Invocation) (path : String) : Text :=
  if inv.settingsFile.isEmpty then Path.join (Path.directory path) settingsName
  else inv.settingsFile

/-- The settings for a script; the usual ones if there is no file of them. -/
def loadSettings (inv : Invocation) (path : String) : Except Text Settings :=
  let place := settingsPath inv path
  match inv.disk.readNamed place with
  | .error (.system _ _ "no such file or directory") => .ok Settings.default
  | .error fault => .error (Text.ofString "config: " ++ fault.message)
  | .ok source =>
    match Settings.parse Settings.Draft.read source with
    | .ok s => .ok s
    | .error fault => .error (place ++ Text.ofString ": " ++ fault.message)

def numeral? (text : String) : Option Int :=
  let (negative, digits) := splitSign text.toList
  if digits.isEmpty then none
  else (digitsValue? 10 digits).map fun n => if negative then -(n : Int) else n

/-- A character without its case, if that makes it an ASCII letter: there are
two from outside that do. -/
def foldChar (c : Char) : Char :=
  if c == '\u017f' then 's' else if c == '\u212a' then 'k' else c.toLower

/-- Whether warnings are logged at a level.  A level is given by name or by
number, where that of warnings is 2; any other level stands for one at which
they are. -/
def logsWarnings (level : String) : Bool :=
  if ["error", "fatal", "panic", "disabled"].contains (level.map foldChar) then false
  else
    match numeral? level with
    | some n => n ≤ 2 || 127 < n
    | none => true

def logChar (c : Char) : List Char :=
  match c with
  | '\x22' => ['\\', '\x22']
  | '\\' => ['\\', '\\']
  | '\x08' => ['\\', 'b']
  | '\x0c' => ['\\', 'f']
  | '\n' => ['\\', 'n']
  | '\r' => ['\\', 'r']
  | '\t' => ['\\', 't']
  | c => if c.toNat < 32 || c.toNat == 127 then '\\' :: 'u' :: Text.hexDigits 4 c.toNat else [c]

/-- The log line about a script whose name does not look like one. -/
def extensionWarning (inv : Invocation) (path : String) : Text :=
  let escaped := String.ofList (path.toList.flatMap logChar)
  Text.ofString ("\x7b\"level\":\"warn\",\"path\":\"" ++ escaped ++ "\",\"time\":\"" ++ inv.time ++
    "\",\"message\":\"unrecognized source file extension\"\x7d\n")

def inColors (inv : Invocation) : ColorMode → Bool
  | .always => true
  | .never => false
  | .auto => inv.terminalColors

def workRoot (s : Settings) (path : String) : Text :=
  let root : Text := s.fsRoot
  if root.isEmpty then Path.here
  else if Path.isRooted root || path.isEmpty then root
  else Path.join (Path.directory path) root

/-- The path that something was asked of a disk about. -/
def consultedPath? : Request → Option Text
  | .file (.readAll path) | .file (.writeAll path _) | .file (.look path) | .file (.remove path)
  | .file (.names path) | .file (.openFile path) => some path
  | _ => none

def runWith (horizon : Nat) (inv : Invocation) (s : Settings) (source : Text) (path : String) :
    Option Response :=
  let warning :=
    if !path.isEmpty && !isSourceFile path && logsWarnings s.logLevel then extensionWarning inv path
    else .empty
  let disk := { inv.disk with root := workRoot s path }
  let terms := (Surroundings.ofDisk disk inv.clock).terms s.limits
  ((Job.ofSource source path .initial).performAll terms horizon Job.allStages).map fun j =>
    let report :=
      if j.diagnostics.isEmpty then .empty else Report.text (inColors inv s.color) j.diagnostics
    ⟨if j.diagnostics.isEmpty then 0 else 1, j.store.output, warning ++ report,
      disk.after j.store.asked, (j.store.asked.filterMap consultedPath?).map (Path.join disk.root)⟩

/-- Runs a script; the path is empty if it comes from no file. -/
def runScript (horizon : Nat) (inv : Invocation) (source : Text) (path : String) :
    Option Response :=
  match loadSettings inv path with
  | .error message =>
    some (plainResponse inv 1 .empty (Text.ofString "Error: " ++ message ++ Text.ofString "\n"))
  | .ok s => runWith horizon inv s source path

def formatScript (inv : Invocation) (source : Text) (path : String) : Response :=
  match Parser.parse source with
  | (statements, []) => plainResponse inv 0 (Layout.linesText 0 statements) .empty
  | (_, ds) =>
    plainResponse inv 1 .empty
      (Report.text (inColors inv Settings.default.color) (ds.map (Diagnostic.inFile path)))

/-- The paths that a command looks at before any script runs. -/
def firstPaths (inv : Invocation) : List Text :=
  match inv.args with
  | "-e" :: _ => [settingsPath inv ""]
  | "-fmt" :: path :: _ => [path]
  | path :: _ => [path, settingsPath inv (if path == "-" then "" else path)]
  | [] => []

def readsInput : List String → Bool
  | "-fmt" :: path :: _ => path == "-"
  | path :: _ => path == "-"
  | [] => false

/-- What the command does. -/
def run (horizon : Nat) (inv : Invocation) : Option Response :=
  match inv.args with
  | [] => some (plainResponse inv 1 .empty usage)
  | "-version" :: _ | "--version" :: _ =>
    some (plainResponse inv 0 (Text.ofString ("petty " ++ version ++ "\n")) .empty)
  | "-h" :: _ | "-help" :: _ | "--help" :: _ => some (plainResponse inv 0 .empty usage)
  | ["-e"] => some (plainResponse inv 1 .empty "Error: -e requires an argument\n")
  | "-e" :: source :: _ => runScript horizon inv source ""
  | ["-fmt"] => some (plainResponse inv 1 .empty "Error: -fmt requires a file\n")
  | "-fmt" :: path :: _ =>
    match readSource inv path with
    | .error fault => some (unreadable inv path fault)
    | .ok source => some (formatScript inv source path)
  | path :: _ =>
    match readSource inv path with
    | .error fault => some (unreadable inv path fault)
    | .ok source => runScript horizon inv source (if path == "-" then "" else path)

end Command

end Scriptlet
