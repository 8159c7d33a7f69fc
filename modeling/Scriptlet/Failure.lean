/-
Failures of a running script: their causes, and the report of one with the
place where it arose and the calls that were going on.
-/
import Scriptlet.Token.Basic

namespace Scriptlet

/-- The classes of causes. -/
inductive FaultKind where
  | unresolvedName | arityMismatch | capabilityMismatch | numericDomain | controlFlow
  | assertionFailed | runtime
deriving DecidableEq, Repr

/-- What a class of causes is called. -/
def FaultKind.label : FaultKind → String
  | .unresolvedName => "UnresolvedName"
  | .arityMismatch => "ArityMismatch"
  | .capabilityMismatch => "CapabilityMismatch"
  | .numericDomain => "NumericDomain"
  | .controlFlow => "ControlFlow"
  | .assertionFailed => "AssertionFailed"
  | .runtime => "Runtime"

/-- How long a string or list made by repetition may be. -/
def maxSequenceLength : Nat := 67108864

/-- The causes of failures.  Types are given by their names. -/
inductive Fault where
  | undefinedName (name : String)
  | noAttribute (type name : String)
  | arity (callee : String) (expected given : Nat)
  | rangeArity (given : Nat)
  | noReceiver (method : String)
  | wrongReceiver (method type : String)
  | notCallable (type : String)
  | operands (symbol left right : String)
  | unaryOperand (symbol type : String)
  | hookResult (hook type got expected : String)
  | wrongType (what expected got : String)
  | divisionByZero (what : String)
  | absOverflow (n : Int)
  | sumOverflow (first last : Int)
  | repetition (size times : Int)
  | strayBreak (callee : Option String)
  | strayContinue (callee : Option String)
  | assertion
  | assertionEqual (left right : Text)
  | assertionDifferent (left right : Text)
  | textIndex (index : Int) (length : Nat)
  | listIndex (index : Int)
  | listStore (index : Int)
  | emptyUnwrap
  | tooDeep
  | stepLimit (limit : Nat)
  | cancelled (reason : Text)
  | outside (action : Text) (reason : Text)
  | closedFile (path : Text)
  | hostCall (callee : String) (reason : Text)
  | hostField (name : String) (reason : Text)
deriving DecidableEq

namespace Fault

/-- The class that a cause belongs to. -/
def kind : Fault → FaultKind
  | .undefinedName _ | .noAttribute _ _ => .unresolvedName
  | .arity _ _ _ | .rangeArity _ | .noReceiver _ => .arityMismatch
  | .wrongReceiver _ _ | .notCallable _ | .operands _ _ _ | .unaryOperand _ _
  | .hookResult _ _ _ _ | .wrongType _ _ _ | .hostField _ _ => .capabilityMismatch
  | .divisionByZero _ | .absOverflow _ | .sumOverflow _ _ | .repetition _ _ => .numericDomain
  | .strayBreak _ | .strayContinue _ => .controlFlow
  | .assertion | .assertionEqual _ _ | .assertionDifferent _ _ => .assertionFailed
  | _ => .runtime

def outsideLoop (callee : Option String) : String :=
  match callee with
  | none => "outside loop"
  | some name => "outside loop in " ++ name ++ "()"

/-- The wording of a cause. -/
def message : Fault → Text
  | .undefinedName name => Text.ofString ("name '" ++ name ++ "' is not defined")
  | .noAttribute type name =>
    Text.ofString ("'" ++ type ++ "' object has no attribute '" ++ name ++ "'")
  | .arity callee expected given =>
    Text.ofString (callee ++ "() takes " ++ toString expected ++ " argument(s) but " ++
      toString given ++ " were given")
  | .rangeArity given =>
    Text.ofString ("range() takes 1 or 2 arguments but " ++ toString given ++ " were given")
  | .noReceiver method => Text.ofString (method ++ "() called without a receiver")
  | .wrongReceiver method type => Text.ofString (method ++ "() called on '" ++ type ++ "'")
  | .notCallable type => Text.ofString ("'" ++ type ++ "' object is not callable")
  | .operands symbol left right =>
    Text.ofString ("unsupported operand type(s) for " ++ symbol ++ ": '" ++ left ++ "' and '" ++
      right ++ "'")
  | .unaryOperand symbol type =>
    Text.ofString ("bad operand type for unary " ++ symbol ++ ": '" ++ type ++ "'")
  | .hookResult hook type got expected =>
    Text.ofString (hook ++ " of '" ++ type ++ "' returned '" ++ got ++ "', expected " ++ expected)
  | .wrongType what expected got =>
    Text.ofString (what ++ " must be " ++ expected ++ ", got '" ++ got ++ "'")
  | .divisionByZero what => Text.ofString (what ++ " by zero")
  | .absOverflow n => Text.ofString ("abs(" ++ toString n ++ ") overflows Int")
  | .sumOverflow first last =>
    Text.ofString ("sum of range(" ++ toString first ++ ", " ++ toString last ++ ") overflows Int")
  | .repetition size times =>
    Text.ofString ("repetition of " ++ toString size ++ " elements " ++ toString times ++
      " times exceeds the maximum length " ++ toString maxSequenceLength)
  | .strayBreak callee => Text.ofString ("'break' " ++ outsideLoop callee)
  | .strayContinue callee => Text.ofString ("'continue' " ++ outsideLoop callee)
  | .assertion => "assertion failed"
  | .assertionEqual left right =>
    Text.ofString "assertion failed: " ++ left ++ Text.ofString " != " ++ right
  | .assertionDifferent left right =>
    Text.ofString "assertion failed: " ++ left ++ Text.ofString " == " ++ right
  | .textIndex index length =>
    Text.ofString ("string index " ++ toString index ++ " out of range for length " ++
      toString length)
  | .listIndex index => Text.ofString ("list index " ++ toString index ++ " out of range")
  | .listStore index =>
    Text.ofString ("list assignment index " ++ toString index ++ " out of range")
  | .emptyUnwrap => "called unwrap() on None"
  | .tooDeep => "maximum recursion depth exceeded"
  | .stepLimit limit => Text.ofString ("step limit of " ++ toString limit ++ " exceeded")
  | .cancelled reason => Text.ofString "execution cancelled: " ++ reason
  | .outside action reason => action ++ Text.ofString ": " ++ reason
  | .closedFile path => path ++ Text.ofString ": file already closed"
  | .hostCall callee reason => Text.ofString (callee ++ ": ") ++ reason
  | .hostField name reason => Text.ofString ("field " ++ name ++ ": ") ++ reason

end Fault

/-- A call that is going on: what was called, and from where. -/
structure CallSite where
  callee : String
  file : String
  position : Position
deriving DecidableEq

/-- The report of a failure.  The first place and the first calls it is given
stay.  A report that a thread left behind says which thread that was. -/
structure Failure where
  fault : Fault
  position : Position
  trace : List CallSite
  thread : Option Nat
deriving DecidableEq

namespace Failure

def ofFault (fault : Fault) : Failure := ⟨fault, .nowhere, [], none⟩

/-- Gives a place to a report that has none. -/
def locate (f : Failure) (p : Position) : Failure :=
  if f.position.isKnown then f else { f with position := p }

/-- Gives the calls going on, the latest first, to a report that has none. -/
def withTrace (f : Failure) (calls : List CallSite) : Failure :=
  if f.trace.isEmpty then { f with trace := calls } else f

/-- The class of the cause. -/
def kind (f : Failure) : FaultKind := f.fault.kind

/-- The wording of the cause. -/
def message (f : Failure) : Text := f.fault.message

/-- The place and the wording, without the calls. -/
def text (f : Failure) : Text :=
  if f.position.isKnown then
    Text.ofString (toString f.position.line ++ ":" ++ toString f.position.column ++ ": ") ++
      f.message
  else f.message

/-- A file name without what follows its last dot, unless that comes first. -/
def stem (file : String) : String :=
  let cs := file.toList
  match (cs.reverse.dropWhile (· != '.')) with
  | _ :: first :: rest => String.ofList (first :: rest).reverse
  | _ => file

/-- The calls of a trace, the latest first, each with the one it was made
from. -/
def traceLines : List CallSite → List String
  | [] => []
  | site :: rest =>
    let caller :=
      match rest with
      | outer :: _ => outer.callee
      | [] => stem site.file
    ("\n  at " ++ caller ++ ":" ++ toString site.position.line ++ " (called " ++ site.callee ++
      ")") :: traceLines rest

/-- The whole report as the interpreter shows it. -/
def display (f : Failure) : Text :=
  let head :=
    if f.position.isKnown then
      Text.ofString ("ERROR at " ++ toString f.position.line ++ ":" ++
        toString f.position.column ++ ": ") ++ f.message
    else Text.ofString "ERROR: " ++ f.message
  if f.trace.isEmpty then head
  else head ++ Text.ofString ("\nStack trace:" ++ String.join (traceLines f.trace))

/-- The calls of a trace, the latest first, each with the file it was made in. -/
def siteLines (file : String) : List CallSite → List String
  | [] => []
  | site :: rest =>
    ("\n  at " ++ (if site.file.isEmpty then file else site.file) ++ ":" ++
      toString site.position.line ++ " (called " ++ site.callee ++ ")") :: siteLines file rest

def diagnosis (f : Failure) (file : String) : Text :=
  let head := Text.ofString (f.kind.label ++ ": ") ++ f.message
  if f.trace.isEmpty then head
  else head ++ Text.ofString ("\nStack trace:" ++ String.join (siteLines file f.trace))

end Failure

end Scriptlet
