/-
Calls of functions of the host with values of the language, and the members of
its things.
-/
import Scriptlet.Host.Marshal
import Scriptlet.Value.Display

namespace Scriptlet

namespace HostFunction

/-- The arguments for parameters, from the one with the number `n` on; none if
carrying one over never comes to an end. -/
def arguments (s : Store) (n : Nat) (sig : Signature) :
    List Value → Option (Except Text (List HostValue))
  | [] => some (.ok [])
  | v :: rest =>
    match (sig.params[n]?).or sig.further with
    | none => some (.error (Text.ofString ("argument " ++ toString n ++ " has no parameter")))
    | some wanted =>
      match Marshal.argument s n wanted v with
      | none => none
      | some (.error reason) => some (.error reason)
      | some (.ok h) => (arguments s (n + 1) sig rest).map (Except.map (h :: ·))

/-- The value of the language for results: null for none, the value for one,
and a list for more. -/
def results (s : Store) (hs : List HostValue) : Except Text Value × Store :=
  match hs with
  | [] => (.ok .null, s)
  | [h] => Marshal.toValue s h
  | hs => collect s #[] hs
where
  collect (s : Store) (before : Array Value) : List HostValue → Except Text Value × Store
    | [] =>
      let (v, s) := s.newList before
      (.ok v, s)
    | h :: rest =>
      match Marshal.toValue s h with
      | (.error reason, s) => (.error reason, s)
      | (.ok v, s) => collect s (before.push v) rest

/-- Calls a function with values of the language; none if carrying them over
never comes to an end. -/
def call (s : Store) (f : HostFunction) (args : List Value) :
    Option (Except Text Value × Store) :=
  let sig := f.signature
  if sig.further.isSome && args.length < sig.params.length then
    some (.error (Text.ofString ("expected at least " ++ toString sig.params.length ++
      " arguments, got " ++ toString args.length)), s)
  else
    (arguments s 0 sig args).map fun
      | .error reason => (.error reason, s)
      | .ok hs =>
        match s.askHost f hs with
        | (.error reason, s) => (.error reason, s)
        | (.ok hs, s) => results s hs

end HostFunction

/-- What a thing of the host has under a name: a method, or the value of a
field. -/
def HostPointer.member? (s : Store) (p : HostPointer) (name : String) :
    Option (Except Fault Value × Store) :=
  match s.outside.host.member p name with
  | none => none
  | some (.method f) =>
    let (v, s) := s.newHostFunction f (p.typeName ++ "." ++ name) true
    some (.ok v, s)
  | some (.field h) =>
    match Marshal.toValue s h with
    | (.ok v, s) => some (.ok v, s)
    | (.error reason, s) => some (.error (.hostField name reason), s)

end Scriptlet
