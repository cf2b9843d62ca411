import OwnScript.Text.Terminated

/-!
Diagnostics: the records in which analysis, code generation, verification and execution report
failures. A diagnostic carries its kind, the place in the source, a message, the name that it is
about and, for a failure at run time, the active calls.
-/

namespace OwnScript

/-- The kinds of failure, in the order in which a program meets them: analysis, code generation,
loading and running. -/
inductive ErrorKind where
  | duplicateBinding
  | useOfUninitialized
  | conflictingBorrow
  | useAfterMove
  | undefinedName
  | breakOutsideLoop
  | limitExceeded
  | malformedBytecode
  | typeError
  | noMatchingArm
  | noMatchingOverload
  | stackOverflow
  | outOfMemory
  | undefinedGlobal
  | notCallable
  | indexOutOfRange
  | unknownField
  /-- A kind that a host hands in and that is none of the above. -/
  | unrecognized
  deriving Repr, DecidableEq

namespace ErrorKind

/-- The kinds that a program can meet, in order. -/
def all : List ErrorKind :=
  [.duplicateBinding, .useOfUninitialized, .conflictingBorrow, .useAfterMove, .undefinedName,
    .breakOutsideLoop, .limitExceeded, .malformedBytecode, .typeError, .noMatchingArm,
    .noMatchingOverload, .stackOverflow, .outOfMemory, .undefinedGlobal, .notCallable,
    .indexOutOfRange, .unknownField]

/-- The name under which a kind is reported. -/
def name : ErrorKind → String
  | .duplicateBinding => "DuplicateBinding"
  | .useOfUninitialized => "UseOfUninitialized"
  | .conflictingBorrow => "ConflictingBorrow"
  | .useAfterMove => "UseAfterMove"
  | .undefinedName => "UndefinedName"
  | .breakOutsideLoop => "BreakOutsideLoop"
  | .limitExceeded => "LimitExceeded"
  | .malformedBytecode => "MalformedBytecode"
  | .typeError => "TypeError"
  | .noMatchingArm => "NoMatchingArm"
  | .noMatchingOverload => "NoMatchingOverload"
  | .stackOverflow => "StackOverflow"
  | .outOfMemory => "OutOfMemory"
  | .undefinedGlobal => "UndefinedGlobal"
  | .notCallable => "NotCallable"
  | .indexOutOfRange => "IndexOutOfRange"
  | .unknownField => "UnknownField"
  | .unrecognized => "Unknown"

end ErrorKind

/-- A place in the source. Lines count from one, so line zero means that the place is unknown. -/
structure Location where
  line : Nat := 0
  column : Nat := 0
  deriving Repr, DecidableEq, Inhabited

/-- Whether a place is known. -/
def Location.known (location : Location) : Bool :=
  location.line != 0

/-- One active call at the time of a failure. -/
structure Diagnostic.Frame where
  function : String
  offset : Nat
  location : Location
  deriving Repr, DecidableEq

/-- A failure. -/
structure Diagnostic where
  kind : ErrorKind
  location : Location := {}
  message : String
  context : String := ""
  /-- The active calls, innermost first. -/
  frames : List Diagnostic.Frame := []
  deriving Repr, DecidableEq

namespace Diagnostic

/-- A diagnostic that so far knows its kind and message only. -/
def plain (kind : ErrorKind) (message : String) : Diagnostic :=
  { kind, message }

/-- A diagnostic about a name. -/
def about (kind : ErrorKind) (context message : String) : Diagnostic :=
  { kind, message, context }

/-- The diagnostic in one line: kind, place if known, message. -/
def summary (diagnostic : Diagnostic) : String :=
  let place := if diagnostic.location.known then
      s!" at {diagnostic.location.line}:{diagnostic.location.column}"
    else ""
  s!"{diagnostic.kind.name}{place}: {diagnostic.message}"

/-- The line that a diagnostic shows when it stops a program. A NUL in it ends the line. -/
def headline (diagnostic : Diagnostic) : String :=
  Text.untilNul diagnostic.summary

/-- The line that several diagnostics show together: the first, and how many follow it. A NUL in
it ends the line. -/
def heading : List Diagnostic → String
  | [] => "analysis failed"
  | [diagnostic] => diagnostic.headline
  | diagnostic :: rest => Text.untilNul s!"{diagnostic.summary} (and {rest.length} more)"

/-- How many diagnostics have the kind. -/
def count (kind : ErrorKind) (diagnostics : List Diagnostic) : Nat :=
  diagnostics.countP (fun diagnostic => diagnostic.kind == kind)

end Diagnostic

end OwnScript
