import AttackDefense.Decimal.Numeral
import AttackDefense.Text.Structured

/-!
# What can go wrong with a checker

A file that cannot be used, a report without the answer to a query, or a number in it that is none.
-/

namespace AttackDefense

open Text

/-- Why a file cannot be read, written or run. -/
inductive FileFault where
  | notFound
  | permissionDenied
  | notADirectory
  | isADirectory
  | nameTooLong
  /-- The path holds a character of code zero, so no system is asked. -/
  | nulInPath
deriving DecidableEq, Repr

namespace FileFault

/-- The number that the system gives to the fault, if the fault comes from the system. -/
def code? : FileFault → Option Nat
  | .notFound => some 2
  | .permissionDenied => some 13
  | .notADirectory => some 20
  | .isADirectory => some 21
  | .nameTooLong => some 36
  | .nulInPath => none

def kind : FileFault → String
  | .notFound => "NotFound"
  | .permissionDenied => "PermissionDenied"
  | .notADirectory => "NotADirectory"
  | .isADirectory => "IsADirectory"
  | .nameTooLong => "InvalidFilename"
  | .nulInPath => "InvalidInput"

def reason : FileFault → String
  | .notFound => "No such file or directory"
  | .permissionDenied => "Permission denied"
  | .notADirectory => "Not a directory"
  | .isADirectory => "Is a directory"
  | .nameTooLong => "File name too long"
  | .nulInPath => "file name contained an unexpected NUL byte"

/-- The reason, and the number of the system if there is one. -/
def message (f : FileFault) : String :=
  match f.code? with
  | some code => f.reason ++ " (os error " ++ toString code ++ ")"
  | none => f.reason

def structured (f : FileFault) : String :=
  match f.code? with
  | some code =>
    withFields "Os" [("code", toString code), ("kind", f.kind), ("message", quoted f.reason)]
  | none => withFields "Error" [("kind", f.kind), ("message", quoted f.reason)]

end FileFault

namespace Checker

inductive Fault where
  /-- The model could not be written, or the checker could not be run. -/
  | file (cause : FileFault) (text : String)
  /-- The report says nothing about a formula. -/
  | missingOutput (formula : Nat)
  /-- The report on a formula lacks what was asked for. -/
  | missingResult (formula : Nat) (expected : String)
  | number (cause : Decimal.NumeralFault)
deriving DecidableEq, Repr

namespace Fault

/-- A file fault in its own words. -/
def ofFile (cause : FileFault) : Fault := .file cause cause.message

def message : Fault → String
  | .file _ text => text
  | .missingOutput formula => "no output for formula " ++ toString formula
  | .missingResult formula expected =>
    "formula " ++ toString formula ++ " does not report " ++ expected
  | .number cause => cause.message

/-- The wording of the cause below, if there is one. -/
def source : Fault → Option String
  | .file _ text => some text
  | .number cause => some cause.message
  | .missingOutput _ | .missingResult .. => none

/-- The kind of input or output error that it counts as. -/
def kind : Fault → String
  | .file cause _ => cause.kind
  | _ => "InvalidData"

/-- The value itself; numerals are told by their kind. -/
def structured : Fault → String
  | .file cause _ => cause.structured
  | .missingOutput formula => withPart "MissingOutput" (toString formula)
  | .missingResult formula expected =>
    withFields "MissingResult" [("formula", toString formula), ("expected", quoted expected)]
  | .number cause =>
    withPart "ParseError" (withFields "ParseFloatError"
      [("kind", match cause with | .empty => "Empty" | .malformed => "Invalid")])

end Fault

end Checker

end AttackDefense
