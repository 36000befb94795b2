import CommonLut.Error

/-!
# Failure reports

A command that fails reports what it was doing, and below it the chain of causes: a single one
without a number, several ones numbered from zero. Each line of a cause is indented under its
first.

Main definitions: `Failure`, `Failure.report`.
-/

namespace CommonLut.Command

/-- What failed, and why, outermost cause first. -/
structure Failure where
  summary : String
  causes : List String := []
deriving DecidableEq, Repr

namespace Failure

/-- A text with `first` before its first line and `rest` before the others. -/
def indent (first rest text : String) : String :=
  first ++ ("\n" ++ rest).intercalate ((text.toList.splitOnP (· == '\n')).map String.ofList)

/-- The causes as the report lists them. -/
def causeLines : List String → List String
  | [] => []
  | [cause] => [indent "    " "    " cause]
  | causes => causes.mapIdx fun i cause => indent ("    " ++ Text.decimal i ++ ": ") "       " cause

/-- The whole report. -/
def report (f : Failure) : String :=
  let causes :=
    if f.causes.isEmpty then ""
    else "\n\nCaused by:\n" ++ "\n".intercalate (causeLines f.causes)
  "Error: " ++ f.summary ++ causes ++ "\n"

/-- The causes in an error: a fault of a file is a cause of its own. -/
def causesOf (e : Error) : List String :=
  match e with
  | .file fault => [e.message, fault.message]
  | e => [e.message]

end Failure

end CommonLut.Command
