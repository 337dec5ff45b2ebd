import StreamEngine.Code

/-!
# Diagnostics

A diagnostic is what a user is shown: a severity, a message, and where known a code and a hint.
Every error type of the library is `Reported`, so that it becomes a diagnostic in one way.
-/

namespace StreamEngine

inductive Severity where
  | error
  | warning
  deriving DecidableEq, Repr

def Severity.text : Severity → String
  | .error => "error"
  | .warning => "warning"

structure Diagnostic where
  severity : Severity
  message : String
  code : Option Code := none
  hint : Option String := none
  deriving DecidableEq, Repr

namespace Diagnostic

/-- Severity, code in brackets, message, and the hint on a line of its own. -/
def text (d : Diagnostic) : String :=
  let head :=
    match d.code with
    | some c => s!"{d.severity.text}[{c.text}]: {d.message}"
    | none => s!"{d.severity.text}: {d.message}"
  match d.hint with
  | some h => s!"{head}\n  hint: {h}"
  | none => head

end Diagnostic

/-- An error type whose values carry a code and a message. -/
class Reported (ε : Type) where
  code : ε → Code
  message : ε → String

/-- The diagnostic of a reported error. -/
def diagnosticOf {ε : Type} [Reported ε] (e : ε) : Diagnostic :=
  { severity := .error, message := Reported.message e, code := some (Reported.code e) }

end StreamEngine
