import Decompiler.Syntax.Stmt

/-!
# Diagnostics

Messages about a unit, in the order in which they were first reported.
-/

namespace Decompiler

/-- How grave a message is. -/
inductive Severity where
  | info
  | warning
  | error
  | fatal
deriving DecidableEq, Repr

namespace Severity

/-- The name of a severity. -/
def name : Severity → String
  | .info => "info"
  | .warning => "warning"
  | .error => "error"
  | .fatal => "fatal"

/-- Every severity, the least grave first. -/
def all : List Severity := [.info, .warning, .error, .fatal]

/-- Whether a message of this severity counts as an error. -/
def isError : Severity → Bool
  | .error | .fatal => true
  | .info | .warning => false

end Severity

/-- A message, and the statement it is about. -/
structure Diagnostic where
  severity : Severity
  message : String
  stmt : Option Stmt := none
deriving Repr

/-- Whether two messages are the same. -/
def Diagnostic.same (a b : Diagnostic) : Bool :=
  a.severity == b.severity && a.message == b.message &&
    match a.stmt, b.stmt with
    | none, none => true
    | some s, some t => s.same t
    | _, _ => false

/-- The messages about one unit. -/
structure Diagnostics where
  unit : String
  entries : List Diagnostic := []
deriving Repr

namespace Diagnostics

/-- Records a message, unless the same one is there already: a rule may come by the same place in
every sweep. -/
def report (diagnostics : Diagnostics) (entry : Diagnostic) : Diagnostics :=
  if diagnostics.entries.any (·.same entry) then diagnostics
  else { diagnostics with entries := diagnostics.entries ++ [entry] }

/-- The number of messages of a severity. -/
def count (diagnostics : Diagnostics) (severity : Severity) : Nat :=
  diagnostics.entries.countP (·.severity == severity)

/-- Whether a message counts as an error. -/
def hasErrors (diagnostics : Diagnostics) : Bool :=
  diagnostics.entries.any (·.severity.isError)

end Diagnostics

end Decompiler
