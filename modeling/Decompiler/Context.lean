import Decompiler.Diagnostic
import Decompiler.Syntax.Labels

/-!
# What the passes share

The label names and the messages of a unit.  A pass that fails still hands back the names it minted
and the messages it reported.
-/

namespace Decompiler

/-- The label names and the messages of a unit. -/
structure Context where
  labels : Labels := {}
  diagnostics : Diagnostics

namespace Context

/-- A new label named after a stem. -/
def fresh (context : Context) (stem : String) : LabelId × Context :=
  let (id, labels) := context.labels.fresh stem
  (id, { context with labels })

/-- Records a message. -/
def report (context : Context) (severity : Severity) (message : String) (stmt : Option Stmt) :
    Context :=
  { context with diagnostics := context.diagnostics.report { severity, message, stmt } }

end Context

end Decompiler
