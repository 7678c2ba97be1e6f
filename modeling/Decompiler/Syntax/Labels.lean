import Decompiler.Bytecode.LabelTable

/-!
# Label names

The names of all labels of a unit: those of the decoded code, then those that the passes mint.  A
label keeps its number and its name for good; new names are numbered apart for each stem.
-/

namespace Decompiler

open Bytecode

/-- The names of the labels of a unit. -/
structure Labels where
  names : List String := []
  /-- How many names each stem has been given. -/
  counters : List (String × Nat) := []
deriving Repr

namespace Labels

/-- The labels of decoded code. -/
def ofTable (table : LabelTable) : Labels :=
  { names := table.labels.map Label.name }

/-- The number the next name of a stem gets. -/
def counter (labels : Labels) (stem : String) : Nat :=
  (labels.counters.lookup stem).getD 0

/-- Takes the next number of a stem. -/
def nextIndex (labels : Labels) (stem : String) : Nat × Labels :=
  let n := labels.counter stem
  (n, { labels with counters := (stem, n + 1) :: labels.counters.filter (·.1 != stem) })

/-- A new label with the given name. -/
def named (labels : Labels) (name : String) : LabelId × Labels :=
  (labels.names.length, { labels with names := labels.names ++ [name] })

/-- A new label named after a stem and its next number. -/
def fresh (labels : Labels) (stem : String) : LabelId × Labels :=
  let (n, labels) := labels.nextIndex stem
  labels.named (stem ++ "_" ++ toString n)

/-- The name of a label; a number that was never handed out has none. -/
def name (labels : Labels) (id : LabelId) : String :=
  (labels.names[id]?).getD "<unknown>"

end Labels

end Decompiler
