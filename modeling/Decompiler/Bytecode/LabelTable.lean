/-!
# Labels of decoded code

A branch names its target by a distance.  The label table gives each distinct target offset one
label, numbered in the order in which the targets are met, and remembers which branches go there.
-/

namespace Decompiler

/-- The number of a label. -/
abbrev LabelId := Nat

namespace Bytecode

/-- A jump target. -/
structure Label where
  offset : Nat
  /-- Offsets of the branches that go to the label, in the order in which they were met. -/
  callers : List Nat := []
deriving DecidableEq, Repr

/-- The name of a label: its offset after an `L`. -/
def Label.name (label : Label) : String :=
  "L" ++ toString label.offset

/-- Two labels are the same target when their offsets agree. -/
def Label.same (a b : Label) : Bool :=
  a.offset == b.offset

/-- The labels of one piece of code; the number of a label is its position. -/
structure LabelTable where
  labels : List Label := []
deriving DecidableEq, Repr

namespace LabelTable

/-- The label with a given number. -/
def get? (table : LabelTable) (id : LabelId) : Option Label :=
  table.labels[id]?

/-- The number of the label at an offset. -/
def at? (table : LabelTable) (offset : Nat) : Option LabelId :=
  table.labels.findIdx? (·.offset == offset)

/-- The label at an offset, made on first use. -/
def getOrCreate (table : LabelTable) (offset : Nat) : LabelId × LabelTable :=
  match table.at? offset with
  | some id => (id, table)
  | none => (table.labels.length, ⟨table.labels ++ [{ offset }]⟩)

/-- Records that the branch at `source` goes to `offset`. -/
def addCaller (table : LabelTable) (offset source : Nat) : LabelId × LabelTable :=
  let (id, table) := table.getOrCreate offset
  (id, ⟨table.labels.modify id fun label => { label with callers := label.callers ++ [source] }⟩)

end LabelTable

end Bytecode

end Decompiler
