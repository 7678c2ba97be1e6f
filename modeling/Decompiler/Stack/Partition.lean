import Decompiler.Error
import Decompiler.Syntax.Labels

/-!
# Basic blocks

`partition` splits a flat list of statements into basic blocks.  A block starts at each label and
ends after each transfer of control.  Where control would run on into the next block, a jump to that
block is written out, and where it would run off the end, an `exit`.  `checkedPartition` also looks at
the shape of each block, as a unit does.
-/

namespace Decompiler

namespace Partition

/-- The stem of the labels minted for blocks that nothing names. -/
def stem : String := "Block"

/-- A block of a label alone. -/
def start (label : LabelId) : List Stmt :=
  [.label label]

/-- The block that is open, or a new one under a new label. -/
def openBlock (labels : Labels) (current : Option (List Stmt)) : List Stmt × Labels :=
  match current with
  | some body => (body, labels)
  | none =>
    let (label, labels) := labels.fresh stem
    (start label, labels)

/-- The label in front of which the statements start, if they start with one. -/
def leadingLabel? : List Stmt → Option LabelId
  | .label id :: _ => some id
  | _ => none

/-- Splits the statements, with `current` the block that is still open. -/
def blocks (labels : Labels) (current : Option (List Stmt)) :
    List Stmt → List (List Stmt) × Labels
  | [] => ((current.map (· ++ [.exit])).toList, labels)
  | .label id :: rest =>
    let (later, labels) := blocks labels (some (start id)) rest
    ((current.map (· ++ [.goto id])).toList ++ later, labels)
  | s :: rest =>
    let (body, labels) := openBlock labels current
    let body := body ++ [s]
    if s.isUnconditional then
      let (later, labels) := blocks labels none rest
      (body :: later, labels)
    else if s.isConditional then
      match leadingLabel? rest with
      | some next =>
        let (later, labels) := blocks labels none rest
        ((body ++ [.goto next]) :: later, labels)
      | none =>
        let (next, labels) := labels.fresh stem
        let (later, labels) := blocks labels (some (start next)) rest
        ((body ++ [.goto next]) :: later, labels)
    else blocks labels (some body) rest

end Partition

/-- Splits statements into basic blocks.  No statements at all make one block that exits. -/
def partition (labels : Labels) (stmts : List Stmt) : List BasicBlock × Labels :=
  match Partition.blocks labels none stmts with
  | ([], labels) =>
    let (label, labels) := labels.fresh Partition.stem
    ([{ body := Partition.start label ++ [.exit] }], labels)
  | (bodies, labels) => (bodies.map fun body => { body }, labels)

/-- Splits statements into basic blocks, and refuses a block of the wrong shape. -/
def checkedPartition (labels : Labels) (stmts : List Stmt) :
    Except Error (List BasicBlock) × Labels :=
  let (blocks, labels) := partition labels stmts
  (do blocks.forM BasicBlockOf.check; return blocks, labels)

end Decompiler
