import Decompiler.Graph.Dominators
import Decompiler.Syntax.Stmt

/-!
# Flow graphs

The flow of control between the items of a statement list.  Every item is one node; two more nodes
stand for the entry of the list and for the end of the unit.
-/

namespace Decompiler

/-- A node of a flow graph. -/
inductive FlowNode where
  | entry
  | exit
  /-- The item at a position of the list. -/
  | item (position : Nat)
deriving DecidableEq, Repr

namespace FlowNode

/-- The number of a node: the entry and the exit come first. -/
def index : FlowNode → Nat
  | .entry => 0
  | .exit => 1
  | .item position => position + 2

/-- The node with a given number. -/
def ofIndex : Nat → FlowNode
  | 0 => .entry
  | 1 => .exit
  | n + 2 => .item n

/-- The position of an item. -/
def item? : FlowNode → Option Nat
  | .item position => some position
  | _ => none

end FlowNode

/-- The flow graph of a statement list. -/
structure FlowGraph where
  graph : Digraph
  /-- The item that each label is in, the later labels first. -/
  owners : List (LabelId × Nat)
  /-- The item at which control enters. -/
  start : Option Nat
  /-- The number of items. -/
  length : Nat

namespace FlowGraph

/-- The label at the head of an item. -/
def headLabel? : Stmt → Option LabelId
  | .basic block => block.entryLabel?
  | .label id => some id
  | _ => none

/-- Whether the unit ends with the item. -/
def endsUnit : Stmt → Bool
  | .basic block =>
    match block.body.getLast? with
    | some (.ret _) | some .exit => true
    | _ => false
  | .ret _ | .exit => true
  | _ => false

/-- The item that each label is in, the later labels first. -/
def ownersOf (items : List Stmt) : List (LabelId × Nat) :=
  (items.zipIdx.flatMap fun (item, i) => item.labels.map (·, i)).reverse

/-- The items that item `i` goes to.  A jump inside the item counts only when it goes back to its
head. -/
def targetItems (owners : List (LabelId × Nat)) (item : Stmt) (i : Nat) : List Nat :=
  item.targets.filterMap fun target => do
    let j ← owners.lookup target
    if j ≠ i ∨ headLabel? item = some target then some j else none

/-- The edges out of item `i`. -/
def edgesOf (owners : List (LabelId × Nat)) (item : Stmt) (i : Nat) : List (Nat × Nat) :=
  let source := (FlowNode.item i).index
  let jumps := (targetItems owners item i).eraseDups.map fun j => (source, (FlowNode.item j).index)
  if endsUnit item then jumps ++ [(source, FlowNode.exit.index)] else jumps

/-- The flow graph of a list that is entered at a label, or at its first item. -/
def build (items : List Stmt) (entry : Option LabelId) : FlowGraph :=
  let owners := ownersOf items
  let named := entry.bind fun label => owners.lookup label
  let start := named <|> (if items.isEmpty then none else some 0)
  let first := start.toList.map fun i => (FlowNode.entry.index, (FlowNode.item i).index)
  let rest := items.zipIdx.flatMap fun (item, i) => edgesOf owners item i
  { graph := { size := items.length + 2, edges := first ++ rest }
    owners, start, length := items.length }

/-- The item that a label is in. -/
def itemOf? (flow : FlowGraph) (label : LabelId) : Option Nat :=
  flow.owners.lookup label

/-- The node of the item that a label is in. -/
def nodeOf? (flow : FlowGraph) (label : LabelId) : Option Nat :=
  (flow.itemOf? label).map fun i => (FlowNode.item i).index

/-- The node at which control enters; an empty list ends at once. -/
def first (flow : FlowGraph) : FlowNode :=
  match flow.start with
  | some i => .item i
  | none => .exit

end FlowGraph

end Decompiler
