import Decompiler.Context
import Decompiler.Error
import Decompiler.Flow.FlowGraph

/-!
# Recovering structure from a list

Loops and conditions are recovered by moving the items of a list into the bodies of new statements.
A `Layout` is what stays fixed meanwhile, the flow graph and its dominators; a `Recovery` is a step
that takes items out of their slots, mints labels and reports messages.  A region is the set of
items that a step may still claim.
-/

namespace Decompiler

/-- The fixed part: the flow graph of the list and its dominator tree. -/
structure Layout where
  flow : FlowGraph
  tree : DominatorTree

/-- The layout of a list that is entered at a label. -/
def Layout.ofBlock (block : Block) : Layout :=
  let flow := FlowGraph.build block.body block.entry
  { flow, tree := DominatorTree.compute flow.graph FlowNode.entry.index }

/-- The items of the list, each in its slot until it is placed, and the names and messages of the
unit. -/
structure RecoveryState where
  slots : Array (Option Stmt)
  context : Context

/-- A step of the recovery.  A step that fails keeps the names and messages up to there. -/
abbrev Recovery := ExceptT Error (StateM RecoveryState)

/-- The items that a step may still claim, by position. -/
abbrev Region := NodeSet

namespace Recovery

/-- Fails with a broken condition. -/
def broken {α : Type} (fault : InvariantFault) : Recovery α :=
  throw (.invariant fault)

/-- The item in a slot, if it has not been placed. -/
def slot? (item : Nat) : Recovery (Option Stmt) := do
  return ((← get).slots[item]?).join

/-- The basic block in a slot. -/
def basicBlock? (item : Nat) : Recovery (Option BasicBlock) := do
  match ← slot? item with
  | some (.basic block) => return some block
  | _ => return none

/-- Puts a statement into a slot. -/
def setSlot (item : Nat) (s : Stmt) : Recovery Unit :=
  modify fun state => { state with slots := state.slots.setIfInBounds item (some s) }

/-- Takes an item out of its slot.  Each item is placed once. -/
def take (item : Nat) : Recovery Stmt := do
  match ← slot? item with
  | some s =>
    modify fun state => { state with slots := state.slots.setIfInBounds item none }
    return s
  | none => broken (.placedTwice item)

/-- A new label named after a stem. -/
def fresh (stem : String) : Recovery LabelId :=
  modifyGet fun state =>
    let (id, context) := state.context.fresh stem
    (id, { state with context })

/-- Reports an error about a statement. -/
def reportError (message : String) (s : Stmt) : Recovery Unit :=
  modify fun state => { state with context := state.context.report .error message (some s) }

/-- Takes one item out of a region. -/
def remove (region : Region) (item : Nat) : Recovery Region :=
  if region.mem item then return region.erase item
  else broken (.notInRegion item)

/-- Takes all items of `items` out of a region. -/
def claimAll (region items : Region) : Recovery Region :=
  items.toList.foldlM remove region

/-- Places what is left of a region, in list order. -/
def drain (region : Region) : Recovery (List (Nat × Stmt)) :=
  region.toList.mapM fun item => do return (item, ← take item)

/-- Runs a recovery on the items of a list. -/
def run {α : Type} (items : List Stmt) (context : Context) (recovery : Recovery α) :
    Except Error α × Context :=
  let (result, state) := StateT.run (ExceptT.run recovery)
    { slots := (items.map some).toArray, context }
  (result, state.context)

end Recovery

namespace Layout

/-- The region of all items. -/
def fullRegion (layout : Layout) : Region :=
  NodeSet.ofList (List.range layout.flow.length)

/-- Whether a node is an item of the region that `head` dominates. -/
def isInside (layout : Layout) (region : Region) (head node : Nat) : Bool :=
  match FlowNode.ofIndex node with
  | .item item => region.mem item && layout.tree.dominates head node
  | _ => false

/-- The items of a set of nodes. -/
def itemsOf (nodes : NodeSet) : Region :=
  NodeSet.ofList (nodes.toList.filterMap fun node => (FlowNode.ofIndex node).item?)

/-- The items of a region that `head` reaches without leaving what it dominates. -/
def dominated (layout : Layout) (region : Region) (head : Nat) : Region :=
  let inside := layout.isInside region head
  let edges := layout.flow.graph.filterEdges fun edge => inside edge.1 && inside edge.2
  if inside head then itemsOf (edges.closure (NodeSet.empty.insert head)) else .empty

/-- The loop of `head`: the items of a region that reach one of its back edges while `head`
dominates them, and `head` itself. -/
def loopContent (layout : Layout) (region : Region) (head : Nat) : Region :=
  let inside := layout.isInside region head
  let edges := layout.flow.graph.reverse.filterEdges fun edge => inside edge.1 && inside edge.2
  let sources := (layout.flow.graph.predecessors head).filter inside
  let content := itemsOf (edges.closure (NodeSet.ofList sources))
  match FlowNode.ofIndex head with
  | .item item => if region.mem item then content.insert item else content
  | _ => content

/-- The number of edges into a node from places that it does not dominate. -/
def enteringEdges (layout : Layout) (node : Nat) : Nat :=
  (layout.flow.graph.predecessors node).countP fun p => !layout.tree.dominates node p

end Layout

end Decompiler
