import Decompiler.Graph.Digraph
import Decompiler.Order

/-!
# Dominators

A node dominates another when every path from the root to the other one passes through it.  The
dominators of a node form a chain, and the last one before the node itself is its immediate dominator.

The immediate dominators are found by sweeps over the nodes in reverse postorder.  A node is known by
its place in that order.  A sweep puts above each place the lowest place that the chains of its
predecessors have in common, as far as they are known, until a sweep changes nothing.
-/

namespace Decompiler

namespace Dominators

/-- For each place the place above it, as far as it is known; the first place is above itself. -/
abbrev Uppers := Array (Option Nat)

/-- The place above a place. -/
def above (up : Uppers) (i : Nat) : Option Nat :=
  (up[i]?).join

/-- Walks up from two places, always from the later one, until the walks meet.  There is no result
when a walk comes to a place above which nothing is known, or takes more than `fuel` steps. -/
def meet (up : Uppers) : Nat → Nat → Nat → Option Nat
  | 0, a, b => if a = b then some a else none
  | fuel + 1, a, b =>
    if a = b then some a
    else if b < a then (above up a).bind fun a' => meet up fuel a' b
    else (above up b).bind fun b' => meet up fuel a b'

/-- Takes one more predecessor into account.  The walks go to earlier places with every step. -/
def join (up : Uppers) (known : Option Nat) (p : Nat) : Option (Option Nat) :=
  if (above up p).isNone then some known
  else
    match known with
    | none => some (some p)
    | some q => (meet up (p + q) p q).map some

/-- Puts above a place what its predecessors have in common. -/
def update (places : Digraph) (up : Uppers) (i : Nat) : Option Uppers :=
  ((places.predecessors i).foldlM (join up) none).map fun
    | some d => up.setIfInBounds i (some d)
    | none => up

/-- Updates all places but the first one, in their order. -/
def sweep (places : Digraph) (up : Uppers) : Option Uppers :=
  (List.range places.size).tail.foldlM (update places) up

/-- Sweeps until nothing changes.  There is no result when that takes more than `rounds` sweeps. -/
def settle (places : Digraph) : Nat → Uppers → Option Uppers
  | 0, _ => none
  | rounds + 1, up =>
    (sweep places up).bind fun next => if next = up then some up else settle places rounds next

/-- What is known before the first sweep. -/
def initial (places : Digraph) : Uppers :=
  (Array.replicate places.size none).setIfInBounds 0 (some 0)

/-- The places of the immediate dominators.  One sweep more than there are places is enough. -/
def uppers? (places : Digraph) : Option Uppers :=
  settle places (places.size + 1) (initial places)

end Dominators

/-- The immediate dominators of a graph. -/
structure Dominators where
  graph : Digraph
  root : Nat
  /-- The nodes that the root reaches, in reverse postorder. -/
  order : List Nat
  /-- The place above each place of the order. -/
  uppers : Dominators.Uppers

namespace Dominators

/-- The immediate dominators of a graph whose nodes are visited in a given order. -/
def ofOrder (g : Digraph) (root : Nat) (order : List Nat) : Dominators :=
  { graph := g, root, order, uppers := (uppers? (g.renumber order)).getD #[] }

/-- The immediate dominator of a node. -/
def parent? (d : Dominators) (n : Nat) : Option Nat := do
  let i ← d.order.idxOf? n
  guard (i ≠ 0)
  d.order[← above d.uppers i]?

end Dominators

/-- The dominator tree, with the immediate dominators written down. -/
structure DominatorTree where
  dominators : Dominators
  parents : Array (Option Nat)

namespace DominatorTree

/-- The dominator tree of a graph whose nodes are visited in a given order. -/
def ofOrder (g : Digraph) (root : Nat) (order : List Nat) : DominatorTree :=
  let dominators := Dominators.ofOrder g root order
  { dominators, parents := ((List.range g.size).map dominators.parent?).toArray }

/-- The dominator tree of a graph. -/
def compute (g : Digraph) (root : Nat) : DominatorTree :=
  ofOrder g root (g.reversePostorder root)

/-- The graph of the tree. -/
def graph (tree : DominatorTree) : Digraph :=
  tree.dominators.graph

/-- The immediate dominator of a node. -/
def idom? (tree : DominatorTree) (n : Nat) : Option Nat :=
  (tree.parents[n]?).join

/-- Whether a walk up the tree from `b` comes to `a` in at most `fuel` steps. -/
def climbs (tree : DominatorTree) : Nat → Nat → Nat → Bool
  | 0, a, b => b == a
  | fuel + 1, a, b => b == a || (tree.idom? b).any (tree.climbs fuel a)

/-- Whether `a` dominates `b`.  A node that the root does not reach is dominated by itself alone. -/
def dominates (tree : DominatorTree) (a b : Nat) : Bool :=
  tree.climbs tree.dominators.order.length a b

/-- The nodes that a node dominates immediately, in ascending order. -/
def children (tree : DominatorTree) (n : Nat) : List Nat :=
  ascending (tree.dominators.order.filter fun child => tree.idom? child == some n)

/-- Whether a walk up the tree from `runner` passes `x` before it comes to `stop`. -/
def runsPast (tree : DominatorTree) (stop : Nat) : Nat → Nat → Nat → Bool
  | 0, _, _ => false
  | fuel + 1, runner, x =>
    runner != stop && (runner == x || (tree.idom? runner).any fun up => tree.runsPast stop fuel up x)

/-- Whether the node `n` is in the frontier of `x`: the root reaches `n`, control may come to it by
two edges or more, and the walk up the tree from one of the sources passes `x` before it comes to the
immediate dominator of `n`. -/
def inFrontier (tree : DominatorTree) (n x : Nat) : Bool :=
  let order := tree.dominators.order
  let sources := (tree.graph.predecessors n).filter order.contains
  let stop := (tree.idom? n).getD tree.dominators.root
  order.contains n && 2 ≤ sources.length &&
    sources.any fun p => tree.runsPast stop order.length p x

/-- The frontier of a node in ascending order. -/
def frontier (tree : DominatorTree) (x : Nat) : List Nat :=
  (List.range tree.graph.size).filter (tree.inFrontier · x)

/-- The tree below the nodes of a queue, level by level.  Each node is met once, so that `fuel` as
large as the number of nodes is enough. -/
def breadthFirstFrom (tree : DominatorTree) : Nat → List Nat → List Nat
  | 0, _ => []
  | _, [] => []
  | fuel + 1, n :: queue => n :: tree.breadthFirstFrom fuel (queue ++ tree.children n)

/-- A node and what is below it in the tree, level by level. -/
def breadthFirst (tree : DominatorTree) (n : Nat) : List Nat :=
  tree.breadthFirstFrom tree.graph.size [n]

/-- The tree below the nodes of a stack, each node before what is below it. -/
def depthFirstFrom (tree : DominatorTree) : Nat → List Nat → List Nat
  | 0, _ => []
  | _, [] => []
  | fuel + 1, n :: stack => n :: tree.depthFirstFrom fuel (tree.children n ++ stack)

/-- A node and what is below it in the tree, each node before what is below it. -/
def depthFirst (tree : DominatorTree) (n : Nat) : List Nat :=
  tree.depthFirstFrom tree.graph.size [n]

end DominatorTree

end Decompiler
