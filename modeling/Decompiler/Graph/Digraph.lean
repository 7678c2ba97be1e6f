import Decompiler.Graph.NodeSet

/-!
# Directed graphs

A graph is a number of nodes and a list of edges; several edges may join the same two nodes.
`Digraph.closure` is the set of nodes that the edges lead to from a given set, and
`Digraph.reversePostorder` lists the nodes that the edges lead to from a root.
-/

namespace Decompiler

/-- A directed graph on the nodes below `size`. -/
structure Digraph where
  size : Nat
  edges : List (Nat × Nat) := []
deriving Repr

namespace Digraph

/-- Sources of the edges into a node, one for each edge. -/
def predecessors (g : Digraph) (n : Nat) : List Nat :=
  (g.edges.filter (·.2 == n)).map Prod.fst

/-- Targets of the edges out of a node, one for each edge. -/
def successors (g : Digraph) (n : Nat) : List Nat :=
  (g.edges.filter (·.1 == n)).map Prod.snd

/-- The graph with some of its edges only. -/
def filterEdges (g : Digraph) (keep : Nat × Nat → Bool) : Digraph :=
  { g with edges := g.edges.filter keep }

/-- The graph with its edges turned round. -/
def reverse (g : Digraph) : Digraph :=
  { g with edges := g.edges.map fun (a, b) => (b, a) }

/-- Adds the targets of the edges that start in the set, one edge after the other. -/
def expand (edges : List (Nat × Nat)) (s : NodeSet) : NodeSet :=
  edges.foldl (fun s edge => if s.mem edge.1 then s.insert edge.2 else s) s

/-- Expands a set until nothing is added, at most `rounds` times. -/
def expandTimes (edges : List (Nat × Nat)) : Nat → NodeSet → NodeSet
  | 0, s => s
  | rounds + 1, s =>
    let t := expand edges s
    if t = s then s else expandTimes edges rounds t

/-- The nodes that the edges lead to from a set.  A round that adds anything adds a node, so that as
many rounds as there are nodes are enough. -/
def closure (g : Digraph) (start : NodeSet) : NodeSet :=
  expandTimes g.edges g.size start

/-- What a depth-first search has done: the nodes that it has met, and those that it has left for
good, the last one first. -/
structure Search where
  met : NodeSet := .empty
  left : List Nat := []

/-- Searches on from a node, depth first.  The node is left after all that is met below it.  Every
step down meets a node, so that `fuel` as large as the number of nodes is enough. -/
def searchFrom (g : Digraph) : Nat → Search → Nat → Search
  | 0, search, _ => search
  | fuel + 1, search, n =>
    if search.met.mem n then search
    else
      let below := (g.successors n).foldl (searchFrom g fuel)
        { search with met := search.met.insert n }
      { below with left := n :: below.left }

/-- The nodes that the root reaches, in the reverse of the order in which a depth-first search leaves
them. -/
def reversePostorder (g : Digraph) (root : Nat) : List Nat :=
  (g.searchFrom g.size {} root).left

/-- The part of the graph between the nodes of a list, with the places in the list as its nodes. -/
def renumber (g : Digraph) (order : List Nat) : Digraph :=
  { size := order.length
    edges := g.edges.filterMap fun (a, b) => do
      let i ← order.idxOf? a
      let j ← order.idxOf? b
      return (i, j) }

end Digraph

end Decompiler
