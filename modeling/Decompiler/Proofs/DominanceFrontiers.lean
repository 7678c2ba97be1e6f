import Decompiler.Proofs.DominatorTrees

/-!
# Dominance frontiers

A walk for a frontier starts at a source of an edge into `n` and stops at the immediate dominator of
`n`, which guards every such source.  So it passes what guards the source and does not guard the
immediate dominator (`Immediate.runsPast_iff`), and that is what does not strictly dominate `n`.

The walks are only made for nodes that two edges or more lead to from nodes that the root reaches.
Nothing is lost by that: what guards the only source of a node guards the node, and a node is not its
own only source (`two_le_length_sources`).
-/

namespace Decompiler

namespace DominatorTree

variable {g : Digraph} {root d n p stop x : Nat} {nodes sources : List Nat} {tree : DominatorTree}

/-! ## Walks -/

/-- A walk up the tree passes what guards its start and does not guard the node where it stops. -/
lemma Immediate.runsPast_iff (htree : Immediate g root tree) (fuel : Nat) (hp : g.Reaches root p)
    (hstop : g.Guards root stop p) (hfuel : tree.dominators.order.idxOf p < fuel) :
    tree.runsPast stop fuel p x = true ↔ g.Guards root x p ∧ ¬ g.Guards root x stop := by
  induction fuel generalizing p with
  | zero => omega
  | succ fuel ih =>
    rw [runsPast, Bool.and_eq_true, bne_iff_ne, Bool.or_eq_true, beq_iff_eq]
    by_cases hend : p = stop
    · subst hend
      simp
    by_cases hsame : p = x
    · subst hsame
      have hnot : ¬ g.Guards root p stop := fun hguards => hend (hguards.antisymm hstop
        (hstop.reaches hp))
      simp [hend, hnot, Digraph.Guards.refl]
    -- the stop guards the start, and so the start is not the root and the walk goes on
    have hne : p ≠ root := by
      rintro rfl
      exact hend hstop.eq_root.symm
    obtain ⟨up, hup⟩ := htree.exists_idom p hne hp
    have hearlier := htree.earlier p up hup
    have hstop' := htree.last p up stop hup (Ne.symm hend) hstop
    have hup' := (htree.guards p up hup).reaches hp
    rw [hup, Option.any_some, ih hup' hstop' (by omega), htree.guards_idom_iff hup (Ne.symm hsame)]
    simp [hend, hsame]

/-! ## Sources -/

/-- The last edge of a path to another node than the root comes from a node that the root reaches. -/
lemma exists_source (hn : g.Reaches root n) (hne : n ≠ root) :
    ∃ p, (p, n) ∈ g.edges ∧ g.Reaches root p ∧ p ≠ n := by
  obtain ⟨nodes, hpath⟩ := hn
  obtain ⟨front, hfront, hnodup, -⟩ := hpath.exists_nodup
  cases hfront with
  | start => exact absurd rfl hne
  | step hbefore hedge =>
    refine ⟨_, hedge, ⟨_, hbefore⟩, fun hsame => (List.nodup_cons.1 hnodup).1 ?_⟩
    exact hsame ▸ hbefore.last_mem

/-- What guards the only source of a node guards the node. -/
lemma guards_of_only_source (hne : n ≠ root) (hguards : g.Guards root x p)
    (honly : ∀ q, (q, n) ∈ g.edges → g.Reaches root q → q = p) : g.Guards root x n := by
  intro nodes hpath
  cases hpath with
  | start => exact absurd rfl hne
  | @step q _ nodes hpath hedge =>
    obtain rfl := honly q hedge ⟨nodes, hpath⟩
    exact List.mem_cons_of_mem _ (hguards nodes hpath)

/-- When a node guards one of the sources of `n` and does not strictly dominate `n`, there is another
edge into `n`. -/
lemma two_le_length_sources
    (hsources : ∀ q, q ∈ sources ↔ (q, n) ∈ g.edges ∧ g.Reaches root q) (hne : n ≠ root)
    (hn : g.Reaches root n) (hp : p ∈ sources) (hguards : g.Guards root x p)
    (hnot : ¬ g.StrictlyDominates root x n) : 2 ≤ sources.length := by
  by_contra hfew
  have hlength : sources.length = 1 := by
    have hpos := List.length_pos_of_mem hp
    omega
  obtain ⟨only, honly⟩ := List.length_eq_one_iff.1 hlength
  have hall : ∀ q, (q, n) ∈ g.edges → g.Reaches root q → q = p := by
    intro q hedge hreach
    have hq : q ∈ sources := (hsources q).2 ⟨hedge, hreach⟩
    rw [honly, List.mem_singleton] at hq hp
    rw [hq, hp]
  have hxn : x = n := by
    by_contra hxn
    exact hnot ⟨hxn, .inr ⟨hn, guards_of_only_source hne hguards hall⟩⟩
  have hpn : g.Guards root p n := guards_of_only_source hne (.refl g root p) hall
  obtain ⟨q, hedge, hreach, hqn⟩ := exists_source hn hne
  refine hqn ((hall q hedge hreach).trans ?_)
  exact hpn.antisymm (hxn ▸ hguards) hn

/-! ## Frontiers -/

/-- The frontiers of a tree: `n` is in the frontier of `x` when `x` dominates a predecessor of `n` and
does not strictly dominate `n`. -/
structure HasFrontiers (g : Digraph) (root : Nat) (tree : DominatorTree) : Prop where
  inFrontier_iff : ∀ n x, tree.inFrontier n x = true ↔
    g.Reaches root n ∧ g.Reaches root x ∧ (∃ p, (p, n) ∈ g.edges ∧ g.Dominates root x p) ∧
      ¬ g.StrictlyDominates root x n
  /-- The nodes in their own frontier, which are the headers of loops. -/
  inFrontier_self_iff : ∀ n, g.Reaches root n →
    (tree.inFrontier n n = true ↔ ∃ p, (p, n) ∈ g.edges ∧ g.Dominates root n p)

lemma Immediate.inFrontier_iff (htree : Immediate g root tree)
    (hentry : ∀ p, (p, root) ∉ g.edges) (n x : Nat) : tree.inFrontier n x = true ↔
      g.Reaches root n ∧ g.Reaches root x ∧ (∃ p, (p, n) ∈ g.edges ∧ g.Dominates root x p) ∧
        ¬ g.StrictlyDominates root x n := by
  have hsources : ∀ q, q ∈ (tree.graph.predecessors n).filter tree.dominators.order.contains ↔
      (q, n) ∈ g.edges ∧ g.Reaches root q := by
    intro q
    rw [List.mem_filter, htree.graph_eq, Digraph.mem_predecessors, List.contains_iff_mem,
      htree.mem_order]
  have hwalk : ∀ p d, tree.idom? n = some d → (p, n) ∈ g.edges → g.Reaches root p →
      (tree.runsPast d tree.dominators.order.length p x = true ↔
        g.Guards root x p ∧ ¬ g.Guards root x d) := by
    intro p d hd hedge hp
    have hguards : g.Guards root d p := (htree.guards n d hd).of_edge (htree.ne_idom hd) hedge
    exact htree.runsPast_iff _ hp hguards (List.idxOf_lt_length_iff.2 ((htree.mem_order p).2 hp))
  have hne : ∀ p, (p, n) ∈ g.edges → n ≠ root := by
    rintro p hedge rfl
    exact hentry p hedge
  simp only [inFrontier, Bool.and_eq_true, List.contains_iff_mem, htree.mem_order,
    decide_eq_true_eq, List.any_eq_true]
  constructor
  · rintro ⟨⟨hn, -⟩, p, hp, hrun⟩
    obtain ⟨hedge, hpreach⟩ := (hsources p).1 hp
    obtain ⟨d, hd⟩ := htree.exists_idom n (hne p hedge) hn
    rw [hd, Option.getD_some, hwalk p d hd hedge hpreach] at hrun
    refine ⟨hn, hrun.1.reaches hpreach, ⟨p, hedge, .inr ⟨hpreach, hrun.1⟩⟩, ?_⟩
    rintro ⟨hxn, hdom⟩
    exact hrun.2 (htree.last n d x hd hxn (hn.dominates_iff.1 hdom))
  · rintro ⟨hn, hx, ⟨p, hedge, hdom⟩, hnot⟩
    have hpreach : g.Reaches root p := by
      rcases hdom with rfl | ⟨hpreach, -⟩
      · exact hx
      · exact hpreach
    have hguards := hpreach.dominates_iff.1 hdom
    have hp := (hsources p).2 ⟨hedge, hpreach⟩
    have htwo := two_le_length_sources hsources (hne p hedge) hn hp hguards hnot
    obtain ⟨d, hd⟩ := htree.exists_idom n (hne p hedge) hn
    refine ⟨⟨hn, htwo⟩, p, hp, ?_⟩
    rw [hd, Option.getD_some, hwalk p d hd hedge hpreach]
    refine ⟨hguards, fun hxd => hnot ⟨?_, .inr ⟨hn, hxd.trans (htree.guards n d hd)⟩⟩⟩
    rintro rfl
    exact htree.ne_idom hd ((htree.guards x d hd).antisymm hxd hn)

lemma Immediate.hasFrontiers (htree : Immediate g root tree)
    (hentry : ∀ p, (p, root) ∉ g.edges) : HasFrontiers g root tree := by
  refine ⟨htree.inFrontier_iff hentry, fun n hn => ?_⟩
  rw [htree.inFrontier_iff hentry]
  constructor
  · rintro ⟨-, -, hexists, -⟩
    exact hexists
  · exact fun hexists => ⟨hn, hn, hexists, fun hstrict => hstrict.1 rfl⟩

end DominatorTree

namespace FlowGraph

variable {items : List Stmt} {i j : Nat} {label : LabelId}

/-- The owner of a label is one of the items. -/
lemma lt_of_lookup_ownersOf (h : (ownersOf items).lookup label = some i) : i < items.length := by
  obtain ⟨before, later, howners, -⟩ := List.lookup_eq_some_iff.1 h
  have hmem : (label, i) ∈ ownersOf items := by simp [howners]
  rw [ownersOf, List.mem_reverse, List.mem_flatMap] at hmem
  obtain ⟨⟨item, j⟩, hitem, hlabel⟩ := hmem
  obtain ⟨l, -, heq⟩ := List.mem_map.1 hlabel
  obtain ⟨-, rfl⟩ := Prod.mk.inj heq
  exact (List.getElem?_eq_some_iff.1 (List.mem_zipIdx_iff_getElem?.1 hitem)).1

/-- The item at which control enters is one of the items. -/
lemma lt_of_start_build {entry : Option LabelId} (h : (build items entry).start = some i) :
    i < items.length := by
  change ((entry.bind fun label => (ownersOf items).lookup label) <|>
    (if items.isEmpty then none else some 0)) = some i at h
  rw [Option.orElse_eq_orElse, Option.orElse_eq_or, Option.or_eq_some_iff] at h
  rcases h with hnamed | ⟨-, hfirst⟩
  · obtain ⟨label, -, hlookup⟩ := Option.bind_eq_some_iff.1 hnamed
    exact lt_of_lookup_ownersOf hlookup
  · cases items with
    | nil => simp at hfirst
    | cons item rest =>
      obtain rfl : 0 = i := by simpa using hfirst
      exact Nat.zero_lt_succ _

/-- The edges out of an item lead to items and to the exit. -/
lemma of_mem_edgesOf {item : Stmt} {edge : Nat × Nat}
    (h : edge ∈ edgesOf (ownersOf items) item i) : edge.1 = i + 2 ∧
      (edge.2 = FlowNode.exit.index ∨ ∃ j < items.length, edge.2 = (FlowNode.item j).index) := by
  have hjump : ∀ edge ∈ (targetItems (ownersOf items) item i).eraseDups.map
      (fun j => ((FlowNode.item i).index, (FlowNode.item j).index)), edge.1 = i + 2 ∧
      ∃ j < items.length, edge.2 = (FlowNode.item j).index := by
    intro edge hedge
    obtain ⟨j, hj, rfl⟩ := List.mem_map.1 hedge
    obtain ⟨target, -, htarget⟩ := List.mem_filterMap.1 (List.mem_eraseDups.1 hj)
    obtain ⟨k, hk, hkept⟩ := Option.bind_eq_some_iff.1 htarget
    refine ⟨rfl, j, ?_, rfl⟩
    split at hkept
    · exact Option.some.inj hkept ▸ lt_of_lookup_ownersOf hk
    · simp at hkept
  rw [edgesOf] at h
  split at h
  · rcases List.mem_append.1 h with h | h
    · exact (hjump edge h).imp_right .inr
    · rw [List.mem_singleton.1 h]
      exact ⟨rfl, .inl rfl⟩
  · exact (hjump edge h).imp_right .inr

/-- An edge of a flow graph leads from the entry or an item to an item or the exit. -/
lemma of_mem_edges_build {entry : Option LabelId} {edge : Nat × Nat}
    (h : edge ∈ (build items entry).graph.edges) :
    (edge.1 = FlowNode.entry.index ∨ ∃ i < items.length, edge.1 = (FlowNode.item i).index) ∧
      (edge.2 = FlowNode.exit.index ∨ ∃ j < items.length, edge.2 = (FlowNode.item j).index) := by
  change edge ∈ ((build items entry).start.toList.map fun i =>
      (FlowNode.entry.index, (FlowNode.item i).index)) ++
    items.zipIdx.flatMap (fun place => edgesOf (ownersOf items) place.1 place.2) at h
  rcases List.mem_append.1 h with h | h
  · obtain ⟨i, hi, rfl⟩ := List.mem_map.1 h
    exact ⟨.inl rfl, .inr ⟨i, lt_of_start_build (Option.mem_toList.1 hi), rfl⟩⟩
  · obtain ⟨⟨item, i⟩, hitem, hedge⟩ := List.mem_flatMap.1 h
    have hi := (List.getElem?_eq_some_iff.1 (List.mem_zipIdx_iff_getElem?.1 hitem)).1
    obtain ⟨hsource, htarget⟩ := of_mem_edgesOf hedge
    exact ⟨.inr ⟨i, hi, hsource⟩, htarget⟩

/-- The edges of a flow graph join its nodes. -/
lemma proper_build (items : List Stmt) (entry : Option LabelId) :
    (build items entry).graph.Proper := by
  intro edge hedge
  have hsize : (build items entry).graph.size = items.length + 2 := rfl
  have hexit : FlowNode.exit.index = 1 := rfl
  have hentry : FlowNode.entry.index = 0 := rfl
  have hitem : ∀ i, (FlowNode.item i).index = i + 2 := fun i => rfl
  obtain ⟨hsource, htarget⟩ := of_mem_edges_build hedge
  constructor
  · rcases hsource with h | ⟨i, hi, h⟩
    · omega
    · rw [h, hitem]
      omega
  · rcases htarget with h | ⟨j, hj, h⟩
    · omega
    · rw [h, hitem]
      omega

/-- No edge of a flow graph leads to its entry. -/
lemma notMem_edges_build_entry (items : List Stmt) (entry : Option LabelId) (p : Nat) :
    (p, FlowNode.entry.index) ∉ (build items entry).graph.edges := by
  intro hedge
  rcases (of_mem_edges_build hedge).2 with h | ⟨j, -, h⟩
  · exact absurd h Nat.zero_ne_one
  · exact absurd h (Nat.ne_of_lt (Nat.zero_lt_succ _))

/-- The edge out of the entry leads to the node at which control enters. -/
lemma eq_first_of_edge {entry : Option LabelId} {n : Nat}
    (h : (FlowNode.entry.index, n) ∈ (build items entry).graph.edges) :
    n = (build items entry).first.index := by
  change (FlowNode.entry.index, n) ∈ ((build items entry).start.toList.map fun i =>
      (FlowNode.entry.index, (FlowNode.item i).index)) ++
    items.zipIdx.flatMap (fun place => edgesOf (ownersOf items) place.1 place.2) at h
  rcases List.mem_append.1 h with h | h
  · obtain ⟨i, hi, heq⟩ := List.mem_map.1 h
    rw [first, Option.mem_toList.1 hi]
    exact (Prod.mk.inj heq).2.symm
  · obtain ⟨⟨item, i⟩, -, hedge⟩ := List.mem_flatMap.1 h
    exact absurd (of_mem_edgesOf hedge).1 (by simp [FlowNode.index])

/-- All other nodes are guarded by the one at which control enters. -/
lemma guards_first {entry : Option LabelId} {n : Nat} (hne : n ≠ FlowNode.entry.index) :
    (build items entry).graph.Guards FlowNode.entry.index (build items entry).first.index n := by
  intro nodes hpath
  induction hpath with
  | start => exact absurd rfl hne
  | @step a b nodes hpath hedge ih =>
    by_cases ha : a = FlowNode.entry.index
    · subst ha
      rw [← eq_first_of_edge hedge]
      exact List.mem_cons_self
    · exact List.mem_cons_of_mem _ (ih ha)

end FlowGraph

namespace DominatorTree

/-- The frontiers of the program, for every graph without an edge to its root and whatever depth-first
search gives the order.  The flow graphs of statement lists are such graphs. -/
theorem inFrontier_compute_iff :
    (∀ (g : Digraph) (root : Nat), g.Proper → root < g.size → (∀ p, (p, root) ∉ g.edges) →
      (∀ order, g.IsReversePostorder root order → HasFrontiers g root (ofOrder g root order)) ∧
        HasFrontiers g root (compute g root)) ∧
    ∀ (items : List Stmt) (entry : Option LabelId), let flow := FlowGraph.build items entry
      HasFrontiers flow.graph FlowNode.entry.index
        (compute flow.graph FlowNode.entry.index) := by
  have hall : ∀ (g : Digraph) (root : Nat), g.Proper → root < g.size →
      (∀ p, (p, root) ∉ g.edges) → ∀ order, g.IsReversePostorder root order →
      HasFrontiers g root (ofOrder g root order) :=
    fun g root hg hroot hentry order horder => (immediate_ofOrder hg hroot horder).hasFrontiers hentry
  refine ⟨fun g root hg hroot hentry => ⟨hall g root hg hroot hentry, ?_⟩, fun items entry => ?_⟩
  · exact hall g root hg hroot hentry _ (Digraph.isReversePostorder_reversePostorder hg hroot)
  · have hg := FlowGraph.proper_build items entry
    have hroot : FlowNode.entry.index < (FlowGraph.build items entry).graph.size :=
      Nat.zero_lt_succ _
    exact hall _ _ hg hroot (FlowGraph.notMem_edges_build_entry items entry) _
      (Digraph.isReversePostorder_reversePostorder hg hroot)

theorem tangled_hasFrontiers :
    tangled.Proper ∧ 0 < tangled.size ∧ (∀ p, (p, 0) ∉ tangled.edges) ∧
      HasFrontiers tangled 0 (ofOrder tangled 0 [0, 2, 1]) ∧
      HasFrontiers tangled 0 (compute tangled 0) ∧
      (compute tangled 0).inFrontier 2 2 = true ∧ (compute tangled 0).inFrontier 1 1 = false ∧
      (compute tangled 0).frontier 1 = [2] ∧ (compute tangled 0).frontier 0 = [] :=
  have hentry : ∀ p, (p, 0) ∉ tangled.edges := by simp [tangled]
  have h := inFrontier_compute_iff.1 tangled 0 (by decide) (by decide) hentry
  ⟨by decide, by decide, hentry, h.1 _ tangled_order, h.2, by decide, by decide, by decide,
    by decide⟩

end DominatorTree

end Decompiler
