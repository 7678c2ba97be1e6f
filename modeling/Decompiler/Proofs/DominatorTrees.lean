import Decompiler.Flow.FlowGraph
import Decompiler.Proofs.DominatorSweeps

/-!
# Dominator trees

The immediate dominators of the program are carried over from the places of a reverse postorder to
the nodes (`immediate_ofOrder`): a path between nodes that the root reaches is a path between their
places, and the other way round.  The walk up the tree from a node then comes to what dominates the
node (`Immediate.climbs_iff`).

`Immediate` is what the sweeps give; `IsDominatorTree` says what the tree of the program is.
-/

namespace Decompiler

namespace Digraph

variable {g : Digraph} {root a b n m i j k : Nat} {nodes order : List Nat}

/-! ## Places of a reverse postorder -/

lemma idxOf?_eq_some_iff (horder : order.Nodup) : order.idxOf? n = some i ↔ order[i]? = some n := by
  rw [List.idxOf?_eq_some_iff, List.getElem?_eq_some_iff]
  constructor
  · rintro ⟨hi, hn, -⟩
    exact ⟨hi, hn⟩
  · rintro ⟨hi, hn⟩
    refine ⟨hi, hn, fun j hj hsame => ?_⟩
    have hij : j = i := (horder.getElem_inj_iff).1 (hsame.trans hn.symm)
    omega

lemma place_unique (horder : order.Nodup) (hi : order[i]? = some n) (hj : order[j]? = some n) :
    i = j := by
  rw [← idxOf?_eq_some_iff horder] at hi hj
  exact Option.some.inj (hi.symm.trans hj)

lemma mem_edges_renumber (horder : order.Nodup) :
    (i, j) ∈ (g.renumber order).edges ↔
      ∃ a b, (a, b) ∈ g.edges ∧ order[i]? = some a ∧ order[j]? = some b := by
  simp only [renumber, List.mem_filterMap, Prod.exists]
  constructor
  · rintro ⟨a, b, hedge, hplaces⟩
    obtain ⟨i', hi, hplaces⟩ := Option.bind_eq_some_iff.1 hplaces
    obtain ⟨j', hj, hplaces⟩ := Option.bind_eq_some_iff.1 hplaces
    obtain ⟨rfl, rfl⟩ := Prod.mk.inj (Option.some.inj hplaces)
    exact ⟨a, b, hedge, (idxOf?_eq_some_iff horder).1 hi, (idxOf?_eq_some_iff horder).1 hj⟩
  · rintro ⟨a, b, hedge, hi, hj⟩
    rw [← idxOf?_eq_some_iff horder] at hi hj
    exact ⟨a, b, hedge, by simp [hi, hj]⟩

namespace IsReversePostorder

lemma place_root (h : g.IsReversePostorder root order) : order[0]? = some root := by
  obtain ⟨rest, rfl⟩ := h.exists_cons
  rfl

/-- The places of a reverse postorder are in the order that the sweeps need. -/
lemma isOrdered (h : g.IsReversePostorder root order) :
    Dominators.IsOrdered (g.renumber order) := by
  refine ⟨?_, ?_, fun i hi hpos => ?_⟩
  · rintro ⟨i, j⟩ hedge
    obtain ⟨a, b, -, ha, hb⟩ := (mem_edges_renumber h.nodup).1 hedge
    exact ⟨(List.getElem?_eq_some_iff.1 ha).1, (List.getElem?_eq_some_iff.1 hb).1⟩
  · exact (List.getElem?_eq_some_iff.1 h.place_root).1
  · obtain ⟨n, hn⟩ : ∃ n, order[i]? = some n := ⟨_, List.getElem?_eq_getElem hi⟩
    have hne : n ≠ root := by
      rintro rfl
      have hzero := place_unique h.nodup hn h.place_root
      omega
    obtain ⟨p, hedge, hsub⟩ := h.exists_predecessor (List.mem_of_getElem? hn) hne
    obtain ⟨f, hf⟩ := List.sublist_iff_exists_orderEmbedding_getElem?_eq.1 hsub
    have hp : order[f 0]? = some p := (hf 0).symm
    have hlast : order[f 1]? = some n := (hf 1).symm
    have hlt : f 0 < f 1 := f.lt_iff_lt.2 Nat.zero_lt_one
    rw [place_unique h.nodup hlast hn] at hlt
    exact ⟨f 0, hlt, (mem_edges_renumber h.nodup).2 ⟨p, n, hedge, hp, hn⟩⟩

/-- A path between nodes is a path between their places. -/
lemma exists_path_renumber (h : g.IsReversePostorder root order) (hpath : g.Path root n nodes)
    (hn : order[i]? = some n) : ∃ places, (g.renumber order).Path 0 i places ∧
      ∀ p ∈ places, ∀ m, order[p]? = some m → m ∈ nodes := by
  induction hpath generalizing i with
  | start =>
    obtain rfl := place_unique h.nodup hn h.place_root
    refine ⟨[0], .start, fun p hp m hm => ?_⟩
    rw [List.mem_singleton.1 hp, hn] at hm
    simp [Option.some.inj hm]
  | @step a b nodes hpath hedge ih =>
    have ha : a ∈ order := h.mem_iff.2 ⟨nodes, hpath⟩
    obtain ⟨k, hk⟩ := List.mem_iff_getElem?.1 ha
    obtain ⟨places, hplaces, hnodes⟩ := ih hk
    refine ⟨i :: places, hplaces.step ((mem_edges_renumber h.nodup).2 ⟨a, b, hedge, hk, hn⟩),
      fun p hp m hm => ?_⟩
    rcases List.mem_cons.1 hp with rfl | hp
    · rw [hn] at hm
      simp [Option.some.inj hm]
    · exact List.mem_cons_of_mem _ (hnodes p hp m hm)

/-- A path between places is a path between their nodes. -/
lemma exists_path_of_renumber (h : g.IsReversePostorder root order) {places : List Nat}
    (hpath : (g.renumber order).Path 0 i places) : ∃ n nodes, order[i]? = some n ∧
      g.Path root n nodes ∧ ∀ m ∈ nodes, ∃ p ∈ places, order[p]? = some m := by
  induction hpath with
  | start => exact ⟨root, [root], h.place_root, .start, by simpa using h.place_root⟩
  | @step i j places hpath hedge ih =>
    obtain ⟨a, nodes, ha, hnodes, hplaces⟩ := ih
    obtain ⟨a', b, hedge, ha', hb⟩ := (mem_edges_renumber h.nodup).1 hedge
    obtain rfl : a = a' := Option.some.inj (ha.symm.trans ha')
    refine ⟨b, b :: nodes, hb, hnodes.step hedge, fun m hm => ?_⟩
    rcases List.mem_cons.1 hm with rfl | hm
    · exact ⟨j, List.mem_cons_self, hb⟩
    · obtain ⟨p, hp, hm⟩ := hplaces m hm
      exact ⟨p, List.mem_cons_of_mem _ hp, hm⟩

/-- What guards a place are the places of what guards its node. -/
lemma guards_renumber_iff (h : g.IsReversePostorder root order) (hn : order[i]? = some n)
    (ha : order[k]? = some a) : (g.renumber order).Guards 0 k i ↔ g.Guards root a n := by
  constructor
  · intro hguards nodes hpath
    obtain ⟨places, hplaces, hnodes⟩ := h.exists_path_renumber hpath hn
    exact hnodes k (hguards places hplaces) a ha
  · intro hguards places hpath
    obtain ⟨n', nodes, hn', hnodes, hplaces⟩ := h.exists_path_of_renumber hpath
    obtain rfl : n = n' := Option.some.inj (hn.symm.trans hn')
    obtain ⟨p, hp, hplace⟩ := hplaces a (hguards nodes hnodes)
    exact place_unique h.nodup ha hplace ▸ hp

end IsReversePostorder

end Digraph

namespace DominatorTree

variable {g : Digraph} {root a b d n x : Nat} {order : List Nat} {tree : DominatorTree}

/-! ## Immediate dominators -/

/-- The tree has the immediate dominators of the nodes that the root reaches, and each of them comes
earlier in the order of the tree. -/
structure Immediate (g : Digraph) (root : Nat) (tree : DominatorTree) : Prop where
  graph_eq : tree.graph = g
  root_eq : tree.dominators.root = root
  nodup : tree.dominators.order.Nodup
  mem_order : ∀ n, n ∈ tree.dominators.order ↔ g.Reaches root n
  exists_idom : ∀ n, n ≠ root → g.Reaches root n → ∃ d, tree.idom? n = some d
  ne_root : ∀ n d, tree.idom? n = some d → n ≠ root
  reaches : ∀ n d, tree.idom? n = some d → g.Reaches root n
  earlier : ∀ n d, tree.idom? n = some d →
    tree.dominators.order.idxOf d < tree.dominators.order.idxOf n
  guards : ∀ n d, tree.idom? n = some d → g.Guards root d n
  last : ∀ n d a, tree.idom? n = some d → a ≠ n → g.Guards root a n → g.Guards root a d

/-- The immediate dominator of a node, in terms of the places. -/
lemma idom?_ofOrder_eq_some_iff (hg : g.Proper) (hroot : root < g.size)
    (horder : g.IsReversePostorder root order) {up : Dominators.Uppers}
    (hup : Dominators.uppers? (g.renumber order) = some up) :
    (ofOrder g root order).idom? n = some d ↔
      ∃ i k, 0 < i ∧ order[i]? = some n ∧ Dominators.above up i = some k ∧ order[k]? = some d := by
  have hparent : (ofOrder g root order).idom? n =
      if n < g.size then (Dominators.ofOrder g root order).parent? n else none := by
    simp only [idom?, ofOrder, List.getElem?_toArray, List.getElem?_map]
    by_cases hn : n < g.size <;> simp [hn]
  rw [hparent]
  simp only [Dominators.parent?, Dominators.ofOrder, hup, Option.getD_some]
  constructor
  · intro h
    split at h
    · obtain ⟨i, hi, h⟩ := Option.bind_eq_some_iff.1 h
      obtain ⟨_, hpos, h⟩ := Option.bind_eq_some_iff.1 h
      obtain ⟨k, hk, hd⟩ := Option.bind_eq_some_iff.1 h
      refine ⟨i, k, ?_, (Digraph.idxOf?_eq_some_iff horder.nodup).1 hi, hk, hd⟩
      exact Nat.pos_of_ne_zero (by simpa using hpos)
    · simp at h
  · rintro ⟨i, k, hpos, hi, hk, hd⟩
    have hn : n < g.size := hg.lt_of_reaches hroot (horder.mem_iff.1 (List.mem_of_getElem? hi))
    rw [if_pos hn, (Digraph.idxOf?_eq_some_iff horder.nodup).2 hi]
    simp [hk, hd, Nat.ne_of_gt hpos]

/-- The tree of a reverse postorder has the immediate dominators. -/
lemma immediate_ofOrder (hg : g.Proper) (hroot : root < g.size)
    (horder : g.IsReversePostorder root order) : Immediate g root (ofOrder g root order) := by
  obtain ⟨up, hup, hsettled, -⟩ := Dominators.exists_uppers? horder.isOrdered
  have hiff := fun n d => idom?_ofOrder_eq_some_iff (n := n) (d := d) hg hroot horder hup
  have hplace : ∀ {n i}, order[i]? = some n → order.idxOf n = i := fun {n i} hi => by
    obtain ⟨hlt, rfl⟩ := List.getElem?_eq_some_iff.1 hi
    exact horder.nodup.idxOf_getElem i hlt
  have hlt : ∀ {n i}, order[i]? = some n → i < (g.renumber order).size := fun {n i} hi =>
    (List.getElem?_eq_some_iff.1 hi).1
  refine ⟨rfl, rfl, horder.nodup, fun n => horder.mem_iff, fun n hne hn => ?_, fun n d h => ?_,
    fun n d h => ?_, fun n d h => ?_, fun n d h => ?_, fun n d a h hne hguards => ?_⟩
  · obtain ⟨i, hi⟩ := List.mem_iff_getElem?.1 (horder.mem_iff.2 hn)
    have hpos : 0 < i := by
      rcases Nat.eq_zero_or_pos i with rfl | hpos
      · exact absurd (Option.some.inj (hi.symm.trans horder.place_root)) hne
      · exact hpos
    obtain ⟨k, hk⟩ := Option.isSome_iff_exists.1 (hsettled.known i (hlt hi))
    obtain ⟨hless, -⟩ := hsettled.above_spec (hlt hi) hpos hk
    have hk' : k < order.length := lt_trans hless (hlt hi)
    exact ⟨order[k], (hiff n _).2 ⟨i, k, hpos, hi, hk, List.getElem?_eq_getElem hk'⟩⟩
  · obtain ⟨i, k, hpos, hi, -⟩ := (hiff n d).1 h
    rintro rfl
    have hzero := Digraph.place_unique horder.nodup hi horder.place_root
    omega
  · obtain ⟨i, k, hpos, hi, -⟩ := (hiff n d).1 h
    exact horder.mem_iff.1 (List.mem_of_getElem? hi)
  · obtain ⟨i, k, hpos, hi, hk, hd⟩ := (hiff n d).1 h
    have hless := (hsettled.above_spec (hlt hi) hpos hk).1
    show order.idxOf d < order.idxOf n
    rw [hplace hi, hplace hd]
    exact hless
  · obtain ⟨i, k, hpos, hi, hk, hd⟩ := (hiff n d).1 h
    have hguards := (hsettled.above_spec (hlt hi) hpos hk).2.1
    exact (horder.guards_renumber_iff hi hd).1 hguards
  · obtain ⟨i, k, hpos, hi, hk, hd⟩ := (hiff n d).1 h
    obtain ⟨-, -, hlast⟩ := hsettled.above_spec (hlt hi) hpos hk
    by_cases ha : a ∈ order
    · obtain ⟨l, hl⟩ := List.mem_iff_getElem?.1 ha
      have hli : l ≠ i := by
        rintro rfl
        exact hne (Option.some.inj (hl.symm.trans hi))
      exact (horder.guards_renumber_iff hd hl).1
        (hlast l hli ((horder.guards_renumber_iff hi hl).2 hguards))
    · have hn : g.Reaches root n := horder.mem_iff.1 (List.mem_of_getElem? hi)
      exact absurd (horder.mem_iff.2 (hguards.reaches hn)) ha

namespace Immediate

lemma ne_idom (htree : Immediate g root tree) (h : tree.idom? n = some d) : d ≠ n := by
  rintro rfl
  exact lt_irrefl _ (htree.earlier d d h)

/-- What guards another node guards its immediate dominator, and the other way round. -/
lemma guards_idom_iff (htree : Immediate g root tree) (h : tree.idom? n = some d) (hne : a ≠ n) :
    g.Guards root a d ↔ g.Guards root a n :=
  ⟨fun hguards => hguards.trans (htree.guards n d h), htree.last n d a h hne⟩

/-- A node without an immediate dominator is dominated by itself alone. -/
lemma eq_of_dominates (htree : Immediate g root tree) (h : tree.idom? b = none)
    (hdom : g.Dominates root a b) : a = b := by
  rcases hdom with hsame | ⟨hreach, hguards⟩
  · exact hsame
  · by_cases hb : b = root
    · subst hb
      exact hguards.eq_root
    · obtain ⟨d, hd⟩ := htree.exists_idom b hb hreach
      simp [hd] at h

/-- The walk up from `b` comes to what dominates `b`. -/
lemma climbs_iff (htree : Immediate g root tree) (fuel : Nat)
    (hfuel : tree.dominators.order.idxOf b ≤ fuel ∨ tree.idom? b = none) :
    tree.climbs fuel a b = true ↔ g.Dominates root a b := by
  induction fuel generalizing b with
  | zero =>
    have hnone : tree.idom? b = none := by
      rcases hfuel with hzero | hnone
      · by_contra hsome
        obtain ⟨d, hd⟩ := Option.ne_none_iff_exists'.1 hsome
        have hearlier := htree.earlier b d hd
        omega
      · exact hnone
    rw [climbs, beq_iff_eq]
    exact ⟨fun hsame => .inl hsame.symm, fun hdom => (htree.eq_of_dominates hnone hdom).symm⟩
  | succ fuel ih =>
    rw [climbs, Bool.or_eq_true, beq_iff_eq]
    by_cases hsame : b = a
    · exact ⟨fun _ => .inl hsame.symm, fun _ => .inl hsame⟩
    cases hidom : tree.idom? b with
    | none =>
      simp only [hsame, Option.any_none, Bool.false_eq_true, or_self, false_iff]
      exact fun hdom => hsame (htree.eq_of_dominates hidom hdom).symm
    | some d =>
      have hb := htree.reaches b d hidom
      have hd := (htree.guards b d hidom).reaches hb
      have hearlier := htree.earlier b d hidom
      have hfuel' : tree.dominators.order.idxOf d ≤ fuel ∨ tree.idom? d = none := by
        rcases hfuel with hle | hnone
        · exact .inl (by omega)
        · simp [hnone] at hidom
      rw [Option.any_some, ih hfuel', hd.dominates_iff, hb.dominates_iff,
        htree.guards_idom_iff hidom (Ne.symm hsame)]
      simp [hsame]

/-- The dominance of the program is dominance. -/
lemma dominates_iff (htree : Immediate g root tree) :
    tree.dominates a b = true ↔ g.Dominates root a b := by
  refine htree.climbs_iff _ ?_
  by_cases hb : b ∈ tree.dominators.order
  · exact .inl (List.idxOf_lt_length_iff.2 hb).le
  · refine .inr (Option.eq_none_iff_forall_ne_some.2 fun d hd => ?_)
    exact hb ((htree.mem_order b).2 (htree.reaches b d hd))

lemma mem_children_iff (htree : Immediate g root tree) :
    a ∈ tree.children n ↔ tree.idom? a = some n := by
  rw [children, ascending, (perm_stableSort _ _).mem_iff, List.mem_filter, beq_iff_eq]
  refine ⟨fun h => h.2, fun h => ⟨(htree.mem_order a).2 (htree.reaches a n h), h⟩⟩

/-- The children are in ascending order, each of them once. -/
lemma pairwise_children (htree : Immediate g root tree) (n : Nat) :
    (tree.children n).Pairwise (· < ·) := by
  have hnodup : (tree.children n).Nodup :=
    (perm_stableSort _ _).nodup_iff.2 (htree.nodup.filter _)
  exact (pairwise_ascending _).imp₂ (fun a b hle hne => lt_of_le_of_ne hle hne) hnodup

end Immediate

/-! ## The tree -/

/-- The tree of the dominators of a graph: what the immediate dominators are, that the children are
the nodes that have a node as their immediate dominator, and that the walks up the tree find the
dominators. -/
structure IsDominatorTree (g : Digraph) (root : Nat) (tree : DominatorTree) : Prop where
  isSome_idom : ∀ n, (tree.idom? n).isSome = true ↔ n ≠ root ∧ g.Reaches root n
  strictlyDominates_idom : ∀ n d, tree.idom? n = some d → g.StrictlyDominates root d n
  dominates_idom : ∀ n d a, tree.idom? n = some d → g.StrictlyDominates root a n →
    g.Dominates root a d
  mem_children : ∀ n a, a ∈ tree.children n ↔ tree.idom? a = some n
  children_ascending : ∀ n, (tree.children n).Pairwise (· < ·)
  dominates_iff : ∀ a b, tree.dominates a b = true ↔
    a = b ∨ g.Reaches root b ∧ ∀ nodes, g.Path root b nodes → a ∈ nodes

/-- Whatever depth-first search gives the order, the sweeps come to an end, and the tree is the tree
of the dominators.  The order of the program is one of those. -/
theorem isDominatorTree_compute (g : Digraph) (root : Nat) (hg : g.Proper) (hroot : root < g.size) :
    (∀ order, g.IsReversePostorder root order →
      (∃ up, Dominators.uppers? (g.renumber order) = some up ∧
        Dominators.sweep (g.renumber order) up = some up) ∧
      IsDominatorTree g root (ofOrder g root order)) ∧
    IsDominatorTree g root (compute g root) := by
  have hall : ∀ order, g.IsReversePostorder root order →
      IsDominatorTree g root (ofOrder g root order) := by
    intro order horder
    have htree := immediate_ofOrder hg hroot horder
    refine ⟨fun n => ?_, fun n d h => ?_, fun n d a h hdom => ?_, fun n a => htree.mem_children_iff,
      htree.pairwise_children, fun a b => htree.dominates_iff⟩
    · rw [Option.isSome_iff_exists]
      exact ⟨fun ⟨d, hd⟩ => ⟨htree.ne_root n d hd, htree.reaches n d hd⟩,
        fun ⟨hne, hreach⟩ => htree.exists_idom n hne hreach⟩
    · exact ⟨htree.ne_idom h, .inr ⟨htree.reaches n d h, htree.guards n d h⟩⟩
    · have hn := htree.reaches n d h
      have hguards := hn.dominates_iff.1 hdom.2
      exact .inr ⟨(htree.guards n d h).reaches hn, htree.last n d a h hdom.1 hguards⟩
  refine ⟨fun order horder => ⟨?_, hall order horder⟩, ?_⟩
  · obtain ⟨up, hup, -, hstable⟩ := Dominators.exists_uppers? horder.isOrdered
    exact ⟨up, hup, hstable⟩
  · exact hall _ (Digraph.isReversePostorder_reversePostorder hg hroot)

/-- Two nodes that lead to each other and are both entered from the root, parallel edges, an edge from
a node to itself, and a node that the root does not reach. -/
def tangled : Digraph :=
  { size := 4, edges := [(0, 1), (0, 1), (0, 2), (1, 2), (2, 1), (2, 2), (3, 1)] }

/-- A search from the root that goes to the node `2` before the node `1`. -/
lemma tangled_order : tangled.IsReversePostorder 0 [0, 2, 1] := by
  have hnext : ∀ m, m ∈ [2, 1] ↔ (0, m) ∈ tangled.edges := by simp [tangled, or_comm]
  have hnextOne : ∀ m, m ∈ [2] ↔ (1, m) ∈ tangled.edges := by simp [tangled]
  have hnextTwo : ∀ m, m ∈ [1, 2] ↔ (2, m) ∈ tangled.edges := by simp [tangled]
  have hone : tangled.Searches [2, 0] [1, 2] ([] ++ 1 :: []) :=
    .visit (by decide) hnextOne (.skip (by decide) (.done _)) (.skip (by decide) (.done _))
  have htwo : tangled.Searches [0] [2, 1] ([] ++ 2 :: [1]) :=
    .visit (by decide) hnextTwo hone (.skip (by decide) (.done _))
  have hroot : tangled.Searches [] [0] ([] ++ 0 :: [2, 1]) :=
    .visit (by decide) hnext htwo (.done _)
  exact hroot

theorem tangled_isDominatorTree :
    tangled.Proper ∧ 0 < tangled.size ∧ tangled.IsReversePostorder 0 [0, 2, 1] ∧
      IsDominatorTree tangled 0 (ofOrder tangled 0 [0, 2, 1]) ∧
      IsDominatorTree tangled 0 (compute tangled 0) ∧
      (compute tangled 0).idom? 1 = some 0 ∧ (compute tangled 0).children 0 = [1, 2] ∧
      (compute tangled 0).dominates 1 2 = false ∧ (compute tangled 0).idom? 3 = none :=
  have h := isDominatorTree_compute tangled 0 (by decide) (by decide)
  ⟨by decide, by decide, tangled_order, (h.1 _ tangled_order).2, h.2, by decide, by decide,
    by decide, by decide⟩

end DominatorTree

end Decompiler
