import Mathlib.Data.List.Perm.Subperm
import Decompiler.Proofs.DominatorTrees

/-!
# Walks down the dominator tree

A walk down the tree, level by level, comes to all that its first node dominates
(`Immediate.mem_breadthFirst`).  What a node dominates is the node itself and what its children dominate
(`Immediate.exists_child`), and no two children dominate the same node (`Immediate.child_unique`).  So
what the nodes of the queue dominate gets less with each step (`Immediate.sum_length_below_lt`), and as
many steps as there are nodes are enough.
-/

namespace Decompiler

namespace DominatorTree

variable {g : Digraph} {root b c m n : Nat} {tree : DominatorTree}

/-- The nodes that a node dominates, as far as the root reaches them. -/
def below (tree : DominatorTree) (n : Nat) : List Nat :=
  tree.dominators.order.filter (tree.dominates n)

namespace Immediate

/-- Two nodes that dominate each other are one. -/
lemma eq_of_dominates_dominates (htree : Immediate g root tree) (hbc : tree.dominates b c = true)
    (hcb : tree.dominates c b = true) : b = c := by
  rcases htree.dominates_iff.1 hbc with hsame | ⟨hc, hguards⟩
  · exact hsame
  rcases htree.dominates_iff.1 hcb with hsame | ⟨-, hguards'⟩
  · exact hsame.symm
  exact hguards.antisymm hguards' hc

lemma mem_below_iff (htree : Immediate g root tree) :
    m ∈ tree.below n ↔ g.Reaches root m ∧ g.Guards root n m := by
  rw [below, List.mem_filter, htree.mem_order, htree.dominates_iff]
  exact and_congr_right fun hm => hm.dominates_iff

lemma nodup_below (htree : Immediate g root tree) (n : Nat) : (tree.below n).Nodup :=
  htree.nodup.filter _

/-! ## Children -/

/-- What a node dominates is the node itself, or one of its children dominates it. -/
lemma exists_child (htree : Immediate g root tree) (hm : g.Reaches root m)
    (hguards : g.Guards root n m) (hne : m ≠ n) : ∃ c ∈ tree.children n, g.Guards root c m := by
  -- by induction on the walk up from `m`, whose last step before `n` is from a child
  induction hplace : tree.dominators.order.idxOf m using Nat.strong_induction_on generalizing m with
  | _ place ih =>
    have hroot : m ≠ root := by
      rintro rfl
      exact hne hguards.eq_root.symm
    obtain ⟨d, hd⟩ := htree.exists_idom m hroot hm
    have hdm := htree.guards m d hd
    by_cases hdn : d = n
    · subst hdn
      exact ⟨m, htree.mem_children_iff.2 hd, .refl g root m⟩
    · have hearlier := htree.earlier m d hd
      have hnd := htree.last m d n hd (Ne.symm hne) hguards
      obtain ⟨c, hc, hcd⟩ := ih _ (hplace ▸ hearlier) (hdm.reaches hm) hnd hdn rfl
      exact ⟨c, hc, hcd.trans hdm⟩

/-- A child is guarded by no other child. -/
lemma child_eq_of_guards (htree : Immediate g root tree) (hb : tree.idom? b = some n)
    (hc : tree.idom? c = some n) (hguards : g.Guards root c b) : c = b := by
  by_contra hne
  have hcn := htree.last b n c hb hne hguards
  exact htree.ne_idom hc ((htree.guards c n hc).antisymm hcn (htree.reaches c n hc))

/-- No node is dominated by two children. -/
lemma child_unique (htree : Immediate g root tree) (hm : g.Reaches root m)
    (hb : tree.idom? b = some n) (hc : tree.idom? c = some n) (hbm : g.Guards root b m)
    (hcm : g.Guards root c m) : b = c := by
  induction hplace : tree.dominators.order.idxOf m using Nat.strong_induction_on generalizing m with
  | _ place ih =>
    by_cases hmb : m = b
    · subst hmb
      exact (htree.child_eq_of_guards hb hc hcm).symm
    by_cases hmc : m = c
    · subst hmc
      exact htree.child_eq_of_guards hc hb hbm
    -- both guard the immediate dominator of any other node
    have hroot : m ≠ root := by
      rintro rfl
      exact htree.ne_root b n hb hbm.eq_root
    obtain ⟨d, hd⟩ := htree.exists_idom m hroot hm
    have hearlier := htree.earlier m d hd
    exact ih _ (hplace ▸ hearlier) ((htree.guards m d hd).reaches hm)
      (htree.last m d b hd (Ne.symm hmb) hbm) (htree.last m d c hd (Ne.symm hmc) hcm) rfl

/-- The children of a node dominate fewer nodes, taken together. -/
lemma sum_length_below_lt (htree : Immediate g root tree) (hn : g.Reaches root n) :
    ((tree.children n).map fun c => (tree.below c).length).sum < (tree.below n).length := by
  have hapart : (tree.children n).Pairwise fun b c => (tree.below b).Disjoint (tree.below c) := by
    refine (htree.pairwise_children n).imp_of_mem fun {b c} hb hc hlt m hmb hmc => ?_
    obtain ⟨hm, hbm⟩ := htree.mem_below_iff.1 hmb
    obtain ⟨-, hcm⟩ := htree.mem_below_iff.1 hmc
    have hsame := htree.child_unique hm (htree.mem_children_iff.1 hb) (htree.mem_children_iff.1 hc)
      hbm hcm
    omega
  have hnodup : ((tree.children n).flatMap tree.below).Nodup :=
    List.nodup_flatMap.2 ⟨fun c _ => htree.nodup_below c, hapart⟩
  have hnotMem : n ∉ (tree.children n).flatMap tree.below := by
    intro hmem
    obtain ⟨c, hc, hnc⟩ := List.mem_flatMap.1 hmem
    have hidom := htree.mem_children_iff.1 hc
    have hcn := (htree.mem_below_iff.1 hnc).2
    exact htree.ne_idom hidom ((htree.guards c n hidom).antisymm hcn (hcn.reaches hn))
  have hsubset : n :: (tree.children n).flatMap tree.below ⊆ tree.below n := by
    refine List.cons_subset.2 ⟨htree.mem_below_iff.2 ⟨hn, .refl g root n⟩, fun m hm => ?_⟩
    obtain ⟨c, hc, hmc⟩ := List.mem_flatMap.1 hm
    obtain ⟨hm, hcm⟩ := htree.mem_below_iff.1 hmc
    have hidom := htree.mem_children_iff.1 hc
    exact htree.mem_below_iff.2 ⟨hm, (htree.guards c n hidom).trans hcm⟩
  have hle := ((List.nodup_cons.2 ⟨hnotMem, hnodup⟩).subperm hsubset).length_le
  rw [List.length_cons, List.length_flatMap] at hle
  exact hle

/-! ## Walks -/

/-- A walk comes to all that the nodes of its queue dominate. -/
lemma mem_breadthFirstFrom (htree : Immediate g root tree) (fuel : Nat) {queue : List Nat}
    (hqueue : ∀ q ∈ queue, g.Reaches root q)
    (hfuel : (queue.map fun q => (tree.below q).length).sum ≤ fuel) (hn : n ∈ queue)
    (hm : g.Reaches root m) (hguards : g.Guards root n m) :
    m ∈ tree.breadthFirstFrom fuel queue := by
  induction fuel generalizing queue n with
  | zero =>
    have hpos : 0 < (queue.map fun q => (tree.below q).length).sum := by
      refine List.sum_pos_iff_exists_pos_nat.2 ⟨_, List.mem_map_of_mem hn, ?_⟩
      exact List.length_pos_of_mem (htree.mem_below_iff.2 ⟨hm, hguards⟩)
    omega
  | succ fuel ih =>
    cases queue with
    | nil => simp at hn
    | cons q queue =>
      rw [List.forall_mem_cons] at hqueue
      have hless := htree.sum_length_below_lt hqueue.1
      have hnext : ∀ p ∈ queue ++ tree.children q, g.Reaches root p := by
        intro p hp
        rcases List.mem_append.1 hp with hp | hp
        · exact hqueue.2 p hp
        · exact htree.reaches p q (htree.mem_children_iff.1 hp)
      have hfuel' : ((queue ++ tree.children q).map fun p => (tree.below p).length).sum ≤ fuel := by
        rw [List.map_append, List.sum_append]
        rw [List.map_cons, List.sum_cons] at hfuel
        omega
      rw [breadthFirstFrom, List.mem_cons]
      by_cases hsame : m = q
      · exact .inl hsame
      refine .inr ?_
      rcases List.mem_cons.1 hn with rfl | hn
      · obtain ⟨c, hc, hcm⟩ := htree.exists_child hm hguards hsame
        exact ih hnext hfuel' (List.mem_append_right _ hc) hcm
      · exact ih hnext hfuel' (List.mem_append_left _ hn) hguards

/-- The walk from a node comes to all that the node dominates. -/
theorem mem_breadthFirst (htree : Immediate g root tree) (hg : g.Proper) (hroot : root < g.size)
    (hm : g.Reaches root m) (hdom : tree.dominates n m = true) : m ∈ tree.breadthFirst n := by
  have hguards := hm.dominates_iff.1 (htree.dominates_iff.1 hdom)
  have hsubset : tree.below n ⊆ List.range g.size := by
    intro p hp
    exact List.mem_range.2 (hg.lt_of_reaches hroot (htree.mem_below_iff.1 hp).1)
  have hsize := ((htree.nodup_below n).subperm hsubset).length_le
  rw [List.length_range] at hsize
  rw [breadthFirst, htree.graph_eq]
  refine htree.mem_breadthFirstFrom g.size ?_ ?_ (List.mem_singleton_self n) hm hguards
  · simpa using hguards.reaches hm
  · simpa using hsize

end Immediate

end DominatorTree

end Decompiler
