import Decompiler.Graph.Digraph
import Mathlib.Data.Finset.Card
import Mathlib.Data.Finset.Range
import Mathlib.Data.List.Nodup

/-!
# Paths and depth-first orders

`Digraph.Path` is a path with the nodes on it, and `Digraph.Guards` says that every path from the
root to a node has another node on it.  A node that the root reaches is dominated by the nodes that
guard it; a node that it does not reach is dominated by itself alone (`Digraph.Dominates`).

A depth-first search leaves a node after all that it meets below the node.  `Digraph.Searches` says
what such a search finds, with the successors of each node in any order, and
`Digraph.IsReversePostorder` that a list is the reverse of the order in which a search from the root
leaves the nodes.  All that is used of such a list is that it has each node that the root reaches
once, that the root is its head, and that every other node has a predecessor before it.
-/

namespace Decompiler

namespace Digraph

/-- The edges of a graph join nodes of the graph. -/
def Proper (g : Digraph) : Prop :=
  ∀ e ∈ g.edges, e.1 < g.size ∧ e.2 < g.size

instance (g : Digraph) : Decidable g.Proper :=
  inferInstanceAs (Decidable (∀ e ∈ g.edges, e.1 < g.size ∧ e.2 < g.size))

/-- A path from a start to a node, with the nodes on it, the last one first. -/
inductive Path (g : Digraph) (start : Nat) : Nat → List Nat → Prop
  | start : Path g start start [start]
  | step {a b : Nat} {nodes : List Nat} (hpath : Path g start a nodes) (hedge : (a, b) ∈ g.edges) :
      Path g start b (b :: nodes)

/-- There is a path from the root to a node. -/
def Reaches (g : Digraph) (root n : Nat) : Prop :=
  ∃ nodes, g.Path root n nodes

/-- Every path from the root to `b` passes through `a`. -/
def Guards (g : Digraph) (root a b : Nat) : Prop :=
  ∀ nodes, g.Path root b nodes → a ∈ nodes

/-- The two nodes are one, or the root reaches `b` and every path to it passes through `a`. -/
def Dominates (g : Digraph) (root a b : Nat) : Prop :=
  a = b ∨ g.Reaches root b ∧ g.Guards root a b

/-- The node `a` dominates another node `b`. -/
def StrictlyDominates (g : Digraph) (root a b : Nat) : Prop :=
  a ≠ b ∧ g.Dominates root a b

variable {g : Digraph} {start root a b n : Nat} {nodes met todo found order : List Nat}

/-! ## Paths -/

lemma mem_predecessors : a ∈ g.predecessors b ↔ (a, b) ∈ g.edges := by
  simp [predecessors]

lemma mem_successors : b ∈ g.successors a ↔ (a, b) ∈ g.edges := by
  simp [successors]

lemma Path.last_mem (h : g.Path start n nodes) : n ∈ nodes := by
  cases h <;> simp

lemma Path.start_mem (h : g.Path start n nodes) : start ∈ nodes := by
  induction h with
  | start => simp
  | step hpath hedge ih => exact List.mem_cons_of_mem _ ih

/-- A path that passes a node has a part that ends there. -/
lemma Path.exists_suffix (h : g.Path start n nodes) (ha : a ∈ nodes) :
    ∃ front, g.Path start a front ∧ front <:+ nodes := by
  induction h with
  | start =>
    obtain rfl := List.mem_singleton.1 ha
    exact ⟨_, .start, List.suffix_rfl⟩
  | @step c b nodes hpath hedge ih =>
    rcases List.mem_cons.1 ha with rfl | ha
    · exact ⟨_, hpath.step hedge, List.suffix_rfl⟩
    · obtain ⟨front, hfront, hsuffix⟩ := ih ha
      exact ⟨front, hfront, hsuffix.trans (List.suffix_cons _ _)⟩

/-- A path can be shortened to one that passes no node twice. -/
lemma Path.exists_nodup (h : g.Path start n nodes) :
    ∃ front, g.Path start n front ∧ front.Nodup ∧ ∀ m ∈ front, m ∈ nodes := by
  induction h with
  | start => exact ⟨_, .start, List.nodup_singleton _, fun m hm => hm⟩
  | @step c b nodes hpath hedge ih =>
    obtain ⟨front, hfront, hnodup, hsub⟩ := ih
    by_cases hb : b ∈ front
    · obtain ⟨cut, hcut, hsuffix⟩ := hfront.exists_suffix hb
      refine ⟨cut, hcut, hnodup.sublist hsuffix.sublist, fun m hm => ?_⟩
      exact List.mem_cons_of_mem _ (hsub m (hsuffix.subset hm))
    · refine ⟨b :: front, hfront.step hedge, List.nodup_cons.2 ⟨hb, hnodup⟩, fun m hm => ?_⟩
      exact List.mem_cons.2 ((List.mem_cons.1 hm).imp_right (hsub m))

lemma Reaches.refl (g : Digraph) (root : Nat) : g.Reaches root root :=
  ⟨_, .start⟩

lemma Reaches.step (h : g.Reaches root a) (hedge : (a, b) ∈ g.edges) : g.Reaches root b := by
  obtain ⟨nodes, hpath⟩ := h
  exact ⟨_, hpath.step hedge⟩

/-- A graph leads from its nodes to its nodes only. -/
lemma Proper.lt_of_reaches (hg : g.Proper) (hroot : root < g.size) (h : g.Reaches root n) :
    n < g.size := by
  obtain ⟨nodes, hpath⟩ := h
  induction hpath with
  | start => exact hroot
  | step hpath hedge ih => exact (hg _ hedge).2

/-- Every path to a node passes through the node. -/
lemma Guards.refl (g : Digraph) (root a : Nat) : g.Guards root a a :=
  fun _ hpath => hpath.last_mem

lemma Guards.trans {c : Nat} (hab : g.Guards root a b) (hbc : g.Guards root b c) :
    g.Guards root a c := by
  intro nodes hpath
  obtain ⟨front, hfront, hsuffix⟩ := hpath.exists_suffix (hbc nodes hpath)
  exact hsuffix.subset (hab front hfront)

/-- What guards another node guards its predecessors. -/
lemma Guards.of_edge (h : g.Guards root a b) (hne : a ≠ b) {p : Nat}
    (hedge : (p, b) ∈ g.edges) : g.Guards root a p := by
  intro nodes hpath
  have hmem : a ∈ b :: nodes := h _ (hpath.step hedge)
  exact (List.mem_cons.1 hmem).resolve_left hne

/-- The root is guarded by itself alone. -/
lemma Guards.eq_root (h : g.Guards root a root) : a = root :=
  List.mem_singleton.1 (h _ .start)

/-- The root reaches what guards a node that it reaches. -/
lemma Guards.reaches (h : g.Guards root a b) (hb : g.Reaches root b) : g.Reaches root a := by
  obtain ⟨nodes, hpath⟩ := hb
  obtain ⟨front, hfront, -⟩ := hpath.exists_suffix (h nodes hpath)
  exact ⟨front, hfront⟩

/-- Two nodes that guard each other are one, when the root reaches them. -/
lemma Guards.antisymm (hab : g.Guards root a b) (hba : g.Guards root b a)
    (hb : g.Reaches root b) : a = b := by
  obtain ⟨nodes, hpath⟩ := hb
  -- by induction on the path to `b`: it passes `a` before, and by then it has passed `b`
  induction hn : nodes.length using Nat.strong_induction_on generalizing nodes with
  | _ k ih =>
    obtain ⟨front, hfront, hsuffix⟩ := hpath.exists_suffix (hab nodes hpath)
    obtain ⟨front', hfront', hsuffix'⟩ := hfront.exists_suffix (hba front hfront)
    by_cases hlt : front'.length < nodes.length
    · exact ih _ (hn ▸ hlt) front' hfront' rfl
    · have hle := hsuffix.length_le
      have hle' := hsuffix'.length_le
      have hsame : front = nodes := hsuffix.eq_of_length (by omega)
      subst hsame
      cases hfront <;> cases hpath <;> rfl

/-- Domination of a node that the root reaches. -/
lemma Reaches.dominates_iff (h : g.Reaches root b) : g.Dominates root a b ↔ g.Guards root a b := by
  refine ⟨?_, fun hguards => .inr ⟨h, hguards⟩⟩
  rintro (rfl | ⟨-, hguards⟩)
  · exact .refl g root a
  · exact hguards

/-! ## Depth-first searches -/

/-- A depth-first search from the nodes of `todo`, which does not enter the nodes of `met`.  It finds
the nodes of `found`, and leaves them in the reverse order.  The successors of a node may be searched
in any order. -/
inductive Searches (g : Digraph) : List Nat → List Nat → List Nat → Prop
  | done (met : List Nat) : Searches g met [] []
  | skip {met rest found : List Nat} {n : Nat} (hmet : n ∈ met)
      (hrest : Searches g met rest found) : Searches g met (n :: rest) found
  | visit {met rest next below later : List Nat} {n : Nat} (hnew : n ∉ met)
      (hnext : ∀ m, m ∈ next ↔ (n, m) ∈ g.edges) (hbelow : Searches g (n :: met) next below)
      (hrest : Searches g (n :: below ++ met) rest later) :
      Searches g met (n :: rest) (later ++ n :: below)

/-- The reverse of the order in which a depth-first search from the root leaves the nodes. -/
def IsReversePostorder (g : Digraph) (root : Nat) (order : List Nat) : Prop :=
  g.Searches [] [root] order

namespace Searches

lemma notMem_met (h : g.Searches met todo found) (hn : n ∈ found) : n ∉ met := by
  induction h with
  | done met => simp at hn
  | skip hmet hrest ih => exact ih hn
  | visit hnew hnext hbelow hrest ihbelow ihrest =>
    rcases List.mem_append.1 hn with hlater | hn
    · exact fun hmet => ihrest hlater (List.mem_append_right _ hmet)
    · rcases List.mem_cons.1 hn with rfl | hn
      · exact hnew
      · exact fun hmet => ihbelow hn (List.mem_cons_of_mem _ hmet)

/-- No node is found twice. -/
lemma nodup (h : g.Searches met todo found) : found.Nodup := by
  induction h with
  | done met => exact List.nodup_nil
  | skip hmet hrest ih => exact ih
  | @visit met rest next below later n hnew hnext hbelow hrest ihbelow ihrest =>
    have hn : n ∉ below := fun hn => hbelow.notMem_met hn List.mem_cons_self
    refine List.nodup_append'.2 ⟨ihrest, List.nodup_cons.2 ⟨hn, ihbelow⟩, ?_⟩
    intro m hlater hm
    exact hrest.notMem_met hlater (List.mem_append_left _ hm)

lemma mem_of_todo (h : g.Searches met todo found) (hn : n ∈ todo) : n ∈ met ∨ n ∈ found := by
  induction h with
  | done met => simp at hn
  | skip hmet hrest ih =>
    rcases List.mem_cons.1 hn with rfl | hn
    · exact .inl hmet
    · exact ih hn
  | visit hnew hnext hbelow hrest ihbelow ihrest =>
    rcases List.mem_cons.1 hn with rfl | hn
    · exact .inr (by simp)
    · have hrest := ihrest hn
      simp only [List.mem_append, List.mem_cons] at hrest ⊢
      grind

/-- The edges out of the nodes that are found lead to nodes that are found or had been met. -/
lemma mem_of_edge (h : g.Searches met todo found) (ha : a ∈ found) (hedge : (a, b) ∈ g.edges) :
    b ∈ met ∨ b ∈ found := by
  induction h with
  | done met => simp at ha
  | skip hmet hrest ih => exact ih ha
  | @visit met rest next below later n hnew hnext hbelow hrest ihbelow ihrest =>
    rcases List.mem_append.1 ha with hlater | ha
    · have hb := ihrest hlater
      simp only [List.mem_append, List.mem_cons] at hb ⊢
      grind
    · have hb : b ∈ n :: met ∨ b ∈ below := by
        rcases List.mem_cons.1 ha with rfl | ha
        · exact hbelow.mem_of_todo ((hnext b).2 hedge)
        · exact ihbelow ha
      simp only [List.mem_append, List.mem_cons] at hb ⊢
      grind

/-- What is found is reached from one of the nodes to search from. -/
lemma reaches (h : g.Searches met todo found) (htodo : ∀ m ∈ todo, g.Reaches root m)
    (hn : n ∈ found) : g.Reaches root n := by
  induction h with
  | done met => simp at hn
  | skip hmet hrest ih => exact ih (fun m hm => htodo m (List.mem_cons_of_mem _ hm)) hn
  | @visit met rest next below later m hnew hnext hbelow hrest ihbelow ihrest =>
    have hm : g.Reaches root m := htodo m List.mem_cons_self
    rcases List.mem_append.1 hn with hlater | hn
    · exact ihrest (fun k hk => htodo k (List.mem_cons_of_mem _ hk)) hlater
    · rcases List.mem_cons.1 hn with rfl | hn
      · exact hm
      · exact ihbelow (fun k hk => hm.step ((hnext k).1 hk)) hn

/-- A node is searched from, or has a predecessor that is left after it. -/
lemma exists_predecessor (h : g.Searches met todo found) (hn : n ∈ found) :
    n ∈ todo ∨ ∃ p, (p, n) ∈ g.edges ∧ [p, n].Sublist found := by
  induction h with
  | done met => simp at hn
  | skip hmet hrest ih => exact (ih hn).imp_left (List.mem_cons_of_mem _)
  | @visit met rest next below later m hnew hnext hbelow hrest ihbelow ihrest =>
    rcases List.mem_append.1 hn with hlater | hn
    · refine (ihrest hlater).imp (List.mem_cons_of_mem _) ?_
      rintro ⟨p, hedge, hsub⟩
      exact ⟨p, hedge, hsub.trans (List.sublist_append_left _ _)⟩
    · rcases List.mem_cons.1 hn with rfl | hn
      · exact .inl List.mem_cons_self
      · refine .inr ?_
        rcases ihbelow hn with hfirst | ⟨p, hedge, hsub⟩
        · refine ⟨m, (hnext n).1 hfirst, List.Sublist.trans ?_ (List.sublist_append_right _ _)⟩
          exact (List.singleton_sublist.2 hn).cons_cons m
        · refine ⟨p, hedge, hsub.trans (List.Sublist.trans ?_ (List.sublist_append_right _ _))⟩
          exact List.sublist_cons_self _ _

/-- Only the members of the list of the nodes that have been met matter. -/
lemma congr {met' : List Nat} (h : g.Searches met todo found) (hmet : ∀ m, m ∈ met ↔ m ∈ met') :
    g.Searches met' todo found := by
  induction h generalizing met' with
  | done met => exact .done met'
  | skip hn hrest ih => exact .skip ((hmet _).1 hn) (ih hmet)
  | @visit met rest next below later n hnew hnext hbelow hrest ihbelow ihrest =>
    have hcons : ∀ m, m ∈ n :: met ↔ m ∈ n :: met' := by simp [hmet]
    have happend : ∀ m, m ∈ n :: below ++ met ↔ m ∈ n :: below ++ met' := by simp [hmet]
    exact .visit (fun hn => hnew ((hmet n).2 hn)) hnext (ihbelow hcons) (ihrest happend)

/-- A search from one node and a search from the others after it. -/
lemma cons {rest later : List Nat} (h : g.Searches met [n] found)
    (hrest : g.Searches (found ++ met) rest later) :
    g.Searches met (n :: rest) (later ++ found) := by
  cases h with
  | skip hmet hdone =>
    cases hdone
    simpa using hrest.skip hmet
  | visit hnew hnext hbelow hdone =>
    cases hdone
    exact .visit hnew hnext hbelow hrest

end Searches

namespace IsReversePostorder

lemma nodup (h : g.IsReversePostorder root order) : order.Nodup :=
  Searches.nodup h

/-- The order begins with the root. -/
lemma exists_cons (h : g.IsReversePostorder root order) : ∃ rest, order = root :: rest := by
  cases h with
  | skip hmet hrest => simp at hmet
  | visit hnew hnext hbelow hrest =>
    cases hrest
    exact ⟨_, rfl⟩

/-- The order has the nodes that the root reaches. -/
lemma mem_iff (h : g.IsReversePostorder root order) : n ∈ order ↔ g.Reaches root n := by
  constructor
  · refine fun hn => Searches.reaches h (fun m hm => ?_) hn
    rw [List.mem_singleton.1 hm]
    exact .refl g root
  · rintro ⟨nodes, hpath⟩
    induction hpath with
    | start =>
      obtain ⟨rest, rfl⟩ := h.exists_cons
      exact List.mem_cons_self
    | step hpath hedge ih =>
      have hb := Searches.mem_of_edge h ih hedge
      simpa using hb

/-- A node other than the root has a predecessor before it. -/
lemma exists_predecessor (h : g.IsReversePostorder root order) (hn : n ∈ order) (hne : n ≠ root) :
    ∃ p, (p, n) ∈ g.edges ∧ [p, n].Sublist order :=
  (Searches.exists_predecessor h hn).resolve_left (by simpa using hne)

end IsReversePostorder

/-! ## The search of the program -/

/-- The nodes that have not been met. -/
def unmet (g : Digraph) (met : List Nat) : Finset Nat :=
  (Finset.range g.size).filter (· ∉ met)

lemma card_unmet_anti {met' : List Nat} (h : ∀ m ∈ met, m ∈ met') :
    (g.unmet met').card ≤ (g.unmet met).card := by
  refine Finset.card_le_card (Finset.monotone_filter_right _ ?_)
  exact fun m _ hm hmet => hm (h m hmet)

lemma card_unmet_cons (hn : n ∉ met) (hlt : n < g.size) :
    (g.unmet (n :: met)).card < (g.unmet met).card := by
  refine Finset.card_lt_card (Finset.ssubset_iff_of_subset ?_ |>.2 ⟨n, ?_, ?_⟩)
  · exact Finset.monotone_filter_right _ fun m _ hm hmet => hm (List.mem_cons_of_mem _ hmet)
  · simp [unmet, hn, hlt]
  · simp [unmet]

/-- What a search of the program does: it finds nodes as a depth-first search does, puts them in
front of those it has left and among those it has met. -/
def Extends (g : Digraph) (met todo : List Nat) (search search' : Search) : Prop :=
  ∃ found, g.Searches met todo found ∧ search'.left = found ++ search.left ∧
    ∀ m, search'.met.mem m = true ↔ m ∈ found ++ met

lemma extends_foldl (visit : Search → Nat → Search) (todo : List Nat) (search : Search)
    (hmet : ∀ m, search.met.mem m = true ↔ m ∈ met)
    (hvisit : ∀ (search : Search) (seen : List Nat), ∀ n ∈ todo, (∀ m ∈ met, m ∈ seen) →
      (∀ m, search.met.mem m = true ↔ m ∈ seen) → g.Extends seen [n] search (visit search n)) :
    g.Extends met todo search (todo.foldl visit search) := by
  induction todo generalizing met search with
  | nil => exact ⟨[], .done met, rfl, hmet⟩
  | cons n rest ih =>
    obtain ⟨found, hfound, hleft, hmet'⟩ :=
      hvisit search met n List.mem_cons_self (fun m hm => hm) hmet
    obtain ⟨later, hlater, hleft', hmet''⟩ := ih _ hmet' fun search seen k hk hsub =>
      hvisit search seen k (List.mem_cons_of_mem _ hk) fun m hm =>
        hsub m (List.mem_append_right _ hm)
    refine ⟨later ++ found, hfound.cons hlater, ?_, fun m => ?_⟩
    · rw [List.foldl_cons, hleft', hleft, List.append_assoc]
    · rw [List.foldl_cons, hmet'', List.append_assoc]

lemma extends_searchFrom (hg : g.Proper) (fuel : Nat) (search : Search) (hn : n < g.size)
    (hmet : ∀ m, search.met.mem m = true ↔ m ∈ met) (hfuel : (g.unmet met).card ≤ fuel) :
    g.Extends met [n] search (g.searchFrom fuel search n) := by
  induction fuel generalizing met search n with
  | zero =>
    have hempty : g.unmet met = ∅ := Finset.card_eq_zero.1 (Nat.le_zero.1 hfuel)
    have hseen : n ∈ met := by
      by_contra hnew
      have hunmet : n ∈ g.unmet met := by simp [unmet, hn, hnew]
      rw [hempty] at hunmet
      exact Finset.notMem_empty n hunmet
    exact ⟨[], .skip hseen (.done met), rfl, hmet⟩
  | succ fuel ih =>
    rw [searchFrom]
    by_cases hseen : search.met.mem n = true
    · rw [if_pos hseen]
      exact ⟨[], .skip ((hmet n).1 hseen) (.done met), rfl, hmet⟩
    · rw [if_neg hseen]
      have hnew : n ∉ met := fun hn => hseen ((hmet n).2 hn)
      have hcard := card_unmet_cons hnew hn
      have hinsert : ∀ m, (search.met.insert n).mem m = true ↔ m ∈ n :: met := by
        intro m
        rw [NodeSet.mem_insert, Bool.or_eq_true, hmet, decide_eq_true_iff, List.mem_cons, or_comm,
          eq_comm]
      obtain ⟨below, hbelow, hleft, hmet'⟩ :=
        extends_foldl (g.searchFrom fuel) (g.successors n)
          { search with met := search.met.insert n } hinsert
          fun search seen k hk hsub hseen => by
            have hk : k < g.size := (hg _ (mem_successors.1 hk)).2
            have hless := card_unmet_anti (g := g) hsub
            exact ih search hk hseen (by omega)
      refine ⟨n :: below, .visit hnew (fun m => mem_successors) hbelow (.done _), ?_, fun m => ?_⟩
      · simp only [hleft, List.cons_append]
      · simp only [hmet', List.mem_append, List.mem_cons]
        tauto

/-- The order of the program is a reverse postorder. -/
theorem isReversePostorder_reversePostorder (hg : g.Proper) (hroot : root < g.size) :
    g.IsReversePostorder root (g.reversePostorder root) := by
  have hfuel : (g.unmet []).card ≤ g.size := by simp [unmet]
  have hmet : ∀ m, NodeSet.empty.mem m = true ↔ m ∈ ([] : List Nat) := by simp
  obtain ⟨found, hfound, hleft, -⟩ := extends_searchFrom hg g.size {} hroot hmet hfuel
  rw [List.append_nil] at hleft
  rw [reversePostorder, hleft]
  exact hfound

end Digraph

end Decompiler
