import Mathlib.Data.Multiset.Range
import Mathlib.Tactic.Lemma
import Decompiler.Flow.Recovery

/-!
# Steps of the recovery

A logic for steps that may fail.  `Yields x s post` says that the step `x` succeeds from the state `s`
and leaves `post`; the rules for sequences and loops are stated once, and then what each of the small
steps of the recovery does to the slots.  Between steps, `Keeps region` is the frame condition (no slot
outside the region changes, and no label is given back), and `Holds region` says what the slots of a
region hold.
-/

namespace Decompiler

variable {σ α β : Type}

/-! ### Steps that succeed -/

/-- Runs a step from a state. -/
def exec (x : ExceptT Error (StateM σ) α) (s : σ) : Except Error α × σ :=
  StateT.run (ExceptT.run x) s

/-- The step succeeds from a state, and what it gives and leaves is related. -/
def Yields (x : ExceptT Error (StateM σ) α) (s : σ) (post : α → σ → Prop) : Prop :=
  ∃ a t, exec x s = (.ok a, t) ∧ post a t

/-- A step after one that succeeds runs on its result. -/
lemma exec_bind_of_ok {x : ExceptT Error (StateM σ) α} {f : α → ExceptT Error (StateM σ) β}
    {s t : σ} {a : α} (h : exec x s = (.ok a, t)) : exec (x >>= f) s = exec (f a) t := by
  unfold exec at h ⊢
  rw [ExceptT.run_bind, StateT.run_bind, h]
  rfl

/-- A step after one that fails is not run. -/
lemma exec_bind_of_error {x : ExceptT Error (StateM σ) α} {f : α → ExceptT Error (StateM σ) β}
    {s t : σ} {e : Error} (h : exec x s = (.error e, t)) : exec (x >>= f) s = (.error e, t) := by
  unfold exec at h ⊢
  rw [ExceptT.run_bind, StateT.run_bind, h]
  rfl

namespace Yields

/-- Giving a value succeeds. -/
lemma pure {a : α} {s : σ} {post : α → σ → Prop} (h : post a s) :
    Yields (Pure.pure a) s post :=
  ⟨a, s, rfl, h⟩

/-- One step after the other. -/
lemma bind {x : ExceptT Error (StateM σ) α} {f : α → ExceptT Error (StateM σ) β} {s : σ}
    {mid : α → σ → Prop} {post : β → σ → Prop} (hx : Yields x s mid)
    (hf : ∀ a t, mid a t → Yields (f a) t post) : Yields (x >>= f) s post := by
  obtain ⟨a, t, hrun, hmid⟩ := hx
  obtain ⟨b, u, hrun', hpost⟩ := hf a t hmid
  exact ⟨b, u, (exec_bind_of_ok hrun).trans hrun', hpost⟩

/-- A weaker postcondition. -/
lemma mono {x : ExceptT Error (StateM σ) α} {s : σ} {post post' : α → σ → Prop}
    (hx : Yields x s post) (h : ∀ a t, post a t → post' a t) : Yields x s post' := by
  obtain ⟨a, t, hrun, hpost⟩ := hx
  exact ⟨a, t, hrun, h a t hpost⟩

/-- A loop keeps what each round keeps. -/
lemma foldlM {f : β → α → ExceptT Error (StateM σ) β} {inv : β → σ → Prop} {list : List α}
    (hf : ∀ b, ∀ a ∈ list, ∀ s, inv b s → Yields (f b a) s inv) {b : β} {s : σ} (h : inv b s) :
    Yields (list.foldlM f b) s inv := by
  induction list generalizing b s with
  | nil => exact .pure h
  | cons a rest ih =>
    rw [List.foldlM_cons]
    refine (hf b a List.mem_cons_self s h).bind fun b t hb => ?_
    exact ih (fun b a ha => hf b a (List.mem_cons_of_mem _ ha)) hb

end Yields

/-! ### Steps that keep an invariant -/

/-- Whenever the step succeeds from a state with the invariant, it leaves one with the invariant, and what
it gives has a property. -/
def Upholds (inv : σ → Prop) (x : ExceptT Error (StateM σ) α) (post : α → Prop) : Prop :=
  ∀ s a t, inv s → exec x s = (.ok a, t) → inv t ∧ post a

/-- What two steps give is what the second gives for what the first gives. -/
lemma exec_bind_eq_ok {x : ExceptT Error (StateM σ) α} {f : α → ExceptT Error (StateM σ) β}
    {s u : σ} {b : β} (h : exec (x >>= f) s = (.ok b, u)) :
    ∃ a t, exec x s = (.ok a, t) ∧ exec (f a) t = (.ok b, u) := by
  cases hx : exec x s with
  | mk result t =>
    cases result with
    | ok a => exact ⟨a, t, rfl, (exec_bind_of_ok hx).symm.trans h⟩
    | error e =>
      rw [exec_bind_of_error hx] at h
      cases h

namespace Upholds

variable {inv : σ → Prop}

/-- Giving a value changes nothing. -/
lemma pure {a : α} {post : α → Prop} (h : post a) : Upholds inv (Pure.pure a) post := by
  intro s _ _ hs hrun
  cases hrun
  exact ⟨hs, h⟩

/-- A step that fails leaves nothing to show. -/
lemma throw {e : Error} {post : α → Prop} : Upholds inv (MonadExcept.throw e) post := by
  intro s _ _ _ hrun
  cases hrun

/-- One step after the other. -/
lemma bind {x : ExceptT Error (StateM σ) α} {f : α → ExceptT Error (StateM σ) β} {mid : α → Prop}
    {post : β → Prop} (hx : Upholds inv x mid) (hf : ∀ a, mid a → Upholds inv (f a) post) :
    Upholds inv (x >>= f) post := by
  intro s b u hs hrun
  obtain ⟨a, t, hx', hf'⟩ := exec_bind_eq_ok hrun
  obtain ⟨ht, hmid⟩ := hx s a t hs hx'
  exact hf a hmid t b u ht hf'

/-- A loop keeps what each round keeps. -/
lemma foldlM {f : β → α → ExceptT Error (StateM σ) β} {post : β → Prop} {list : List α}
    (hf : ∀ b a, post b → Upholds inv (f b a) post) {b : β} (h : post b) :
    Upholds inv (list.foldlM f b) post := by
  induction list generalizing b with
  | nil => exact .pure h
  | cons a rest ih =>
    rw [List.foldlM_cons]
    exact (hf b a h).bind fun b hb => ih hb

/-- Each element of what a loop gives has the property that each round shows. -/
lemma mapM {f : α → ExceptT Error (StateM σ) β} {post : β → Prop} {list : List α}
    (hf : ∀ a, Upholds inv (f a) post) : Upholds inv (list.mapM f) fun bs => ∀ b ∈ bs, post b := by
  induction list with
  | nil =>
    rw [List.mapM_nil]
    exact .pure (List.forall_mem_nil _)
  | cons a rest ih =>
    rw [List.mapM_cons]
    exact (hf a).bind fun b hb => ih.bind fun bs hbs => .pure (List.forall_mem_cons.mpr ⟨hb, hbs⟩)

end Upholds

/-! ### Slots -/

/-- The item in a slot, if it has not been placed. -/
def RecoveryState.slot (s : RecoveryState) (i : Nat) : Option Stmt :=
  (s.slots[i]?).join

/-- The number of labels of the unit so far. -/
def RecoveryState.minted (s : RecoveryState) : Nat :=
  s.context.labels.names.length

/-- The region of a single item. -/
def Region.only (i : Nat) : Region :=
  NodeSet.empty.insert i

@[simp] lemma Region.mem_only (i j : Nat) : (only i).mem j = decide (i = j) := by
  simp [only]

/-- Taking an item out of a region is claiming it alone. -/
lemma Region.mem_erase_only (region : Region) (i j : Nat) :
    (region.erase i).mem j = (region.mem j && !(only i).mem j) := by
  simp

/-- A region is what is in it. -/
lemma Region.ext {a b : Region} (h : ∀ i, a.mem i = b.mem i) : a = b := by
  cases a
  cases b
  exact congrArg NodeSet.mk (Nat.eq_of_testBit_eq h)

/-- No slot outside the region changes, and no label is given back. -/
structure Keeps (region : Region) (s t : RecoveryState) : Prop where
  slots : ∀ i, region.mem i = false → t.slot i = s.slot i
  minted : s.minted ≤ t.minted

/-- Every slot of the region is empty. -/
def Emptied (region : Region) (s : RecoveryState) : Prop :=
  ∀ i, region.mem i = true → s.slot i = none

/-- Every slot of the region holds a basic block with the given property. -/
def Holds (good : Nat → BasicBlock → Prop) (region : Region) (s : RecoveryState) : Prop :=
  ∀ i, region.mem i = true → ∃ block, s.slot i = some (.basic block) ∧ good i block

/-- One region is part of another. -/
def Within (inner outer : Region) : Prop :=
  ∀ i, inner.mem i = true → outer.mem i = true

section Slots

variable {good : Nat → BasicBlock → Prop} {region inner : Region} {s t u : RecoveryState}

lemma Keeps.refl : Keeps region s s := ⟨fun _ _ => rfl, Nat.le_refl _⟩

lemma Keeps.trans (h : Keeps region s t) (h' : Keeps region t u) : Keeps region s u :=
  ⟨fun i hi => (h'.slots i hi).trans (h.slots i hi), Nat.le_trans h.minted h'.minted⟩

/-- What keeps the slots outside a region keeps those outside a larger one. -/
lemma Keeps.mono (h : Keeps inner s t) (hsub : Within inner region) : Keeps region s t := by
  refine ⟨fun i hi => h.slots i ?_, h.minted⟩
  cases hin : inner.mem i with
  | false => rfl
  | true => rw [hsub i hin] at hi; cases hi

/-- A single item is part of a region that it is in. -/
lemma within_only {i : Nat} (hi : region.mem i = true) : Within (.only i) region := by
  intro j hj
  rw [Region.mem_only, decide_eq_true_eq] at hj
  rwa [← hj]

/-- No item is part of every region. -/
lemma within_empty : Within .empty region := by
  simp [Within]

/-- A part of a region holds what the region holds. -/
lemma Holds.mono (h : Holds good region s) (hsub : Within inner region) : Holds good inner s :=
  fun i hi => h i (hsub i hi)

/-- A region holds what it held as long as no slot of it changes. -/
lemma Holds.keep (h : Holds good region s) (hkeep : Keeps inner s t)
    (hout : ∀ i, region.mem i = true → inner.mem i = false) : Holds good region t := by
  intro i hi
  rw [hkeep.slots i (hout i hi)]
  exact h i hi

end Slots

/-! ### Items of regions -/

namespace Region

/-- The items of a region. -/
def members (region : Region) : Multiset Nat :=
  region.toList

/-- A region and what is left of another one make up that other one. -/
lemma members_eq_add {region content rest : Region} (hcontent : Within content region)
    (hrest : ∀ i, rest.mem i = (region.mem i && !content.mem i)) :
    members region = members content + members rest := by
  refine Multiset.coe_eq_coe.mpr ?_
  refine (List.perm_ext_iff_of_nodup region.nodup_toList ?_).mpr fun i => ?_
  · refine List.nodup_append'.mpr ⟨content.nodup_toList, rest.nodup_toList, ?_⟩
    intro i hin hout
    rw [NodeSet.mem_toList] at hin hout
    rw [hrest, hin, Bool.not_true, Bool.and_false] at hout
    cases hout
  · rw [List.mem_append, NodeSet.mem_toList, NodeSet.mem_toList, NodeSet.mem_toList, hrest]
    cases hin : content.mem i with
    | true => simp [hcontent i hin]
    | false => simp

/-- A region with a single item. -/
lemma members_only (i : Nat) : members (only i) = {i} := by
  refine Multiset.coe_eq_coe.mpr ?_
  refine (List.perm_ext_iff_of_nodup (only i).nodup_toList (List.nodup_singleton i)).mpr ?_
  intro j
  rw [NodeSet.mem_toList, mem_only, decide_eq_true_eq, List.mem_singleton, eq_comm]

/-- An item of a region and the rest of it. -/
lemma members_eq_cons {region : Region} {i : Nat} (hi : region.mem i = true) :
    members region = i ::ₘ members (region.erase i) := by
  rw [members_eq_add (within_only hi) (region.mem_erase_only i), members_only,
    Multiset.singleton_add]

end Region

namespace Recovery

/-- Looking at a slot. -/
lemma exec_slot? (i : Nat) (s : RecoveryState) : exec (slot? i) s = (.ok (s.slot i), s) := rfl

/-- The basic block of a statement. -/
def basicOf? : Option Stmt → Option BasicBlock
  | some (.basic block) => some block
  | _ => none

/-- Only a basic block is the basic block of a statement. -/
lemma basicOf?_eq_some {item : Option Stmt} {block : BasicBlock} (h : basicOf? item = some block) :
    item = some (.basic block) := by
  unfold basicOf? at h
  split at h
  · cases h
    rfl
  · cases h

/-- Looking for a basic block in a slot. -/
lemma exec_basicBlock? (i : Nat) (s : RecoveryState) :
    exec (basicBlock? i) s = (.ok (basicOf? (s.slot i)), s) := by
  rw [basicBlock?, exec_bind_of_ok (exec_slot? i s)]
  cases s.slot i with
  | none => rfl
  | some item => cases item <;> rfl

/-- Looking for a basic block in a slot changes nothing. -/
lemma yields_basicBlock? (i : Nat) (s : RecoveryState) :
    Yields (basicBlock? i) s fun found t => t = s ∧ found = basicOf? (s.slot i) :=
  ⟨_, _, exec_basicBlock? i s, rfl, rfl⟩

/-- The slots after one of them has been changed. -/
lemma slot_setIfInBounds (s : RecoveryState) (i j : Nat) (v : Option Stmt) :
    RecoveryState.slot { s with slots := s.slots.setIfInBounds i v } j =
      if i = j ∧ i < s.slots.size then v else s.slot j := by
  simp only [RecoveryState.slot, Array.getElem?_setIfInBounds]
  split
  · rename_i h
    subst h
    split
    · simp [*]
    · simp [*]
  · simp [*]

/-- A slot that holds something is one of the slots. -/
lemma lt_of_slot {s : RecoveryState} {i : Nat} {item : Stmt} (h : s.slot i = some item) :
    i < s.slots.size := by
  rcases Nat.lt_or_ge i s.slots.size with hlt | hge
  · exact hlt
  · rw [RecoveryState.slot, Array.getElem?_eq_none hge] at h
    cases h

/-- Taking an item out of its slot. -/
lemma exec_take {i : Nat} {s : RecoveryState} {item : Stmt} (h : s.slot i = some item) :
    exec (take i) s = (.ok item, { s with slots := s.slots.setIfInBounds i none }) := by
  rw [take, exec_bind_of_ok (exec_slot? i s), h]
  rfl

/-- Taking an item empties its slot and no other. -/
lemma yields_take {i : Nat} {s : RecoveryState} {item : Stmt} (h : s.slot i = some item) :
    Yields (take i) s fun a t => a = item ∧ t.slot i = none ∧ Keeps (.only i) s t := by
  refine ⟨item, _, exec_take h, rfl, ?_, ?_, Nat.le_refl _⟩
  · rw [slot_setIfInBounds, if_pos ⟨rfl, lt_of_slot h⟩]
  · intro j hj
    rw [Region.mem_only, decide_eq_false_iff_not] at hj
    rw [slot_setIfInBounds, if_neg (by simp [hj])]

/-- Filling a slot changes no other. -/
lemma yields_setSlot {i : Nat} {s : RecoveryState} {item old : Stmt} (h : s.slot i = some old) :
    Yields (setSlot i item) s fun _ t => t.slot i = some item ∧ Keeps (.only i) s t := by
  refine ⟨(), _, rfl, ?_, ?_, Nat.le_refl _⟩
  · exact (slot_setIfInBounds s i i (some item)).trans (if_pos ⟨rfl, lt_of_slot h⟩)
  · intro j hj
    rw [Region.mem_only, decide_eq_false_iff_not] at hj
    exact (slot_setIfInBounds s i j (some item)).trans (if_neg (by simp [hj]))

/-- A new label changes no slot, and it is the next one. -/
lemma yields_fresh (stem : String) (s : RecoveryState) :
    Yields (fresh stem) s fun label t => label = s.minted ∧ Keeps .empty s t := by
  refine ⟨_, _, rfl, rfl, fun _ _ => rfl, ?_⟩
  simp only [RecoveryState.minted, List.length_append]
  exact Nat.le_add_right _ _

/-- A message changes no slot. -/
lemma yields_reportError (message : String) (item : Stmt) (s : RecoveryState) :
    Yields (reportError message item) s fun _ t => Keeps .empty s t :=
  ⟨_, _, rfl, fun _ _ => rfl, Nat.le_refl _⟩

/-- Taking an item out of a region that it is in. -/
lemma yields_remove {region : Region} {i : Nat} (h : region.mem i = true) (s : RecoveryState) :
    Yields (remove region i) s fun rest t => t = s ∧ rest = region.erase i := by
  rw [remove, if_pos h]
  exact .pure ⟨rfl, rfl⟩

/-- Taking the items of a list out of a region that they are in. -/
lemma yields_foldlM_remove {list : List Nat} {region : Region} (hnodup : list.Nodup)
    (hmem : ∀ i ∈ list, region.mem i = true) (s : RecoveryState) :
    Yields (list.foldlM remove region) s fun rest t =>
      t = s ∧ ∀ i, rest.mem i = (region.mem i && !list.contains i) := by
  induction list generalizing region with
  | nil => exact .pure ⟨rfl, by simp⟩
  | cons i later ih =>
    rw [List.foldlM_cons]
    refine (yields_remove (hmem i List.mem_cons_self) s).bind ?_
    rintro _ _ ⟨rfl, rfl⟩
    have hmem' : ∀ j ∈ later, (region.erase i).mem j = true := by
      intro j hj
      have hne : i ≠ j := fun h => (List.nodup_cons.mp hnodup).1 (h ▸ hj)
      simp [hmem j (List.mem_cons_of_mem _ hj), hne]
    refine (ih (List.nodup_cons.mp hnodup).2 hmem').mono ?_
    rintro rest t ⟨rfl, hrest⟩
    refine ⟨rfl, fun j => ?_⟩
    rw [hrest, NodeSet.mem_erase, List.contains_cons]
    by_cases hij : i = j
    · simp [hij]
    · have hne : (j == i) = false := beq_false_of_ne (Ne.symm hij)
      simp [hij, hne]

/-- Taking one region out of another that it is part of. -/
lemma yields_claimAll {region items : Region} (h : Within items region) (s : RecoveryState) :
    Yields (claimAll region items) s fun rest t =>
      t = s ∧ ∀ i, rest.mem i = (region.mem i && !items.mem i) := by
  refine (yields_foldlM_remove items.nodup_toList (fun i hi => h i (by simpa using hi)) s).mono ?_
  rintro rest t ⟨rfl, hrest⟩
  refine ⟨rfl, fun i => ?_⟩
  rw [hrest, Bool.eq_iff_iff]
  simp

/-- Placing the items of a list. -/
lemma yields_mapM_take {good : Nat → BasicBlock → Prop} {list : List Nat} (hnodup : list.Nodup)
    {s : RecoveryState}
    (hgood : ∀ i ∈ list, ∃ block, s.slot i = some (.basic block) ∧ good i block) :
    Yields (list.mapM fun i => do return (i, ← take i)) s fun placed t =>
      placed.map Prod.fst = list ∧ (∀ p ∈ placed, ∃ block, p.2 = .basic block ∧ good p.1 block) ∧
        (∀ i ∈ list, t.slot i = none) ∧ (∀ i, i ∉ list → t.slot i = s.slot i) ∧
        s.minted ≤ t.minted := by
  induction list generalizing s with
  | nil => exact .pure (by simp)
  | cons i later ih =>
    rw [List.mapM_cons]
    obtain ⟨block, hslot, hblock⟩ := hgood i List.mem_cons_self
    have hnotMem := (List.nodup_cons.mp hnodup).1
    have hfirst : Yields (do return (i, ← take i)) s fun p t =>
        p = (i, .basic block) ∧ t.slot i = none ∧ Keeps (.only i) s t :=
      (yields_take hslot).bind fun a t ht => .pure ⟨by rw [ht.1], ht.2⟩
    refine hfirst.bind ?_
    rintro _ t ⟨rfl, hempty, hkeeps⟩
    have hsame : ∀ j, j ≠ i → t.slot j = s.slot j := by
      intro j hj
      exact hkeeps.slots j (by simp [Ne.symm hj])
    have hgood' : ∀ j ∈ later, ∃ block, t.slot j = some (.basic block) ∧ good j block := by
      intro j hj
      rw [hsame j fun h => hnotMem (h ▸ hj)]
      exact hgood j (List.mem_cons_of_mem _ hj)
    refine (ih (List.nodup_cons.mp hnodup).2 hgood').bind ?_
    rintro placed u ⟨hfst, hplaced, hemptied, hkept, hminted⟩
    refine .pure ⟨by simp [hfst], ?_, ?_, ?_, Nat.le_trans hkeeps.minted hminted⟩
    · intro p hp
      rcases List.mem_cons.mp hp with rfl | hp
      · exact ⟨block, rfl, hblock⟩
      · exact hplaced p hp
    · intro j hj
      rcases List.mem_cons.mp hj with rfl | hj
      · rw [hkept j hnotMem, hempty]
      · exact hemptied j hj
    · intro j hj
      rw [List.mem_cons, not_or] at hj
      rw [hkept j hj.2, hsame j hj.1]

/-- Placing what is left of a region empties it. -/
lemma yields_drain {good : Nat → BasicBlock → Prop} {region : Region} {s : RecoveryState}
    (h : Holds good region s) :
    Yields (drain region) s fun placed t =>
      placed.map Prod.fst = region.toList ∧
        (∀ p ∈ placed, ∃ block, p.2 = .basic block ∧ good p.1 block) ∧
        Emptied region t ∧ Keeps region s t := by
  refine (yields_mapM_take region.nodup_toList fun i hi => h i (by simpa using hi)).mono ?_
  rintro placed t ⟨hfst, hplaced, hemptied, hkept, hminted⟩
  refine ⟨hfst, hplaced, fun i hi => hemptied i (by simpa using hi), fun i hi => hkept i ?_, hminted⟩
  simp [hi]

end Recovery

/-! ### Regions -/

namespace Digraph

/-- Expanding a set along edges adds only their targets. -/
lemma of_mem_expand {P : Nat → Prop} {edges : List (Nat × Nat)} (hedges : ∀ e ∈ edges, P e.2)
    {s : NodeSet} (hs : ∀ n, s.mem n = true → P n) {n : Nat} (hn : (expand edges s).mem n = true) :
    P n := by
  induction edges generalizing s with
  | nil => exact hs n hn
  | cons e rest ih =>
    refine ih (fun e he => hedges e (List.mem_cons_of_mem _ he)) ?_ hn
    intro m hm
    dsimp only at hm
    split at hm
    · rw [NodeSet.mem_insert, Bool.or_eq_true, decide_eq_true_eq] at hm
      rcases hm with hm | rfl
      · exact hs m hm
      · exact hedges e List.mem_cons_self
    · exact hs m hm

/-- The nodes that edges lead to are those of the start and the targets of the edges. -/
lemma of_mem_closure {P : Nat → Prop} {g : Digraph} (hedges : ∀ e ∈ g.edges, P e.2)
    {start : NodeSet} (hstart : ∀ n, start.mem n = true → P n) {n : Nat}
    (hn : (g.closure start).mem n = true) : P n := by
  unfold closure at hn
  generalize g.size = rounds at hn
  induction rounds generalizing start with
  | zero => exact hstart n hn
  | succ rounds ih =>
    rw [expandTimes] at hn
    split at hn
    · exact hstart n hn
    · exact ih (fun m hm => of_mem_expand hedges hstart hm) hn

end Digraph

/-- The number of a node is the one that it was read from. -/
lemma FlowNode.index_of_ofIndex {n : Nat} {node : FlowNode} (h : FlowNode.ofIndex n = node) :
    node.index = n := by
  subst h
  rcases n with - | - | n <;> rfl

/-- Every node dominates itself. -/
lemma DominatorTree.dominates_self (tree : DominatorTree) (n : Nat) : tree.dominates n n = true := by
  unfold dominates
  cases tree.dominators.order.length with
  | zero => simp [climbs]
  | succ fuel => simp [climbs]

namespace Layout

variable {layout : Layout} {region : Region} {head : Nat}

/-- An item of a set of nodes. -/
lemma mem_itemsOf {nodes : NodeSet} {i : Nat} (h : (itemsOf nodes).mem i = true) :
    nodes.mem (FlowNode.item i).index = true := by
  simp only [itemsOf, NodeSet.mem_ofList, List.contains_iff_mem, List.mem_filterMap,
    NodeSet.mem_toList] at h
  obtain ⟨node, hnode, hitem⟩ := h
  have hindex : (FlowNode.item i).index = node := by
    cases hflow : FlowNode.ofIndex node with
    | entry | exit =>
      rw [hflow] at hitem
      cases hitem
    | item position =>
      rw [hflow] at hitem
      cases hitem
      exact FlowNode.index_of_ofIndex hflow
  rw [hindex]
  exact hnode

/-- A node inside of what a head dominates, when it is an item. -/
lemma isInside_item {i : Nat} (h : layout.isInside region head (FlowNode.item i).index = true) :
    region.mem i = true ∧ layout.tree.dominates head (FlowNode.item i).index = true := by
  simpa [isInside, FlowNode.index, FlowNode.ofIndex] using h

/-- What a head dominates in a region. -/
lemma mem_dominated {i : Nat} (h : (layout.dominated region head).mem i = true) :
    region.mem i = true ∧ layout.tree.dominates head (FlowNode.item i).index = true := by
  unfold dominated at h
  dsimp only at h
  split at h
  · rename_i hhead
    apply isInside_item
    refine Digraph.of_mem_closure (P := fun n => layout.isInside region head n = true) ?_ ?_
      (mem_itemsOf h)
    · intro e he
      simp only [Digraph.filterEdges, List.mem_filter, Bool.and_eq_true] at he
      exact he.2.2
    · intro n hn
      simp only [NodeSet.mem_insert, NodeSet.mem_empty, Bool.false_or, decide_eq_true_eq] at hn
      rw [← hn]
      exact hhead
  · simp at h

/-- The loop of a head lies in the region, and the head dominates it. -/
lemma of_mem_loopContent {i : Nat} (h : (layout.loopContent region head).mem i = true) :
    region.mem i = true ∧ layout.tree.dominates head (FlowNode.item i).index = true := by
  have hcontent : ∀ i, (itemsOf ((layout.flow.graph.reverse.filterEdges fun edge =>
      layout.isInside region head edge.1 && layout.isInside region head edge.2).closure
      (NodeSet.ofList ((layout.flow.graph.predecessors head).filter
        (layout.isInside region head))))).mem i = true →
      region.mem i = true ∧ layout.tree.dominates head (FlowNode.item i).index = true := by
    intro i hi
    apply isInside_item
    refine Digraph.of_mem_closure (P := fun n => layout.isInside region head n = true) ?_ ?_
      (mem_itemsOf hi)
    · intro e he
      simp only [Digraph.filterEdges, List.mem_filter, Bool.and_eq_true] at he
      exact he.2.2
    · intro n hn
      rw [NodeSet.mem_ofList, List.contains_iff_mem, List.mem_filter] at hn
      exact hn.2
  unfold loopContent at h
  dsimp only at h
  split at h
  · split at h
    · rename_i item hhead hitem
      rw [NodeSet.mem_insert, Bool.or_eq_true, decide_eq_true_eq] at h
      rcases h with h | rfl
      · exact hcontent i h
      · rw [FlowNode.index_of_ofIndex hhead]
        exact ⟨hitem, layout.tree.dominates_self head⟩
    · exact hcontent i h
  · exact hcontent i h

/-- The loop of a head lies in the region. -/
lemma within_loopContent : Within (layout.loopContent region head) region :=
  fun _ hi => (of_mem_loopContent hi).1

/-- The loop of an item of the region holds the item. -/
lemma mem_loopContent {i : Nat} (h : region.mem i = true) :
    (layout.loopContent region (FlowNode.item i).index).mem i = true := by
  simp [loopContent, FlowNode.index, FlowNode.ofIndex, h]

end Layout

/-! ### Whole lists -/

/-- The state in which the recovery of a list starts. -/
def RecoveryState.start (items : List Stmt) (context : Context) : RecoveryState :=
  { slots := (items.map some).toArray, context }

/-- At the start every item is in its slot. -/
lemma RecoveryState.slot_start (items : List Stmt) (context : Context) (i : Nat) :
    (start items context).slot i = items[i]? := by
  simp only [start, slot, List.getElem?_toArray, List.getElem?_map]
  cases items[i]? with
  | none => rfl
  | some item => rfl

/-- The recovery of a list, as a run from that state. -/
lemma Recovery.run_eq {α : Type} (items : List Stmt) (context : Context) (recovery : Recovery α) :
    recovery.run items context =
      ((exec recovery (.start items context)).1, (exec recovery (.start items context)).2.context) :=
  rfl

/-- The region of all items of a list. -/
lemma members_fullRegion (block : Block) :
    Region.members (Layout.ofBlock block).fullRegion = .range block.body.length := by
  refine Multiset.coe_eq_coe.mpr ?_
  refine (List.perm_ext_iff_of_nodup (NodeSet.nodup_toList _) List.nodup_range).mpr fun i => ?_
  rw [NodeSet.mem_toList]
  simp [Layout.fullRegion, Layout.ofBlock, FlowGraph.build]

/-- Every slot of a list of sound blocks holds one of them. -/
lemma holds_fullRegion {good : Nat → BasicBlock → Prop} {block : Block}
    (h : ∀ (i : Nat) item, block.body[i]? = some item → ∃ b, item = .basic b ∧ good i b)
    (context : Context) :
    Holds good (Layout.ofBlock block).fullRegion (.start block.body context) := by
  intro i hi
  have hlt : i < block.body.length := by
    simpa [Layout.fullRegion, Layout.ofBlock, FlowGraph.build] using hi
  obtain ⟨b, hitem, hb⟩ := h i _ (List.getElem?_eq_getElem hlt)
  refine ⟨b, ?_, hb⟩
  rw [RecoveryState.slot_start, List.getElem?_eq_getElem hlt, hitem]

end Decompiler
