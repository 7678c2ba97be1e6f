import Decompiler.Proofs.LoopRecovery
import Decompiler.Proofs.StatementKinds

/-!
# Code that the recovery of loops keeps

The recovery of loops only moves code: an arrangement of some items holds each statement of theirs as
often as they do (`Loops.Arranges.countList_eq`), apart from jumps and labels.  A label may turn into the
stop of a scope, so the two are counted together.

What gets lost is what a scope takes along with its own head.  So the recovery keeps all code exactly
when it loses no block at whose end a scope starts (`keepsCode_findLoops_iff`).
-/

namespace Decompiler

namespace Stmt

/-! ### Counting -/

/-- Whether the statement is the given label. -/
def isLabel (target : LabelId) : Stmt → Bool
  | .label id => id == target
  | _ => false

/-- Whether the statement is a scope with the given stop label. -/
def stopsAt (target : LabelId) : Stmt → Bool
  | .scope _ _ (some stop) => stop == target
  | _ => false

/-- Whether the statement is code that the recovery of loops has to keep: it is no label or jump, and no
statement that the recovery makes. -/
def isCode : Stmt → Bool
  | .assign _ _ | .call _ _ | .discard _ | .push _ | .ret _ | .exit | .dispatch _ _ _
  | .scope _ _ none => true
  | _ => false

/-- The number of statements of two lists that pass a test. -/
lemma countList_append (test : Stmt → Bool) (a b : List Stmt) :
    countList test (a ++ b) = countList test a + countList test b := by
  induction a with
  | nil => simp [countList]
  | cons s rest ih => simp only [List.cons_append, countList, ih, Nat.add_assoc]

/-- The number of statements of a list that pass a test, one after the other. -/
lemma countList_eq_sum (test : Stmt → Bool) (list : List Stmt) :
    countList test list = (list.map (count test)).sum := by
  induction list with
  | nil => rfl
  | cons s rest ih => simp only [countList, ih, List.map_cons, List.sum_cons]

/-- A list of statements none of which passes a test. -/
lemma countList_eq_zero {test : Stmt → Bool} {list : List Stmt} (h : ∀ s ∈ list, s.count test = 0) :
    countList test list = 0 := by
  rw [countList_eq_sum]
  refine List.sum_eq_zero fun n hn => ?_
  obtain ⟨s, hs, rfl⟩ := List.mem_map.mp hn
  exact h s hs

/-- The number that a statement itself adds. -/
lemma ite_or {a b : Stmt → Bool} (h : ∀ s, a s = true → b s = false) (s : Stmt) :
    (if (a s || b s) = true then 1 else 0) =
      (if a s = true then 1 else 0) + (if b s = true then 1 else 0) := by
  cases ha : a s with
  | true => simp [h s ha]
  | false => simp

mutual

/-- Statements that pass one of two tests that exclude each other are counted apart. -/
lemma count_or {a b : Stmt → Bool} (h : ∀ s, a s = true → b s = false) :
    (s : Stmt) → s.count (fun s => a s || b s) = s.count a + s.count b
  | .basic block | .seq block | .loop _ block | .scope _ block _ => by
    simp only [count, ite_or h, countList_or h block.body]
    omega
  | .cond _ thenBlock elseBlock => by
    simp only [count, ite_or h, countList_or h thenBlock.body, countList_or h elseBlock.body]
    omega
  | .switch _ cases => by
    simp only [count, ite_or h, countCases_or h cases]
    omega
  | .label _ | .raw _ _ | .push _ | .assign _ _ | .call _ _ | .discard _ | .goto _ | .condGoto _ _
  | .pushEnv _ _ | .popEnv _ | .dispatch _ _ _ | .ret _ | .exit | .breakOut | .continueLoop => by
    simp only [count, ite_or h]

/-- Statements of a list that pass one of two tests that exclude each other are counted apart. -/
lemma countList_or {a b : Stmt → Bool} (h : ∀ s, a s = true → b s = false) :
    (list : List Stmt) → countList (fun s => a s || b s) list = countList a list + countList b list
  | [] => rfl
  | s :: rest => by
    simp only [countList, count_or h s, countList_or h rest]
    omega

/-- Statements of cases that pass one of two tests that exclude each other are counted apart. -/
lemma countCases_or {a b : Stmt → Bool} (h : ∀ s, a s = true → b s = false) :
    (cases : List SwitchCase) →
      countCases (fun s => a s || b s) cases = countCases a cases + countCases b cases
  | [] => rfl
  | c :: rest => by
    simp only [countCases, countList_or h c.body.body, countCases_or h rest]
    omega

end

mutual

/-- A label is counted as often as it is defined. -/
lemma count_isLabel (target : LabelId) : (s : Stmt) → s.count (isLabel target) = s.labels.count target
  | .label id => by
    by_cases h : id = target
    · simp [count, isLabel, labels, h]
    · simp [count, isLabel, labels, h]
  | .basic block | .seq block | .loop _ block | .scope _ block _ => by
    simp [count, isLabel, labels, countList_isLabel target block.body]
  | .cond _ thenBlock elseBlock => by
    simp [count, isLabel, labels, countList_isLabel target thenBlock.body,
      countList_isLabel target elseBlock.body]
  | .switch _ cases => by
    simp [count, isLabel, labels, countCases_isLabel target cases]
  | .raw _ _ | .push _ | .assign _ _ | .call _ _ | .discard _ | .goto _ | .condGoto _ _
  | .pushEnv _ _ | .popEnv _ | .dispatch _ _ _ | .ret _ | .exit | .breakOut | .continueLoop => rfl

/-- A label is counted in a list as often as it is defined there. -/
lemma countList_isLabel (target : LabelId) :
    (list : List Stmt) → countList (isLabel target) list = (labelsOfList list).count target
  | [] => rfl
  | s :: rest => by
    simp only [countList, labelsOfList, List.count_append, count_isLabel target s,
      countList_isLabel target rest]

/-- A label is counted in cases as often as it is defined there. -/
lemma countCases_isLabel (target : LabelId) :
    (cases : List SwitchCase) → countCases (isLabel target) cases = (labelsOfCases cases).count target
  | [] => rfl
  | c :: rest => by
    simp only [countCases, labelsOfCases, List.count_append, countList_isLabel target c.body.body,
      countCases_isLabel target rest]

end

/-- No scope has a stop label before loops are recovered. -/
lemma count_stopsAt_of_isSimple (target : LabelId) {s : Stmt} (h : s.isSimple = true) :
    s.count (stopsAt target) = 0 := by
  refine count_eq_zero_of_isSimple (fun s hs => ?_) h
  cases s with
  | scope env body stop =>
    simp only [isSimple, isInner, Bool.and_eq_true, Option.isNone_iff_eq_none] at hs
    rw [hs.1.2, stopsAt]
    simp
  | _ => rfl

end Stmt

/-! ### Arrangements -/

namespace Loops

/-- A test that the recovery of loops does not matter for: jumps, loops and new labels do not pass it,
and a scope with a stop label passes it exactly when the label does. -/
structure Neutral (bound : Nat) (test : Stmt → Bool) : Prop where
  basic : ∀ block, test (.basic block) = false
  goto : ∀ target, test (.goto target) = false
  condGoto : ∀ e target, test (.condGoto e target) = false
  pushEnv : ∀ env skip, test (.pushEnv env skip) = false
  popEnv : ∀ back, test (.popEnv back) = false
  loop : ∀ e body, test (.loop e body) = false
  scope : ∀ env body stop, test (.scope env body (some stop)) = test (.label stop)
  fresh : ∀ label, bound ≤ label → test (.label label) = false

/-- Code is no matter of labels and jumps. -/
lemma neutral_of_isCode (bound : Nat) {test : Stmt → Bool} (h : ∀ s, test s = true → s.isCode = true) :
    Neutral bound test := by
  have hnone : ∀ s, s.isCode = false → test s = false := by
    intro s hs
    cases htest : test s with
    | false => rfl
    | true => rw [h s htest] at hs; cases hs
  exact {
    basic _ := hnone _ rfl
    goto _ := hnone _ rfl
    condGoto _ _ := hnone _ rfl
    pushEnv _ _ := hnone _ rfl
    popEnv _ := hnone _ rfl
    loop _ _ := hnone _ rfl
    scope _ _ _ := (hnone _ rfl).trans (hnone _ rfl).symm
    fresh _ _ := hnone _ rfl }

/-- A label that is not new and the scopes that stop there. -/
lemma neutral_label {bound : Nat} {id : LabelId} (h : id < bound) :
    Neutral bound fun s => s.isLabel id || s.stopsAt id where
  basic _ := rfl
  goto _ := rfl
  condGoto _ _ := rfl
  pushEnv _ _ := rfl
  popEnv _ := rfl
  loop _ _ := rfl
  scope _ _ _ := (Bool.false_or _).trans (Bool.or_false _).symm
  fresh label hlabel := by
    have hne : label ≠ id := Nat.ne_of_gt (Nat.lt_of_lt_of_le h hlabel)
    simp [Stmt.isLabel, Stmt.stopsAt, hne]

/-- What an item counts for. -/
def share (items : List Stmt) (f : Stmt → Nat) (i : Nat) : Nat :=
  ((items[i]?).map f).getD 0

/-- The shares of all items. -/
lemma sum_share (items : List Stmt) (f : Stmt → Nat) :
    ((Multiset.range items.length).map (share items f)).sum = (items.map f).sum := by
  have hmap : (List.range items.length).map (share items f) = items.map f := by
    refine List.ext_getElem (by simp) fun i hi hi' => ?_
    rw [List.length_map, List.length_range] at hi
    simp [share, List.getElem?_eq_getElem hi]
  rw [Multiset.range, Multiset.map_coe, Multiset.sum_coe, hmap]

/-- The number of statements in an item that pass a test. -/
abbrev weight (items : List Stmt) (test : Stmt → Bool) : Nat → Nat :=
  share items (Stmt.count test)

/-- The weights of all items. -/
lemma sum_weight (items : List Stmt) (test : Stmt → Bool) :
    ((Multiset.range items.length).map (weight items test)).sum = Stmt.countList test items := by
  rw [sum_share, Stmt.countList_eq_sum]

variable {items list : List Stmt} {bound : Nat} {ids : Multiset Nat}

/-- The weight of an item that is a block. -/
lemma weight_basic {test : Stmt → Bool} (htest : Neutral bound test) {i : Nat} {block : BasicBlock}
    (h : items[i]? = some (.basic block)) :
    weight items test i = Stmt.countList test block.body := by
  simp [share, h, Stmt.count, htest.basic]

/-- An arrangement of items holds what they hold. -/
theorem Arranges.countList_eq {test : Stmt → Bool} (htest : Neutral bound test)
    (h : Arranges items bound list ids) :
    Stmt.countList test list = (ids.map (weight items test)).sum := by
  induction h with
  | nil => rfl
  | item hitem _ ih =>
    simp only [Multiset.map_cons, Multiset.sum_cons, weight_basic htest hitem, Stmt.countList,
      Stmt.count, htest.basic, ih]
    simp
  | scope hhead hbody _ hpop hpopBody _ _ ihInner ih =>
    simp only [Multiset.map_cons, Multiset.sum_cons, Multiset.map_add, Multiset.sum_add,
      weight_basic htest hhead, weight_basic htest hpop, hbody, hpopBody, Stmt.countList_append,
      Stmt.countList, Stmt.count, htest.basic, htest.goto, htest.pushEnv, htest.popEnv, htest.scope,
      ← ihInner, ← ih]
    simp
    omega
  | tested hheader hbody _ _ _ ihInner ih =>
    simp only [Multiset.map_cons, Multiset.sum_cons, Multiset.map_add, Multiset.sum_add,
      weight_basic htest hheader, hbody, Stmt.countList, Stmt.count, htest.basic, htest.goto,
      htest.condGoto, htest.loop, ← ihInner, ← ih]
    simp
    omega
  | endless hfresh _ _ ihInner ih =>
    simp only [Multiset.map_add, Multiset.sum_add, Stmt.countList, Stmt.count, htest.basic, htest.loop,
      htest.fresh _ hfresh, ← ihInner, ← ih]
    simp

/-- A scope with a stop label has taken the place of the block with that label that ends a round. -/
lemma Arranges.exists_pop {id : LabelId}
    (hitems : ∀ (i : Nat) block, items[i]? = some (.basic block) →
      Stmt.countList (Stmt.stopsAt id) block.body = 0)
    (h : Arranges items bound list ids) (hstop : Stmt.countList (Stmt.stopsAt id) list ≠ 0) :
    ∃ block back after, .basic block ∈ items ∧
      block.body = [.label id, .popEnv back, .goto after] := by
  induction h with
  | nil => exact absurd rfl hstop
  | @item i block rest ids hitem _ ih =>
    refine ih ?_
    simpa [Stmt.countList, Stmt.count, Stmt.stopsAt, hitems i block hitem] using hstop
  | @scope i pop head popBlock init body rest env skip enter after inner ids hhead hbody _ hpop hpopBody
      _ _ ihInner ih =>
    by_cases hskip : skip = id
    · subst hskip
      exact ⟨popBlock, enter, after, List.mem_of_getElem? hpop, hpopBody⟩
    by_cases hinner : Stmt.countList (Stmt.stopsAt id) body = 0
    · refine ih ?_
      have hinit := hitems i head hhead
      rw [hbody, Stmt.countList_append, Nat.add_eq_zero_iff] at hinit
      simpa [Stmt.countList_append, Stmt.countList, Stmt.count, Stmt.stopsAt, hskip, hinner,
        hinit.1] using hstop
    · exact ihInner hinner
  | @tested _ _ body _ _ _ _ _ _ _ _ _ _ _ _ _ ihInner ih =>
    by_cases hinner : Stmt.countList (Stmt.stopsAt id) body = 0
    · refine ih ?_
      simpa [Stmt.countList, Stmt.count, Stmt.stopsAt, hinner] using hstop
    · exact ihInner hinner
  | @endless _ _ body _ _ _ _ _ _ ihInner ih =>
    by_cases hinner : Stmt.countList (Stmt.stopsAt id) body = 0
    · refine ih ?_
      simpa [Stmt.countList, Stmt.count, Stmt.stopsAt, hinner] using hstop
    · exact ihInner hinner

end Loops

/-! ### Block lists -/

/-- The labels of a list of blocks with one label each. -/
lemma labelsOfList_basic {blocks : List BasicBlock}
    (h : ∀ block ∈ blocks, ∃ label, block.Shaped label) :
    (Stmt.labelsOfList (blocks.map Stmt.basic)).map some = blocks.map BasicBlockOf.entryLabel? := by
  induction blocks with
  | nil => rfl
  | cons block rest ih =>
    obtain ⟨label, hshaped⟩ := h block List.mem_cons_self
    rw [List.map_cons, List.map_cons, Stmt.labelsOfList, List.map_append,
      ih fun b hb => h b (List.mem_cons_of_mem _ hb), hshaped.entryLabel?, Stmt.labels,
      hshaped.labels]
    rfl

/-- The tree holds the code of a list of blocks: each statement as often as the list, and each label once,
unless it is the stop of a scope in the tree, once, and the label of a block that ends a round in the
list. -/
structure KeepsCode (blocks : List BasicBlock) (tree : List Stmt) : Prop where
  code : ∀ test : Stmt → Bool, (∀ s, test s = true → s.isCode = true) →
    Stmt.countList test tree = Stmt.countList test (blocks.map Stmt.basic)
  labels : ∀ label ∈ Stmt.labelsOfList (blocks.map Stmt.basic),
    (Stmt.labelsOfList tree).count label + Stmt.countList (Stmt.stopsAt label) tree = 1
  stops : ∀ label, Stmt.countList (Stmt.stopsAt label) tree ≠ 0 →
    ∃ block ∈ blocks, ∃ back after, block.body = [.label label, .popEnv back, .goto after]

/-- A block at whose end a scope starts, and which the entry of the scope's body dominates, is no longer
in the tree. -/
def LosesHead (blocks : List BasicBlock) (tree : List Stmt) : Prop :=
  ∃ item block label, blocks[item]? = some block ∧ block.entryLabel? = some label ∧
    Loops.ScopeOverHead (Layout.ofBlock (blockOfBasicBlocks blocks)) (blocks.map Stmt.basic) item ∧
    label ∉ Stmt.labelsOfList tree

section

variable {bound : Nat} {blocks : List BasicBlock} {tree : List Stmt}

/-- The block at a position of a list of blocks. -/
lemma getElem?_of_basic {i : Nat} {block : BasicBlock}
    (h : (blocks.map Stmt.basic)[i]? = some (.basic block)) : blocks[i]? = some block := by
  rw [List.getElem?_map] at h
  obtain ⟨block', hblock, heq⟩ := Option.map_eq_some_iff.mp h
  cases heq
  exact hblock

/-- The labels of a well-formed list are those at the heads of its blocks. -/
lemma WellFormed.mem_labels_iff (hwf : WellFormed bound blocks) {label : LabelId} :
    label ∈ Stmt.labelsOfList (blocks.map Stmt.basic) ↔
      ∃ block ∈ blocks, block.entryLabel? = some label := by
  have hlabels := labelsOfList_basic fun block hblock =>
    (hwf.shaped block hblock).imp fun _ hlabel => hlabel.2
  rw [← List.mem_map, ← hlabels, List.mem_map]
  simp

/-- A label of a well-formed list stands at the head of one block. -/
lemma WellFormed.count_labels (hwf : WellFormed bound blocks) {label : LabelId}
    (h : label ∈ Stmt.labelsOfList (blocks.map Stmt.basic)) :
    label < bound ∧ (Stmt.labelsOfList (blocks.map Stmt.basic)).count label = 1 := by
  have hlabels := labelsOfList_basic fun block hblock =>
    (hwf.shaped block hblock).imp fun _ hlabel => hlabel.2
  refine ⟨?_, List.count_eq_one_of_mem ?_ h⟩
  · obtain ⟨block, hblock, hentry⟩ := hwf.mem_labels_iff.mp h
    exact (hwf.shaped_of_label hblock hentry).1
  · have hnodup := hwf.distinct
    rw [← hlabels] at hnodup
    exact hnodup.of_map

/-- No scope of a list of simple statements has a stop label. -/
lemma countList_stopsAt_of_isSimple (hsimple : AllStmts (Stmt.isSimple · = true) blocks)
    (label : LabelId) {block : BasicBlock} (hblock : block ∈ blocks) :
    Stmt.countList (Stmt.stopsAt label) block.body = 0 :=
  Stmt.countList_eq_zero fun s hs => Stmt.count_stopsAt_of_isSimple label (hsimple block hblock s hs)

/-- A label and the scopes that stop there are counted apart. -/
lemma countList_label (label : LabelId) (list : List Stmt) :
    Stmt.countList (fun s => s.isLabel label || s.stopsAt label) list =
      (Stmt.labelsOfList list).count label + Stmt.countList (Stmt.stopsAt label) list := by
  rw [Stmt.countList_or, Stmt.countList_isLabel]
  intro s hs
  cases s with
  | label _ => rfl
  | _ => cases hs

/-- A tree that arranges all blocks of a list holds their code. -/
lemma keepsCode_of_arranges (hwf : WellFormed bound blocks)
    (hsimple : AllStmts (Stmt.isSimple · = true) blocks)
    (h : Loops.Arranges (blocks.map Stmt.basic) bound tree (.range (blocks.map Stmt.basic).length)) :
    KeepsCode blocks tree where
  code test htest := by
    rw [h.countList_eq (Loops.neutral_of_isCode bound htest), Loops.sum_weight]
  labels label hlabel := by
    obtain ⟨hlt, hcount⟩ := hwf.count_labels hlabel
    have hnone : Stmt.countList (Stmt.stopsAt label) (blocks.map Stmt.basic) = 0 := by
      refine Stmt.countList_eq_zero fun s hs => ?_
      obtain ⟨block, hblock, rfl⟩ := List.mem_map.mp hs
      simp [Stmt.count, Stmt.stopsAt, countList_stopsAt_of_isSimple hsimple label hblock]
    rw [← countList_label, h.countList_eq (Loops.neutral_label hlt), Loops.sum_weight,
      countList_label, hcount, hnone]
  stops label hstop := by
    have hnone : ∀ (i : Nat) block, (blocks.map Stmt.basic)[i]? = some (.basic block) →
        Stmt.countList (Stmt.stopsAt label) block.body = 0 := by
      intro i block hitem
      exact countList_stopsAt_of_isSimple hsimple label
        (List.mem_of_getElem? (getElem?_of_basic hitem))
    obtain ⟨block, back, after, hblock, hbody⟩ := h.exists_pop hnone hstop
    obtain ⟨block', hmem, heq⟩ := List.mem_map.mp hblock
    cases heq
    exact ⟨block, hmem, back, after, hbody⟩

/-- When something got lost, then some block at whose end a scope starts. -/
lemma losesHead_of_lost (hwf : WellFormed bound blocks)
    (hsimple : AllStmts (Stmt.isSimple · = true) blocks) {built lost : Multiset Nat}
    (h : Loops.Arranges (blocks.map Stmt.basic) bound tree built)
    (hids : .range (blocks.map Stmt.basic).length = built + lost) {item : Nat} (hitem : item ∈ lost)
    (hover : Loops.ScopeOverHead (Layout.ofBlock (blockOfBasicBlocks blocks))
      (blocks.map Stmt.basic) item) : LosesHead blocks tree := by
  obtain ⟨block, -, -, -, -, -, -, -, -, hblock, -⟩ := id hover
  have hget := getElem?_of_basic hblock
  obtain ⟨label, hlt, hshaped⟩ := hwf.shaped block (List.mem_of_getElem? hget)
  refine ⟨item, block, label, hget, hshaped.entryLabel?, hover, ?_⟩
  -- No item that the tree is made of has the label.
  have hzero : Stmt.countList (fun s => s.isLabel label || s.stopsAt label) tree = 0 := by
    rw [h.countList_eq (Loops.neutral_label hlt)]
    refine Multiset.sum_eq_zero fun n hn => ?_
    obtain ⟨i, hi, rfl⟩ := Multiset.mem_map.mp hn
    have hne : i ≠ item := by
      rintro rfl
      have hnodup := Multiset.nodup_range (blocks.map Stmt.basic).length
      rw [hids, Multiset.nodup_add] at hnodup
      exact Multiset.disjoint_left.mp hnodup.2.2 hi hitem
    cases hother : blocks[i]? with
    | none => simp [Loops.share, hother]
    | some other =>
      have hmem := List.mem_of_getElem? hother
      obtain ⟨otherLabel, -, hotherShaped⟩ := hwf.shaped other hmem
      have hlabel : otherLabel ≠ label := by
        rintro rfl
        refine hne (hwf.position_eq hother hget ?_)
        rw [hotherShaped.entryLabel?, hshaped.entryLabel?]
      have hitem' : (blocks.map Stmt.basic)[i]? = some (.basic other) := by
        rw [List.getElem?_map, hother]
        rfl
      rw [Loops.weight_basic (Loops.neutral_label hlt) hitem', countList_label, hotherShaped.labels,
        countList_stopsAt_of_isSimple hsimple label hmem]
      simp [hlabel]
  rw [countList_label] at hzero
  exact List.count_eq_zero.mp (Nat.add_eq_zero_iff.mp hzero).1

/-- A tree that holds the code of a list has lost no block at whose end a scope starts. -/
lemma KeepsCode.not_losesHead (hwf : WellFormed bound blocks) (h : KeepsCode blocks tree) :
    ¬ LosesHead blocks tree := by
  rintro ⟨item, block, label, hget, hlabel, hover, hgone⟩
  have hone := h.labels label
    (hwf.mem_labels_iff.mpr ⟨block, List.mem_of_getElem? hget, hlabel⟩)
  rw [List.count_eq_zero.mpr hgone, Nat.zero_add] at hone
  obtain ⟨popBlock, hpop, back, after, hpopBody⟩ := h.stops label (by rw [hone]; decide)
  -- The block that ends a round would be the one at whose end the scope starts.
  obtain ⟨i, hi⟩ := List.mem_iff_getElem?.mp hpop
  have hsame : popBlock.entryLabel? = block.entryLabel? := by
    rw [hlabel, BasicBlockOf.entryLabel?_eq, hpopBody]
    rfl
  obtain rfl := hwf.position_eq hi hget hsame
  rw [hi] at hget
  cases hget
  obtain ⟨head, -, env, skip, enter, -, -, -, -, hhead, hstart, -⟩ := hover
  have hheadEq := getElem?_of_basic hhead
  rw [hi] at hheadEq
  cases hheadEq
  obtain ⟨init, -, hbody⟩ := Loops.scopeStart?_eq_some hstart
  have hsplit : [.label label] ++ [.popEnv back, .goto after] = init ++ [.pushEnv env skip, .goto enter] :=
    hpopBody.symm.trans hbody
  have htail := (List.append_inj' hsplit rfl).2
  simp at htail

end

/-- The recovery of the loops of simplified blocks keeps all code, and each label once, exactly when it
loses no block at whose end a scope starts. -/
theorem keepsCode_findLoops_iff {maxSweeps sweeps : Nat} {blocks : List BasicBlock}
    {context context' : Context} {simplified : Fixpoint.State} {tree : Block}
    (hwf : WellFormed context.labels.names.length blocks)
    (hsimple : AllStmts (Stmt.isSimple · = true) blocks)
    (hoptimize : optimizeExprs maxSweeps blocks context = (.ok sweeps, simplified))
    (hloops : findLoops (blockOfBasicBlocks simplified.blocks) simplified.context =
      (.ok tree, context')) :
    KeepsCode simplified.blocks tree.body ↔ ¬ LosesHead simplified.blocks tree.body := by
  have hwf' : WellFormed simplified.context.labels.names.length simplified.blocks := by
    have hrun := (Fixpoint.wellFormed_runFixpoint Rule.forExprs maxSweeps hwf).1
    have heq : runFixpoint Rule.forExprs maxSweeps blocks context = (.ok sweeps, simplified) :=
      hoptimize
    rwa [heq] at hrun
  have hsimple' : AllStmts (Stmt.isSimple · = true) simplified.blocks := by
    have hrun : AllStmts (Stmt.isSimple · = true) (optimizeExprs maxSweeps blocks context).2.blocks :=
      isSimple_optimizeExprs hsimple
    rwa [hoptimize] at hrun
  have hsound : SoundBlocks (blockOfBasicBlocks simplified.blocks).body :=
    hwf'.soundBlocks_of_isSimple hsimple'
  refine ⟨fun h => h.not_losesHead hwf', fun h => ?_⟩
  rcases findLoops_cases hsound Loops.headerGone simplified.context with
    ⟨body, t, built, lost, hrun, -, hids, hbuilt, hlost⟩ | ⟨t, hrun, -, -⟩
  · rw [hloops] at hrun
    cases hrun
    rcases hlost with rfl | ⟨item, hitem, hover⟩
    · rw [add_zero] at hids
      rw [← hids] at hbuilt
      exact keepsCode_of_arranges hwf' hsimple' hbuilt
    · exact absurd (losesHead_of_lost hwf' hsimple' hbuilt hids hitem hover) h
  · rw [hloops] at hrun
    cases hrun

/-- Names for five labels. -/
def fiveLabels : Context where
  labels := { names := ["L0", "L1", "L2", "L3", "L4"] }
  diagnostics := { unit := "unit" }

/-- A scope whose body sets `z` and then may go on to a call. -/
def branchingScope : List BasicBlock :=
  [{ body := [.label 0, .pushEnv (.const (.int 1)) 3, .goto 1] },
    { body := [.label 1, .assign (Variable.temporary "z") (.const (.int 1)),
        .condGoto (.var (Variable.temporary "c")) 3, .goto 2] },
    { body := [.label 2, .call "f" [], .goto 3] },
    { body := [.label 3, .popEnv 1, .goto 4] },
    { body := [.label 4, .exit] }]

/-- The scope is recovered, its closing block becomes its stop, and all code is kept. -/
theorem branchingScope_kept :
    WellFormed 5 branchingScope ∧
      optimizeExprs 10 branchingScope fiveLabels =
        (.ok 1, { blocks := branchingScope, context := fiveLabels }) ∧
      ∃ tree context', findLoops (blockOfBasicBlocks branchingScope) fiveLabels = (.ok tree, context') ∧
        Stmt.countList (Stmt.stopsAt 3) tree.body = 1 ∧ KeepsCode branchingScope tree.body := by
  have hwf : WellFormed fiveLabels.labels.names.length branchingScope := by decide
  have hoptimize : optimizeExprs 10 branchingScope fiveLabels =
      (.ok 1, { blocks := branchingScope, context := fiveLabels }) := rfl
  refine ⟨hwf, hoptimize, _, _, rfl, rfl, ?_⟩
  refine (keepsCode_findLoops_iff hwf ?_ hoptimize rfl).mpr ?_
  · simp [AllStmts, branchingScope, Stmt.isSimple, Stmt.isInner]
  · rintro ⟨item, block, label, hget, hlabel, ⟨head, _, _, _, _, _, _, _, _, hhead, hstart, -⟩, hgone⟩
    rcases item with _ | _ | _ | _ | _ | item
    · cases hget
      cases hlabel
      exact hgone (by decide)
    · cases hhead
      cases hstart
    · cases hhead
      cases hstart
    · cases hhead
      cases hstart
    · cases hhead
      cases hstart
    · cases hhead

/-- A scope whose body is entered from outside and goes back to where the scope starts. -/
def reenteredScope : List BasicBlock :=
  [{ body := [.label 0, .goto 2] },
    { body := [.label 1, .pushEnv (.const (.int 1)) 3, .goto 2] },
    { body := [.label 2, .assign (Variable.temporary "z") (.const (.int 1)),
        .condGoto (.var (Variable.temporary "c")) 1, .goto 4] },
    { body := [.label 3, .popEnv 2, .goto 4] },
    { body := [.label 4, .exit] }]

/-- The scope takes the block at whose end it starts, and the assignment is gone. -/
theorem reenteredScope_lost :
    WellFormed 5 reenteredScope ∧ AllStmts (Stmt.isSimple · = true) reenteredScope ∧
      optimizeExprs 10 reenteredScope fiveLabels =
        (.ok 1, { blocks := reenteredScope, context := fiveLabels }) ∧
      ∃ tree context', findLoops (blockOfBasicBlocks reenteredScope) fiveLabels = (.ok tree, context') ∧
        Stmt.countList Stmt.isCode (reenteredScope.map Stmt.basic) = 2 ∧
        Stmt.countList Stmt.isCode tree.body = 1 ∧ ¬ KeepsCode reenteredScope tree.body := by
  refine ⟨by decide, ?_, rfl, _, _, rfl, rfl, rfl, ?_⟩
  · simp [AllStmts, reenteredScope, Stmt.isSimple, Stmt.isInner]
  · intro h
    exact absurd (h.code Stmt.isCode fun _ hs => hs) (by decide)

end Decompiler
