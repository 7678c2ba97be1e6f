import Mathlib.Data.List.Flatten
import Mathlib.Data.List.Forall2
import Mathlib.Data.List.Nodup
import Mathlib.Data.List.Perm.Subperm
import Decompiler.Proofs.Rewriting

/-!
# Well-formed block lists

A block list is well-formed (`WellFormed`) when each block starts with a label of its own, has no other
label inside, branches only at its end, and when every label that is named is the label of a block.
`Edit.Fits` says what an edit has to bring so that it is carried out on a well-formed list without a
fault (`Edit.Fits.apply_ok`) and leaves a well-formed list (`Edit.Applied.wellFormed`).

A rule may delete a block only when nothing that is left names it.  The rules know how often a label
is named and where they have seen it named; `WellFormed.targets_subperm` is the counting behind that.
-/

namespace Decompiler

open Bytecode

/-! ### Shapes of blocks -/

/-- The end of a block: a jump or the end of the unit, or a branch and the jump after it. -/
def isEnding : List Stmt → Bool
  | [s] => s.endsBlock
  | [branch, jump] => branch.isConditional && jump.isGoto
  | _ => false

/-- Statements between the label of a block and its end: none of them is a label or a branch. -/
structure Stmt.IsMiddle (list : List Stmt) : Prop where
  labels : labelsOfList list = []
  straight : ∀ s ∈ list, s.isConditional = false

/-- The end of a block, which holds no labels. -/
structure Stmt.IsEnd (list : List Stmt) : Prop where
  labels : labelsOfList list = []
  ending : isEnding list = true

/-- A block whose only label stands at its head and which branches only at its end. -/
def BasicBlockOf.Shaped (block : BasicBlock) (label : LabelId) : Prop :=
  ∃ middle ending, block.body = .label label :: (middle ++ ending) ∧ Stmt.IsMiddle middle ∧
    Stmt.IsEnd ending

namespace Stmt

/-- No statements at all. -/
lemma isMiddle_nil : IsMiddle [] := ⟨rfl, by simp⟩

/-- Two parts of the middle of a block, one after the other. -/
lemma isMiddle_append {a b : List Stmt} : IsMiddle (a ++ b) ↔ IsMiddle a ∧ IsMiddle b := by
  constructor
  · rintro ⟨hlabels, hstraight⟩
    rw [labelsOfList_append, List.append_eq_nil_iff] at hlabels
    exact ⟨⟨hlabels.1, fun s hs => hstraight s (List.mem_append_left _ hs)⟩,
      ⟨hlabels.2, fun s hs => hstraight s (List.mem_append_right _ hs)⟩⟩
  · rintro ⟨ha, hb⟩
    refine ⟨?_, ?_⟩
    · rw [labelsOfList_append, ha.labels, hb.labels]
      rfl
    · intro s hs
      rcases List.mem_append.mp hs with hs | hs
      · exact ha.straight s hs
      · exact hb.straight s hs

/-- Expressions do not matter for the middle of a block. -/
lemma SameOutlines.isMiddle {a b : List Stmt} (h : SameOutlines a b) (ha : IsMiddle a) :
    IsMiddle b := by
  refine ⟨h.labels.trans ha.labels, ?_⟩
  have hstraight := ha.straight
  clear ha
  induction h with
  | nil => simp
  | cons hs _ ih =>
    simp only [List.forall_mem_cons] at hstraight ⊢
    exact ⟨hs.isConditional.trans hstraight.1, ih hstraight.2⟩

/-- Expressions do not matter for the end of a block. -/
lemma SameOutlines.isEnd {a b : List Stmt} (h : SameOutlines a b) (ha : IsEnd a) : IsEnd b := by
  refine ⟨h.labels.trans ha.labels, ?_⟩
  have hending := ha.ending
  cases h with
  | nil => exact hending
  | cons hs h =>
    cases h with
    | nil => exact hs.endsBlock.trans hending
    | cons ht h =>
      cases h with
      | nil => simpa [isEnding, hs.isConditional, ht.isGoto] using hending
      | cons _ _ => cases hending

/-- An end has one statement or two. -/
lemma IsEnd.length_le {list : List Stmt} (h : IsEnd list) : 1 ≤ list.length ∧ list.length ≤ 2 := by
  have hending := h.ending
  unfold isEnding at hending
  split at hending
  · simp
  · simp
  · cases hending

/-- A jump. -/
lemma isEnd_goto (target : LabelId) : IsEnd [.goto target] := ⟨rfl, rfl⟩

/-- A branch and a jump. -/
lemma isEnd_condGoto (test : Expr) (target other : LabelId) :
    IsEnd [.condGoto test target, .goto other] :=
  ⟨rfl, rfl⟩

end Stmt

namespace BasicBlockOf.Shaped

variable {block : BasicBlock} {label : LabelId}

/-- The label of a block. -/
lemma entryLabel? (h : block.Shaped label) : block.entryLabel? = some label := by
  obtain ⟨middle, ending, hbody, -⟩ := h
  rw [entryLabel?_eq, hbody]
  rfl

/-- The label at its head is the only one. -/
lemma labels (h : block.Shaped label) : Stmt.labelsOfList block.body = [label] := by
  obtain ⟨middle, ending, hbody, hmiddle, hending⟩ := h
  rw [hbody, Stmt.labelsOfList, Stmt.labelsOfList_append, hmiddle.labels, hending.labels]
  rfl

/-- Behind the label of a block there are no labels. -/
lemma of_cons (h : block.Shaped label) {s : Stmt} {rest : List Stmt} (hbody : block.body = s :: rest) :
    Stmt.labelsOfList rest = [] := by
  obtain ⟨middle, ending, hblock, hmiddle, hending⟩ := h
  rw [hblock, List.cons.injEq] at hbody
  obtain ⟨-, rfl⟩ := hbody
  rw [Stmt.labelsOfList_append, hmiddle.labels, hending.labels]
  rfl

/-- What stands before the last two statements of a block is its label and a middle. -/
lemma of_append (h : block.Shaped label) {init old : List Stmt} (hbody : block.body = init ++ old)
    (hinit : init ≠ []) (hlen : 2 ≤ old.length) :
    ∃ start, init = .label label :: start ∧ Stmt.IsMiddle start := by
  obtain ⟨middle, ending, hblock, hmiddle, hending⟩ := h
  obtain ⟨s, start, rfl⟩ := List.exists_cons_of_ne_nil hinit
  rw [hblock, List.cons_append, List.cons.injEq] at hbody
  obtain ⟨rfl, hbody⟩ := hbody
  have hle : start.length ≤ middle.length := by
    have hlens := congrArg List.length hbody
    simp only [List.length_append] at hlens
    have := hending.length_le
    omega
  refine ⟨start, rfl, ?_⟩
  rcases List.append_eq_append_iff.mp hbody with ⟨more, hstart, -⟩ | ⟨more, hmore, -⟩
  · have hnil : more = [] := by
      rw [hstart, List.length_append] at hle
      exact List.eq_nil_of_length_eq_zero (by omega)
    rw [hstart, hnil, List.append_nil]
    exact hmiddle
  · rw [hmore] at hmiddle
    exact (Stmt.isMiddle_append.mp hmiddle).1

/-- A block with another end. -/
lemma exchange (h : block.Shaped label) {init old middle ending : List Stmt}
    (hbody : block.body = init ++ old) (hinit : init ≠ []) (hlen : 2 ≤ old.length)
    (hmiddle : Stmt.IsMiddle middle) (hending : Stmt.IsEnd ending) {block' : BasicBlock}
    (hbody' : block'.body = init ++ (middle ++ ending)) : block'.Shaped label := by
  obtain ⟨start, rfl, hstart⟩ := h.of_append hbody hinit hlen
  refine ⟨start ++ middle, ending, ?_, Stmt.isMiddle_append.mpr ⟨hstart, hmiddle⟩, hending⟩
  rw [hbody', List.cons_append, List.append_assoc]

/-- Expressions do not matter for the shape of a block. -/
lemma of_sameOutlines (h : block.Shaped label) {block' : BasicBlock}
    (hsame : Stmt.SameOutlines block.body block'.body) : block'.Shaped label := by
  obtain ⟨middle, ending, hbody, hmiddle, hending⟩ := h
  rw [hbody] at hsame
  cases hbody' : block'.body with
  | nil =>
    rw [hbody'] at hsame
    cases hsame
  | cons s rest =>
    rw [hbody'] at hsame
    obtain ⟨hs, hrest⟩ := List.forall₂_cons.mp hsame
    obtain rfl : s = .label label := by
      have hlabel := hs.label?
      cases s with
      | label id =>
        cases hlabel
        rfl
      | _ => cases hlabel
    have htake := List.forall₂_take_append rest middle ending hrest.flip
    have hdrop := List.forall₂_drop_append rest middle ending hrest.flip
    refine ⟨rest.take middle.length, rest.drop middle.length, ?_, ?_, ?_⟩
    · rw [hbody', List.take_append_drop]
    · exact Stmt.SameOutlines.isMiddle htake.flip hmiddle
    · exact Stmt.SameOutlines.isEnd hdrop.flip hending

/-- A block without the dropped value behind its label. -/
lemma withoutFirst (h : block.Shaped label) (hpopz : startsWithPopz block = true) :
    (withoutFirst block).Shaped label := by
  obtain ⟨middle, ending, hbody, hmiddle, hending⟩ := h
  unfold startsWithPopz at hpopz
  rw [hbody] at hpopz
  cases middle with
  | nil =>
    -- A dropped value is not an end, and no branch that starts one.
    exfalso
    have hends := hending.ending
    rw [List.nil_append] at hpopz
    split at hpopz
    · rename_i hcons
      cases hcons
      unfold isEnding at hends
      split at hends
      · rename_i hone
        cases hone
        cases hends
      · rename_i htwo
        cases htwo
        cases hends
      · cases hends
    · cases hpopz
  | cons s middle =>
    have hrest : Stmt.IsMiddle ([s] ++ middle) := hmiddle
    refine ⟨middle, ending, ?_, (Stmt.isMiddle_append.mp hrest).2, hending⟩
    simp [Decompiler.withoutFirst, hbody]

/-- A shaped block of sound statements is sound. -/
lemma isSound (h : block.Shaped label) (hsound : Stmt.soundList block.body = true) :
    (Stmt.basic block).isSound = true := by
  have hlabel := h.entryLabel?
  obtain ⟨middle, ending, hbody, hmiddle, hending⟩ := h
  have hends := hending.ending
  unfold isEnding at hends
  split at hends
  · rename_i s
    have hlast : block.body = (.label label :: middle) ++ [s] := hbody
    refine isSound_of_append hlast hlabel ?_ hsound
    cases s with
    | goto _ | ret _ | exit => rfl
    | raw _ op =>
      cases op with
      | ret => rfl
      | _ => cases hends
    | _ => cases hends
  · rename_i branch jump
    have hlast : block.body = (.label label :: (middle ++ [branch])) ++ [jump] := by
      rw [hbody]
      simp
    refine isSound_of_append hlast hlabel ?_ hsound
    cases jump with
    | goto _ => rfl
    | _ => simp [Stmt.isGoto] at hends
  · cases hends

/-- Whether statements branch only at their end, and end as a block has to. -/
def closes : List Stmt → Bool
  | [] => false
  | [s] => s.endsBlock
  | [a, b] => if a.isConditional then b.isGoto else b.endsBlock
  | a :: rest => !a.isConditional && closes rest

/-- Statements that branch only at their end are a middle and an end. -/
lemma closes_eq_true_iff {list : List Stmt} :
    closes list = true ↔ ∃ middle ending, list = middle ++ ending ∧
      (∀ s ∈ middle, s.isConditional = false) ∧ isEnding ending = true := by
  constructor
  · intro h
    induction list using closes.induct with
    | case1 => cases h
    | case2 s => exact ⟨[], [s], rfl, by simp, h⟩
    | case3 a b ha =>
      refine ⟨[], [a, b], rfl, by simp, ?_⟩
      simpa [closes, isEnding, ha] using h
    | case4 a b ha =>
      refine ⟨[a], [b], rfl, by simpa using ha, ?_⟩
      simpa [closes, isEnding, ha] using h
    | case5 a rest hone htwo ih =>
      rw [closes, Bool.and_eq_true, Bool.not_eq_true'] at h
      · obtain ⟨middle, ending, rfl, hmiddle, hending⟩ := ih h.2
        exact ⟨a :: middle, ending, rfl, List.forall_mem_cons.mpr ⟨h.1, hmiddle⟩, hending⟩
      · exact hone
      · exact htwo
  · rintro ⟨middle, ending, rfl, hmiddle, hending⟩
    induction middle with
    | nil =>
      match ending, hending with
      | [s], hending => exact hending
      | [a, b], hending =>
        simp only [isEnding, Bool.and_eq_true] at hending
        simp [closes, hending]
    | cons a middle ih =>
      rw [List.forall_mem_cons] at hmiddle
      have hrest := ih hmiddle.2
      match hlist : middle ++ ending with
      | [] =>
        rw [hlist] at hrest
        cases hrest
      | [b] =>
        rw [hlist] at hrest
        rw [List.cons_append, hlist, closes, hmiddle.1]
        exact hrest
      | b :: c :: rest =>
        rw [hlist] at hrest
        rw [List.cons_append, hlist, closes, hmiddle.1, hrest]
        · rfl
        · simp
        · simp

/-- The shape of a block can be checked. -/
lemma iff_closes : block.Shaped label ↔ block.entryLabel? = some label ∧
    Stmt.labelsOfList (block.body.drop 1) = [] ∧ closes (block.body.drop 1) = true := by
  constructor
  · intro h
    have hlabel := h.entryLabel?
    obtain ⟨middle, ending, hbody, hmiddle, hending⟩ := h
    refine ⟨hlabel, ?_, ?_⟩
    · rw [hbody, List.drop_one, List.tail_cons, Stmt.labelsOfList_append, hmiddle.labels,
        hending.labels]
      rfl
    · rw [hbody]
      exact closes_eq_true_iff.mpr ⟨middle, ending, rfl, hmiddle.straight, hending.ending⟩
  · rintro ⟨hlabel, hlabels, hcloses⟩
    obtain ⟨middle, ending, hrest, hmiddle, hending⟩ := closes_eq_true_iff.mp hcloses
    rw [hrest, Stmt.labelsOfList_append, List.append_eq_nil_iff] at hlabels
    refine ⟨middle, ending, ?_, ⟨hlabels.1, hmiddle⟩, ⟨hlabels.2, hending⟩⟩
    rw [← hrest]
    cases hbody : block.body with
    | nil => simp [BasicBlockOf.entryLabel?_eq, hbody] at hlabel
    | cons s rest =>
      cases s with
      | label id =>
        rw [BasicBlockOf.entryLabel?, hbody] at hlabel
        cases hlabel
        rfl
      | _ => simp [BasicBlockOf.entryLabel?, hbody] at hlabel

end BasicBlockOf.Shaped

instance (block : BasicBlock) (label : LabelId) : Decidable (block.Shaped label) :=
  decidable_of_iff _ BasicBlockOf.Shaped.iff_closes.symm

/-! ### Well-formed lists -/

/-- A list of blocks with labels of their own below `bound`, in which every label that is named is
the label of a block. -/
structure WellFormed (bound : Nat) (blocks : List BasicBlock) : Prop where
  nonempty : blocks ≠ []
  shaped : ∀ block ∈ blocks, ∃ label, label < bound ∧ block.Shaped label
  distinct : (blocks.map BasicBlockOf.entryLabel?).Nodup
  closed : ∀ label ∈ (BlockMap.ofBlocks blocks).mentions,
    some label ∈ blocks.map BasicBlockOf.entryLabel?

instance (bound : Nat) (blocks : List BasicBlock) : Decidable (WellFormed bound blocks) :=
  decidable_of_iff
    (blocks ≠ [] ∧ (∀ block ∈ blocks, ∃ label, label < bound ∧ block.Shaped label) ∧
      (blocks.map BasicBlockOf.entryLabel?).Nodup ∧
      ∀ label ∈ (BlockMap.ofBlocks blocks).mentions, some label ∈ blocks.map BasicBlockOf.entryLabel?)
    ⟨fun ⟨hne, hshaped, hdistinct, hclosed⟩ => ⟨hne, hshaped, hdistinct, hclosed⟩,
      fun h => ⟨h.nonempty, h.shaped, h.distinct, h.closed⟩⟩

namespace WellFormed

variable {bound : Nat} {blocks : List BasicBlock} (h : WellFormed bound blocks)
include h

/-- A block has the shape that belongs to its label. -/
lemma shaped_of_label {block : BasicBlock} {label : LabelId} (hmem : block ∈ blocks)
    (hlabel : block.entryLabel? = some label) : label < bound ∧ block.Shaped label := by
  obtain ⟨l, hlt, hshaped⟩ := h.shaped block hmem
  rw [hshaped.entryLabel?] at hlabel
  cases hlabel
  exact ⟨hlt, hshaped⟩

/-- Blocks with the same label are the same block. -/
lemma position_eq {a b : BasicBlock} {i j : Nat} (ha : blocks[i]? = some a) (hb : blocks[j]? = some b)
    (hlabel : a.entryLabel? = b.entryLabel?) : i = j := by
  obtain ⟨hi, -⟩ := List.getElem?_eq_some_iff.mp ha
  refine (List.getElem?_inj (by simpa using hi) h.distinct).mp ?_
  rw [List.getElem?_map, List.getElem?_map, ha, hb, Option.map_some, Option.map_some, hlabel]

/-- Blocks with the same label are the same block. -/
lemma eq_of_label {a b : BasicBlock} (ha : a ∈ blocks) (hb : b ∈ blocks)
    (hlabel : a.entryLabel? = b.entryLabel?) : a = b :=
  List.inj_on_of_nodup_map h.distinct ha hb hlabel

/-- The label of a block is located at its position. -/
lemma locate_eq {block : BasicBlock} {label : LabelId} {i : Nat} (hblock : blocks[i]? = some block)
    (hlabel : block.entryLabel? = some label) : Edit.locate blocks label = .ok i := by
  refine Edit.locate_of_unique hblock hlabel fun j other hother hl => ?_
  exact h.position_eq hother hblock (hl.trans hlabel.symm)

/-- A label of the list belongs to a block at some position. -/
lemma exists_position {label : LabelId} (hmem : some label ∈ blocks.map BasicBlockOf.entryLabel?) :
    ∃ i block, blocks[i]? = some block ∧ block.entryLabel? = some label ∧
      Edit.locate blocks label = .ok i := by
  obtain ⟨block, hblock, hlabel⟩ := List.mem_map.mp hmem
  obtain ⟨i, hi⟩ := List.mem_iff_getElem?.mp hblock
  exact ⟨i, block, hi, hlabel, h.locate_eq hi hlabel⟩

omit h in
/-- Some of the blocks of a list, each of them once, name no label more often than the list does. -/
lemma targets_subperm {some : List BasicBlock} (hnodup : some.Nodup) (hsubset : some ⊆ blocks) :
    (some.flatMap fun block => Stmt.targetsOfList block.body).Subperm
      (BlockMap.ofBlocks blocks).mentions := by
  obtain ⟨kept, hperm, hsublist⟩ := List.subperm_of_subset hnodup hsubset
  exact ⟨_, hperm.flatMap_right _, hsublist.flatMap _⟩

/-- A list stays well-formed when labels are handed out. -/
lemma mono {bound' : Nat} (hle : bound ≤ bound') : WellFormed bound' blocks where
  nonempty := h.nonempty
  shaped := by
    intro block hblock
    obtain ⟨label, hlt, hshaped⟩ := h.shaped block hblock
    exact ⟨label, Nat.lt_of_lt_of_le hlt hle, hshaped⟩
  distinct := h.distinct
  closed := h.closed

/-- A well-formed list of sound statements is a list of sound blocks. -/
lemma soundBlocks (hsound : ∀ block ∈ blocks, Stmt.soundList block.body = true) :
    SoundBlocks (blocks.map Stmt.basic) := by
  intro item hitem
  obtain ⟨block, hblock, rfl⟩ := List.mem_map.mp hitem
  obtain ⟨label, -, hshaped⟩ := h.shaped block hblock
  exact ⟨block, rfl, hshaped.isSound (hsound block hblock)⟩

end WellFormed

/-! ### Edits that fit -/

namespace Edit

/-- The labels that an edit at the block with a given label takes away. -/
def gone (edit : Edit) (label : LabelId) : List LabelId :=
  if edit.head.isSome then edit.remove else label :: edit.remove

/-- An edit that fits the block list around the block with a given label, and brings labels below
`bound'` that the list has not used. -/
structure Fits (edit : Edit) (blocks : List BasicBlock) (label : LabelId) (bound bound' : Nat) :
    Prop where
  bound_le : bound ≤ bound'
  head : ∀ block, edit.head = some block → block.Shaped label
  replace : ∀ block ∈ edit.replace, ∃ l, block.Shaped l ∧
    some l ∈ blocks.map BasicBlockOf.entryLabel? ∧ l ≠ label ∧ l ∉ edit.remove
  insert : ∀ block ∈ edit.insert, ∃ l, bound ≤ l ∧ l < bound' ∧ block.Shaped l
  insert_nodup : (edit.insert.map BasicBlockOf.entryLabel?).Nodup
  remove_nodup : edit.remove.Nodup
  remove : ∀ l ∈ edit.remove, some l ∈ blocks.map BasicBlockOf.entryLabel? ∧ l ≠ label
  rest : ∃ l, some l ∈ blocks.map BasicBlockOf.entryLabel? ∧ l ∉ edit.gone label
  new_targets : ∀ block ∈ edit.head.toList ++ (edit.replace ++ edit.insert),
    ∀ l ∈ Stmt.targetsOfList block.body, l ∉ edit.gone label ∧
      (l ∈ (BlockMap.ofBlocks blocks).mentions ∨ some l ∈ edit.insert.map BasicBlockOf.entryLabel?)
  kept_targets : ∀ block ∈ blocks, (∀ l ∈ label :: edit.remove, block.entryLabel? ≠ some l) →
    ∀ l ∈ Stmt.targetsOfList block.body, l ∉ edit.gone label

variable {edit : Edit} {blocks after : List BasicBlock} {label : LabelId} {bound bound' pos : Nat}

/-- An edit that fits may leave labels unused. -/
lemma Fits.mono {bound'' : Nat} (h : edit.Fits blocks label bound bound') (hle : bound' ≤ bound'') :
    edit.Fits blocks label bound bound'' :=
  { h with
    bound_le := Nat.le_trans h.bound_le hle
    insert := by
      intro block hblock
      obtain ⟨l, hl, hlt, hshaped⟩ := h.insert block hblock
      exact ⟨l, hl, Nat.lt_of_lt_of_le hlt hle, hshaped⟩ }

/-- The labels of other blocks are located at other positions. -/
lemma locatesOther (hwf : WellFormed bound blocks) {head : BasicBlock}
    (hhead : blocks[pos]? = some head) (hlabel : head.entryLabel? = some label) {l : LabelId}
    (hl : some l ∈ blocks.map BasicBlockOf.entryLabel?) (hne : l ≠ label) :
    LocatesOther blocks pos l := by
  obtain ⟨i, old, hold, holdLabel, hlocate⟩ := hwf.exists_position hl
  refine ⟨i, hlocate, ?_⟩
  rintro rfl
  rw [hhead, Option.some.injEq] at hold
  rw [← hold, hlabel, Option.some.injEq] at holdLabel
  exact hne holdLabel.symm

/-- An edit that fits is carried out. -/
theorem Fits.apply_ok (hwf : WellFormed bound blocks) (h : edit.Fits blocks label bound bound')
    {head : BasicBlock} (hhead : blocks[pos]? = some head) (hlabel : head.entryLabel? = some label) :
    ∃ after resume, edit.apply blocks pos = .ok (after, resume) := by
  have hcarriable : edit.Carriable blocks pos := by
    refine ⟨fun block hblock => ?_, fun l hl => ?_, h.remove_nodup⟩
    · obtain ⟨l, hshaped, hl, hne, hkept⟩ := h.replace block hblock
      exact ⟨l, hshaped.entryLabel?, hkept, locatesOther hwf hhead hlabel hl hne⟩
    · obtain ⟨hmem, hne⟩ := h.remove l hl
      exact locatesOther hwf hhead hlabel hmem hne
  obtain ⟨result, happly⟩ := exists_apply_iff.mpr hcarriable
  exact ⟨result.1, result.2, happly⟩

namespace Applied

variable {replaced : List (Nat × BasicBlock)} {removed : List Nat} {head : BasicBlock}
  (happ : edit.Applied blocks pos replaced removed after)
include happ

/-- The blocks that an edit leaves, by the blocks they come from. -/
lemma mem_after {block' : BasicBlock} :
    block' ∈ after ↔ ∃ i block, blocks[i]? = some block ∧
      block' ∈ edit.place pos replaced removed block i := by
  rw [happ.after_eq, List.mem_flatMap]
  constructor
  · rintro ⟨⟨block, i⟩, hmem, hplace⟩
    exact ⟨i, block, List.mem_zipIdx_iff_getElem?.mp hmem, hplace⟩
  · rintro ⟨i, block, hblock, hplace⟩
    exact ⟨(block, i), List.mem_zipIdx_iff_getElem?.mpr hblock, hplace⟩

/-- A block whose label is deleted stands at a position that is deleted. -/
lemma mem_removed {block : BasicBlock} {l : LabelId} {i : Nat} (hblock : blocks[i]? = some block)
    (hl : block.entryLabel? = some l) (hremove : l ∈ edit.remove) : i ∈ removed := by
  obtain ⟨j, hlocate⟩ := happ.located l hremove
  have hij : i = j := (locate_eq_ok hlocate).2 i block hblock hl
  exact (happ.removed_spec i).mpr ⟨l, hremove, hij ▸ hlocate⟩

/-- A block whose label is not deleted stands at a position that is kept. -/
lemma not_mem_removed {block : BasicBlock} {l : LabelId} {i : Nat}
    (hblock : blocks[i]? = some block) (hl : block.entryLabel? = some l) (hkept : l ∉ edit.remove) :
    i ∉ removed := by
  intro hi
  obtain ⟨m, hm, hlocate⟩ := (happ.removed_spec i).mp hi
  obtain ⟨⟨b, hb, hbLabel⟩, -⟩ := locate_eq_ok hlocate
  rw [hblock] at hb
  cases hb
  rw [hl] at hbLabel
  cases hbLabel
  exact hkept hm

/-- A block that an edit leaves is one that it brings, or one of the list that it does not touch. -/
lemma mem_new_or_kept (hwf : WellFormed bound blocks) (hhead : blocks[pos]? = some head)
    (hlabel : head.entryLabel? = some label) {block : BasicBlock} (hmem : block ∈ after) :
    block ∈ edit.head.toList ++ (edit.replace ++ edit.insert) ∨
      block ∈ blocks ∧ ∀ l ∈ label :: edit.remove, block.entryLabel? ≠ some l := by
  obtain ⟨i, old, hold, hplace⟩ := happ.mem_after.mp hmem
  by_cases hi : i ∈ removed
  · rw [place_removed hi] at hplace
    cases hplace
  by_cases hpos : i = pos
  · rw [hpos, happ.place_head] at hplace
    left
    rcases List.mem_append.mp hplace with h | h
    · exact List.mem_append_left _ h
    · exact List.mem_append_right _ (List.mem_append_right _ h)
  obtain ⟨block', hone, -, hfrom⟩ := happ.place_other hold hpos hi
  rw [hone, List.mem_singleton] at hplace
  subst hplace
  rcases hfrom with rfl | hreplace
  · refine .inr ⟨List.mem_of_getElem? hold, ?_⟩
    intro l hl heq
    rcases List.mem_cons.mp hl with rfl | hl
    · exact hpos (hwf.position_eq hold hhead (heq.trans hlabel.symm))
    · exact hi (happ.mem_removed hold heq hl)
  · exact .inl (List.mem_append_right _ (List.mem_append_left _ hreplace))

/-- A block of the list leaves blocks under its label, and the head also those that are inserted. -/
lemma label_of_place (h : edit.Fits blocks label bound bound') (hhead : blocks[pos]? = some head)
    (hlabel : head.entryLabel? = some label) {block block' : BasicBlock} {i : Nat}
    (hblock : blocks[i]? = some block) (hplace : block' ∈ edit.place pos replaced removed block i) :
    block'.entryLabel? = block.entryLabel? ∨ i = pos ∧ block' ∈ edit.insert := by
  by_cases hi : i ∈ removed
  · rw [place_removed hi] at hplace
    cases hplace
  by_cases hpos : i = pos
  · rw [hpos, happ.place_head] at hplace
    rw [hpos, hhead] at hblock
    cases hblock
    rcases List.mem_append.mp hplace with hnew | hinsert
    · rw [hlabel]
      exact .inl (h.head block' (by simpa using hnew)).entryLabel?
    · exact .inr ⟨hpos, hinsert⟩
  · obtain ⟨b, hone, hsame, -⟩ := happ.place_other hblock hpos hi
    rw [hone, List.mem_singleton] at hplace
    rw [hplace]
    exact .inl hsame

/-- The blocks that an edit leaves are those that it brings, and those of the list that it neither
deletes nor replaces. -/
lemma mem_after_iff (hwf : WellFormed bound blocks) (hfits : edit.Fits blocks label bound bound')
    (hhead : blocks[pos]? = some head) (hlabel : head.entryLabel? = some label)
    (hnodup : (edit.replace.map BasicBlockOf.entryLabel?).Nodup) {block : BasicBlock} :
    block ∈ after ↔ block ∈ edit.head.toList ++ (edit.replace ++ edit.insert) ∨
      block ∈ blocks ∧ (∀ l ∈ label :: edit.remove, block.entryLabel? ≠ some l) ∧
        ∀ new ∈ edit.replace, new.entryLabel? ≠ block.entryLabel? := by
  -- What a block that is replaced leaves is the replacement with its label.
  have hreplaced : ∀ {i : Nat} {old new : BasicBlock}, blocks[i]? = some old → new ∈ edit.replace →
      new.entryLabel? = old.entryLabel? → edit.place pos replaced removed old i = [new] := by
    intro i old new hold hnew hsame
    obtain ⟨l, hshaped, -, -, hkept⟩ := hfits.replace new hnew
    obtain ⟨j, hj⟩ := happ.replaces new hnew
    have hij : j = i := by
      obtain ⟨-, -, l', hl', hlocate⟩ := happ.replaced_spec _ hj
      exact ((locate_eq_ok hlocate).2 i old hold (hsame.symm.trans hl')).symm
    rw [hij] at hj
    have hi := happ.not_mem_removed hold (hsame.symm.trans hshaped.entryLabel?) hkept
    obtain ⟨new', hplace, hnew'⟩ := happ.place_replaced hj hi
    obtain ⟨-, hmem', l', hl', hlocate⟩ := happ.replaced_spec _ hnew'
    obtain ⟨⟨old', hold', holdLabel⟩, -⟩ := locate_eq_ok hlocate
    rw [hold] at hold'
    cases hold'
    have heq : new' = new :=
      List.inj_on_of_nodup_map hnodup hmem' hnew ((hl'.trans holdLabel.symm).trans hsame.symm)
    rw [hplace, heq]
  constructor
  · intro hmem
    obtain ⟨i, old, hold, hplace⟩ := happ.mem_after.mp hmem
    rcases happ.mem_new_or_kept hwf hhead hlabel hmem with hnew | ⟨hblock, huntouched⟩
    · exact .inl hnew
    · rcases happ.label_of_place hfits hhead hlabel hold hplace with hsame | ⟨-, hinsert⟩
      · by_cases hnew : ∃ new ∈ edit.replace, new.entryLabel? = block.entryLabel?
        · obtain ⟨new, hnew, hlabels⟩ := hnew
          rw [hreplaced hold hnew (hlabels.trans hsame), List.mem_singleton] at hplace
          rw [hplace]
          exact .inl (List.mem_append_right _ (List.mem_append_left _ hnew))
        · exact .inr ⟨hblock, huntouched, fun new hmem hlabels => hnew ⟨new, hmem, hlabels⟩⟩
      · exact .inl (List.mem_append_right _ (List.mem_append_right _ hinsert))
  · rintro (hnew | ⟨hblock, huntouched, hnot⟩)
    · rw [happ.mem_after]
      rcases List.mem_append.mp hnew with hnew | hnew
      · refine ⟨pos, head, hhead, ?_⟩
        rw [happ.place_head]
        exact List.mem_append_left _ hnew
      rcases List.mem_append.mp hnew with hnew | hnew
      · obtain ⟨l, hshaped, hl, -, -⟩ := hfits.replace block hnew
        obtain ⟨i, old, hold, holdLabel, -⟩ := hwf.exists_position hl
        refine ⟨i, old, hold, ?_⟩
        rw [hreplaced hold hnew (hshaped.entryLabel?.trans holdLabel.symm)]
        exact List.mem_singleton_self block
      · refine ⟨pos, head, hhead, ?_⟩
        rw [happ.place_head]
        exact List.mem_append_right _ hnew
    · obtain ⟨i, hi⟩ := List.mem_iff_getElem?.mp hblock
      obtain ⟨l, -, hshaped⟩ := hwf.shaped block hblock
      have hremoved : i ∉ removed := happ.not_mem_removed hi hshaped.entryLabel? fun hl =>
        huntouched l (List.mem_cons_of_mem _ hl) hshaped.entryLabel?
      have hpos : i ≠ pos := by
        rintro rfl
        rw [hhead] at hi
        cases hi
        exact huntouched label List.mem_cons_self hlabel
      obtain ⟨block', hplace, hsame, rfl | hreplace⟩ := happ.place_other hi hpos hremoved
      · exact happ.mem_after.mpr ⟨i, _, hi, by rw [hplace]; exact List.mem_singleton_self _⟩
      · exact absurd hsame (hnot block' hreplace)

/-- A label of the list that an edit does not take away stays. -/
lemma label_mem_after (hwf : WellFormed bound blocks) (hfits : edit.Fits blocks label bound bound')
    (hhead : blocks[pos]? = some head) (hlabel : head.entryLabel? = some label) {l : LabelId}
    (hl : some l ∈ blocks.map BasicBlockOf.entryLabel?) (hkept : l ∉ edit.gone label) :
    some l ∈ after.map BasicBlockOf.entryLabel? := by
  obtain ⟨i, block, hblock, hblockLabel, -⟩ := hwf.exists_position hl
  have hremove : l ∉ edit.remove := by
    intro hmem
    apply hkept
    unfold gone
    split
    · exact hmem
    · exact List.mem_cons_of_mem _ hmem
  have hi := happ.not_mem_removed hblock hblockLabel hremove
  by_cases hpos : i = pos
  · rw [hpos, hhead] at hblock
    cases hblock
    rw [hlabel] at hblockLabel
    cases hblockLabel
    cases hnew : edit.head with
    | none => simp [gone, hnew] at hkept
    | some new =>
      refine List.mem_map.mpr ⟨new, happ.mem_after.mpr ⟨pos, head, hhead, ?_⟩,
        (hfits.head new hnew).entryLabel?⟩
      rw [happ.place_head, hnew]
      simp
  · obtain ⟨b, hone, hsame, -⟩ := happ.place_other hblock hpos hi
    refine List.mem_map.mpr ⟨b, happ.mem_after.mpr ⟨i, block, hblock, ?_⟩, hsame.trans hblockLabel⟩
    simp [hone]

/-- The labels that an edit leaves are distinct. -/
lemma nodup_labels (hwf : WellFormed bound blocks) (hfits : edit.Fits blocks label bound bound')
    (hhead : blocks[pos]? = some head) (hlabel : head.entryLabel? = some label) :
    (after.map BasicBlockOf.entryLabel?).Nodup := by
  have hold : ∀ {i : Nat} {block : BasicBlock}, blocks[i]? = some block →
      ∃ l, l < bound ∧ block.entryLabel? = some l := by
    intro i block hblock
    obtain ⟨l, hlt, hshaped⟩ := hwf.shaped block (List.mem_of_getElem? hblock)
    exact ⟨l, hlt, hshaped.entryLabel?⟩
  have hnew : ∀ {block : BasicBlock}, block ∈ edit.insert →
      ∃ l, bound ≤ l ∧ block.entryLabel? = some l := by
    intro block hblock
    obtain ⟨l, hle, -, hshaped⟩ := hfits.insert block hblock
    exact ⟨l, hle, hshaped.entryLabel?⟩
  rw [happ.after_eq, List.map_flatMap, List.nodup_flatMap]
  constructor
  · rintro ⟨block, i⟩ hmem
    have hblock := List.mem_zipIdx_iff_getElem?.mp hmem
    dsimp only at hblock ⊢
    by_cases hi : i ∈ removed
    · rw [place_removed hi]
      exact List.nodup_nil
    by_cases hpos : i = pos
    · rw [hpos, happ.place_head, List.map_append]
      refine List.nodup_append.mpr ⟨?_, hfits.insert_nodup, ?_⟩
      · cases edit.head <;> simp
      · -- The new head has an old label, and what is inserted has new ones.
        intro a ha b hb heq
        subst heq
        obtain ⟨block', hinsert, hb⟩ := List.mem_map.mp hb
        obtain ⟨l, hle, hl⟩ := hnew hinsert
        obtain ⟨block'', hhead'', ha⟩ := List.mem_map.mp ha
        have hl'' := (hfits.head block'' (by simpa using hhead'')).entryLabel?
        obtain ⟨m, hlt, hm⟩ := hold hhead
        rw [hlabel] at hm
        rw [← hb, hl, hl''] at ha
        cases ha
        cases hm
        omega
    · obtain ⟨b, hone, -⟩ := happ.place_other hblock hpos hi
      rw [hone]
      simp
  · have hpairs : blocks.zipIdx.Pairwise fun p q => p.1.entryLabel? ≠ q.1.entryLabel? := by
      have hmap : ((blocks.zipIdx.map Prod.fst).map BasicBlockOf.entryLabel?).Nodup := by
        rw [List.zipIdx_map_fst]
        exact hwf.distinct
      rw [List.map_map, List.Nodup, List.pairwise_map] at hmap
      exact hmap
    refine hpairs.imp_of_mem ?_
    rintro ⟨a, i⟩ ⟨b, j⟩ ha hb hne
    have ha := List.mem_zipIdx_iff_getElem?.mp ha
    have hb := List.mem_zipIdx_iff_getElem?.mp hb
    dsimp only at ha hb hne
    intro x hxa hxb
    obtain ⟨a', ha', hx⟩ := List.mem_map.mp hxa
    obtain ⟨b', hb', hx'⟩ := List.mem_map.mp hxb
    obtain ⟨l, hl, hla⟩ := hold ha
    obtain ⟨m, hm, hmb⟩ := hold hb
    rw [← hx] at hx'
    rcases happ.label_of_place hfits hhead hlabel ha ha' with hsame | ⟨hi, hinsert⟩
    · rcases happ.label_of_place hfits hhead hlabel hb hb' with hsame' | ⟨-, hinsert'⟩
      · exact hne (hsame.symm.trans (hx'.symm.trans hsame'))
      · obtain ⟨n, hn, hnb⟩ := hnew hinsert'
        rw [hnb, hsame, hla] at hx'
        cases hx'
        omega
    · rcases happ.label_of_place hfits hhead hlabel hb hb' with hsame' | ⟨hj, -⟩
      · obtain ⟨n, hn, hna⟩ := hnew hinsert
        rw [hna, hsame', hmb] at hx'
        cases hx'
        omega
      · rw [hi] at ha
        rw [hj, ha] at hb
        cases hb
        exact hne rfl

/-- An edit that fits leaves a well-formed list. -/
theorem wellFormed (hwf : WellFormed bound blocks) (hfits : edit.Fits blocks label bound bound')
    (hhead : blocks[pos]? = some head) (hlabel : head.entryLabel? = some label) :
    WellFormed bound' after where
  nonempty := by
    obtain ⟨l, hl, hkept⟩ := hfits.rest
    have hmem := happ.label_mem_after hwf hfits hhead hlabel hl hkept
    rintro rfl
    cases hmem
  shaped := by
    intro block hmem
    have hlt := hfits.bound_le
    rcases happ.mem_new_or_kept hwf hhead hlabel hmem with hnew | ⟨hold, -⟩
    · simp only [List.mem_append, Option.mem_toList] at hnew
      rcases hnew with hnew | hnew | hnew
      · obtain ⟨hbound, -⟩ := hwf.shaped_of_label (List.mem_of_getElem? hhead) hlabel
        exact ⟨label, Nat.lt_of_lt_of_le hbound hlt, hfits.head block hnew⟩
      · obtain ⟨l, hshaped, hl, -⟩ := hfits.replace block hnew
        obtain ⟨i, old, hold, holdLabel, -⟩ := hwf.exists_position hl
        obtain ⟨hbound, -⟩ := hwf.shaped_of_label (List.mem_of_getElem? hold) holdLabel
        exact ⟨l, Nat.lt_of_lt_of_le hbound hlt, hshaped⟩
      · obtain ⟨l, -, hbound, hshaped⟩ := hfits.insert block hnew
        exact ⟨l, hbound, hshaped⟩
    · obtain ⟨l, hbound, hshaped⟩ := hwf.shaped block hold
      exact ⟨l, Nat.lt_of_lt_of_le hbound hlt, hshaped⟩
  distinct := happ.nodup_labels hwf hfits hhead hlabel
  closed := by
    intro l hl
    obtain ⟨block, hmem, hl⟩ := List.mem_flatMap.mp hl
    rcases happ.mem_new_or_kept hwf hhead hlabel hmem with hnew | ⟨hold, hkept⟩
    · obtain ⟨hgone, hnamed | hinsert⟩ := hfits.new_targets block hnew l hl
      · exact happ.label_mem_after hwf hfits hhead hlabel (hwf.closed l hnamed) hgone
      · obtain ⟨new, hnewMem, hnewLabel⟩ := List.mem_map.mp hinsert
        refine List.mem_map.mpr ⟨new, happ.mem_after.mpr ⟨pos, head, hhead, ?_⟩, hnewLabel⟩
        rw [happ.place_head]
        exact List.mem_append_right _ hnewMem
    · have hgone := hfits.kept_targets block hold hkept l hl
      have hnamed : l ∈ (BlockMap.ofBlocks blocks).mentions :=
        List.mem_flatMap.mpr ⟨block, hold, hl⟩
      exact happ.label_mem_after hwf hfits hhead hlabel (hwf.closed l hnamed) hgone

end Applied

end Edit

end Decompiler
