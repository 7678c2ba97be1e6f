import Mathlib.Data.List.Basic
import Mathlib.Tactic.Lemma
import Decompiler.Peephole.Rule

/-!
# Lists of blocks

What the views of a statement (`Stmt.targets`, `Stmt.labels`) make of the lists that the rules build,
and what the rules find: `BlockMap.position?` the last block with a label, `Site.other?` the same one
unless it is the head, and `BasicBlockOf.tail?` the end of a block behind its label.

Folding negations and making call statements change the expressions of a block and nothing else.  The
two have that in common as `Stmt.SameOutline`, which says what is left of a statement when its
expressions are passed over.
-/

/-- Two steps succeed together when the first succeeds and the second does on its result. -/
lemma Except.bind_eq_ok_iff {ε α β : Type} {x : Except ε α} {f : α → Except ε β} {b : β} :
    x >>= f = .ok b ↔ ∃ a, x = .ok a ∧ f a = .ok b := by
  constructor
  · intro h
    cases x with
    | error e => cases h
    | ok a => exact ⟨a, rfl, h⟩
  · rintro ⟨a, rfl, h⟩
    exact h

namespace Decompiler

open Bytecode

namespace Stmt

/-! ### Labels and targets of lists -/

/-- The labels of two lists one after the other. -/
lemma labelsOfList_append (a b : List Stmt) :
    labelsOfList (a ++ b) = labelsOfList a ++ labelsOfList b := by
  induction a with
  | nil => rfl
  | cons s rest ih => rw [List.cons_append, labelsOfList, ih, labelsOfList, List.append_assoc]

/-- The targets of two lists one after the other. -/
lemma targetsOfList_append (a b : List Stmt) :
    targetsOfList (a ++ b) = targetsOfList a ++ targetsOfList b := by
  induction a with
  | nil => rfl
  | cons s rest ih => rw [List.cons_append, targetsOfList, ih, targetsOfList, List.append_assoc]

/-- A target of a list is the target of one of its statements. -/
lemma mem_targetsOfList {l : LabelId} {list : List Stmt} :
    l ∈ targetsOfList list ↔ ∃ s ∈ list, l ∈ s.targets := by
  induction list with
  | nil => simp [targetsOfList]
  | cons s rest ih => simp [targetsOfList, ih]

/-- A list with fewer statements has fewer targets. -/
lemma targetsOfList_sublist {a b : List Stmt} (h : a.Sublist b) :
    (targetsOfList a).Sublist (targetsOfList b) := by
  induction h with
  | slnil => exact List.Sublist.slnil
  | cons s _ ih => exact ih.trans (List.sublist_append_right s.targets _)
  | cons_cons s _ ih => exact (List.Sublist.refl s.targets).append ih

/-! ### Outlines -/

mutual

/-- Whether every basic block in the statement starts with a label and ends in a transfer of control
or a structured statement. -/
def isSound : Stmt → Bool
  | .basic block => block.fault?.isNone && soundList block.body
  | .seq block => soundList block.body
  | .cond _ thenBlock elseBlock => soundList thenBlock.body && soundList elseBlock.body
  | .loop _ body => soundList body.body
  | .scope _ body _ => soundList body.body
  | .switch _ cases => soundCases cases
  | _ => true

/-- Whether every basic block in a list of statements has the right shape. -/
def soundList : List Stmt → Bool
  | [] => true
  | s :: rest => s.isSound && soundList rest

/-- Whether every basic block in the cases of a switch has the right shape. -/
def soundCases : List SwitchCase → Bool
  | [] => true
  | c :: rest => soundList c.body.body && soundCases rest

end

/-- A list of statements is sound when each of them is. -/
lemma soundList_eq_true_iff {list : List Stmt} :
    soundList list = true ↔ ∀ s ∈ list, s.isSound = true := by
  induction list with
  | nil => simp [soundList]
  | cons s rest ih => simp [soundList, ih]

/-- Two sound lists one after the other. -/
lemma soundList_append (a b : List Stmt) : soundList (a ++ b) = (soundList a && soundList b) := by
  induction a with
  | nil => simp [soundList]
  | cons s rest ih => rw [List.cons_append, soundList, ih, soundList, Bool.and_assoc]

/-- The label that the statement is, if it is one. -/
def label? : Stmt → Option LabelId
  | .label id => some id
  | _ => none

/-- Whether the statement is a jump. -/
def isGoto : Stmt → Bool
  | .goto _ => true
  | _ => false

/-- Whether the statement may end a block: a jump, or the end of the unit. -/
def endsBlock : Stmt → Bool
  | .goto _ | .ret _ | .exit | .raw _ .ret => true
  | _ => false

/-- Two statements that differ at most in their expressions. -/
structure SameOutline (s t : Stmt) : Prop where
  targets : t.targets = s.targets
  labels : t.labels = s.labels
  isSound : t.isSound = s.isSound
  label? : t.label? = s.label?
  isConditional : t.isConditional = s.isConditional
  isGoto : t.isGoto = s.isGoto
  endsBlock : t.endsBlock = s.endsBlock

lemma SameOutline.refl (s : Stmt) : SameOutline s s := ⟨rfl, rfl, rfl, rfl, rfl, rfl, rfl⟩

/-- Two lists of statements that differ at most in their expressions. -/
abbrev SameOutlines : List Stmt → List Stmt → Prop := List.Forall₂ SameOutline

namespace SameOutlines

variable {a b : List Stmt} (h : SameOutlines a b)
include h

lemma targets : targetsOfList b = targetsOfList a := by
  induction h with
  | nil => rfl
  | cons hs _ ih => rw [targetsOfList, targetsOfList, hs.targets, ih]

lemma labels : labelsOfList b = labelsOfList a := by
  induction h with
  | nil => rfl
  | cons hs _ ih => rw [labelsOfList, labelsOfList, hs.labels, ih]

lemma sound : soundList b = soundList a := by
  induction h with
  | nil => rfl
  | cons hs _ ih => rw [soundList, soundList, hs.isSound, ih]

end SameOutlines

/-- The cases of two switches that differ at most in their expressions. -/
structure SameCases (a b : List SwitchCase) : Prop where
  targets : targetsOfCases b = targetsOfCases a
  labels : labelsOfCases b = labelsOfCases a
  sound : soundCases b = soundCases a

namespace SameOutline

variable {a b a' b' : List Stmt} {entry entry' : Option LabelId}

/-- Nested lists with the same outlines. -/
lemma seq (h : SameOutlines a b) : SameOutline (.seq ⟨entry, a⟩) (.seq ⟨entry, b⟩) := by
  constructor <;>
    simp only [Stmt.targets, Stmt.labels, Stmt.isSound, Stmt.label?, Stmt.isConditional,
      Stmt.isGoto, Stmt.endsBlock, h.targets, h.labels, h.sound]

/-- Conditions whose sides have the same outlines. -/
lemma cond {test test' : Expr} (h : SameOutlines a b) (h' : SameOutlines a' b') :
    SameOutline (.cond test ⟨entry, a⟩ ⟨entry', a'⟩) (.cond test' ⟨entry, b⟩ ⟨entry', b'⟩) := by
  constructor <;>
    simp only [Stmt.targets, Stmt.labels, Stmt.isSound, Stmt.label?, Stmt.isConditional,
      Stmt.isGoto, Stmt.endsBlock, h.targets, h.labels, h.sound, h'.targets, h'.labels, h'.sound]

/-- Loops whose bodies have the same outlines. -/
lemma loop {test test' : Option Expr} (h : SameOutlines a b) :
    SameOutline (.loop test ⟨entry, a⟩) (.loop test' ⟨entry, b⟩) := by
  constructor <;>
    simp only [Stmt.targets, Stmt.labels, Stmt.isSound, Stmt.label?, Stmt.isConditional,
      Stmt.isGoto, Stmt.endsBlock, h.targets, h.labels, h.sound]

/-- Scopes whose bodies have the same outlines. -/
lemma scope {env env' : Expr} {stop : Option LabelId} (h : SameOutlines a b) :
    SameOutline (.scope env ⟨entry, a⟩ stop) (.scope env' ⟨entry, b⟩ stop) := by
  constructor <;>
    simp only [Stmt.targets, Stmt.labels, Stmt.isSound, Stmt.label?, Stmt.isConditional,
      Stmt.isGoto, Stmt.endsBlock, h.targets, h.labels, h.sound]

/-- Switches whose cases have the same outlines. -/
lemma switch {value value' : Expr} {cases cases' : List SwitchCase} (h : SameCases cases cases') :
    SameOutline (.switch value cases) (.switch value' cases') := by
  constructor <;>
    simp only [Stmt.targets, Stmt.labels, Stmt.isSound, Stmt.label?, Stmt.isConditional,
      Stmt.isGoto, Stmt.endsBlock, h.targets, h.labels, h.sound]

end SameOutline

/-- Cases with the same outlines one after the other. -/
lemma SameCases.cons {a b : List Stmt} {entry : Option LabelId} {values values' : List Expr}
    {isDefault : Bool} {cases cases' : List SwitchCase} (h : SameOutlines a b)
    (h' : SameCases cases cases') :
    SameCases (⟨values, isDefault, ⟨entry, a⟩⟩ :: cases)
      (⟨values', isDefault, ⟨entry, b⟩⟩ :: cases') := by
  constructor <;>
    simp only [targetsOfCases, labelsOfCases, soundCases, h.targets, h.labels, h.sound, h'.targets,
      h'.labels, h'.sound]

mutual

/-- Mapping the expressions of a statement keeps its outline. -/
lemma sameOutline_mapExprs (f : ExprMap) : (s : Stmt) → SameOutline s (s.mapExprs f)
  | .seq block => .seq (sameOutlines_mapExprsList f block.body)
  | .cond _ thenBlock elseBlock =>
    .cond (sameOutlines_mapExprsList f thenBlock.body) (sameOutlines_mapExprsList f elseBlock.body)
  | .loop _ body => .loop (sameOutlines_mapExprsList f body.body)
  | .scope _ body _ => .scope (sameOutlines_mapExprsList f body.body)
  | .switch _ cases => .switch (sameCases_mapExprsCases f cases)
  | .dispatch _ cases default => by
    constructor <;>
      simp only [mapExprs, Stmt.targets, branchTargets, List.map_map, Function.comp_def,
        Stmt.labels, Stmt.isSound, Stmt.label?, Stmt.isConditional, Stmt.isGoto, Stmt.endsBlock]
  | .label _ | .raw _ _ | .goto _ | .popEnv _ | .exit | .breakOut | .continueLoop | .basic _ =>
    .refl _
  | .push _ | .assign _ _ | .call _ _ | .discard _ | .condGoto _ _ | .pushEnv _ _ | .ret _ =>
    ⟨rfl, rfl, rfl, rfl, rfl, rfl, rfl⟩

/-- Mapping the expressions of a list of statements keeps its outline. -/
lemma sameOutlines_mapExprsList (f : ExprMap) :
    (list : List Stmt) → SameOutlines list (mapExprsList f list)
  | [] => .nil
  | s :: rest => .cons (sameOutline_mapExprs f s) (sameOutlines_mapExprsList f rest)

/-- Mapping the expressions of the cases of a switch keeps their outline. -/
lemma sameCases_mapExprsCases (f : ExprMap) :
    (cases : List SwitchCase) → SameCases cases (mapExprsCases f cases)
  | [] => ⟨rfl, rfl, rfl⟩
  | c :: rest => .cons (sameOutlines_mapExprsList f c.body.body) (sameCases_mapExprsCases f rest)

end

/-- Putting values for the incoming values keeps the outline of a list of statements. -/
lemma sameOutlines_map_substitute (values : List Expr) (list : List Stmt) :
    SameOutlines list (list.map (substitute values)) := by
  induction list with
  | nil => exact .nil
  | cons s rest ih => exact .cons (sameOutline_mapExprs _ s) ih

/-- Dropping the value of a call has the outline of a call. -/
lemma sameOutline_promoteCalls_discard :
    (value : Expr) → SameOutline (.discard value) (promoteCalls (.discard value))
  | .call _ _ => ⟨rfl, rfl, rfl, rfl, rfl, rfl, rfl⟩
  | .const _ | .var _ | .unary _ _ | .binary _ _ _ | .incoming _ => .refl _

mutual

/-- Making call statements keeps the outline of a statement. -/
lemma sameOutline_promoteCalls : (s : Stmt) → SameOutline s s.promoteCalls
  | .seq block => .seq (sameOutlines_promoteCallsList block.body)
  | .cond _ thenBlock elseBlock =>
    .cond (sameOutlines_promoteCallsList thenBlock.body)
      (sameOutlines_promoteCallsList elseBlock.body)
  | .loop _ body => .loop (sameOutlines_promoteCallsList body.body)
  | .scope _ body _ => .scope (sameOutlines_promoteCallsList body.body)
  | .switch _ cases => .switch (sameCases_promoteCallsCases cases)
  | .discard value => sameOutline_promoteCalls_discard value
  | .label _ | .raw _ _ | .push _ | .assign _ _ | .call _ _ | .goto _ | .condGoto _ _
  | .pushEnv _ _ | .popEnv _ | .dispatch _ _ _ | .ret _ | .exit | .breakOut | .continueLoop
  | .basic _ => .refl _

/-- Making call statements keeps the outline of a list of statements. -/
lemma sameOutlines_promoteCallsList :
    (list : List Stmt) → SameOutlines list (promoteCallsList list)
  | [] => .nil
  | s :: rest => .cons (sameOutline_promoteCalls s) (sameOutlines_promoteCallsList rest)

/-- Making call statements keeps the outline of the cases of a switch. -/
lemma sameCases_promoteCallsCases :
    (cases : List SwitchCase) → SameCases cases (promoteCallsCases cases)
  | [] => ⟨rfl, rfl, rfl⟩
  | c :: rest => .cons (sameOutlines_promoteCallsList c.body.body) (sameCases_promoteCallsCases rest)

end

end Stmt

/-! ### What the rules find -/

namespace BasicBlockOf

/-- The label at the head of a block is that of its first statement. -/
lemma entryLabel?_eq (block : BasicBlock) :
    block.entryLabel? = block.body.head?.bind Stmt.label? := by
  unfold entryLabel?
  split
  · rename_i h
    rw [h]
    rfl
  · rename_i h
    cases hbody : block.body with
    | nil => rfl
    | cons s rest =>
      cases s with
      | label id => exact absurd hbody (h id rest)
      | _ => rfl

/-- A block with a label at its head starts with it. -/
lemma exists_body_of_isSome {block : BasicBlock} (h : block.entryLabel?.isSome = true) :
    ∃ label body, block.body = .label label :: body := by
  unfold entryLabel? at h
  split at h
  · rename_i label rest hbody
    exact ⟨label, rest, hbody⟩
  · cases h

/-- Blocks that start alike have the same label. -/
lemma entryLabel?_congr {a b : BasicBlock} {init x y : List Stmt} (hinit : init ≠ [])
    (ha : a.body = init ++ x) (hb : b.body = init ++ y) : a.entryLabel? = b.entryLabel? := by
  obtain ⟨s, rest, rfl⟩ := List.exists_cons_of_ne_nil hinit
  rw [entryLabel?_eq, entryLabel?_eq, ha, hb]
  rfl

/-- The end of a block behind its label. -/
lemma tail?_eq_some {block : BasicBlock} {n : Nat} {stmts : List Stmt}
    (h : block.tail? n = some stmts) :
    ∃ init, init ≠ [] ∧ block.body = init ++ stmts ∧ stmts.length = n := by
  unfold tail? at h
  split at h
  · cases h
  · rename_i hlen
    cases h
    refine ⟨block.body.take (block.body.length - n), ?_, (List.take_append_drop _ _).symm, ?_⟩
    · intro hnil
      have := congrArg List.length hnil
      simp only [List.length_take, List.length_nil] at this
      omega
    · simp only [List.length_drop]
      omega

/-- The jump at the end of a block. -/
lemma gotoTarget?_eq_some {block : BasicBlock} {target : LabelId}
    (h : block.gotoTarget? = some target) :
    block.body = block.body.dropLast ++ [.goto target] := by
  unfold gotoTarget? at h
  split at h
  · rename_i hlast
    cases h
    exact (List.dropLast_append_getLast? _ hlast).symm
  · cases h

/-- A block is sound when it starts with a label, ends as a block has to, and holds sound
statements. -/
lemma isSound_of_append {block : BasicBlock} {init : List Stmt} {last : Stmt} {label : LabelId}
    (hbody : block.body = init ++ [last]) (hlabel : block.entryLabel? = some label)
    (hlast : (last.isUnconditional || last.isStructured) = true)
    (hsound : Stmt.soundList block.body = true) : (Stmt.basic block).isSound = true := by
  have hfault : block.fault? = none := by
    simp [fault?, hlabel, hbody, hlast]
  simp [Stmt.isSound, hfault, hsound]

/-- A sound block starts with a label and holds sound statements. -/
lemma exists_label_of_isSound {block : BasicBlock} (h : (Stmt.basic block).isSound = true) :
    (∃ label, block.entryLabel? = some label) ∧ Stmt.soundList block.body = true := by
  rw [Stmt.isSound, Bool.and_eq_true] at h
  refine ⟨?_, h.2⟩
  cases hlabel : block.entryLabel? with
  | none => simp [fault?, hlabel] at h
  | some label => exact ⟨label, rfl⟩

end BasicBlockOf

/-- A list of sound basic blocks. -/
def SoundBlocks (body : List Stmt) : Prop :=
  ∀ item ∈ body, ∃ block, item = .basic block ∧ (Stmt.basic block).isSound = true

/-- One sound block. -/
lemma SoundBlocks.singleton {block : BasicBlock} (h : (Stmt.basic block).isSound = true) :
    SoundBlocks [.basic block] := by
  intro item hitem
  rw [List.mem_singleton.mp hitem]
  exact ⟨block, rfl, h⟩

/-- A list of sound blocks is sound. -/
lemma SoundBlocks.soundList {body : List Stmt} (h : SoundBlocks body) :
    Stmt.soundList body = true := by
  rw [Stmt.soundList_eq_true_iff]
  intro item hitem
  obtain ⟨block, rfl, hsound⟩ := h item hitem
  exact hsound

/-- Sound blocks one after the other. -/
lemma SoundBlocks.append {a b : List Stmt} (ha : SoundBlocks a) (hb : SoundBlocks b) :
    SoundBlocks (a ++ b) := by
  intro item hitem
  rcases List.mem_append.mp hitem with h | h
  · exact ha item h
  · exact hb item h

/-- Blocks whose statements have the same outlines have the same label. -/
lemma Stmt.SameOutlines.entryLabel? {a b : BasicBlock} (h : SameOutlines a.body b.body) :
    b.entryLabel? = a.entryLabel? := by
  rw [BasicBlockOf.entryLabel?_eq, BasicBlockOf.entryLabel?_eq]
  generalize a.body = l at h
  generalize b.body = l' at h
  cases h with
  | nil => rfl
  | cons hs _ => exact hs.label?

/-- The branch at the end of a block. -/
lemma finalBranch?_eq_some {block : BasicBlock} {test : Expr} {target other : LabelId}
    (h : finalBranch? block = some (test, target, other)) :
    ∃ init, init ≠ [] ∧ block.body = init ++ [.condGoto test target, .goto other] := by
  unfold finalBranch? at h
  split at h
  · rename_i ht
    cases h
    obtain ⟨init, hne, hbody, -⟩ := BasicBlockOf.tail?_eq_some ht
    exact ⟨init, hne, hbody⟩
  · cases h

/-- The branch of a block that does nothing else. -/
lemma singleBranch?_eq_some {block : BasicBlock} {test : Expr} {target other : LabelId}
    (h : singleBranch? block = some (test, target, other)) :
    ∃ l, block.body = [.label l, .condGoto test target, .goto other] := by
  unfold singleBranch? at h
  split at h
  · rename_i l _ _ _ hbody
    cases h
    exact ⟨l, hbody⟩
  · cases h

/-- The position of a label is that of a block with the label. -/
lemma BlockMap.position?_eq_some {map : BlockMap} {label : LabelId} {i : Nat}
    (h : map.position? label = some i) :
    ∃ block, map.blocks[i]? = some block ∧ block.entryLabel? = some label := by
  simp only [position?, Option.map_eq_some_iff] at h
  obtain ⟨⟨block, j⟩, hfind, rfl⟩ := h
  have hlabel := List.find?_some hfind
  have hmem := List.mem_of_find?_eq_some hfind
  exact ⟨block, List.mem_zipIdx_iff_getElem?.mp (List.mem_reverse.mp hmem), by simpa using hlabel⟩

namespace Site

/-- Another block than the head, with its position. -/
lemma other?_eq_some {site : Site} {label : LabelId} {block : BasicBlock}
    (h : site.other? label = some block) :
    ∃ i, i ≠ site.pos ∧ site.map.position? label = some i ∧ site.blocks[i]? = some block ∧
      block.entryLabel? = some label := by
  simp only [other?, Option.bind_eq_bind, Option.bind_eq_some_iff] at h
  obtain ⟨i, hi, h⟩ := h
  split at h
  · cases h
  · rename_i hne
    obtain ⟨block', hblock', hlabel⟩ := BlockMap.position?_eq_some hi
    have hsame : some block' = some block := hblock'.symm.trans h
    cases hsame
    exact ⟨i, hne, hi, h, hlabel⟩

/-- The head with its end exchanged. -/
lemma body_headWith {site : Site} {init old : List Stmt} (h : site.head.body = init ++ old)
    (stmts : List Stmt) : (site.headWith old.length stmts).body = init ++ stmts := by
  simp only [headWith, h, List.length_append, Nat.add_sub_cancel, List.take_left']

end Site

end Decompiler
