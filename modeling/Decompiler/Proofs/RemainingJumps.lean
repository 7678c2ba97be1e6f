import Decompiler.Proofs.RecoveredSwitches
import Decompiler.Proofs.RepeatedCleanup
import Decompiler.Proofs.UnitFaults

/-!
# Jumps that remain

The block that ends the rounds of a scope is taken out of the tree when the scope is recovered, and its
label becomes the stop label of the scope.  A jump there is well as long as the removal of jumps can do
without it: when it stands directly in the scope it falls through to the end of the round or becomes a
`continue`.  In a loop inside of the scope a `continue` would be one of that loop, and outside of the
scope there is no round to finish.  There the jump may stay, to a label that is defined nowhere.  A loop
at the very end of the scope is an exception, since it can be left by a `break`.

`Stmt.jumps` lists the jumps of a tree, each with the stop label of the round in which it stands.  No
step behind the recovery of loops moves a jump out of its round or adds one.  So what remains in the end
has been in the tree of loops, and it does not stand directly in the scope to whose stop label it leads
(`gotos_recoverTree`).
-/

namespace Decompiler

open Bytecode Flatten

/-! ### The jumps of a tree -/

/-- A jump in a tree.  The innermost loop or scope around it ends its rounds at the label `round`, if it
is a scope that has one. -/
structure PlacedJump where
  round : Option LabelId
  target : LabelId
deriving DecidableEq, Repr

/-- Of two lists one after the other, each may have more elements. -/
lemma append_subset_append {α : Type} {a b a' b' : List α} (ha : a ⊆ a') (hb : b ⊆ b') :
    a ++ b ⊆ a' ++ b' :=
  List.append_subset.mpr
    ⟨List.subset_append_of_subset_left b' ha, List.subset_append_of_subset_right a' hb⟩

namespace Stmt

/-- The target of a plain jump. -/
def gotoTargets : Stmt → List LabelId
  | .goto target => [target]
  | _ => []

/-- The targets of a jump that is plain or that the recovery of conditions makes so. -/
def jumpTargets : Stmt → List LabelId
  | .goto target | .condGoto _ target => [target]
  | .dispatch _ cases default => cases.map Prod.snd ++ [default]
  | _ => []

/-- Jumps to the labels of a list. -/
def placed (round : Option LabelId) (targets : List LabelId) : List PlacedJump :=
  targets.map (PlacedJump.mk round)

mutual

/-- The jumps in a statement, where `own` gives the targets of a statement without blocks.  A block that
is entered at a label starts with a jump there. -/
def jumps (own : Stmt → List LabelId) (round : Option LabelId) : Stmt → List PlacedJump
  | .basic block => jumpsOfList own round block.body
  | .seq block => placed round block.entry.toList ++ jumpsOfList own round block.body
  | .cond _ thenBlock elseBlock =>
    placed round thenBlock.entry.toList ++ jumpsOfList own round thenBlock.body ++
      (placed round elseBlock.entry.toList ++ jumpsOfList own round elseBlock.body)
  | .loop _ block => placed none block.entry.toList ++ jumpsOfList own none block.body
  | .scope _ block stop => placed stop block.entry.toList ++ jumpsOfList own stop block.body
  | .switch _ cases => jumpsOfCases own round cases
  | s => placed round (own s)

/-- The jumps in a list. -/
def jumpsOfList (own : Stmt → List LabelId) (round : Option LabelId) : List Stmt → List PlacedJump
  | [] => []
  | s :: rest => s.jumps own round ++ jumpsOfList own round rest

/-- The jumps in the cases of a switch. -/
def jumpsOfCases (own : Stmt → List LabelId) (round : Option LabelId) :
    List SwitchCase → List PlacedJump
  | [] => []
  | c :: rest =>
    placed round c.body.entry.toList ++ jumpsOfList own round c.body.body ++
      jumpsOfCases own round rest

end

variable {own : Stmt → List LabelId} {round : Option LabelId} {jump : PlacedJump}

@[simp] lemma mem_placed {targets : List LabelId} :
    jump ∈ placed round targets ↔ jump.round = round ∧ jump.target ∈ targets := by
  obtain ⟨round', target⟩ := jump
  simp only [placed, List.mem_map, PlacedJump.mk.injEq]
  constructor
  · rintro ⟨_, hmem, rfl, rfl⟩
    exact ⟨rfl, hmem⟩
  · rintro ⟨rfl, hmem⟩
    exact ⟨target, hmem, rfl, rfl⟩

lemma jumpsOfList_append (a b : List Stmt) :
    jumpsOfList own round (a ++ b) = jumpsOfList own round a ++ jumpsOfList own round b := by
  induction a with
  | nil => rfl
  | cons s rest ih => rw [List.cons_append, jumpsOfList, ih, jumpsOfList, List.append_assoc]

lemma mem_jumpsOfList {list : List Stmt} :
    jump ∈ jumpsOfList own round list ↔ ∃ s ∈ list, jump ∈ s.jumps own round := by
  induction list with
  | nil => simp [jumpsOfList]
  | cons s rest ih => simp [jumpsOfList, ih]

lemma mem_jumpsOfCases {cases : List SwitchCase} :
    jump ∈ jumpsOfCases own round cases ↔
      ∃ c ∈ cases, jump ∈ placed round c.body.entry.toList ∨
        jump ∈ jumpsOfList own round c.body.body := by
  induction cases with
  | nil => simp [jumpsOfCases]
  | cons c rest ih => simp [jumpsOfCases, ih, or_assoc]

/-- Part of a list has part of its jumps. -/
lemma jumpsOfList_subset {a b : List Stmt} (h : a ⊆ b) :
    jumpsOfList own round a ⊆ jumpsOfList own round b := by
  intro jump hjump
  obtain ⟨s, hs, hjump⟩ := mem_jumpsOfList.mp hjump
  exact mem_jumpsOfList.mpr ⟨s, h hs, hjump⟩

end Stmt

/-- The plain jumps of a tree. -/
def BlockOf.gotos (block : Block) : List PlacedJump :=
  Stmt.placed none block.entry.toList ++ Stmt.jumpsOfList Stmt.gotoTargets none block.body

/-- The jumps of a tree that are plain or that the recovery of conditions makes so. -/
def BlockOf.jumps (block : Block) : List PlacedJump :=
  Stmt.placed none block.entry.toList ++ Stmt.jumpsOfList Stmt.jumpTargets none block.body

/-- All jumps to a label stand directly in a scope whose rounds end there. -/
def BlockOf.JumpsDirectly (block : Block) (stop : LabelId) : Prop :=
  ∀ jump ∈ block.jumps, jump.target = stop → jump.round = some stop

instance (block : Block) (stop : LabelId) : Decidable (block.JumpsDirectly stop) :=
  inferInstanceAs (Decidable (∀ jump ∈ block.jumps, jump.target = stop → jump.round = some stop))

/-! ### Recovering conditions -/

namespace Conditions

open Stmt

variable {items : List Stmt} {bound i : Nat} {round : Option LabelId}

/-- The jumps of an item are jumps of the list. -/
lemma jumps_item_subset {block : BasicBlock} (round : Option LabelId)
    (hitem : items[i]? = some (.basic block)) :
    jumpsOfList jumpTargets round block.body ⊆ jumpsOfList jumpTargets round items :=
  fun _ hjump => mem_jumpsOfList.mpr ⟨_, List.mem_of_getElem? hitem, hjump⟩

/-- A case of a recovered switch goes to a target of the dispatch and has the code of one of the cases
before they were sorted. -/
lemma mem_sortCases {cases : List (Expr × LabelId)} {own : List SwitchCase} {c : SwitchCase}
    (hown : List.Forall₂ OfGroup (groups cases []) own) (hc : c ∈ sortCases own) :
    ∃ target ∈ cases.map Prod.snd, c.body.entry = some target ∧ ∃ d ∈ own, c.body = d.body := by
  obtain ⟨d, hd, hsame⟩ := exists_sameCase hc
  obtain ⟨group, hgroup, hof⟩ := exists_of_forall₂ hown hd
  refine ⟨group.1, ?_, by rw [hsame.body, hof.entry], d, hd, hsame.body⟩
  simpa using mem_map_groups.mp (List.mem_map_of_mem hgroup)

/-- A switch in the place of a dispatch has the jumps of the dispatch and those of its cases. -/
lemma jumps_switch_subset {value : Expr} {cases : List (Expr × LabelId)} {default fall : LabelId}
    {own : List SwitchCase} {last : Option (List Stmt)} {all : List PlacedJump}
    (hown : List.Forall₂ OfGroup (groups cases []) own)
    (hbranch : jumpsOfList jumpTargets round [.dispatch value cases default, .goto fall] ⊆ all)
    (hbodies : ∀ body ∈ (own.map fun c => c.body.body) ++ last.toList,
      jumpsOfList jumpTargets round body ⊆ all) :
    jumpsOfList jumpTargets round
      (.switch value (sortCases own ++ defaultCase fall last) :: fallJump fall last) ⊆ all := by
  have htargets : ∀ target ∈ cases.map Prod.snd ++ [fall], ⟨round, target⟩ ∈ all := by
    intro target htarget
    refine hbranch ?_
    rcases List.mem_append.mp htarget with htarget | htarget
    · exact List.mem_append_left _ (mem_placed.mpr ⟨rfl, List.mem_append_left _ htarget⟩)
    · exact List.mem_append_right _ (List.mem_append_left _ (mem_placed.mpr ⟨rfl, htarget⟩))
  have hentry : ∀ target ∈ cases.map Prod.snd ++ [fall], placed round [target] ⊆ all := by
    intro target htarget
    simpa [placed] using htargets target htarget
  refine List.append_subset.mpr ⟨fun jump hjump => ?_, ?_⟩
  · rw [jumps] at hjump
    obtain ⟨c, hc, hcase⟩ := mem_jumpsOfCases.mp hjump
    rcases List.mem_append.mp hc with hown' | hlast
    · obtain ⟨target, htarget, hstart, d, hd, hbody⟩ := mem_sortCases hown hown'
      rw [hstart, hbody] at hcase
      rcases hcase with hcase | hcase
      · exact hentry target (List.mem_append_left _ htarget) hcase
      · exact hbodies _ (List.mem_append_left _ (List.mem_map_of_mem hd)) hcase
    · cases last with
      | none => cases hlast
      | some body =>
        rw [List.mem_singleton.mp hlast] at hcase
        rcases hcase with hcase | hcase
        · exact hentry fall (by simp) hcase
        · exact hbodies body (by simp) hcase
  · cases last with
    | none => exact List.append_subset.mpr ⟨hentry fall (by simp), List.nil_subset _⟩
    | some body => exact List.nil_subset _

/-- A block that has taken the place of an item has the jumps of the item and those of its arms or cases.
-/
lemma Reshaped.jumps_subset {block : BasicBlock} {bodies : List (List Stmt)}
    (h : Reshaped items i block bodies)
    (hbodies : ∀ body ∈ bodies,
      jumpsOfList jumpTargets round body ⊆ jumpsOfList jumpTargets round items) :
    jumpsOfList jumpTargets round block.body ⊆ jumpsOfList jumpTargets round items := by
  cases h with
  | same hitem => exact jumps_item_subset round hitem
  | @cond head init thenBody elseBody test target other hitem hbody hinit =>
    have hhead := jumps_item_subset round hitem
    rw [hbody, jumpsOfList_append, List.append_subset] at hhead
    rw [jumpsOfList_append, List.append_subset]
    refine ⟨hhead.1, ?_⟩
    have hthen := hbodies thenBody List.mem_cons_self
    have helse := hbodies elseBody (by simp)
    have hbranch := hhead.2
    simp only [jumpsOfList, jumps, jumpTargets, Option.toList_some] at hbranch ⊢
    grind
  | @switch head init value cases default fall own last hitem hbody hinit hown =>
    have hhead := jumps_item_subset round hitem
    rw [hbody, jumpsOfList_append, List.append_subset] at hhead
    rw [jumpsOfList_append, List.append_subset]
    exact ⟨hhead.1, jumps_switch_subset hown hhead.2 hbodies⟩

/-- An arrangement of items has no other jumps. -/
lemma Arranges.jumps_subset {list : List Stmt} {ids : Multiset Nat}
    (h : Arranges items bound list ids) :
    jumpsOfList jumpTargets round list ⊆ jumpsOfList jumpTargets round items := by
  induction h with
  | nil => exact List.nil_subset _
  | block hblock _ _ ihParts ih =>
    refine List.append_subset.mpr ⟨hblock.jumps_subset fun body hbody => ?_, ih⟩
    obtain ⟨part, hpart, rfl⟩ := List.mem_map.mp hbody
    exact ihParts part hpart
  | caseEnd _ _ ih => exact ih

/-- Recovering the conditions of a list adds no jumps. -/
lemma jumps_recoverBlockStep_subset (entry : Option LabelId) (body : List Stmt) (context : Context) :
    Yields (recoverBlockStep entry body) context fun result _ =>
      result.entry = entry ∧ ∀ round : Option LabelId,
        jumpsOfList jumpTargets round result.body ⊆ jumpsOfList jumpTargets round body := by
  by_cases hguard : (body.isEmpty || !body.all isBasic) = true
  · exact ⟨_, _, @recoverBlock_of_guard ⟨entry, body⟩ hguard context, rfl,
      fun _ => List.Subset.refl _⟩
  · obtain ⟨hbasic, hne⟩ := basic_of_not_guard hguard
    refine (yields_recoverBlockStep hbasic hne (Nat.zero_le _)).mono ?_
    rintro result context' ⟨hresult, -⟩
    exact ⟨hresult.entry, fun _ => hresult.arranges.jumps_subset⟩

mutual

/-- Recovering the conditions in an item of a list adds no jumps. -/
lemma jumps_inItem_subset : (s : Stmt) → ∀ context : Context,
    Yields (inItem s) context fun s' _ =>
      ∀ round : Option LabelId, s'.jumps jumpTargets round ⊆ s.jumps jumpTargets round
  | .basic block, context => by
    rw [inItem]
    exact (jumps_inBasicBlock_subset block.body context).bind fun _ _ hbody => .pure hbody
  | .label _, _ | .raw _ _, _ | .push _, _ | .assign _ _, _ | .call _ _, _ | .discard _, _
  | .goto _, _ | .condGoto _ _, _ | .pushEnv _ _, _ | .popEnv _, _ | .dispatch _ _ _, _ | .ret _, _
  | .exit, _ | .breakOut, _ | .continueLoop, _ | .seq _, _ | .cond _ _ _, _ | .loop _ _, _
  | .switch _ _, _ | .scope _ _ _, _ => .pure fun _ => List.Subset.refl _

/-- Recovering the conditions in the items of a list adds no jumps. -/
lemma jumps_inItems_subset : (list : List Stmt) → ∀ context : Context,
    Yields (inItems list) context fun list' _ =>
      ∀ round : Option LabelId,
        jumpsOfList jumpTargets round list' ⊆ jumpsOfList jumpTargets round list
  | [], _ => .pure fun _ => List.Subset.refl _
  | s :: rest, context => by
    rw [inItems]
    refine (jumps_inItem_subset s context).bind fun s' t hs => ?_
    refine (jumps_inItems_subset rest t).bind fun rest' u hrest => .pure fun round => ?_
    exact append_subset_append (hs round) (hrest round)

/-- Recovering the conditions of a loop or scope adds no jumps. -/
lemma jumps_inLoop_subset : (s : Stmt) → ∀ context : Context,
    Yields (inLoop s) context fun s' _ =>
      ∀ round : Option LabelId, s'.jumps jumpTargets round ⊆ s.jumps jumpTargets round
  | .loop test block, context => by
    rw [inLoop]
    refine (jumps_inItems_subset block.body context).bind fun items t hitems => ?_
    refine (jumps_recoverBlockStep_subset block.entry items t).bind ?_
    rintro result u ⟨hentry, hresult⟩
    refine .pure fun round => ?_
    rw [jumps, jumps, hentry]
    exact append_subset_append (List.Subset.refl _) (List.Subset.trans (hresult none) (hitems none))
  | .scope env block stop, context => by
    rw [inLoop]
    refine (jumps_inItems_subset block.body context).bind fun items t hitems => ?_
    refine (jumps_recoverBlockStep_subset block.entry items t).bind ?_
    rintro result u ⟨hentry, hresult⟩
    refine .pure fun round => ?_
    rw [jumps, jumps, hentry]
    exact append_subset_append (List.Subset.refl _) (List.Subset.trans (hresult stop) (hitems stop))
  | .label _, _ | .raw _ _, _ | .push _, _ | .assign _ _, _ | .call _ _, _ | .discard _, _
  | .goto _, _ | .condGoto _ _, _ | .pushEnv _ _, _ | .popEnv _, _ | .dispatch _ _ _, _ | .ret _, _
  | .exit, _ | .breakOut, _ | .continueLoop, _ | .basic _, _ | .seq _, _ | .cond _ _ _, _
  | .switch _ _, _ => .pure fun _ => List.Subset.refl _

/-- Recovering the conditions in the statements of a block adds no jumps. -/
lemma jumps_inBasicBlock_subset : (list : List Stmt) → ∀ context : Context,
    Yields (inBasicBlock list) context fun list' _ =>
      ∀ round : Option LabelId,
        jumpsOfList jumpTargets round list' ⊆ jumpsOfList jumpTargets round list
  | [], _ => .pure fun _ => List.Subset.refl _
  | s :: rest, context => by
    rw [inBasicBlock]
    refine (jumps_inLoop_subset s context).bind fun s' t hs => ?_
    refine (jumps_inBasicBlock_subset rest t).bind fun rest' u hrest => .pure fun round => ?_
    exact append_subset_append (hs round) (hrest round)

end

end Conditions

/-- The recovery of conditions adds no jumps to a tree. -/
lemma jumps_findConditions_subset (block : Block) (context : Context) :
    Yields (findConditions block : ContextStep Block) context fun tree _ =>
      tree.jumps ⊆ block.jumps := by
  have hstep : Yields (do
      let items ← Conditions.inItems block.body
      Conditions.recoverBlockStep block.entry items) context fun tree _ =>
        tree.jumps ⊆ block.jumps := by
    refine (Conditions.jumps_inItems_subset block.body context).bind fun items t hitems => ?_
    refine (Conditions.jumps_recoverBlockStep_subset block.entry items t).mono ?_
    rintro tree u ⟨hentry, htree⟩
    rw [BlockOf.jumps, BlockOf.jumps, hentry]
    exact append_subset_append (List.Subset.refl _) (List.Subset.trans (htree none) (hitems none))
  exact hstep

/-! ### Splicing -/

namespace Flatten

open Stmt

/-- The jump to the entry of a block comes to stand at the start of its list. -/
lemma jumps_spliced_subset (round : Option LabelId) (block : Block)
    (h : jumpsOfList gotoTargets round (splice block.body) ⊆
      jumpsOfList jumpTargets round block.body) :
    jumpsOfList gotoTargets round (spliced block) ⊆
      placed round block.entry.toList ++ jumpsOfList jumpTargets round block.body := by
  have hentry : jumpsOfList gotoTargets round (entryJump block.entry) =
      placed round block.entry.toList := by
    cases block.entry <;> rfl
  rw [spliced, jumpsOfList_append, hentry]
  exact append_subset_append (List.Subset.refl _) h

mutual

/-- Splicing the lists in a statement adds no jumps. -/
lemma jumps_spliceStmt_subset (round : Option LabelId) :
    (s : Stmt) → (spliceStmt s).jumps gotoTargets round ⊆ s.jumps jumpTargets round
  | .cond _ thenBlock elseBlock => by
    have hthen := jumps_spliced_subset round thenBlock (jumps_splice_subset round thenBlock.body)
    have helse := jumps_spliced_subset round elseBlock (jumps_splice_subset round elseBlock.body)
    exact append_subset_append hthen helse
  | .loop _ block => jumps_spliced_subset none block (jumps_splice_subset none block.body)
  | .scope _ block stop => jumps_spliced_subset stop block (jumps_splice_subset stop block.body)
  | .switch _ cases => jumps_spliceCases_subset round cases
  | .seq block => jumps_spliced_subset round block (jumps_splice_subset round block.body)
  | .basic block => jumps_spliceStmts_subset round block.body
  | .goto _ => List.Subset.refl _
  | .label _ | .raw _ _ | .push _ | .assign _ _ | .call _ _ | .discard _ | .condGoto _ _
  | .pushEnv _ _ | .popEnv _ | .dispatch _ _ _ | .ret _ | .exit | .breakOut | .continueLoop =>
    List.nil_subset _

/-- Splicing the statements of a basic block adds no jumps. -/
lemma jumps_spliceStmts_subset (round : Option LabelId) :
    (list : List Stmt) →
      jumpsOfList gotoTargets round (spliceStmts list) ⊆ jumpsOfList jumpTargets round list
  | [] => List.Subset.refl _
  | s :: rest =>
    append_subset_append (jumps_spliceStmt_subset round s) (jumps_spliceStmts_subset round rest)

/-- Splicing the basic blocks of a list adds no jumps. -/
lemma jumps_splice_subset (round : Option LabelId) :
    (list : List Stmt) →
      jumpsOfList gotoTargets round (splice list) ⊆ jumpsOfList jumpTargets round list
  | [] => List.Subset.refl _
  | s :: rest => by
    have hs := jumps_spliceStmt_subset round s
    have hrest := jumps_splice_subset round rest
    cases s with
    | basic block =>
      rw [splice, jumpsOfList_append]
      exact append_subset_append (jumps_spliceStmts_subset round block.body) hrest
    | _ =>
      rw [splice_cons (by simp)]
      exact append_subset_append hs hrest

/-- Splicing the cases of a switch adds no jumps. -/
lemma jumps_spliceCases_subset (round : Option LabelId) :
    (cases : List SwitchCase) →
      jumpsOfCases gotoTargets round (spliceCases cases) ⊆ jumpsOfCases jumpTargets round cases
  | [] => List.Subset.refl _
  | c :: rest =>
    append_subset_append (jumps_spliced_subset round c.body (jumps_splice_subset round c.body.body))
      (jumps_spliceCases_subset round rest)

end

/-- Splicing a block adds no jumps. -/
lemma gotos_spliced_subset (block : Block) :
    BlockOf.gotos { body := spliced block } ⊆ block.jumps :=
  jumps_spliced_subset none block (jumps_splice_subset none block.body)

end Flatten

/-! ### Dropping redundant code -/

namespace Cleanup

open Stmt

/-- Dropping every `continue` at the end of a list adds no jumps. -/
lemma jumps_dropTrailingContinue_subset (round : Option LabelId) (list : List Stmt) :
    jumpsOfList gotoTargets round (dropTrailingContinue list).1 ⊆ jumpsOfList gotoTargets round list :=
  jumpsOfList_subset (dropTrailingContinue_isPrefix list).subset

mutual

/-- What is left of a statement has no other jumps. -/
lemma jumps_inStmt_subset (named : List LabelId) (round : Option LabelId) :
    (s : Stmt) → (inStmt named s).1.jumps gotoTargets round ⊆ s.jumps gotoTargets round
  | .cond test thenBlock elseBlock => by
    have hthen := jumps_inList_subset named false round thenBlock.body
    have helse := jumps_inList_subset named false round elseBlock.body
    simp only [inStmt, orient]
    have hthen' := append_subset_append (List.Subset.refl (placed round thenBlock.entry.toList)) hthen
    have helse' := append_subset_append (List.Subset.refl (placed round elseBlock.entry.toList)) helse
    split
    · exact List.append_subset.mpr ⟨List.subset_append_of_subset_right _ helse',
        List.subset_append_of_subset_left _ hthen'⟩
    · exact append_subset_append hthen' helse'
  | .loop _ block => by
    have hbody := jumps_inList_subset named false none block.body
    have hdrop := jumps_dropTrailingContinue_subset none (inList named false block.body).1
    exact append_subset_append (List.Subset.refl _) (List.Subset.trans hdrop hbody)
  | .scope _ block stop => by
    have hbody := jumps_inList_subset named false stop block.body
    have hdrop := jumps_dropTrailingContinue_subset stop (inList named false block.body).1
    cases stop with
    | none => exact append_subset_append (List.Subset.refl _) hbody
    | some stop => exact append_subset_append (List.Subset.refl _) (List.Subset.trans hdrop hbody)
  | .switch _ cases => jumps_inCases_subset named round cases
  | .seq block =>
    append_subset_append (List.Subset.refl _) (jumps_inList_subset named false round block.body)
  | .label _ | .raw _ _ | .push _ | .assign _ _ | .call _ _ | .discard _ | .goto _ | .condGoto _ _
  | .pushEnv _ _ | .popEnv _ | .dispatch _ _ _ | .ret _ | .exit | .breakOut | .continueLoop
  | .basic _ => List.Subset.refl _

/-- What is left of a list has no other jumps. -/
lemma jumps_inList_subset (named : List LabelId) (dead : Bool) (round : Option LabelId) :
    (list : List Stmt) →
      jumpsOfList gotoTargets round (inList named dead list).1 ⊆ jumpsOfList gotoTargets round list
  | [] => List.Subset.refl _
  | s :: rest => by
    rw [inList]
    cases reach named dead s with
    | some dead =>
      exact List.Subset.trans (jumps_inList_subset named dead round rest)
        (List.subset_append_right _ _)
    | none =>
      exact append_subset_append (jumps_inStmt_subset named round s)
        (jumps_inList_subset named s.isUnconditional round rest)

/-- What is left of the cases of a switch has no other jumps. -/
lemma jumps_inCases_subset (named : List LabelId) (round : Option LabelId) :
    (cases : List SwitchCase) →
      jumpsOfCases gotoTargets round (inCases named cases).1 ⊆ jumpsOfCases gotoTargets round cases
  | [] => List.Subset.refl _
  | c :: rest =>
    append_subset_append
      (append_subset_append (List.Subset.refl _) (jumps_inList_subset named false round c.body.body))
      (jumps_inCases_subset named round rest)

end

end Cleanup

/-! ### Removing jumps -/

namespace Jumps

open Execution Stmt

variable {flow : Flow} {round : Option LabelId} {target : LabelId} {rest : List Stmt}

/-- A jump does not stay where `continue` leads to its target. -/
lemma jump_of_continueTo {labels : List LabelId} (hlabels : labels ∈ flow.continueTo)
    (htarget : target ∈ labels) :
    jumpsOfList gotoTargets round (jump flow target rest).1 = [] := by
  have hany : flow.continueTo.any (·.contains target) = true :=
    (Option.any_eq_true _ _).mpr ⟨labels, hlabels, List.contains_iff_mem.mpr htarget⟩
  unfold jump
  split
  · rfl
  · split <;> rfl

/-- Nothing becomes of a jump but the same jump, if it is one at all. -/
lemma jumps_jump_subset (flow : Flow) (round : Option LabelId) (target : LabelId) (rest : List Stmt) :
    jumpsOfList gotoTargets round (jump flow target rest).1 ⊆ placed round [target] := by
  rcases jump_cases flow target rest with ⟨-, h⟩ | ⟨_, -, -, h⟩ | ⟨_, -, -, h⟩ | h <;> rw [h]
  · exact List.nil_subset _
  · exact List.nil_subset _
  · exact List.nil_subset _
  · exact List.Subset.refl _

mutual

/-- Removing the jumps of a statement adds none. -/
lemma jumps_newStmt_subset (flow : Flow) (follow preceding : List LabelId) (round : Option LabelId) :
    (s : Stmt) →
      (newStmt flow follow preceding s).jumps gotoTargets round ⊆ s.jumps gotoTargets round
  | .seq block => by
    rw [newStmt_seq]
    exact append_subset_append (List.Subset.refl _) (jumps_newList_subset _ [] round block.body)
  | .cond _ thenBlock elseBlock => by
    rw [newStmt_cond]
    exact append_subset_append
      (append_subset_append (List.Subset.refl _) (jumps_newList_subset _ [] round thenBlock.body))
      (append_subset_append (List.Subset.refl _) (jumps_newList_subset _ [] round elseBlock.body))
  | .loop _ block => by
    rw [newStmt_loop]
    exact append_subset_append (List.Subset.refl _) (jumps_newList_subset _ [] none block.body)
  | .scope _ block stop => by
    rw [newStmt_scope]
    exact append_subset_append (List.Subset.refl _) (jumps_newList_subset _ [] stop block.body)
  | .switch _ cases => by
    rw [newStmt_switch]
    exact jumps_newCases_subset _ round cases
  | .label _ | .raw _ _ | .push _ | .assign _ _ | .call _ _ | .discard _ | .goto _ | .condGoto _ _
  | .pushEnv _ _ | .popEnv _ | .dispatch _ _ _ | .ret _ | .exit | .breakOut | .continueLoop
  | .basic _ => by
    rw [newStmt_of_leaf rfl]
    exact List.Subset.refl _

/-- Removing the jumps of a list adds none. -/
lemma jumps_newList_subset (flow : Flow) (preceding : List LabelId) (round : Option LabelId) :
    (list : List Stmt) →
      jumpsOfList gotoTargets round (newList flow preceding list) ⊆ jumpsOfList gotoTargets round list
  | [] => by
    rw [newList_nil]
    exact List.Subset.refl _
  | s :: rest => by
    by_cases hs : ∃ target, s = .goto target
    · obtain ⟨target, rfl⟩ := hs
      rw [newList_goto, jumpsOfList_append]
      exact append_subset_append (jumps_jump_subset flow round target rest)
        (jumps_newList_subset flow [] round rest)
    · rw [newList_cons fun target h => hs ⟨target, h⟩]
      exact append_subset_append (jumps_newStmt_subset flow _ preceding round s)
        (jumps_newList_subset flow _ round rest)

/-- Removing the jumps of the cases of a switch adds none. -/
lemma jumps_newCases_subset (flow : Flow) (round : Option LabelId) :
    (cases : List SwitchCase) →
      jumpsOfCases gotoTargets round (newCases flow cases) ⊆ jumpsOfCases gotoTargets round cases
  | [] => by
    rw [newCases_nil]
    exact List.Subset.refl _
  | c :: later => by
    rw [newCases_cons]
    exact append_subset_append
      (append_subset_append (List.Subset.refl _) (jumps_newList_subset flow [] round c.body.body))
      (jumps_newCases_subset flow round later)

end

/-- `continue` leads to the end of the round. -/
def Flow.Finishes (flow : Flow) (round : Option LabelId) : Prop :=
  ∀ stop ∈ round, ∃ labels ∈ flow.continueTo, stop ∈ labels

namespace Flow.Finishes

lemma none (flow : Flow) : flow.Finishes none := by simp [Finishes]

/-- A scope starts its next round at its stop label. -/
lemma ofScope (follow : List LabelId) (stop : Option LabelId) :
    (Flow.round follow stop.toList).Finishes stop :=
  fun _ hid => ⟨stop.toList, rfl, Option.mem_toList.mpr hid⟩

lemma inner (h : flow.Finishes round) (follow : List LabelId) :
    (flow.inner follow).Finishes round := h

/-- A switch has no rounds of its own. -/
lemma cases (h : flow.Finishes round) (follow : List LabelId) :
    (flow.cases follow).Finishes round := h

end Flow.Finishes

mutual

/-- No jump in a statement stays that stands directly in the scope to whose stop label it leads. -/
lemma round_ne_of_newStmt {flow : Flow} {follow preceding : List LabelId} {round : Option LabelId}
    (hround : flow.Finishes round) :
    (s : Stmt) → Every isFlat s → (∀ target, s ≠ .goto target) →
      ∀ jump ∈ (newStmt flow follow preceding s).jumps gotoTargets round,
        jump.round ≠ some jump.target
  | .seq block, h, _, jump, hjump => by
    rw [Every] at h
    rw [newStmt_seq, jumps, entry_eq_none h.2.1] at hjump
    exact round_ne_of_newList (hround.inner follow) block.body h.2.2 jump hjump
  | .cond _ thenBlock elseBlock, h, _, jump, hjump => by
    rw [Every] at h
    rw [newStmt_cond, jumps, entry_eq_none h.2.1.1, entry_eq_none h.2.2.1] at hjump
    rcases List.mem_append.mp hjump with hjump | hjump
    · exact round_ne_of_newList (hround.inner follow) thenBlock.body h.2.1.2 jump hjump
    · exact round_ne_of_newList (hround.inner follow) elseBlock.body h.2.2.2 jump hjump
  | .loop _ block, h, _, jump, hjump => by
    rw [Every] at h
    rw [newStmt_loop, jumps, entry_eq_none h.2.1] at hjump
    exact round_ne_of_newList (.none _) block.body h.2.2 jump hjump
  | .scope _ block stop, h, _, jump, hjump => by
    rw [Every] at h
    rw [newStmt_scope, jumps, entry_eq_none h.2.1] at hjump
    exact round_ne_of_newList (.ofScope follow stop) block.body h.2.2 jump hjump
  | .switch _ cases, h, _, jump, hjump => by
    rw [Every] at h
    rw [newStmt_switch, jumps] at hjump
    exact round_ne_of_newCases (hround.cases follow) cases h.2 jump hjump
  | .goto target, _, hne, _, _ => absurd rfl (hne target)
  | .basic block, h, _, _, _ => by
    rw [Every] at h
    exact absurd rfl (h.1 block)
  | .label _, _, _, jump, hjump | .raw _ _, _, _, jump, hjump | .push _, _, _, jump, hjump
  | .assign _ _, _, _, jump, hjump | .call _ _, _, _, jump, hjump | .discard _, _, _, jump, hjump
  | .condGoto _ _, _, _, jump, hjump | .pushEnv _ _, _, _, jump, hjump
  | .popEnv _, _, _, jump, hjump | .dispatch _ _ _, _, _, jump, hjump | .ret _, _, _, jump, hjump
  | .exit, _, _, jump, hjump | .breakOut, _, _, jump, hjump | .continueLoop, _, _, jump, hjump => by
    rw [newStmt_of_leaf rfl] at hjump
    cases hjump

/-- No jump in a list stays that stands directly in the scope to whose stop label it leads. -/
lemma round_ne_of_newList {flow : Flow} {preceding : List LabelId} {round : Option LabelId}
    (hround : flow.Finishes round) :
    (list : List Stmt) → EveryIn isFlat list →
      ∀ jump ∈ jumpsOfList gotoTargets round (newList flow preceding list),
        jump.round ≠ some jump.target
  | [], _, _, hjump => by
    rw [newList_nil] at hjump
    cases hjump
  | s :: rest, h, jump, hjump => by
    rw [EveryIn] at h
    by_cases hs : ∃ target, s = .goto target
    · obtain ⟨target, rfl⟩ := hs
      rw [newList_goto, jumpsOfList_append] at hjump
      rcases List.mem_append.mp hjump with hjump | hjump
      · intro htarget
        have hsame := mem_placed.mp (jumps_jump_subset flow round target rest hjump)
        obtain ⟨labels, hlabels, hid⟩ := hround jump.target (hsame.1 ▸ htarget)
        rw [List.mem_singleton.mp hsame.2] at hid
        rw [jump_of_continueTo hlabels hid] at hjump
        cases hjump
      · exact round_ne_of_newList hround rest h.2 jump hjump
    · have hs' : ∀ target, s ≠ .goto target := fun target h => hs ⟨target, h⟩
      rw [newList_cons hs', jumpsOfList] at hjump
      rcases List.mem_append.mp hjump with hjump | hjump
      · exact round_ne_of_newStmt hround s h.1 hs' jump hjump
      · exact round_ne_of_newList hround rest h.2 jump hjump

/-- No jump in the cases of a switch stays that stands directly in the scope to whose stop label it leads.
-/
lemma round_ne_of_newCases {flow : Flow} {round : Option LabelId}
    (hround : flow.Finishes round) :
    (cases : List SwitchCase) → EveryCase isFlat cases →
      ∀ jump ∈ jumpsOfCases gotoTargets round (newCases flow cases), jump.round ≠ some jump.target
  | [], _, _, hjump => by
    rw [newCases_nil] at hjump
    cases hjump
  | c :: later, h, jump, hjump => by
    rw [EveryCase] at h
    rw [newCases_cons, jumpsOfCases, entry_eq_none h.1.1] at hjump
    rcases List.mem_append.mp hjump with hjump | hjump
    · exact round_ne_of_newList hround c.body.body h.1.2 jump hjump
    · exact round_ne_of_newCases hround later h.2 jump hjump

end

end Jumps

namespace BlockOf

open Execution

/-- The jumps that are left by a cleaning are jumps of the tree. -/
lemma gotos_removeRedundantCode_subset (block : Block) :
    (removeRedundantCode block).1.gotos ⊆ block.gotos := by
  set left := (Cleanup.inList (Stmt.targetsOfList block.body) false block.body).1 with hleft
  have hlist : Stmt.jumpsOfList Stmt.gotoTargets none left ⊆ _ :=
    Cleanup.jumps_inList_subset (Stmt.targetsOfList block.body) false none block.body
  have hdrop : Stmt.jumpsOfList Stmt.gotoTargets none (Cleanup.dropFinalExit left).1 ⊆ _ :=
    Stmt.jumpsOfList_subset (Cleanup.dropFinalExit_isPrefix left).subset
  exact append_subset_append (List.Subset.refl _) (List.Subset.trans hdrop hlist)

/-- The jumps that are left by the removal of jumps are jumps of the tree. -/
lemma gotos_removeGotos_subset (block : Block) : (removeGotos block).1.gotos ⊆ block.gotos := by
  exact append_subset_append (List.Subset.refl _) (Jumps.jumps_newList_subset {} [] none block.body)

/-- No jump of a flat tree stays that stands directly in the scope to whose stop label it leads. -/
lemma round_ne_of_removeGotos {block : Block} (h : FlatUnit block) {jump : PlacedJump}
    (hjump : jump ∈ (removeGotos block).1.gotos) : jump.round ≠ some jump.target := by
  have hentry : (removeGotos block).1.entry = none := h.entry
  rw [gotos, hentry] at hjump
  exact Jumps.round_ne_of_newList (.none _) block.body h.body jump hjump

/-- What is left of the jumps of a flat tree in the end: none stands directly in the scope to whose stop
label it leads. -/
lemma gotos_simplify {block : Block} (h : FlatUnit block) {jump : PlacedJump}
    (hjump : jump ∈ (simplify block).gotos) :
    jump ∈ block.gotos ∧ jump.round ≠ some jump.target := by
  have hlast := gotos_removeRedundantCode_subset _ hjump
  refine ⟨?_, round_ne_of_removeGotos h.withoutRedundantCode.withoutGotos.withoutRedundantCode hlast⟩
  exact gotos_removeRedundantCode_subset _ (gotos_removeGotos_subset _
    (gotos_removeRedundantCode_subset _ (gotos_removeGotos_subset _ hlast)))

end BlockOf

/-! ### The jumps of a unit -/

/-- The tree of loops of a unit. -/
def treeOfLoops (names : Names) (options : Options) (bytes : List UInt8) : ContextStep Block := do
  let blocks ← simplifiedBlocks names options bytes
  (findLoops (blockOfBasicBlocks blocks) : ContextStep Block)

/-- The way of a unit to its tree, when it comes to one. -/
lemma treeOf_eq_ok {blocks : List BasicBlock} (hsound : SoundBlocks (blocks.map Stmt.basic))
    {context : Context} {tree : Block} (h : (exec (treeOf blocks) context).1 = .ok tree) :
    ∃ loops context' built recovered context'',
      findLoops (blockOfBasicBlocks blocks) context = (.ok loops, context') ∧
      Loops.Arranges (blocks.map Stmt.basic) context.labels.names.length loops.body built ∧
      findConditions loops context' = (.ok recovered, context'') ∧
      tree = simplify { body := spliced recovered } := by
  have hsound : SoundBlocks (blockOfBasicBlocks blocks).body := hsound
  rw [treeOf] at h
  rcases findLoops_cases hsound Loops.headerGone context with
    ⟨body, t, built, lost, hloops, -, -, hbuilt, -⟩ | ⟨t, hloops, -, -⟩
  · obtain ⟨recovered, u, hconditions, hrecovered⟩ :=
      @findConditions_ok ⟨(blockOfBasicBlocks blocks).entry, body⟩
        (hbuilt.soundBlocks hsound).soundList t
    refine ⟨_, t, built, recovered, u, hloops, hbuilt, hconditions, ?_⟩
    have hexec : exec (findLoops (blockOfBasicBlocks blocks) : ContextStep Block) context =
        (.ok ⟨(blockOfBasicBlocks blocks).entry, body⟩, t) := hloops
    have hexec' : exec (findConditions ⟨(blockOfBasicBlocks blocks).entry, body⟩ :
        ContextStep Block) t = (.ok recovered, u) := hconditions
    rw [exec_bind_of_ok hexec, exec_bind_of_ok hexec', flatten_eq_ok hrecovered] at h
    exact (Except.ok.inj h).symm
  · have hexec : exec (findLoops (blockOfBasicBlocks blocks) : ContextStep Block) context =
        (.error Loops.headerGone, t) := hloops
    rw [exec_bind_of_error hexec] at h
    cases h

/-- A final tree is the tree of well-formed simple blocks. -/
lemma recoverTree_eq_ok {names : Names} {options : Options} {name : String} {bytes : List UInt8}
    {tree : Block}
    (h : (exec (recoverTree names options bytes) { context := unitContext name }).1 = .ok tree) :
    ∃ blocks context,
      exec (simplifiedBlocks names options bytes) (unitContext name) = (.ok blocks, context) ∧
      WellFormed context.labels.names.length blocks ∧ AllStmts (Stmt.isSimple · = true) blocks ∧
      (exec (treeOf blocks) context).1 = .ok tree := by
  rw [(recoverTree_does names options bytes _).1] at h
  rcases lawful_simplifiedBlocks names options bytes (unitContext name) with
    ⟨blocks, context, hblocks, hwf, hsimple⟩ | ⟨e, t, hfails, -⟩
  · rw [exec_bind_of_ok hblocks] at h
    exact ⟨blocks, context, hblocks, hwf, hsimple, h⟩
  · rw [exec_bind_of_error hfails] at h
    cases h

/-- What remains of the jumps in the tree of loops of sound blocks. -/
lemma gotos_treeOf {blocks : List BasicBlock} (hsound : SoundBlocks (blocks.map Stmt.basic))
    {context : Context} {tree : Block} (h : (exec (treeOf blocks) context).1 = .ok tree) :
    ∃ loops context', findLoops (blockOfBasicBlocks blocks) context = (.ok loops, context') ∧
      ∀ jump ∈ tree.gotos, jump ∈ loops.jumps ∧ jump.round ≠ some jump.target := by
  obtain ⟨loops, t, -, recovered, u, hloops, -, hconditions, hsimplified⟩ := treeOf_eq_ok hsound h
  refine ⟨loops, t, hloops, fun jump hjump => ?_⟩
  rw [hsimplified] at hjump
  obtain ⟨recovered', u', hconditions', hsubset⟩ := jumps_findConditions_subset loops t
  cases hconditions.symm.trans hconditions'
  obtain ⟨hspliced, hround⟩ := BlockOf.gotos_simplify (flatUnit_splice recovered) hjump
  exact ⟨hsubset (gotos_spliced_subset recovered hspliced), hround⟩

/-- The jumps that remain in the final tree of a unit have been in its tree of loops, and none stands
directly in the scope to whose stop label it leads.  So no jump to the stop label of a scope remains if in
the tree of loops all jumps there stand directly in the scope, and not in a loop or scope inside of it or
outside. -/
theorem gotos_recoverTree {names : Names} {options : Options} {name : String} {bytes : List UInt8}
    {tree : Block}
    (h : (exec (recoverTree names options bytes) { context := unitContext name }).1 = .ok tree) :
    ∃ loops, (exec (treeOfLoops names options bytes) (unitContext name)).1 = .ok loops ∧
      (∀ jump ∈ tree.gotos, jump ∈ loops.jumps ∧ jump.round ≠ some jump.target) ∧
      ∀ stop ∈ Stmt.stopsOfList tree.body,
        loops.JumpsDirectly stop → ∀ jump ∈ tree.gotos, jump.target ≠ stop := by
  obtain ⟨blocks, context, hblocks, hwf, hsimple, htree⟩ := recoverTree_eq_ok h
  obtain ⟨loops, context', hloops, hgotos⟩ := gotos_treeOf (hwf.soundBlocks_of_isSimple hsimple) htree
  refine ⟨loops, ?_, hgotos, ?_⟩
  · rw [treeOfLoops, exec_bind_of_ok hblocks]
    exact congrArg Prod.fst hloops
  · rintro stop - hdirect jump hjump rfl
    obtain ⟨hmem, hround⟩ := hgotos jump hjump
    exact hround (hdirect jump hmem rfl)

/-- Code with a scope that sets `z` in the instances without `c`. -/
def skippedRound : List UInt8 :=
  [0x01, 0, 0x0f, 0xc0, 0x07, 0, 0, 0xbb, 0xff, 0xff, 0x05, 0xc0, 0x01, 0, 0, 0xa0, 0x04, 0, 0, 0xb8,
    0x01, 0, 0x0f, 0xc0, 0xff, 0xff, 0x55, 0x41, 0, 0, 0, 0xa0, 0xfa, 0xff, 0xff, 0xbc, 0, 0, 0, 0x9e]

/-- The jump over the rest of the round stands directly in the scope, and so it does not remain. -/
theorem skippedRound_gotos :
    ∃ tree, (exec (recoverTree { strings := ["z", "c"] } {} skippedRound)
        { context := unitContext "unit" }).1 = .ok tree ∧
      Stmt.stopsOfList tree.body = [0] ∧ ∀ jump ∈ tree.gotos, jump.target ≠ 0 := by
  have htree : (exec (recoverTree { strings := ["z", "c"] } {} skippedRound)
      { context := unitContext "unit" }).1.toOption.any
        (fun tree => Stmt.stopsOfList tree.body == [0]) = true := by
    unfold recoverTree
    rw [decode_eq_decodeBounded]
    decide +kernel
  have hloops : (exec (treeOfLoops { strings := ["z", "c"] } {} skippedRound)
      (unitContext "unit")).1.toOption.any (fun loops => decide (loops.JumpsDirectly 0)) = true := by
    unfold treeOfLoops simplifiedBlocks
    rw [decode_eq_decodeBounded]
    decide +kernel
  cases hrun : (exec (recoverTree { strings := ["z", "c"] } {} skippedRound)
      { context := unitContext "unit" }).1 with
  | error e =>
    rw [hrun] at htree
    cases htree
  | ok tree =>
    rw [hrun] at htree
    have hstops : Stmt.stopsOfList tree.body = [0] := eq_of_beq htree
    obtain ⟨loops, hrun', -, hdirect⟩ := gotos_recoverTree hrun
    rw [hrun'] at hloops
    exact ⟨tree, rfl, hstops, hdirect 0 (by simp [hstops]) (of_decide_eq_true hloops)⟩

/-- Code with a scope that goes on to the next instance from inside of a loop. -/
def roundLeftFromLoop : List UInt8 :=
  [0x01, 0, 0x0f, 0xc0, 0x0e, 0, 0, 0xbb, 0xff, 0xff, 0x05, 0xc0, 0x01, 0, 0, 0xa0, 0x08, 0, 0, 0xb9,
    0xff, 0xff, 0x05, 0xc0, 0x02, 0, 0, 0xa0, 0x08, 0, 0, 0xb8, 0x01, 0, 0x0f, 0xc0,
    0xff, 0xff, 0x55, 0x41, 0, 0, 0, 0xa0, 0xf7, 0xff, 0xff, 0xb7, 0x02, 0, 0x0f, 0xc0,
    0xff, 0xff, 0x55, 0x41, 0, 0, 0, 0xa0, 0xf3, 0xff, 0xff, 0xbc, 0, 0, 0, 0x9e]

/-- The jump to the end of the round remains, and the label is defined nowhere. -/
theorem roundLeftFromLoop_goto :
    ∃ tree, (exec (recoverTree { strings := ["z", "c", "d"] } {} roundLeftFromLoop)
        { context := unitContext "unit" }).1 = .ok tree ∧
      ∃ stop ∈ Stmt.stopsOfList tree.body, stop ∉ Stmt.labelsOfList tree.body ∧
        ∃ jump ∈ tree.gotos, jump.target = stop := by
  have htree : (exec (recoverTree { strings := ["z", "c", "d"] } {} roundLeftFromLoop)
      { context := unitContext "unit" }).1.toOption.any (fun tree =>
        (Stmt.stopsOfList tree.body).any fun stop =>
          !(Stmt.labelsOfList tree.body).contains stop && tree.gotos.any (·.target == stop)) = true := by
    unfold recoverTree
    rw [decode_eq_decodeBounded]
    decide +kernel
  cases hrun : (exec (recoverTree { strings := ["z", "c", "d"] } {} roundLeftFromLoop)
      { context := unitContext "unit" }).1 with
  | error e =>
    rw [hrun] at htree
    cases htree
  | ok tree =>
    rw [hrun] at htree
    have hstop : ((Stmt.stopsOfList tree.body).any fun stop =>
        !(Stmt.labelsOfList tree.body).contains stop && tree.gotos.any (·.target == stop)) = true := htree
    obtain ⟨stop, hmem, hstop⟩ := List.any_eq_true.mp hstop
    simp only [Bool.and_eq_true, Bool.not_eq_true', List.any_eq_true, beq_iff_eq] at hstop
    refine ⟨tree, rfl, stop, hmem, ?_, hstop.2⟩
    simpa using hstop.1

end Decompiler
