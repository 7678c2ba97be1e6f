import Mathlib.Data.List.Nodup
import Decompiler.Flow.Cleanup
import Decompiler.Proofs.BlockLists
import Decompiler.Proofs.TreeExecution

/-!
# What cleaning up keeps

Cleaning up a flat unit deletes labels that nothing names, what stands behind a transfer of control,
a `continue` or `exit` that only repeats running off the end, and it turns conditions round.  Here this
is compared with the runs of the unit.

`pruneCode`, `pruneFrames` and `prunePlace` say what is kept of a place of a run.  A step of the unit is
the step of what is kept, or it passes over a deleted label or `continue` (`machine_prunePlace`), as long
as no jump leads to a label that was deleted with the statement around it.  That can happen, since what
stands behind a transfer of control is dropped up to the next label of the same list, whatever labels
it holds inside (`jumpIntoLoop_lost`).  `removeRedundantCode_runAlike_iff` says that nothing else can go
wrong.
-/

namespace Decompiler.Cleanup

open Execution

/-! ### The end of a list -/

/-- Whether a statement is a `continue`. -/
def isContinue : Stmt → Bool
  | .continueLoop => true
  | _ => false

/-- Only `continue` passes the test. -/
lemma eq_continueLoop_of_isContinue {s : Stmt} (h : isContinue s = true) : s = .continueLoop := by
  cases s <;> first | rfl | cases h

/-- Dropping every `continue` at the end is dropping from the reversed list. -/
lemma dropTrailingContinue_eq (body : List Stmt) :
    (dropTrailingContinue body).1 = (body.reverse.dropWhile isContinue).reverse := by
  unfold dropTrailingContinue
  split
  · rename_i rest hrev
    rw [hrev]
    rfl
  · rename_i hrev
    cases hb : body.reverse with
    | nil => simpa using hb
    | cons s rest =>
      have hs : isContinue s = false := by
        cases hc : isContinue s with
        | false => rfl
        | true =>
          rw [eq_continueLoop_of_isContinue hc] at hb
          exact absurd hb (hrev rest)
      rw [List.dropWhile_cons_of_neg (by simp [hs]), ← hb, List.reverse_reverse]

/-- Dropping every `continue` at the end, from the front of the list. -/
lemma dropTrailingContinue_cons (s : Stmt) (rest : List Stmt) :
    (dropTrailingContinue (s :: rest)).1 = s :: (dropTrailingContinue rest).1 ∨
      (dropTrailingContinue (s :: rest)).1 = [] ∧ (dropTrailingContinue rest).1 = [] ∧
        s = .continueLoop := by
  rw [dropTrailingContinue_eq, dropTrailingContinue_eq, List.reverse_cons, List.dropWhile_append]
  split
  · rename_i hempty
    rw [List.isEmpty_iff] at hempty
    rw [hempty]
    cases hs : isContinue s with
    | false => exact .inl (by simp [hs])
    | true => exact .inr ⟨by simp [hs], rfl, eq_continueLoop_of_isContinue hs⟩
  · exact .inl (by rw [List.reverse_append]; rfl)

/-- Dropping the `exit` at the end, from the front of the list. -/
lemma dropFinalExit_cons (s : Stmt) (rest : List Stmt) :
    (dropFinalExit (s :: rest)).1 = s :: (dropFinalExit rest).1 ∨
      (dropFinalExit (s :: rest)).1 = [] ∧ (dropFinalExit rest).1 = [] ∧ s = .exit := by
  cases rest with
  | nil =>
    by_cases hs : s = .exit
    · subst hs
      exact .inr ⟨rfl, rfl, rfl⟩
    · refine .inl ?_
      unfold dropFinalExit
      split
      · rename_i h
        simp at h
        exact absurd h hs
      · rfl
  | cons t rest =>
    refine .inl ?_
    unfold dropFinalExit
    rw [List.getLast?_cons_cons]
    split <;> rfl

/-- What is dropped at the end of a list inside some frames: the `exit` of the unit, or every
`continue` of a loop or of a scope that has a stop label. -/
def trim : List Frame → List Stmt → List Stmt
  | [], list => (dropFinalExit list).1
  | .loop _ _ _ :: _, list => (dropTrailingContinue list).1
  | .scope _ _ (some _) _ :: _, list => (dropTrailingContinue list).1
  | _, list => list

@[simp] lemma trim_nil (frames : List Frame) : trim frames [] = [] := by
  unfold trim
  split <;> rfl

/-- Trimming keeps the first statement, unless that is all there is and stands for running off the
end. -/
lemma trim_cons (frames : List Frame) (s : Stmt) (rest : List Stmt) :
    trim frames (s :: rest) = s :: trim frames rest ∨
      trim frames (s :: rest) = [] ∧ trim frames rest = [] ∧
        (s = .exit ∧ frames = [] ∨
          s = .continueLoop ∧ nextRound? frames = some ⟨[], frames⟩) := by
  unfold trim
  split
  · rcases dropFinalExit_cons s rest with h | ⟨h, hrest, rfl⟩
    · exact .inl h
    · exact .inr ⟨h, hrest, .inl ⟨rfl, rfl⟩⟩
  · rcases dropTrailingContinue_cons s rest with h | ⟨h, hrest, rfl⟩
    · exact .inl h
    · exact .inr ⟨h, hrest, .inr ⟨rfl, rfl⟩⟩
  · rcases dropTrailingContinue_cons s rest with h | ⟨h, hrest, rfl⟩
    · exact .inl h
    · exact .inr ⟨h, hrest, .inr ⟨rfl, rfl⟩⟩
  · exact .inl rfl

/-- Trimming keeps a first statement that does not stand for running off the end. -/
lemma trim_cons_of_ne (frames : List Frame) {s : Stmt} (rest : List Stmt) (hexit : s ≠ .exit)
    (hcontinue : s ≠ .continueLoop) : trim frames (s :: rest) = s :: trim frames rest := by
  rcases trim_cons frames s rest with h | ⟨-, -, ⟨rfl, -⟩ | ⟨rfl, -⟩⟩
  · exact h
  · exact absurd rfl hexit
  · exact absurd rfl hcontinue

/-- Trimming keeps all labels. -/
@[simp] lemma labelsOfList_trim (frames : List Frame) (list : List Stmt) :
    Stmt.labelsOfList (trim frames list) = Stmt.labelsOfList list := by
  induction list with
  | nil => rw [trim_nil]
  | cons s rest ih =>
    rcases trim_cons frames s rest with h | ⟨h, hrest, hs⟩
    · rw [h, Stmt.labelsOfList, Stmt.labelsOfList, ih]
    · rw [hrest] at ih
      rw [h, Stmt.labelsOfList, Stmt.labelsOfList, ← ih]
      rcases hs with ⟨rfl, -⟩ | ⟨rfl, -⟩ <;> rfl

/-! ### Labels

What a list defines is what is kept of it and what is dropped. -/

mutual

/-- What is dropped as a whole inside a statement. -/
def droppedInStmt (named : List LabelId) : Stmt → List Stmt
  | .cond _ thenBlock elseBlock =>
    droppedInList named false thenBlock.body ++ droppedInList named false elseBlock.body
  | .loop _ block => droppedInList named false block.body
  | .scope _ block _ => droppedInList named false block.body
  | .switch _ cases => droppedInCases named cases
  | .seq block => droppedInList named false block.body
  | _ => []

/-- What is dropped as a whole in a list: labels that nothing names, and what stands behind a
transfer of control, up to the next label of the list that is named. -/
def droppedInList (named : List LabelId) (dead : Bool) : List Stmt → List Stmt
  | [] => []
  | s :: rest =>
    match reach named dead s with
    | some dead => s :: droppedInList named dead rest
    | none => droppedInStmt named s ++ droppedInList named s.isUnconditional rest

/-- What is dropped as a whole in the cases of a switch. -/
def droppedInCases (named : List LabelId) : List SwitchCase → List Stmt
  | [] => []
  | c :: rest => droppedInList named false c.body.body ++ droppedInCases named rest

end

/-- Turning a condition round keeps its labels. -/
lemma count_labels_orient (id : LabelId) (test : Expr) (thenBlock elseBlock : Block) :
    (orient test thenBlock elseBlock).1.labels.count id =
      (Stmt.labelsOfList thenBlock.body).count id + (Stmt.labelsOfList elseBlock.body).count id := by
  unfold orient
  split
  · rw [Stmt.labels, List.count_append, Nat.add_comm]
  · rw [Stmt.labels, List.count_append]

/-- Dropping every `continue` at the end keeps all labels. -/
lemma labelsOfList_dropTrailingContinue (list : List Stmt) :
    Stmt.labelsOfList (dropTrailingContinue list).1 = Stmt.labelsOfList list :=
  labelsOfList_trim [.loop none [] []] list

mutual

/-- Every label of a statement is kept in it or dropped. -/
lemma count_labels_inStmt (named : List LabelId) (id : LabelId) :
    (s : Stmt) → s.labels.count id =
      (inStmt named s).1.labels.count id + (Stmt.labelsOfList (droppedInStmt named s)).count id
  | .cond _ thenBlock elseBlock => by
    have hthen := count_labels_inList named id false thenBlock.body
    have helse := count_labels_inList named id false elseBlock.body
    simp only [inStmt, droppedInStmt, count_labels_orient, Stmt.labelsOfList_append, Stmt.labels,
      List.count_append]
    omega
  | .loop _ block => by
    have hbody := count_labels_inList named id false block.body
    simp only [inStmt, droppedInStmt, Stmt.labels, labelsOfList_dropTrailingContinue]
    exact hbody
  | .scope _ block stop => by
    have hbody := count_labels_inList named id false block.body
    cases stop with
    | none =>
      simp only [inStmt, droppedInStmt, Stmt.labels, Option.isSome_none, Bool.false_eq_true,
        if_false]
      exact hbody
    | some stop =>
      simp only [inStmt, droppedInStmt, Stmt.labels, Option.isSome_some, if_true,
        labelsOfList_dropTrailingContinue]
      exact hbody
  | .switch _ cases => by
    simpa only [inStmt, droppedInStmt, Stmt.labels] using count_labels_inCases named id cases
  | .seq block => by
    simpa only [inStmt, droppedInStmt, Stmt.labels] using
      count_labels_inList named id false block.body
  | .label _ | .raw _ _ | .push _ | .assign _ _ | .call _ _ | .discard _ | .goto _ | .condGoto _ _
  | .pushEnv _ _ | .popEnv _ | .dispatch _ _ _ | .ret _ | .exit | .breakOut | .continueLoop
  | .basic _ => by
    simp only [inStmt, droppedInStmt, Stmt.labelsOfList, List.count_nil, Nat.add_zero]

/-- Every label of a list is kept in it or dropped. -/
lemma count_labels_inList (named : List LabelId) (id : LabelId) (dead : Bool) :
    (list : List Stmt) → (Stmt.labelsOfList list).count id =
      (Stmt.labelsOfList (inList named dead list).1).count id +
        (Stmt.labelsOfList (droppedInList named dead list)).count id
  | [] => by simp only [inList, droppedInList, Stmt.labelsOfList, List.count_nil]
  | s :: rest => by
    rw [inList, droppedInList, Stmt.labelsOfList, List.count_append]
    cases reach named dead s with
    | some dead =>
      have hrest := count_labels_inList named id dead rest
      simp only [Stmt.labelsOfList, List.count_append]
      omega
    | none =>
      have hhead := count_labels_inStmt named id s
      have hrest := count_labels_inList named id s.isUnconditional rest
      simp only [Stmt.labelsOfList, Stmt.labelsOfList_append, List.count_append]
      omega

/-- Every label of the cases of a switch is kept in them or dropped. -/
lemma count_labels_inCases (named : List LabelId) (id : LabelId) :
    (cases : List SwitchCase) → (Stmt.labelsOfCases cases).count id =
      (Stmt.labelsOfCases (inCases named cases).1).count id +
        (Stmt.labelsOfList (droppedInCases named cases)).count id
  | [] => by simp only [inCases, droppedInCases, Stmt.labelsOfCases, Stmt.labelsOfList,
      List.count_nil]
  | c :: rest => by
    have hhead := count_labels_inList named id false c.body.body
    have hrest := count_labels_inCases named id rest
    simp only [inCases, droppedInCases, Stmt.labelsOfCases, Stmt.labelsOfList_append, List.count_append]
    omega

end

/-- What is kept of a statement defines no new labels. -/
lemma mem_labels_of_inStmt {named : List LabelId} {id : LabelId} {s : Stmt}
    (h : id ∈ (inStmt named s).1.labels) : id ∈ s.labels := by
  have hcount := count_labels_inStmt named id s
  rw [← List.count_pos_iff] at h ⊢
  omega

/-- What is kept of a list defines no new labels. -/
lemma mem_labels_of_inList {named : List LabelId} {dead : Bool} {id : LabelId} {list : List Stmt}
    (h : id ∈ Stmt.labelsOfList (inList named dead list).1) : id ∈ Stmt.labelsOfList list := by
  have hcount := count_labels_inList named id dead list
  rw [← List.count_pos_iff] at h ⊢
  omega

/-- What is kept of the cases of a switch defines no new labels. -/
lemma mem_labels_of_inCases {named : List LabelId} {id : LabelId} {cases : List SwitchCase}
    (h : id ∈ Stmt.labelsOfCases (inCases named cases).1) : id ∈ Stmt.labelsOfCases cases := by
  have hcount := count_labels_inCases named id cases
  rw [← List.count_pos_iff] at h ⊢
  omega

/-! ### Places -/

/-- What is kept of the code that is left of a list inside some frames. -/
def pruneCode (named : List LabelId) (frames : List Frame) (list : List Stmt) : List Stmt :=
  trim frames (inList named false list).1

/-- What is kept of the frames around a place. -/
def pruneFrames (named : List LabelId) : List Frame → List Frame
  | [] => []
  | .after list :: frames => .after (pruneCode named frames list) :: pruneFrames named frames
  | .loop test body rest :: frames =>
    .loop test (dropTrailingContinue (inList named false body).1).1
      (pruneCode named frames rest) :: pruneFrames named frames
  | .scope env body stop rest :: frames =>
    .scope env (pruneCode named (.scope env body stop rest :: frames) body) stop
      (pruneCode named frames rest) :: pruneFrames named frames
  | .case later rest :: frames =>
    .case (inCases named later).1 (pruneCode named frames rest) :: pruneFrames named frames

/-- What is kept of a place. -/
def prunePlace (named : List LabelId) (place : Place) : Place :=
  ⟨pruneCode named place.frames place.code, pruneFrames named place.frames⟩

@[simp] lemma pruneCode_nil (named : List LabelId) (frames : List Frame) :
    pruneCode named frames [] = [] := by
  rw [pruneCode, inList, trim_nil]

/-- A `break` leads to the kept place. -/
lemma leave?_pruneFrames (named : List LabelId) (frames : List Frame) :
    leave? (pruneFrames named frames) = (leave? frames).map (prunePlace named) := by
  induction frames with
  | nil => rfl
  | cons frame frames ih =>
    cases frame with
    | after => exact ih
    | loop | scope | case => rfl

/-- A `continue` leads to the kept place. -/
lemma nextRound?_pruneFrames (named : List LabelId) (frames : List Frame) :
    nextRound? (pruneFrames named frames) = (nextRound? frames).map (prunePlace named) := by
  induction frames with
  | nil => rfl
  | cons frame frames ih =>
    cases frame with
    | after | case => exact ih
    | loop | scope =>
      simp only [pruneFrames, nextRound?, Option.map_some, prunePlace, pruneCode_nil]

/-- A jump to a stop label leads to the kept place. -/
lemma stopOf?_pruneFrames (named : List LabelId) (target : LabelId) (frames : List Frame) :
    stopOf? target (pruneFrames named frames) =
      (stopOf? target frames).map (prunePlace named) := by
  induction frames with
  | nil => rfl
  | cons frame frames ih =>
    cases frame with
    | after | case | loop => exact ih
    | scope env body stop rest =>
      rw [pruneFrames, stopOf?, stopOf?]
      split
      · simp only [Option.map_some, prunePlace, pruneCode_nil, pruneFrames]
      · exact ih

/-- What is kept of a scope, as the body of the scope's own frame. -/
lemma inStmt_scope (named : List LabelId) (env : Expr) (block : Block) (stop : Option LabelId)
    (body rest : List Stmt) (frames : List Frame) :
    (inStmt named (.scope env block stop)).1 =
      .scope env ⟨block.entry, pruneCode named (.scope env body stop rest :: frames) block.body⟩
        stop := by
  cases stop <;> rfl

/-! ### Finding labels in what is kept -/

/-- Only a label is kept as a label. -/
lemma inStmt_ne_label {named : List LabelId} {s : Stmt} (hs : ∀ id, s ≠ .label id) (id : LabelId) :
    (inStmt named s).1 ≠ .label id := by
  cases s with
  | label id' => exact absurd rfl (hs id')
  | cond test thenBlock elseBlock =>
    simp only [inStmt, orient]
    split <;> exact Stmt.noConfusion
  | basic | seq | loop | scope | switch | raw | push | assign | call | discard | goto | condGoto
  | pushEnv | popEnv | dispatch | ret | exit | breakOut | continueLoop => exact Stmt.noConfusion

/-- A statement that control does not leave at its end defines no labels. -/
lemma labels_of_isUnconditional {s : Stmt} (h : s.isUnconditional = true) : s.labels = [] := by
  cases s <;> first | rfl | cases h

/-- The search in a trimmed list, past a first statement that is no label. -/
lemma findInList_trim_cons {s : Stmt} (hs : ∀ id, s ≠ .label id) (target : LabelId)
    (outer frames : List Frame) (rest : List Stmt) :
    findInList target frames (trim outer (s :: rest)) =
      (findInStmt target (trim outer rest) frames s).or
        (findInList target frames (trim outer rest)) := by
  rcases trim_cons outer s rest with h | ⟨h, hrest, ⟨rfl, -⟩ | ⟨rfl, -⟩⟩
  · rw [h, findInList_cons_of_ne hs]
  · simp only [h, hrest, findInStmt, Option.none_or]
  · simp only [h, hrest, findInStmt, Option.none_or]

/-- A label that is not on both sides of a condition is found in the condition turned round as well.
-/
lemma findInStmt_orient {target : LabelId} {rest : List Stmt} {frames : List Frame} (test : Expr)
    {thenBlock elseBlock : Block}
    (h : findInList target (.after rest :: frames) thenBlock.body = none ∨
      findInList target (.after rest :: frames) elseBlock.body = none) :
    findInStmt target rest frames (orient test thenBlock elseBlock).1 =
      (findInList target (.after rest :: frames) thenBlock.body).or
        (findInList target (.after rest :: frames) elseBlock.body) := by
  unfold orient
  split
  · rw [findInStmt]
    rcases h with h | h <;> rw [h, Option.or_none, Option.none_or]
  · rw [findInStmt]

/-- A label that is kept stays in front of the code that is left. -/
lemma pruneCode_label {named : List LabelId} {dead : Bool} {id : LabelId} (frames : List Frame)
    (rest : List Stmt) (h : reach named dead (.label id) = none) :
    pruneCode named frames (.label id :: rest) = .label id :: pruneCode named frames rest := by
  have hid : reach named false (.label id) = none := by
    simp only [reach] at h ⊢
    split at h
    · rename_i hnamed
      rw [if_pos hnamed]
    · cases h
  rw [pruneCode, inList, hid]
  exact trim_cons_of_ne frames _ Stmt.noConfusion Stmt.noConfusion

mutual

/-- A label that is kept in a statement is found there at the kept place. -/
lemma findInStmt_inStmt {named : List LabelId} {target : LabelId} (rest : List Stmt)
    (frames : List Frame) :
    (s : Stmt) → Every isFlat s → s.labels.Nodup → target ∈ (inStmt named s).1.labels →
      findInStmt target (pruneCode named frames rest) (pruneFrames named frames)
        (inStmt named s).1 = (findInStmt target rest frames s).map (prunePlace named)
  | .seq block, hflat, hnodup, hmem => by
    simp only [inStmt, Stmt.labels, Every] at hflat hnodup hmem ⊢
    have ih := findInList_inList (.after rest :: frames) false block.body hflat.2.2 hnodup hmem
    simpa only [findInStmt, pruneFrames, trim] using ih
  | .loop test ⟨entry, body⟩, hflat, hnodup, hmem => by
    simp only [inStmt, Stmt.labels, Every, labelsOfList_dropTrailingContinue] at hflat hnodup hmem ⊢
    obtain rfl : entry = none := entry_eq_none hflat.2.1
    have ih := findInList_inList (.loop test body rest :: frames) false body hflat.2.2 hnodup hmem
    simpa only [findInStmt, code_mk_none, pruneFrames, trim] using ih
  | .scope env ⟨entry, body⟩ stop, hflat, hnodup, hmem => by
    rw [inStmt_scope named env ⟨entry, body⟩ stop body rest frames] at hmem ⊢
    simp only [Stmt.labels, Every, pruneCode, labelsOfList_trim] at hflat hnodup hmem
    obtain rfl : entry = none := entry_eq_none hflat.2.1
    have ih := findInList_inList (.scope env body stop rest :: frames) false body hflat.2.2 hnodup
      hmem
    simpa only [findInStmt, code_mk_none, pruneFrames, pruneCode] using ih
  | .cond test thenBlock elseBlock, hflat, hnodup, hmem => by
    simp only [Every] at hflat
    rw [Stmt.labels, List.nodup_append'] at hnodup
    have hside : target ∈ Stmt.labelsOfList (inList named false thenBlock.body).1 ∨
        target ∈ Stmt.labelsOfList (inList named false elseBlock.body).1 := by
      rw [← List.count_pos_iff] at hmem ⊢
      rw [← List.count_pos_iff]
      simp only [inStmt, count_labels_orient] at hmem
      omega
    simp only [inStmt, findInStmt]
    rcases hside with hthen | helse
    · have hnot : target ∉ Stmt.labelsOfList elseBlock.body :=
        fun h => hnodup.2.2 (mem_labels_of_inList hthen) h
      have hnot' : target ∉ Stmt.labelsOfList (inList named false elseBlock.body).1 :=
        fun h => hnot (mem_labels_of_inList h)
      have ih := findInList_inList (.after rest :: frames) false thenBlock.body hflat.2.1.2
        hnodup.1 hthen
      rw [findInStmt_orient test (.inr ((findInList_eq_none_iff _ _ _).mpr hnot')),
        (findInList_eq_none_iff _ _ _).mpr hnot, (findInList_eq_none_iff _ _ _).mpr hnot',
        Option.or_none, Option.or_none]
      exact ih
    · have hnot : target ∉ Stmt.labelsOfList thenBlock.body :=
        fun h => hnodup.2.2 h (mem_labels_of_inList helse)
      have hnot' : target ∉ Stmt.labelsOfList (inList named false thenBlock.body).1 :=
        fun h => hnot (mem_labels_of_inList h)
      have ih := findInList_inList (.after rest :: frames) false elseBlock.body hflat.2.2.2
        hnodup.2.1 helse
      rw [findInStmt_orient test (.inl ((findInList_eq_none_iff _ _ _).mpr hnot')),
        (findInList_eq_none_iff _ _ _).mpr hnot, (findInList_eq_none_iff _ _ _).mpr hnot',
        Option.none_or, Option.none_or]
      exact ih
  | .switch value cases, hflat, hnodup, hmem => by
    simp only [inStmt, Stmt.labels, Every] at hflat hnodup hmem ⊢
    simpa only [findInStmt] using findInCases_inCases rest frames cases hflat.2 hnodup hmem
  | .label _, _, _, _ | .raw _ _, _, _, _ | .push _, _, _, _ | .assign _ _, _, _, _
  | .call _ _, _, _, _ | .discard _, _, _, _ | .goto _, _, _, _ | .condGoto _ _, _, _, _
  | .pushEnv _ _, _, _, _ | .popEnv _, _, _, _ | .dispatch _ _ _, _, _, _ | .ret _, _, _, _
  | .exit, _, _, _ | .breakOut, _, _, _ | .continueLoop, _, _, _ => by
    simp only [inStmt, findInStmt, Option.map_none]
  | .basic block, hflat, _, _ => absurd rfl (hflat.self block)

/-- A label that is kept in a list is found there at the kept place. -/
lemma findInList_inList {named : List LabelId} {target : LabelId} (frames : List Frame)
    (dead : Bool) :
    (list : List Stmt) → EveryIn isFlat list → (Stmt.labelsOfList list).Nodup →
      target ∈ Stmt.labelsOfList (inList named dead list).1 →
        findInList target (pruneFrames named frames) (trim frames (inList named dead list).1) =
          (findInList target frames list).map (prunePlace named)
  | [], _, _, hmem => by
    simp only [inList, Stmt.labelsOfList, List.not_mem_nil] at hmem
  | s :: rest, hflat, hnodup, hmem => by
    rw [EveryIn] at hflat
    rw [Stmt.labelsOfList, List.nodup_append'] at hnodup
    rw [inList] at hmem ⊢
    cases hreach : reach named dead s with
    | some dead' =>
      simp only [hreach] at hmem ⊢
      have hnot : target ∉ s.labels := fun h => hnodup.2.2 h (mem_labels_of_inList hmem)
      rw [findInList_inList frames dead' rest hflat.2 hnodup.2.1 hmem,
        findInList_cons_of_notMem hnot]
    | none =>
      simp only [hreach, Stmt.labelsOfList, List.mem_append] at hmem ⊢
      by_cases hs : ∃ id, s = .label id
      · obtain ⟨id, rfl⟩ := hs
        simp only [inStmt, Stmt.labels, List.mem_singleton, Stmt.isUnconditional] at hmem ⊢
        rw [trim_cons_of_ne frames _ Stmt.noConfusion Stmt.noConfusion, findInList, findInList]
        split
        · rw [Option.map_some, prunePlace, pruneCode_label frames rest hreach]
          rfl
        · rename_i hid
          have hrest := hmem.resolve_left (Ne.symm hid)
          exact findInList_inList frames false rest hflat.2 hnodup.2.1 hrest
      · have hs' : ∀ id, s ≠ .label id := fun id heq => hs ⟨id, heq⟩
        rw [findInList_trim_cons (inStmt_ne_label hs'), findInList_cons_of_ne hs']
        rcases hmem with hhead | hrest
        · have hlive : s.isUnconditional = false := by
            cases hu : s.isUnconditional with
            | false => rfl
            | true =>
              have h := mem_labels_of_inStmt hhead
              rw [labels_of_isUnconditional hu] at h
              exact absurd h List.not_mem_nil
          have hnot : target ∉ Stmt.labelsOfList rest :=
            fun h => hnodup.2.2 (mem_labels_of_inStmt hhead) h
          have hnot' : target ∉ Stmt.labelsOfList (inList named false rest).1 :=
            fun h => hnot (mem_labels_of_inList h)
          have ih := findInStmt_inStmt rest frames s hflat.1 hnodup.1 hhead
          rw [pruneCode] at ih
          rw [hlive, ih, (findInList_eq_none_iff _ _ _).mpr hnot,
            (findInList_eq_none_iff _ _ _).mpr (by rwa [labelsOfList_trim]), Option.or_none,
            Option.or_none]
        · have hnot : target ∉ s.labels := fun h => hnodup.2.2 h (mem_labels_of_inList hrest)
          have hnot' : target ∉ (inStmt named s).1.labels :=
            fun h => hnot (mem_labels_of_inStmt h)
          rw [findInList_inList frames s.isUnconditional rest hflat.2 hnodup.2.1 hrest,
            (findInStmt_eq_none_iff _ _ _ _ hs').mpr hnot,
            (findInStmt_eq_none_iff _ _ _ _ (inStmt_ne_label hs')).mpr hnot', Option.none_or,
            Option.none_or]

/-- A label that is kept in the cases of a switch is found there at the kept place. -/
lemma findInCases_inCases {named : List LabelId} {target : LabelId} (rest : List Stmt)
    (frames : List Frame) :
    (cases : List SwitchCase) → EveryCase isFlat cases → (Stmt.labelsOfCases cases).Nodup →
      target ∈ Stmt.labelsOfCases (inCases named cases).1 →
        findInCases target (pruneCode named frames rest) (pruneFrames named frames)
          (inCases named cases).1 = (findInCases target rest frames cases).map (prunePlace named)
  | [], _, _, hmem => by
    simp only [inCases, Stmt.labelsOfCases, List.not_mem_nil] at hmem
  | c :: later, hflat, hnodup, hmem => by
    rw [EveryCase] at hflat
    rw [Stmt.labelsOfCases, List.nodup_append'] at hnodup
    simp only [inCases, findInCases]
    rw [inCases, Stmt.labelsOfCases, List.mem_append] at hmem
    rcases hmem with hhead | hlater
    · have ih := findInList_inList (.case later rest :: frames) false c.body.body hflat.1.2
        hnodup.1 hhead
      simp only [pruneFrames, trim] at ih
      have hnot : target ∉ Stmt.labelsOfCases later :=
        fun h => hnodup.2.2 (mem_labels_of_inList hhead) h
      have hnot' : target ∉ Stmt.labelsOfCases (inCases named later).1 :=
        fun h => hnot (mem_labels_of_inCases h)
      rw [ih, (findInCases_eq_none_iff _ _ _ _).mpr hnot, (findInCases_eq_none_iff _ _ _ _).mpr hnot',
        Option.or_none, Option.or_none]
    · have ih := findInCases_inCases rest frames later hflat.2 hnodup.2.1 hlater
      have hnot : target ∉ Stmt.labelsOfList c.body.body :=
        fun h => hnodup.2.2 h (mem_labels_of_inCases hlater)
      have hnot' : target ∉ Stmt.labelsOfList (inList named false c.body.body).1 :=
        fun h => hnot (mem_labels_of_inList h)
      rw [ih, (findInList_eq_none_iff _ _ _).mpr hnot, (findInList_eq_none_iff _ _ _).mpr hnot',
        Option.none_or, Option.none_or]

end

/-- Where a jump leads in what is kept of a unit, if its label is not lost. -/
lemma land?_pruneFrames {named : List LabelId} {target : LabelId} {root : List Stmt}
    (hflat : EveryIn isFlat root) (hnodup : (Stmt.labelsOfList root).Nodup)
    (hkept : target ∈ Stmt.labelsOfList root →
      target ∈ Stmt.labelsOfList (pruneCode named [] root)) (frames : List Frame) :
    land? (pruneCode named [] root) (pruneFrames named frames) target =
      (land? root frames target).map (prunePlace named) := by
  rw [pruneCode, labelsOfList_trim] at hkept
  rw [land?, land?, Option.map_or, stopOf?_pruneFrames, pruneCode]
  by_cases hmem : target ∈ Stmt.labelsOfList root
  · have hfind := findInList_inList [] false root hflat hnodup (hkept hmem)
    rw [pruneFrames] at hfind
    rw [hfind]
  · have hnone : findInList target [] root = none := (findInList_eq_none_iff _ _ _).mpr hmem
    have hnone' : findInList target [] (trim [] (inList named false root).1) = none := by
      rw [findInList_eq_none_iff, labelsOfList_trim]
      exact fun h => hmem (mem_labels_of_inList h)
    rw [hnone, hnone', Option.map_none]

/-! ### One step -/

section Steps

variable {named : List LabelId} (oracle : Oracle) (history : List Event) {root root' : List Stmt}
  {frames : List Frame} {rest rest' : List Stmt}

/-- Going on from the kept place, if there is a place. -/
lemma goOr_map (f : Place → Place) (ending : Ending) (events : List Event) (place : Option Place) :
    goOr ending events (place.map f) = (goOr ending events place).map f := by
  cases place <;> rfl

/-- The start of the first case that is kept. -/
lemma enterCase_inCases {cases : List SwitchCase} (hflat : EveryCase isFlat cases) :
    enterCase (pruneCode named frames rest) (pruneFrames named frames) (inCases named cases).1 =
      prunePlace named (enterCase rest frames cases) := by
  cases cases with
  | nil => rfl
  | cons c later =>
    obtain ⟨values, isDefault, entry, body⟩ := c
    rw [EveryCase] at hflat
    obtain rfl : entry = none := entry_eq_none hflat.1.1
    rfl

/-- The cases that are kept, from one on. -/
lemma drop_inCases (n : Nat) (cases : List SwitchCase) :
    (inCases named cases).1.drop n = (inCases named (cases.drop n)).1 := by
  induction cases generalizing n with
  | nil => simp only [inCases, List.drop_nil]
  | cons c later ih =>
    cases n with
    | zero => rfl
    | succ n =>
      simp only [inCases, List.drop_succ_cons]
      exact ih n

/-- What tells cases apart is kept. -/
lemma patterns_inCases (cases : List SwitchCase) :
    patterns (inCases named cases).1 = patterns cases := by
  induction cases with
  | nil => rfl
  | cons c later ih =>
    simp only [patterns, inCases, List.map_cons] at ih ⊢
    rw [ih]

/-- The step at the end of a list, inside the kept frames. -/
lemma endStep_pruneFrames (hflat : ∀ frame ∈ frames, frame.Every isFlat) :
    endStep oracle history (pruneFrames named frames) =
      (endStep oracle history frames).map (prunePlace named) := by
  cases frames with
  | nil => rfl
  | cons frame frames =>
    obtain ⟨hframe, -⟩ := List.forall_mem_cons.mp hflat
    cases frame with
    | after => rfl
    | loop test body rest =>
      cases test with
      | none => rfl
      | some test =>
        simp only [pruneFrames, endStep, Trace.Step.map]
        split <;> rfl
    | scope env body stop rest =>
      simp only [pruneFrames, endStep, Trace.Step.map]
      split <;> rfl
    | case later rest =>
      simp only [pruneFrames, endStep, Trace.Step.map]
      split
      · rw [enterCase_inCases hframe.1]
      · rfl

/-- The step of a statement that runs and may jump, if no target of it is lost. -/
lemma plainStep_pruneFrames {s : Stmt}
    (hland : ∀ target ∈ s.branchTargets, land? root' (pruneFrames named frames) target =
      (land? root frames target).map (prunePlace named))
    (hrest : rest' = pruneCode named frames rest) :
    plainStep oracle root' history (pruneFrames named frames) rest' s =
      (plainStep oracle root history frames rest s).map (prunePlace named) := by
  subst hrest
  unfold plainStep
  split
  · cases htarget : s.branchTargets[oracle.branch history s]? with
    | none => rfl
    | some target =>
      simp only []
      rw [hland target (List.mem_of_getElem? htarget), goOr_map]
  · rfl

/-- The step of a statement that is no structured one, if no target of it is lost. -/
lemma leafStep_pruneFrames {s : Stmt}
    (hland : ∀ target ∈ s.branchTargets, land? root' (pruneFrames named frames) target =
      (land? root frames target).map (prunePlace named))
    (hrest : s.isUnconditional = false → rest' = pruneCode named frames rest) :
    leafStep oracle root' history (pruneFrames named frames) rest' s =
      (leafStep oracle root history frames rest s).map (prunePlace named) := by
  cases s with
  | label id =>
    rw [hrest rfl]
    rfl
  | goto target =>
    simp only [leafStep]
    rw [hland target (List.mem_singleton_self target), goOr_map]
  | condGoto test target =>
    simp only [leafStep]
    rw [hrest rfl]
    split
    · rw [hland target (List.mem_singleton_self target), goOr_map]
    · rfl
  | breakOut =>
    simp only [leafStep]
    rw [leave?_pruneFrames, goOr_map]
  | continueLoop =>
    simp only [leafStep]
    rw [nextRound?_pruneFrames, goOr_map]
  | exit => rfl
  | ret value => rfl
  | raw offset op =>
    by_cases hop : op = .ret
    · subst hop
      rfl
    · have hlive : (Stmt.raw offset op).isUnconditional = false := by
        cases op <;> first | rfl | exact absurd rfl hop
      have hplain : plainStep oracle root' history (pruneFrames named frames) rest' (.raw offset op) =
          (plainStep oracle root history frames rest (.raw offset op)).map (prunePlace named) :=
        plainStep_pruneFrames oracle history hland (hrest hlive)
      cases op <;> first | exact absurd rfl hop | exact hplain
  | push | assign | call | discard | pushEnv | popEnv | dispatch | basic | seq | cond | loop | switch
  | scope => exact plainStep_pruneFrames oracle history hland (hrest rfl)

/-- The step of a structured statement. -/
lemma stmtStep_inStmt {s : Stmt} (hflat : Every isFlat s)
    (hland : ∀ target ∈ s.branchTargets, land? root' (pruneFrames named frames) target =
      (land? root frames target).map (prunePlace named))
    (hrest : s.isUnconditional = false → rest' = pruneCode named frames rest) :
    stmtStep oracle root' history (pruneFrames named frames) rest' (inStmt named s).1 =
      (stmtStep oracle root history frames rest s).map (prunePlace named) := by
  cases s with
  | basic block => exact absurd rfl (hflat.self block)
  | seq block =>
    obtain ⟨entry, body⟩ := block
    rw [Every] at hflat
    obtain rfl : entry = none := entry_eq_none hflat.2.1
    rw [hrest rfl]
    rfl
  | cond test thenBlock elseBlock =>
    obtain ⟨thenEntry, thenBody⟩ := thenBlock
    obtain ⟨elseEntry, elseBody⟩ := elseBlock
    rw [Every] at hflat
    obtain rfl : thenEntry = none := entry_eq_none hflat.2.1.1
    obtain rfl : elseEntry = none := entry_eq_none hflat.2.2.1
    rw [hrest rfl]
    simp only [inStmt, orient]
    split
    · simp only [stmtStep, Trace.Step.map, Oracle.asking_negate, Oracle.decides_negate, code_mk_none,
        prunePlace, pruneFrames, pruneCode, trim]
      cases oracle.decides history test <;> rfl
    · simp only [stmtStep, Trace.Step.map, code_mk_none, prunePlace, pruneFrames, pruneCode, trim]
      cases oracle.decides history test <;> rfl
  | loop test block =>
    obtain ⟨entry, body⟩ := block
    rw [Every] at hflat
    obtain rfl : entry = none := entry_eq_none hflat.2.1
    rw [hrest rfl]
    rfl
  | scope env block stop =>
    obtain ⟨entry, body⟩ := block
    rw [Every] at hflat
    obtain rfl : entry = none := entry_eq_none hflat.2.1
    rw [hrest rfl, inStmt_scope named env ⟨none, body⟩ stop body rest frames]
    simp only [stmtStep, Trace.Step.map, prunePlace, pruneCode_nil, pruneFrames, code_mk_none]
  | switch value cases =>
    rw [Every] at hflat
    rw [hrest rfl]
    simp only [inStmt, stmtStep, Trace.Step.map]
    rw [patterns_inCases, drop_inCases, enterCase_inCases (everyCase_drop hflat.2 _)]
  | label | raw | push | assign | call | discard | goto | condGoto | pushEnv | popEnv | dispatch
  | ret | exit | breakOut | continueLoop => exact leafStep_pruneFrames oracle history hland hrest

/-- In code that is reached, only a label that nothing names is dropped. -/
lemma eq_label_of_reach {s : Stmt} {dead : Bool} (h : reach named false s = some dead) :
    ∃ id, s = .label id ∧ dead = false := by
  cases s with
  | label id =>
    simp only [reach] at h
    split at h
    · cases h
    · cases h
      exact ⟨id, rfl, rfl⟩
  | basic | seq | cond | loop | scope | switch | raw | push | assign | call | discard | goto
  | condGoto | pushEnv | popEnv | dispatch | ret | exit | breakOut | continueLoop => cases h

/-- What is kept of a statement leads to the same targets. -/
lemma branchTargets_inStmt (s : Stmt) : (inStmt named s).1.branchTargets = s.branchTargets := by
  cases s with
  | cond test thenBlock elseBlock =>
    simp only [inStmt, orient]
    split <;> rfl
  | label | basic | seq | loop | scope | switch | raw | push | assign | call | discard | goto
  | condGoto | pushEnv | popEnv | dispatch | ret | exit | breakOut | continueLoop => rfl

/-- A statement that is kept as one that holds no blocks has not changed. -/
lemma inStmt_eq_leaf {s leaf : Stmt} (hleaf : leaf.isStructured = false)
    (h : (inStmt named s).1 = leaf) : s = leaf := by
  cases s with
  | cond test thenBlock elseBlock =>
    subst h
    simp only [inStmt, orient] at hleaf
    split at hleaf <;> cases hleaf
  | seq | loop | scope | switch =>
    subst h
    cases hleaf
  | label | basic | raw | push | assign | call | discard | goto | condGoto | pushEnv | popEnv
  | dispatch | ret | exit | breakOut | continueLoop => exact h

/-- A step at a place is a step at the kept place, or it passes over what is dropped. -/
lemma machine_prunePlace {block block' : Block} {place : Place} (hflat : place.Every isFlat)
    (hland : ∀ s later, (prunePlace named place).code = s :: later → ∀ target ∈ s.branchTargets,
      land? block'.body (pruneFrames named place.frames) target =
        (land? block.body place.frames target).map (prunePlace named)) :
    (∃ next, machine oracle block history place = .go [] next ∧
        prunePlace named next = prunePlace named place ∧ next.code.length < place.code.length) ∨
      machine oracle block' history (prunePlace named place) =
        (machine oracle block history place).map (prunePlace named) := by
  obtain ⟨list, frames⟩ := place
  cases list with
  | nil =>
    refine .inr ?_
    rw [prunePlace, pruneCode_nil]
    exact endStep_pruneFrames oracle history hflat.2
  | cons s rest =>
    have hs : Every isFlat s := by
      have h := hflat.1
      rw [EveryIn] at h
      exact h.1
    simp only [prunePlace, pruneCode, inList] at hland ⊢
    cases hreach : reach named false s with
    | some dead =>
      obtain ⟨id, rfl, rfl⟩ := eq_label_of_reach hreach
      exact .inl ⟨⟨rest, frames⟩, rfl, rfl, Nat.lt_succ_self _⟩
    | none =>
      simp only [hreach] at hland ⊢
      rcases trim_cons frames (inStmt named s).1 (inList named s.isUnconditional rest).1 with
        h | ⟨h, -, ⟨hexit, rfl⟩ | ⟨hcontinue, hround⟩⟩
      · refine .inr ?_
        rw [h] at hland ⊢
        have hland' := hland _ _ rfl
        rw [branchTargets_inStmt] at hland'
        refine stmtStep_inStmt oracle history hs hland' fun hlive => ?_
        rw [hlive, pruneCode]
      · obtain rfl : s = .exit := inStmt_eq_leaf rfl hexit
        rw [h]
        exact .inr rfl
      · obtain rfl : s = .continueLoop := inStmt_eq_leaf rfl hcontinue
        refine .inl ⟨⟨[], frames⟩, ?_, ?_, Nat.succ_pos _⟩
        · simp only [machine, stmtStep, leafStep, hround, goOr]
        · rw [h, inList, trim_nil]

end Steps

/-! ### Whole runs -/

/-- Cleaning up a unit is keeping what is kept of its list. -/
lemma body_removeRedundantCode (block : Block) :
    (removeRedundantCode block).1.body =
      pruneCode (Stmt.targetsOfList block.body) [] block.body := rfl

/-- Cleaning up keeps the traces of a flat unit if no label that is still a target is lost. -/
lemma runAlike_removeRedundantCode {block : Block} (hflat : FlatUnit block)
    (hnodup : (Stmt.labelsOfList block.body).Nodup)
    (hkept : ∀ id ∈ Stmt.labelsOfList block.body,
      id ∈ Stmt.targetsOfList (removeRedundantCode block).1.body →
        id ∈ Stmt.labelsOfList (removeRedundantCode block).1.body) :
    RunAlike block (removeRedundantCode block).1 := by
  intro oracle
  set named := Stmt.targetsOfList block.body with hnamed
  set known := Stmt.targetsOfList (removeRedundantCode block).1.body with hknown
  have hbody : EveryIn (targetsIn known) (removeRedundantCode block).1.body :=
    everyIn_targetsIn _ fun id hid => hid
  -- Along a run the place stays flat, and what is kept of it only jumps to labels that are kept.
  let Good (place : Place) : Prop :=
    place.Every isFlat ∧ (prunePlace named place).Every (targetsIn known)
  have mirrors : ∀ history place, Good place →
      (∃ next, machine oracle block history place = .go [] next ∧
        prunePlace named next = prunePlace named place ∧ next.code.length < place.code.length) ∨
      machine oracle (removeRedundantCode block).1 history (prunePlace named place) =
        (machine oracle block history place).map (prunePlace named) := by
    rintro history place ⟨hplace, htargets⟩
    refine machine_prunePlace oracle history hplace fun s later hcode target htarget => ?_
    have hs : Every (targetsIn known) s := by
      have h := htargets.1
      rw [hcode, EveryIn] at h
      exact h.1
    rw [body_removeRedundantCode]
    refine land?_pruneFrames hflat.body hnodup (fun hmem => ?_) place.frames
    exact hkept target hmem (hs.self target htarget)
  have keeps : ∀ history place events next, Good place →
      machine oracle block history place = .go events next → Good next := by
    rintro history place events next hgood hstep
    refine ⟨every_machine hflat.body hgood.1 hstep, ?_⟩
    rcases mirrors history place hgood with ⟨next', hstep', hsame, -⟩ | hmirror
    · rw [hstep] at hstep'
      cases hstep'
      rw [hsame]
      exact hgood.2
    · rw [hstep] at hmirror
      exact every_machine hbody hgood.2 hmirror
  have hstart : prunePlace named (start block) = start (removeRedundantCode block).1 := by
    obtain ⟨entry, body⟩ := block
    obtain rfl : entry = none := hflat.entry
    rfl
  have hgood : Good (start block) := by
    refine ⟨⟨?_, List.forall_mem_nil _⟩, ?_⟩
    · exact everyIn_code (by simp [hflat.entry]) hflat.body
    · rw [hstart]
      refine ⟨everyIn_code ?_ hbody, List.forall_mem_nil _⟩
      have hentry : (removeRedundantCode block).1.entry = none := hflat.entry
      simp [hentry]
  exact (Trace.Simulation.of_map (prunePlace named) Good keeps mirrors).sameTraces
    ⟨hgood, hstart.symm⟩

/-- What cleaning up drops as a whole from a unit. -/
def dropped (block : Block) : List Stmt :=
  droppedInList (Stmt.targetsOfList block.body) false block.body

/-- In a list with distinct labels a label that is dropped is not kept. -/
lemma notMem_labels_of_dropped {block : Block} (hnodup : (Stmt.labelsOfList block.body).Nodup)
    {id : LabelId} (h : id ∈ Stmt.labelsOfList (dropped block)) :
    id ∉ Stmt.labelsOfList (removeRedundantCode block).1.body := by
  have hcount := count_labels_inList (Stmt.targetsOfList block.body) id false block.body
  have hone := List.nodup_iff_count_le_one.mp hnodup id
  rw [body_removeRedundantCode, pruneCode, labelsOfList_trim]
  rw [dropped] at h
  rw [← List.count_pos_iff] at h ⊢
  omega

/-- Every label of a unit is kept or dropped. -/
lemma mem_labels_or_dropped {block : Block} {id : LabelId}
    (h : id ∈ Stmt.labelsOfList block.body) :
    id ∈ Stmt.labelsOfList (removeRedundantCode block).1.body ∨
      id ∈ Stmt.labelsOfList (dropped block) := by
  have hcount := count_labels_inList (Stmt.targetsOfList block.body) id false block.body
  rw [body_removeRedundantCode, pruneCode, labelsOfList_trim, dropped]
  rw [← List.count_pos_iff] at h ⊢
  rw [← List.count_pos_iff]
  omega

/-- The labels of a list are the labels of its statements. -/
lemma mem_labelsOfList {id : LabelId} {list : List Stmt} :
    id ∈ Stmt.labelsOfList list ↔ ∃ s ∈ list, id ∈ s.labels := by
  induction list with
  | nil => simp only [Stmt.labelsOfList, List.not_mem_nil, false_and, exists_false]
  | cons s rest ih => rw [Stmt.labelsOfList, List.mem_append, ih, List.exists_mem_cons_iff]

/-- Cleaning up a flat unit with distinct labels keeps all its traces and every label that is still a
target, exactly when no statement that is dropped as a whole holds a label that is still a target.
-/
theorem removeRedundantCode_runAlike_iff {block : Block} (hflat : FlatUnit block)
    (hnodup : (Stmt.labelsOfList block.body).Nodup) :
    (RunAlike block (removeRedundantCode block).1 ∧
      ∀ id ∈ Stmt.labelsOfList block.body,
        id ∈ Stmt.targetsOfList (removeRedundantCode block).1.body →
          id ∈ Stmt.labelsOfList (removeRedundantCode block).1.body) ↔
    ∀ s ∈ dropped block, ∀ id ∈ s.labels,
      id ∉ Stmt.targetsOfList (removeRedundantCode block).1.body := by
  constructor
  · rintro ⟨-, hkept⟩ s hs id hid htarget
    have hdropped : id ∈ Stmt.labelsOfList (dropped block) := mem_labelsOfList.mpr ⟨s, hs, hid⟩
    refine notMem_labels_of_dropped hnodup hdropped (hkept id ?_ htarget)
    have hcount := count_labels_inList (Stmt.targetsOfList block.body) id false block.body
    rw [dropped, ← List.count_pos_iff] at hdropped
    rw [← List.count_pos_iff]
    omega
  · intro hlost
    have hkept : ∀ id ∈ Stmt.labelsOfList block.body,
        id ∈ Stmt.targetsOfList (removeRedundantCode block).1.body →
          id ∈ Stmt.labelsOfList (removeRedundantCode block).1.body := by
      intro id hid htarget
      rcases mem_labels_or_dropped hid with hkept | hdropped
      · exact hkept
      · obtain ⟨s, hs, hs'⟩ := mem_labelsOfList.mp hdropped
        exact absurd htarget (hlost s hs id hs')
    exact ⟨runAlike_removeRedundantCode hflat hnodup hkept, hkept⟩

/-- A unit with a call that is never reached and a condition that only has an `else` branch. -/
def skippedCall : Block where
  body := [.goto 1, .call "f" [], .label 1, .cond (.incoming 0) {} { body := [.call "g" []] }, .exit]

/-- Dropping the call and turning the condition round keeps the traces. -/
theorem skippedCall_runAlike :
    FlatUnit skippedCall ∧ (Stmt.labelsOfList skippedCall.body).Nodup ∧
      RunAlike skippedCall (removeRedundantCode skippedCall).1 := by
  have hflat : FlatUnit skippedCall := by
    refine ⟨rfl, ?_⟩
    simp [skippedCall, EveryIn, Every, isFlat]
  have hnodup : (Stmt.labelsOfList skippedCall.body).Nodup := by decide
  refine ⟨hflat, hnodup, ((removeRedundantCode_runAlike_iff hflat hnodup).mpr ?_).1⟩
  intro s hs id hid
  have hdropped : dropped skippedCall = [.call "f" []] := rfl
  rw [hdropped, List.mem_singleton] at hs
  subst hs
  exact absurd hid List.not_mem_nil

/-- A unit that jumps into a loop from the outside. -/
def jumpIntoLoop : Block where
  body := [.goto 0,
    .loop none { body := [.label 0, .assign (.temporary "a") (.int 1), .goto 0] }]

/-- The loop stands behind a jump and is dropped, although the jump leads into it: the unit has no
trace left, and the label of the jump is lost. -/
theorem jumpIntoLoop_lost :
    FlatUnit jumpIntoLoop ∧ (Stmt.labelsOfList jumpIntoLoop.body).Nodup ∧
      ¬ RunAlike jumpIntoLoop (removeRedundantCode jumpIntoLoop).1 ∧
      0 ∈ Stmt.labelsOfList jumpIntoLoop.body ∧
      0 ∈ Stmt.targetsOfList (removeRedundantCode jumpIntoLoop).1.body ∧
      0 ∉ Stmt.labelsOfList (removeRedundantCode jumpIntoLoop).1.body := by
  refine ⟨⟨rfl, ?_⟩, by decide, ?_, by decide, by decide, by decide⟩
  · simp [jumpIntoLoop, EveryIn, Every, isFlat]
  · intro h
    have hbegins := ((h ⟨fun _ _ => true, fun _ _ => true, fun _ _ _ => 0, fun _ _ => 0, true⟩).begins
      [.ran (.assign (.temporary "a") (.int 1))]).mp ⟨3, [], rfl⟩
    obtain ⟨n, hn⟩ := hbegins
    -- What is left of the unit jumps to a label that is not there.
    cases n with
    | zero => simp [Trace.Machine.run_zero, Trace.Status.history] at hn
    | succ n =>
      rw [Trace.Machine.run_succ, show Trace.Machine.advance _ _ = .ended [] (.lost 0) from rfl,
        Trace.Machine.run_ended] at hn
      simp [Trace.Status.history] at hn

end Decompiler.Cleanup
