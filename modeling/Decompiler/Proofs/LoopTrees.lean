import Decompiler.Proofs.BlockLists

/-!
# Trees of loops

The shape of a tree between the recovery of its loops and that of its conditions.  Each list, be it that
of the unit or that of a loop or scope, consists of basic blocks (`Stmt.isBlocks`); only a scope may hold
straight-line code instead (`Stmt.straightList`).  A block starts with a label, control never runs off
its end, and a branch stands only in front of the jump there (`Stmt.inOrder`).
-/

namespace Decompiler

namespace Stmt

/-! ### Dispatches -/

mutual

/-- The cases of the dispatches in a statement. -/
def dispatches : Stmt → List (List (Expr × LabelId))
  | .dispatch _ cases _ => [cases]
  | .basic block => dispatchesOfList block.body
  | .seq block => dispatchesOfList block.body
  | .cond _ thenBlock elseBlock =>
    dispatchesOfList thenBlock.body ++ dispatchesOfList elseBlock.body
  | .loop _ body => dispatchesOfList body.body
  | .scope _ body _ => dispatchesOfList body.body
  | .switch _ cases => dispatchesOfCases cases
  | _ => []

/-- The cases of the dispatches in a list. -/
def dispatchesOfList : List Stmt → List (List (Expr × LabelId))
  | [] => []
  | s :: rest => s.dispatches ++ dispatchesOfList rest

/-- The cases of the dispatches in the cases of a switch. -/
def dispatchesOfCases : List SwitchCase → List (List (Expr × LabelId))
  | [] => []
  | c :: rest => dispatchesOfList c.body.body ++ dispatchesOfCases rest

end

/-! ### Blocks in order -/

/-- Whether the statement holds no blocks and leaves no loop or switch. -/
def isElementary : Stmt → Bool
  | .basic _ | .seq _ | .cond _ _ _ | .loop _ _ | .switch _ _ | .scope _ _ _ | .breakOut
  | .continueLoop => false
  | _ => true

/-- Whether control never goes on behind the statement. -/
def closes : Stmt → Bool
  | .goto _ | .ret _ | .exit | .loop none _ => true
  | _ => false

/-- Whether the statement, if it is a dispatch, goes to `fall` by default. -/
def defaultsTo (fall : LabelId) : Stmt → Bool
  | .dispatch _ _ default => default == fall
  | _ => true

/-- Whether the last statement of a block closes it, a branch stands only in front of a jump there, and
a dispatch goes by default to where that jump goes. -/
def inOrder : List Stmt → Bool
  | [] => false
  | [s] => s.closes
  | [s, .goto fall] => s.defaultsTo fall
  | s :: rest => !s.isConditional && inOrder rest

/-- The rest of a block in order is in order. -/
lemma inOrder_tail {s : Stmt} {rest : List Stmt} (hne : rest ≠ []) (h : inOrder (s :: rest) = true) :
    inOrder rest = true := by
  obtain ⟨t, more, rfl⟩ := List.exists_cons_of_ne_nil hne
  rw [inOrder.eq_def] at h
  split at h
  · cases h
  · rename_i heq
    cases heq
  · rename_i heq
    cases heq
    rfl
  · rename_i heq
    cases heq
    rw [Bool.and_eq_true] at h
    exact h.2

/-- The dispatch of a block in order goes by default where control goes on. -/
lemma eq_of_inOrder {init : List Stmt} {value : Expr} {cases : List (Expr × LabelId)}
    {default fall : LabelId}
    (h : inOrder (init ++ [.dispatch value cases default, .goto fall]) = true) : default = fall := by
  induction init with
  | nil => simpa [inOrder, defaultsTo] using h
  | cons s rest ih => exact ih (inOrder_tail (by simp) h)

/-- A block in order ends in a statement that closes it. -/
lemma exists_closes_of_inOrder {list : List Stmt} (h : inOrder list = true) :
    ∃ init last, list = init ++ [last] ∧ last.closes = true := by
  induction list with
  | nil => cases h
  | cons s rest ih =>
    cases rest with
    | nil => exact ⟨[], s, rfl, h⟩
    | cons t more =>
      obtain ⟨init, last, hlist, hlast⟩ := ih (inOrder_tail (by simp) h)
      exact ⟨s :: init, last, by rw [hlist, List.cons_append], hlast⟩

/-! ### Lists -/

mutual

/-- Whether the statement never jumps, and is elementary or a scope around straight-line code. -/
def isStraight : Stmt → Bool
  | .scope _ body _ => straightList body.body
  | s => s.isElementary && !s.isConditional && !s.isUnconditional

/-- Whether the list is straight-line code. -/
def straightList : List Stmt → Bool
  | [] => true
  | s :: rest => s.isStraight && straightList rest

end

mutual

/-- Whether the statement is elementary, or a loop or scope around a list of blocks, or a scope around
straight-line code. -/
def isNested : Stmt → Bool
  | .loop _ body => isBlocks body.body
  | .scope _ body _ => isBlocks body.body || straightList body.body
  | s => s.isElementary

/-- Whether all statements of a list are nested in this way. -/
def nestedList : List Stmt → Bool
  | [] => true
  | s :: rest => s.isNested && nestedList rest

/-- Whether the list consists of blocks in order that start with a label. -/
def isBlocks : List Stmt → Bool
  | [] => true
  | .basic block :: rest =>
    block.entryLabel?.isSome && inOrder block.body && nestedList block.body && isBlocks rest
  | _ :: _ => false

end

/-! ### Soundness -/

mutual

lemma isSound_of_isStraight : (s : Stmt) → s.isStraight = true → s.isSound = true
  | .scope _ body _, h => soundList_of_straightList body.body h
  | .basic _, h | .seq _, h | .cond _ _ _, h | .loop _ _, h | .switch _ _, h => by cases h
  | .label _, _ | .raw _ _, _ | .push _, _ | .assign _ _, _ | .call _ _, _ | .discard _, _
  | .goto _, _ | .condGoto _ _, _ | .pushEnv _ _, _ | .popEnv _, _ | .dispatch _ _ _, _ | .ret _, _
  | .exit, _ | .breakOut, _ | .continueLoop, _ => rfl

/-- Straight-line code is sound. -/
lemma soundList_of_straightList : (list : List Stmt) → straightList list = true →
    soundList list = true
  | [], _ => rfl
  | s :: rest, h => by
    rw [straightList, Bool.and_eq_true] at h
    rw [soundList, isSound_of_isStraight s h.1, soundList_of_straightList rest h.2]
    rfl

end

mutual

lemma isSound_of_isNested : (s : Stmt) → s.isNested = true → s.isSound = true
  | .loop _ body, h => soundList_of_isBlocks body.body h
  | .scope _ body _, h => by
    rw [isNested, Bool.or_eq_true] at h
    rcases h with h | h
    · exact soundList_of_isBlocks body.body h
    · exact soundList_of_straightList body.body h
  | .basic _, h | .seq _, h | .cond _ _ _, h | .switch _ _, h => by cases h
  | .label _, _ | .raw _ _, _ | .push _, _ | .assign _ _, _ | .call _ _, _ | .discard _, _
  | .goto _, _ | .condGoto _ _, _ | .pushEnv _ _, _ | .popEnv _, _ | .dispatch _ _ _, _ | .ret _, _
  | .exit, _ | .breakOut, _ | .continueLoop, _ => rfl

lemma soundList_of_nestedList : (list : List Stmt) → nestedList list = true → soundList list = true
  | [], _ => rfl
  | s :: rest, h => by
    rw [nestedList, Bool.and_eq_true] at h
    rw [soundList, isSound_of_isNested s h.1, soundList_of_nestedList rest h.2]
    rfl

/-- A list of blocks in order is sound. -/
lemma soundList_of_isBlocks : (list : List Stmt) → isBlocks list = true → soundList list = true
  | [], _ => rfl
  | .basic block :: rest, h => by
    simp only [isBlocks, Bool.and_eq_true] at h
    obtain ⟨⟨⟨hlabel, horder⟩, hnested⟩, hrest⟩ := h
    obtain ⟨label, hlabel⟩ := Option.isSome_iff_exists.mp hlabel
    obtain ⟨init, last, hbody, hlast⟩ := exists_closes_of_inOrder horder
    have hends : (last.isUnconditional || last.isStructured) = true := by
      cases last with
      | goto | ret | exit | loop => rfl
      | _ => cases hlast
    have hblock : (Stmt.basic block).isSound = true :=
      BasicBlockOf.isSound_of_append hbody hlabel hends (soundList_of_nestedList block.body hnested)
    rw [soundList, hblock, soundList_of_isBlocks rest hrest]
    rfl

end

end Stmt

/-- A list of blocks in order, with loops and scopes in them, whose labels are distinct.  All labels that
it defines or leads to are below `bound`. -/
structure LoopTree (bound : Nat) (block : Block) : Prop where
  shape : Stmt.isBlocks block.body = true
  nodup : (Stmt.labelsOfList block.body).Nodup
  labels : ∀ id ∈ Stmt.labelsOfList block.body, id < bound
  entry : ∀ id ∈ block.entry, id < bound
  targets : ∀ id ∈ Stmt.targetsOfList block.body, id < bound

end Decompiler
