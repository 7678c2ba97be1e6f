import Decompiler.Error

/-!
# Edits of a block list

An edit starts from one block, its head.  It puts another block in its place or deletes it, inserts
blocks right after it, and replaces or deletes other blocks, which it names by their labels.  An
edit is carried out as a whole or not at all.
-/

namespace Decompiler

/-- A change of a block list around its head. -/
structure Edit where
  /-- The new head, or nothing if the head is deleted. -/
  head : Option BasicBlock := none
  /-- Blocks that take the place of the blocks with the same labels. -/
  replace : List BasicBlock := []
  /-- Labels of blocks that are deleted. -/
  remove : List LabelId := []
  /-- Blocks that follow the head. -/
  insert : List BasicBlock := []

namespace Edit

/-- The positions of the blocks with a given label. -/
def positions (blocks : List BasicBlock) (label : LabelId) : List Nat :=
  (blocks.zipIdx.filter fun (block, _) => block.entryLabel? == some label).map Prod.snd

/-- The position of the only block with a given label. -/
def locate (blocks : List BasicBlock) (label : LabelId) : Except Error Nat :=
  match positions blocks label with
  | [i] => .ok i
  | _ => .error (.invariant (.editTarget label))

/-- Where a replacement goes. -/
def replacement (blocks : List BasicBlock) (pos : Nat) (block : BasicBlock) :
    Except Error (Nat × BasicBlock) :=
  match block.entryLabel? with
  | none => .error (.invariant .unlabelledReplacement)
  | some label => do
    let i ← locate blocks label
    if i = pos then .error (.invariant .replacedHead) else return (i, block)

/-- Adds the position of a deleted block to those of the ones before. -/
def removal (blocks : List BasicBlock) (pos : Nat) (replaced : List Nat) (removed : List Nat)
    (label : LabelId) : Except Error (List Nat) := do
  let i ← locate blocks label
  if i = pos || replaced.contains i || removed.contains i then
    .error (.invariant (.claimedTwice label))
  else return removed ++ [i]

/-- What an edit makes of the block at position `i`. -/
def place (edit : Edit) (pos : Nat) (replaced : List (Nat × BasicBlock)) (removed : List Nat)
    (block : BasicBlock) (i : Nat) : List BasicBlock :=
  if removed.contains i then []
  else if i = pos then edit.head.toList ++ edit.insert
  else [(replaced.reverse.lookup i).getD block]

/-- Carries out an edit whose head is the block at `pos`.  Gives the new list and the position right
after the new head, or where the deleted head was. -/
def apply (edit : Edit) (blocks : List BasicBlock) (pos : Nat) :
    Except Error (List BasicBlock × Nat) := do
  let replaced ← edit.replace.mapM (replacement blocks pos)
  let removed ← edit.remove.foldlM (removal blocks pos (replaced.map Prod.fst)) []
  let edited := blocks.zipIdx.flatMap fun (block, i) => edit.place pos replaced removed block i
  let headAt := pos - removed.countP (· < pos)
  return (edited, if edit.head.isSome then headAt + 1 else headAt)

end Edit

end Decompiler
