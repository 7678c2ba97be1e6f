import Decompiler.Error
import Decompiler.Syntax.Labels

/-!
# Stack depths

How many values lie on the stack when a block is entered.  Depths are carried along the branches
from the first block; two branches into one block have to agree.
-/

namespace Decompiler

namespace Depth

/-- The position of the block with a given label; of several the last. -/
def position? (blocks : List BasicBlock) (label : LabelId) : Option Nat :=
  (blocks.zipIdx.reverse.find? fun (block, _) => block.entryLabel? == some label).map Prod.snd

/-- Branches out of a block with the depth at which they are taken, from the statements of the block
and the depth before them.  A fault of the stack discipline ends the list; it is reported when the
block is simulated. -/
def branches (depth : Nat) : List Stmt → List (LabelId × Nat)
  | [] => []
  | .raw _ op :: rest =>
    match op.effect? with
    | none => []
    | some (pops, pushes) =>
      if depth < pops then []
      else op.targets.map (·, depth - pops) ++ branches (depth - pops + pushes) rest
  | .goto target :: rest => (target, depth) :: branches depth rest
  | _ :: rest => branches depth rest

/-- Depths found so far, and blocks whose branches are still to be followed, the next one first. -/
structure State where
  depths : List (Option Nat)
  pending : List Nat

/-- Follows one branch. -/
def follow (blocks : List BasicBlock) (labels : Labels) (state : State) (branch : LabelId × Nat) :
    Except Error State :=
  match position? blocks branch.1 with
  | none => .ok state
  | some j =>
    match (state.depths[j]?).join with
    | none => .ok ⟨state.depths.set j (some branch.2), j :: state.pending⟩
    | some expected =>
      if expected = branch.2 then .ok state
      else .error (.inconsistentStack (labels.name branch.1) expected branch.2)

/-- Follows the branches of the pending blocks.  Each block becomes pending once, so that `fuel` as
large as the number of blocks is enough. -/
def propagate (blocks : List BasicBlock) (labels : Labels) : Nat → State → Except Error State
  | 0, state => .ok state
  | fuel + 1, state =>
    match state.pending with
    | [] => .ok state
    | i :: pending => do
      let depth := ((state.depths[i]?).join).getD 0
      let body := ((blocks[i]?).map BasicBlockOf.body).getD []
      let state ← (branches depth body).foldlM (follow blocks labels) { state with pending }
      propagate blocks labels fuel state

/-- The depth at the entry of each block, in 16 bits.  A block that no branch reaches is entered
with an empty stack. -/
def entryDepths (blocks : List BasicBlock) (labels : Labels) : Except Error (List Nat) :=
  match blocks with
  | [] => .ok []
  | _ :: rest => do
    let start : State := ⟨some 0 :: rest.map fun _ => none, [0]⟩
    let state ← propagate blocks labels blocks.length start
    return state.depths.map fun depth => depth.getD 0 % Nat.pow 2 16

end Depth

end Decompiler
