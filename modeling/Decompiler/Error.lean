import Decompiler.Bytecode.Decode
import Decompiler.Syntax.Stmt

/-!
# Errors of a unit

What can end the decompilation of a unit, and the wording of it.  Faults of the stack discipline
carry the statements that were built before them, so that something can still be printed.
-/

namespace Decompiler

open Bytecode

/-- A condition of the passes that does not hold. -/
inductive InvariantFault where
  /-- A basic block has the wrong shape. -/
  | block (fault : BlockFault)
  /-- An instruction has an operand that its operation does not take. -/
  | operand (op : Opcode) (offset : Nat)
  /-- An edit names a block that is not there, or is there twice. -/
  | editTarget (label : LabelId)
  /-- An edit puts in a block without a label. -/
  | unlabelledReplacement
  /-- An edit replaces the block it starts from. -/
  | replacedHead
  /-- An edit removes a block that it also removes or replaces elsewhere. -/
  | claimedTwice (label : LabelId)
  /-- An item is taken out of a region that it is not in. -/
  | notInRegion (item : Int)
  /-- An item is placed a second time. -/
  | placedTwice (item : Nat)
  | notBasicBlock (item : Nat)
  | headerNotBasicBlock
deriving DecidableEq, Repr

/-- The text of a broken condition. -/
def InvariantFault.message : InvariantFault → String
  | .block fault => fault.message
  | .operand op offset =>
    "instruction " ++ op.title ++ " at offset " ++ toString offset ++ " has an unexpected operand"
  | .editTarget label => "rewrite target #" ++ toString label ++ " is not present exactly once"
  | .unlabelledReplacement => "replacement block has no label"
  | .replacedHead => "rewrite replaces its own head"
  | .claimedTwice label => "rewrite claims block #" ++ toString label ++ " twice"
  | .notInRegion item => toString item ++ " is not in the scope it is removed from"
  | .placedTwice item => "item " ++ toString item ++ " was placed twice"
  | .notBasicBlock item => "item " ++ toString item ++ " is not a basic block"
  | .headerNotBasicBlock => "loop header is not a basic block"

/-- Why a unit could not be decompiled. -/
inductive Error where
  | decode (error : DecodeError)
  | stackUnderflow (offset : Nat) (op : StackOp) (needed available : Nat) (built : List Stmt)
  | dupArity (offset : Nat) (flag : UInt16) (built : List Stmt)
  | unbalancedScopes (opened : Nat) (built : List Stmt)
  | unmatchedPopEnv (offset : Nat) (built : List Stmt)
  | inconsistentStack (label : String) (expected found : Nat)
  | invariant (fault : InvariantFault)
  | fixpointExceeded (sweeps : Nat)

namespace Error

/-- The text of an error. -/
def message : Error → String
  | .decode error => error.message
  | .stackUnderflow offset op needed available _ =>
    "stack underflow at offset " ++ toString offset ++ " (`" ++ op.text ++ "`): needs "
      ++ toString needed ++ " value(s), " ++ toString available ++ " available"
  | .dupArity offset flag _ =>
    "dup at offset " ++ toString offset ++ " has unsupported extra flag " ++ toString flag.toNat
  | .unbalancedScopes opened _ =>
    "unbalanced environment: " ++ toString opened
      ++ " scope push(es) still open at end of function"
  | .unmatchedPopEnv offset _ =>
    "popenv at offset " ++ toString offset ++ " has no matching pushenv"
  | .inconsistentStack label expected found =>
    "inconsistent stack depth at " ++ label ++ ": " ++ toString expected ++ " vs " ++ toString found
  | .invariant fault => fault.message
  | .fixpointExceeded sweeps =>
    "optimizer did not settle after " ++ toString sweeps ++ " sweeps"

/-- The statements built before the error, if it carries them. -/
def built? : Error → Option (List Stmt)
  | .stackUnderflow _ _ _ _ built => some built
  | .dupArity _ _ built => some built
  | .unbalancedScopes _ built => some built
  | .unmatchedPopEnv _ built => some built
  | _ => none

end Error

/-- Refuses a basic block of the wrong shape. -/
def BasicBlockOf.check (block : BasicBlock) : Except Error Unit :=
  match block.fault? with
  | none => .ok ()
  | some fault => .error (.invariant (.block fault))

/-- Takes an item out of a set in which each item may be claimed once. -/
def claim {α : Type} [BEq α] (number : α → Int) (set : List α) (item : α) :
    Except Error (List α) :=
  if set.contains item then .ok (set.erase item)
  else .error (.invariant (.notInRegion (number item)))

end Decompiler
