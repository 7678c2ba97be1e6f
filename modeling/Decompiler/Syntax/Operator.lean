import Decompiler.Bytecode.Opcode

/-!
# Operators

The operators of expressions.  The arithmetic ones and the comparisons come from operation codes;
the two short-circuit ones are recovered from chains of branches.
-/

namespace Decompiler

open Bytecode

/-- The prefix operators. -/
inductive UnaryOp where
  | not
  | neg
deriving DecidableEq, Repr

/-- The infix operators. -/
inductive BinaryOp where
  | mul
  | div
  /-- Integer division. -/
  | rem
  | mod
  | add
  | sub
  | bitAnd
  | bitOr
  | bitXor
  | shl
  | shr
  | lt
  | le
  | eq
  | ne
  | ge
  | gt
  | and
  | or
deriving DecidableEq, Repr

namespace UnaryOp

/-- The operator an operation computes. -/
def ofOpcode? : Opcode → Option UnaryOp
  | .not => some .not
  | .neg => some .neg
  | _ => none

/-- The name of an operator in listings. -/
def title : UnaryOp → String
  | .not => "Not"
  | .neg => "Neg"

/-- Every prefix operator. -/
def all : List UnaryOp := [.not, .neg]

end UnaryOp

namespace BinaryOp

/-- The operator an operation computes. -/
def ofOpcode? : Opcode → Option BinaryOp
  | .mul => some .mul
  | .div => some .div
  | .rem => some .rem
  | .mod => some .mod
  | .add => some .add
  | .sub => some .sub
  | .and => some .bitAnd
  | .or => some .bitOr
  | .xor => some .bitXor
  | .shl => some .shl
  | .shr => some .shr
  | .slt => some .lt
  | .sle => some .le
  | .seq => some .eq
  | .sne => some .ne
  | .sge => some .ge
  | .sgt => some .gt
  | _ => none

/-- The comparison that holds exactly when the given one does not. -/
def inverse? : BinaryOp → Option BinaryOp
  | .lt => some .ge
  | .le => some .gt
  | .eq => some .ne
  | .ne => some .eq
  | .ge => some .lt
  | .gt => some .le
  | _ => none

/-- Whether the operator compares its operands. -/
def isComparison (op : BinaryOp) : Bool :=
  op.inverse?.isSome

/-- Whether the operator may leave its right operand unevaluated. -/
def isLogical : BinaryOp → Bool
  | .and | .or => true
  | _ => false

/-- The name of an operator in listings. -/
def title : BinaryOp → String
  | .mul => "Mul"
  | .div => "Div"
  | .rem => "Rem"
  | .mod => "Mod"
  | .add => "Add"
  | .sub => "Sub"
  | .bitAnd => "BitAnd"
  | .bitOr => "BitOr"
  | .bitXor => "BitXor"
  | .shl => "Shl"
  | .shr => "Shr"
  | .lt => "Lt"
  | .le => "Le"
  | .eq => "Eq"
  | .ne => "Ne"
  | .ge => "Ge"
  | .gt => "Gt"
  | .and => "And"
  | .or => "Or"

/-- Every infix operator. -/
def all : List BinaryOp :=
  [.mul, .div, .rem, .mod, .add, .sub, .bitAnd, .bitOr, .bitXor, .shl, .shr, .lt, .le, .eq, .ne,
    .ge, .gt, .and, .or]

/-- Inverting a comparison twice gives it back. -/
theorem inverse?_inverse? {op inverse : BinaryOp} (h : op.inverse? = some inverse) :
    inverse.inverse? = some op := by
  cases op <;> simp_all [inverse?] <;> subst h <;> rfl

end BinaryOp

end Decompiler
