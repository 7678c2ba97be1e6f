import Decompiler.Bytecode.Constant
import Decompiler.Bytecode.LabelTable
import Decompiler.Bytecode.Names

/-!
# Instructions

A decoded instruction and its line in a listing.
-/

namespace Decompiler.Bytecode

/-- A variable operand. -/
structure VarRef where
  name : String
  /-- The owner of the variable; zero means that it is on the stack. -/
  owner : Int16
  /-- Whether an array index is on the stack. -/
  array : Bool
deriving DecidableEq, Repr

/-- The number of stack values that name the variable. -/
def VarRef.stackOperands (var : VarRef) : Nat :=
  (if var.owner = 0 then 1 else 0) + (if var.array then 1 else 0)

/-- The operand of an instruction. -/
inductive Operand where
  | none
  | constant (value : Constant)
  | var (ref : VarRef)
  | call (name : String) (argc : UInt16)
  | label (id : LabelId)
  /-- The flag of a `dup`: zero copies one value and one copies two. -/
  | dup (flag : UInt16)
deriving DecidableEq, Repr

/-- A decoded instruction; offsets and sizes count 32-bit words. -/
structure Instruction where
  offset : Nat
  op : Opcode
  firstType : Nat := 0
  secondType : Nat := 0
  /-- The low 16 bits of the instruction word. -/
  extra : UInt16 := 0
  operand : Operand := .none
  size : Nat
deriving DecidableEq, Repr

namespace Instruction

/-- The label a branch goes to. -/
def target? (instruction : Instruction) : Option LabelId :=
  match instruction.operand with
  | .label id => some id
  | _ => none

/-- The `exit` of no size that stands at a label past the end of the code. -/
def filler (offset : Nat) : Instruction :=
  { offset, op := .exit, size := 0 }

/-- A type nibble as a suffix of the mnemonic. -/
def typeSuffix (nibble : Nat) : String :=
  match ValueType.ofNibble? nibble with
  | some type => String.ofList ['.', type.suffix]
  | none => ""

/-- The type suffixes that the operation shows. -/
def suffixes (instruction : Instruction) : String :=
  match instruction.op with
  | .push | .dup => typeSuffix instruction.firstType
  | .pop | .conv => typeSuffix instruction.firstType ++ typeSuffix instruction.secondType
  | _ => ""

/-- The name of the label with a given number; numbers outside the table have none. -/
def labelName (labels : LabelTable) (id : LabelId) : String :=
  ((labels.get? id).map Label.name).getD ""

/-- The text after the mnemonic. -/
def operandText (instruction : Instruction) (labels : LabelTable) (names : Names) : String :=
  match instruction.operand with
  | .none => if instruction.op = .popEnv then " <break>" else ""
  | .constant value => " " ++ value.text
  | .var ref =>
    let owner := if ref.owner = 0 then "[stack]" else names.instanceName ref.owner.toInt
    " " ++ owner ++ "." ++ ref.name ++ if ref.array then "[]" else ""
  | .call name argc => " " ++ name ++ "(argc=" ++ toString argc.toNat ++ ")"
  | .label id => " " ++ labelName labels id
  | .dup flag => " " ++ toString flag.toNat

/-- One line of a listing, such as `push.v self.x` or `bt L12`. -/
def text (instruction : Instruction) (labels : LabelTable) (names : Names) : String :=
  instruction.op.mnemonic ++ instruction.suffixes ++ instruction.operandText labels names

end Instruction

end Decompiler.Bytecode
