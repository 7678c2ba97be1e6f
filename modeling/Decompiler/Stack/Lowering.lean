import Decompiler.Error

/-!
# From instructions to statements

Each instruction becomes at most one statement, and a label stands before every instruction that a
branch goes to.  Plain jumps and exits are statements already; conversions, fillers, traps and the
`popenv` that breaks out of a scope leave nothing behind; all else is a stack operation.
-/

namespace Decompiler

open Bytecode

namespace Lowering

/-- The fault of an instruction with an operand that its operation does not take. -/
def malformed {α : Type} (instruction : Instruction) : Except Error α :=
  .error (.invariant (.operand instruction.op instruction.offset))

/-- The target of a branch. -/
def target (instruction : Instruction) : Except Error LabelId :=
  match instruction.target? with
  | some id => .ok id
  | none => malformed instruction

/-- The stack operation of an instruction, for all operations that have one. -/
def stackOp (instruction : Instruction) : Except Error StackOp :=
  match instruction.op, instruction.operand with
  | .push, .constant value => .ok (.push value)
  | .push, .var ref => .ok (.pushVar ref)
  | .pop, .var ref => .ok (.pop ref (instruction.firstType == ValueType.int.nibble))
  | .dup, _ => .ok (.dup instruction.extra)
  | .call, .call name argc => .ok (.call name argc)
  | .popz, _ => .ok .popz
  | .ret, _ => .ok .ret
  | .bt, _ => .branchTrue <$> target instruction
  | .bf, _ => .branchFalse <$> target instruction
  | .pushEnv, _ => .pushEnv <$> target instruction
  | .popEnv, _ => .popEnv <$> target instruction
  | op, _ =>
    match UnaryOp.ofOpcode? op, BinaryOp.ofOpcode? op with
    | some op, _ => .ok (.unary op)
    | none, some op => .ok (.binary op)
    | none, none => malformed instruction

/-- The statement of an instruction, if it leaves one. -/
def stmt? (instruction : Instruction) : Except Error (Option Stmt) :=
  match instruction.op with
  | .badOp | .conv | .trap => .ok none
  | .exit => .ok (some .exit)
  | .b => (fun id => some (.goto id)) <$> target instruction
  | .popEnv =>
    match instruction.target? with
    | some back => .ok (some (.raw instruction.offset (.popEnv back)))
    | none => .ok none
  | _ => (fun op => some (.raw instruction.offset op)) <$> stackOp instruction

/-- The label of an instruction, if it has one, and its statement. -/
def stmts (labels : LabelTable) (instruction : Instruction) : Except Error (List Stmt) := do
  let stmt ← stmt? instruction
  let label := (labels.at? instruction.offset).map Stmt.label
  return label.toList ++ stmt.toList

end Lowering

/-- The statements of decoded code. -/
def lower (code : Code) : Except Error (List Stmt) :=
  List.flatten <$> code.instructions.mapM (Lowering.stmts code.labels)

end Decompiler
