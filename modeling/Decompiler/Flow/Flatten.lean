import Decompiler.Error

/-!
# Flattening

Splices every basic block into the list it stands in.  The label at which a block is entered becomes
a jump at its start, so that the result needs no entries.
-/

namespace Decompiler

namespace Flatten

/-- The jump to the entry of a block. -/
def entryJump (entry : Option LabelId) : List Stmt :=
  entry.toList.map Stmt.goto

mutual

/-- Flattens a statement.  A basic block that is not in a list of blocks becomes a nested list. -/
def stmt : Stmt → Except Error Stmt
  | .cond test thenBlock elseBlock => do
    let thenBody ← items thenBlock.body
    let elseBody ← items elseBlock.body
    return .cond test { body := entryJump thenBlock.entry ++ thenBody }
      { body := entryJump elseBlock.entry ++ elseBody }
  | .loop test block => do
    let body ← items block.body
    return .loop test { body := entryJump block.entry ++ body }
  | .scope env block stop => do
    let body ← items block.body
    return .scope env { body := entryJump block.entry ++ body } stop
  | .switch value list => return .switch value (← cases list)
  | .seq block => do
    let body ← items block.body
    return .seq { body := entryJump block.entry ++ body }
  | .basic block => do
    block.check
    return .seq { body := ← stmts block.body }
  | s => return s

/-- Flattens the statements of a basic block. -/
def stmts : List Stmt → Except Error (List Stmt)
  | [] => return []
  | s :: rest => do
    let s ← stmt s
    let later ← stmts rest
    return s :: later

/-- Flattens the items of a block, splicing its basic blocks. -/
def items : List Stmt → Except Error (List Stmt)
  | [] => return []
  | .basic block :: rest => do
    block.check
    let body ← stmts block.body
    let later ← items rest
    return body ++ later
  | s :: rest => do
    let s ← stmt s
    let later ← items rest
    return s :: later

/-- Flattens the cases of a switch. -/
def cases : List SwitchCase → Except Error (List SwitchCase)
  | [] => return []
  | c :: rest => do
    let body ← items c.body.body
    let later ← cases rest
    return { c with body := { body := entryJump c.body.entry ++ body } } :: later

end

end Flatten

/-- Flattens a block. -/
def flatten (block : Block) : Except Error Block := do
  let body ← Flatten.items block.body
  return { body := Flatten.entryJump block.entry ++ body }

end Decompiler
