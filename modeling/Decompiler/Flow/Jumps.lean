import Decompiler.Syntax.Stmt

/-!
# Removing jumps

A jump is dropped when control would come to its target anyway.  It becomes a `break` or a
`continue` when that is where the innermost loop, scope or switch leaves or starts again.
-/

namespace Decompiler

namespace Jumps

/-- Where control goes from a list: to these labels when it runs off the end, leaves, or starts the
next round.  Control comes to all labels of a set alike. -/
structure Flow where
  after : List LabelId := []
  breakTo : Option (List LabelId) := none
  continueTo : Option (List LabelId) := none

/-- The labels that control comes to at the start of a list before any other statement runs. -/
def fallthrough (after : List LabelId) : List Stmt → List LabelId
  | [] => after
  | .label id :: rest => id :: fallthrough after rest
  | .goto target :: _ => [target]
  | _ => []

/-- What becomes of a jump in front of the statements `rest`. -/
def jump (flow : Flow) (target : LabelId) (rest : List Stmt) : List Stmt × Bool :=
  if (fallthrough flow.after rest).contains target then ([], true)
  else if flow.breakTo.any (·.contains target) then ([.breakOut], true)
  else if flow.continueTo.any (·.contains target) then ([.continueLoop], true)
  else ([.goto target], false)

/-- The labels directly before the next statement, given those before this one. -/
def precedingAfter (preceding : List LabelId) : Stmt → List LabelId
  | .label id => id :: preceding
  | _ => []

/-- Where a loop goes back to: the labels directly before it, and for an endless loop also those at
the start of its body. -/
def restart (preceding : List LabelId) (test : Option Expr) (body : List Stmt) : List LabelId :=
  match test with
  | some _ => preceding
  | none => preceding ++ fallthrough [] body

mutual

/-- Removes the jumps nested in a statement.  Control goes on to `follow` after it, and `preceding`
are the labels directly before it.  The flag says whether anything changed. -/
def inStmt (flow : Flow) (follow preceding : List LabelId) : Stmt → Stmt × Bool
  | .cond test thenBlock elseBlock =>
    let inner := { flow with after := follow }
    let (thenBody, changedThen) := inList inner [] thenBlock.body
    let (elseBody, changedElse) := inList inner [] elseBlock.body
    (.cond test ⟨thenBlock.entry, thenBody⟩ ⟨elseBlock.entry, elseBody⟩,
      changedThen || changedElse)
  | .seq block =>
    let (body, changed) := inList { flow with after := follow } [] block.body
    (.seq ⟨block.entry, body⟩, changed)
  | .loop test block =>
    let again := restart preceding test block.body
    let inner := { after := again, breakTo := some follow, continueTo := some again }
    let (body, changed) := inList inner [] block.body
    (.loop test ⟨block.entry, body⟩, changed)
  | .scope env block stop =>
    let inner :=
      { after := stop.toList, breakTo := some follow, continueTo := some stop.toList }
    let (body, changed) := inList inner [] block.body
    (.scope env ⟨block.entry, body⟩ stop, changed)
  | .switch value cases =>
    let inner := { breakTo := some follow, continueTo := flow.continueTo }
    let (cases, changed) := inCases inner cases
    (.switch value cases, changed)
  | s => (s, false)

/-- Removes the jumps of a list and of what is nested in it. -/
def inList (flow : Flow) (preceding : List LabelId) : List Stmt → List Stmt × Bool
  | [] => ([], false)
  | .goto target :: rest =>
    let (head, changedHead) := jump flow target rest
    let (rest, changedRest) := inList flow [] rest
    (head ++ rest, changedHead || changedRest)
  | s :: rest =>
    let (head, changedHead) := inStmt flow (fallthrough flow.after rest) preceding s
    let (rest, changedRest) := inList flow (precedingAfter preceding s) rest
    (head :: rest, changedHead || changedRest)

/-- Removes the jumps of the cases of a switch. -/
def inCases (flow : Flow) : List SwitchCase → List SwitchCase × Bool
  | [] => ([], false)
  | c :: rest =>
    let (body, changedHead) := inList flow [] c.body.body
    let (rest, changedRest) := inCases flow rest
    (⟨c.values, c.isDefault, ⟨c.body.entry, body⟩⟩ :: rest, changedHead || changedRest)

end

end Jumps

/-- Removes the jumps of a unit.  The flag says whether anything changed. -/
def removeGotos (block : Block) : Block × Bool :=
  let (body, changed) := Jumps.inList {} [] block.body
  ({ block with body }, changed)

end Decompiler
