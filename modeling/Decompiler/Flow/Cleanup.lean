import Decompiler.Flow.Jumps

/-!
# Cleaning up

Drops labels that nothing names, statements that control cannot reach, a `continue` at the end of a
loop, empty `then` branches, and the `exit` at the very end.  `simplify` takes turns between this
and the removal of jumps.
-/

namespace Decompiler

namespace Cleanup

/-- A list without every `continue` at its end. -/
def dropTrailingContinue (body : List Stmt) : List Stmt × Bool :=
  match body.reverse with
  | .continueLoop :: rest =>
    let isContinue : Stmt → Bool
      | .continueLoop => true
      | _ => false
    ((rest.dropWhile isContinue).reverse, true)
  | _ => (body, false)

/-- A condition of which not only the `else` branch has statements: an empty `then` branch changes
places with the other one, and the test is negated. -/
def orient (test : Expr) (thenBlock elseBlock : Block) : Stmt × Bool :=
  if thenBlock.body.isEmpty && !elseBlock.body.isEmpty then
    (.cond test.negate.simplifyNot.1 elseBlock thenBlock, true)
  else (.cond test thenBlock elseBlock, false)

/-- What to do with a statement of a list, `dead` saying whether control cannot reach its place:
keep it, or drop it with the flag for the next place. -/
def reach (named : List LabelId) (dead : Bool) : Stmt → Option Bool
  | .label id => if named.contains id then none else some dead
  | _ => if dead then some true else none

mutual

/-- Cleans up what is nested in a statement; `named` are the labels that the unit names. -/
def inStmt (named : List LabelId) : Stmt → Stmt × Bool
  | .cond test thenBlock elseBlock =>
    let (thenBody, changedThen) := inList named false thenBlock.body
    let (elseBody, changedElse) := inList named false elseBlock.body
    let (s, turned) := orient test ⟨thenBlock.entry, thenBody⟩ ⟨elseBlock.entry, elseBody⟩
    (s, changedThen || changedElse || turned)
  | .loop test block =>
    let (body, changed) := inList named false block.body
    let (body, dropped) := dropTrailingContinue body
    (.loop test ⟨block.entry, body⟩, changed || dropped)
  | .scope env block stop =>
    let (body, changed) := inList named false block.body
    let (body, dropped) := if stop.isSome then dropTrailingContinue body else (body, false)
    (.scope env ⟨block.entry, body⟩ stop, changed || dropped)
  | .switch value cases =>
    let (cases, changed) := inCases named cases
    (.switch value cases, changed)
  | .seq block =>
    let (body, changed) := inList named false block.body
    (.seq ⟨block.entry, body⟩, changed)
  | s => (s, false)

/-- Cleans up a list; `dead` says whether control cannot reach its start. -/
def inList (named : List LabelId) (dead : Bool) : List Stmt → List Stmt × Bool
  | [] => ([], false)
  | s :: rest =>
    match reach named dead s with
    | some dead => ((inList named dead rest).1, true)
    | none =>
      let (head, changedHead) := inStmt named s
      let (rest, changedRest) := inList named s.isUnconditional rest
      (head :: rest, changedHead || changedRest)

/-- Cleans up the cases of a switch. -/
def inCases (named : List LabelId) : List SwitchCase → List SwitchCase × Bool
  | [] => ([], false)
  | c :: rest =>
    let (body, changedHead) := inList named false c.body.body
    let (rest, changedRest) := inCases named rest
    (⟨c.values, c.isDefault, ⟨c.body.entry, body⟩⟩ :: rest, changedHead || changedRest)

end

/-- A list without the `exit` at its end. -/
def dropFinalExit (body : List Stmt) : List Stmt × Bool :=
  match body.getLast? with
  | some .exit => (body.dropLast, true)
  | _ => (body, false)

end Cleanup

/-- Drops what is redundant in a unit.  The flag says whether anything changed. -/
def removeRedundantCode (block : Block) : Block × Bool :=
  let (body, changed) := Cleanup.inList (Stmt.targetsOfList block.body) false block.body
  let (body, dropped) := Cleanup.dropFinalExit body
  ({ block with body }, changed || dropped)

/-- Cleans up a unit: two rounds of removing jumps, with what is redundant dropped before, between
and after them. -/
def simplify (block : Block) : Block :=
  let block := (removeRedundantCode block).1
  let block := (removeGotos block).1
  let block := (removeRedundantCode block).1
  let block := (removeGotos block).1
  (removeRedundantCode block).1

end Decompiler
