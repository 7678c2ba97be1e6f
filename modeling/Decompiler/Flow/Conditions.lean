import Decompiler.Flow.Recovery
import Decompiler.Order
import Decompiler.Peephole.Site

/-!
# Conditions and switches

Turns two-way branches into conditions and dispatches into switches.  The dominator tree is walked
depth first.  An arm takes the blocks that its target dominates only when the target is entered from
exactly one place; whatever is shared stays behind, and the arm is a jump there.
-/

namespace Decompiler

namespace Conditions

/-- How the items of an arm are recovered: from the region and the node at which it is entered. -/
abbrev Inner := Region → Nat → Recovery (List Stmt)

/-- Takes a basic block out of its slot. -/
def takeBlock (item : Nat) : Recovery BasicBlock := do
  match ← Recovery.take item with
  | .basic block => return block
  | _ => Recovery.broken (.notBasicBlock item)

/-- Takes the block at `item` without its last two statements. -/
def openBlock (region : Region) (item : Nat) : Recovery (BasicBlock × Region) := do
  let region ← Recovery.remove region item
  let block ← takeBlock item
  return ({ block with body := block.body.take (block.body.length - 2) }, region)

/-- Claims what a node dominates and recovers it. -/
def claimDominated (inner : Inner) (layout : Layout) (region : Region) (node : Nat) :
    Recovery (List Stmt × Region) := do
  let content := layout.dominated region node
  let region ← Recovery.claimAll region content
  return (← inner content node, region)

/-- The code under one side of a branch.  It is empty, and so just the jump there, when its target
can also be reached from elsewhere. -/
def arm (inner : Inner) (layout : Layout) (region : Region) (label : LabelId) :
    Recovery (Block × Region) := do
  match layout.flow.nodeOf? label with
  | none => return ({ entry := some label }, region)
  | some node =>
    if layout.enteringEdges node = 1 then
      let (body, region) ← claimDominated inner layout region node
      return ({ entry := some label, body }, region)
    else return ({ entry := some label }, region)

/-- Recovers the branch at the end of `item`, if it has one. -/
def recoverCondition (inner : Inner) (layout : Layout) (region : Region) (item : Nat) :
    Recovery (Option (Stmt × Region)) := do
  match (← Recovery.basicBlock? item).bind finalBranch? with
  | none => return none
  | some (test, target, other) =>
    let (block, region) ← openBlock region item
    let (thenBlock, region) ← arm inner layout region target
    let (elseBlock, region) ← arm inner layout region other
    return some
      (.basic { block with body := block.body ++ [.cond test thenBlock elseBlock] }, region)

/-! ### Switches -/

/-- A dispatch at the end of a block: the value, the cases, and where control goes when none fits.
-/
structure Dispatch where
  value : Expr
  cases : List (Expr × LabelId)
  fall : LabelId

/-- The dispatch at the end of a block. -/
def dispatch? (block : BasicBlock) : Option Dispatch :=
  match block.tail? 2 with
  | some [.dispatch value cases _, .goto fall] => some { value, cases, fall }
  | _ => none

/-- The nodes where several targets of a dispatch meet, which no case can own. -/
def joins (layout : Layout) (dispatch : Dispatch) : List Nat :=
  let targets := (dispatch.cases.map Prod.snd ++ [dispatch.fall]).filterMap layout.flow.nodeOf?
  targets.flatMap fun node => (layout.tree.frontier node).filter (· != node)

/-- The node of a label that is no meeting point. -/
def ownNode? (layout : Layout) (joins : List Nat) (label : LabelId) : Option Nat :=
  (layout.flow.nodeOf? label).filter fun node => !joins.contains node

/-- The stem of the labels in front of the `break` at the end of a case. -/
def stem : String := "SwitchBreak"

/-- The block that ends a case. -/
def caseEnd : Recovery Stmt := do
  let label ← Recovery.fresh stem
  return .basic { body := [.label label, .breakOut] }

/-- The targets of a dispatch, each with all of its values, in the order in which they first occur.
-/
def groups : List (Expr × LabelId) → List (LabelId × List Expr) → List (LabelId × List Expr)
  | [], found => found
  | (value, label) :: rest, found =>
    if (found.lookup label).isSome then
      groups rest <| found.map fun (l, values) =>
        (l, if l = label then values ++ [value] else values)
    else groups rest (found ++ [(label, [value])])

/-- Recovers one case.  A case whose target is a meeting point is a jump there. -/
def recoverCase (inner : Inner) (layout : Layout) (joins : List Nat)
    (progress : List SwitchCase × Region) (group : LabelId × List Expr) :
    Recovery (List SwitchCase × Region) := do
  let (cases, region) := progress
  match ownNode? layout joins group.1 with
  | none => return (cases ++ [{ values := group.2, body := { entry := some group.1 } }], region)
  | some node =>
    let (body, region) ← claimDominated inner layout region node
    let body := body ++ [← caseEnd]
    return (cases ++ [{ values := group.2, body := { entry := some group.1, body } }], region)

/-- Recovers the default case, if the target for all other values is its own. -/
def recoverDefault (inner : Inner) (layout : Layout) (joins : List Nat) (region : Region)
    (fall : LabelId) : Recovery (Option (SwitchCase × Region)) := do
  match ownNode? layout joins fall with
  | none => return none
  | some node =>
    if (layout.dominated region node).isEmpty then return none
    else
      let (body, region) ← claimDominated inner layout region node
      let body := body ++ [← caseEnd]
      return some ({ isDefault := true, body := { entry := some fall, body } }, region)

/-- Whether one value comes before another in a switch; only constants are ordered. -/
def valueBefore (a b : Expr) : Bool :=
  match a.constant?, b.constant? with
  | some a, some b => a.caseOrder b == .lt
  | _, _ => false

/-- Whether one case comes before another: by the first of its values. -/
def caseBefore (a b : SwitchCase) : Bool :=
  match a.values.head?, b.values.head? with
  | some a, some b => valueBefore a b
  | _, _ => false

/-- Orders the values of each case, and the cases by their first values.  Cases are left as they are
when a value is not a constant. -/
def sortCases (cases : List SwitchCase) : List SwitchCase :=
  if (cases.flatMap CaseOf.values).all fun value => value.constant?.isSome then
    stableSort caseBefore
      (cases.map fun c => { c with values := stableSort valueBefore c.values })
  else cases

/-- Recovers the dispatch at the end of `item`, if it has one. -/
def recoverSwitch (inner : Inner) (layout : Layout) (region : Region) (item : Nat) :
    Recovery (Option (Stmt × Region)) := do
  match (← Recovery.basicBlock? item).bind dispatch? with
  | none => return none
  | some dispatch =>
    let (block, region) ← openBlock region item
    let joins := joins layout dispatch
    let (cases, region) ←
      (groups dispatch.cases []).foldlM (recoverCase inner layout joins) ([], region)
    let cases := sortCases cases
    match ← recoverDefault inner layout joins region dispatch.fall with
    | some (default, region) =>
      let switch := Stmt.switch dispatch.value (cases ++ [default])
      return some (.basic { block with body := block.body ++ [switch] }, region)
    | none =>
      let switch := Stmt.switch dispatch.value cases
      return some
        (.basic { block with body := block.body ++ [switch, .goto dispatch.fall] }, region)

/-! ### Lists -/

/-- Recovers what is at one node, if it is an item that is still to be claimed. -/
def recoverAt (inner : Inner) (layout : Layout) (progress : List Stmt × Region) (node : Nat) :
    Recovery (List Stmt × Region) := do
  let (placed, region) := progress
  match FlowNode.ofIndex node with
  | .item item =>
    if region.mem item then
      match ← recoverSwitch inner layout region item with
      | some (s, region) => return (placed ++ [s], region)
      | none =>
        match ← recoverCondition inner layout region item with
        | some (s, region) => return (placed ++ [s], region)
        | none =>
          let region ← Recovery.remove region item
          return (placed ++ [← Recovery.take item], region)
    else return progress
  | _ => return progress

/-- Recovers the conditions and switches of a region that is entered at `entry`.  Each step down
works on fewer items, so that `fuel` above their number is enough. -/
def recover (layout : Layout) : Nat → Inner
  | 0, region, _ => return (← Recovery.drain region).map Prod.snd
  | fuel + 1, region, entry => do
    let (placed, region) ← (layout.tree.depthFirst entry).foldlM
      (recoverAt (recover layout fuel) layout) ([], region)
    return placed ++ (← Recovery.drain region).map Prod.snd

/-- Whether a statement is a basic block. -/
def isBasic : Stmt → Bool
  | .basic _ => true
  | _ => false

/-- Recovers the conditions of one list.  A list of plain statements has nothing to recover. -/
def recoverBlock (block : Block) (context : Context) : Except Error Block × Context :=
  if block.body.isEmpty || !block.body.all isBasic then (.ok block, context)
  else
    let layout := Layout.ofBlock block
    let recovery := recover layout (block.body.length + 1) layout.fullRegion
      layout.flow.first.index
    let (result, context) := recovery.run block.body context
    (result.map fun body => { block with body }, context)

/-- A step that mints labels and reports messages, and may fail. -/
abbrev Pass := ExceptT Error (StateM Context)

/-- Recovers the conditions of one list, as a step. -/
def recoverBlockStep (entry : Option LabelId) (body : List Stmt) : Pass Block :=
  fun context => recoverBlock { entry, body } context

mutual

/-- Recovers the conditions of the loops and scopes in an item of a list. -/
def inItem : Stmt → Pass Stmt
  | .basic block => do return .basic { block with body := ← inBasicBlock block.body }
  | s => return s

/-- Recovers the conditions of the loops and scopes in the items of a list. -/
def inItems : List Stmt → Pass (List Stmt)
  | [] => return []
  | item :: rest => do
    let item ← inItem item
    let later ← inItems rest
    return item :: later

/-- Recovers the conditions of a loop or scope. -/
def inLoop : Stmt → Pass Stmt
  | .loop test body => do
    let items ← inItems body.body
    return .loop test (← recoverBlockStep body.entry items)
  | .scope env body stop => do
    let items ← inItems body.body
    return .scope env (← recoverBlockStep body.entry items) stop
  | s => return s

/-- Recovers the conditions of the loops and scopes in the statements of a basic block. -/
def inBasicBlock : List Stmt → Pass (List Stmt)
  | [] => return []
  | s :: rest => do
    let s ← inLoop s
    let later ← inBasicBlock rest
    return s :: later

end

end Conditions

/-- Recovers the conditions and switches of a list of basic blocks, and of the loops and scopes in
it, the inner ones first. -/
def findConditions (block : Block) (context : Context) : Except Error Block × Context :=
  let step : Conditions.Pass Block := do
    let items ← Conditions.inItems block.body
    Conditions.recoverBlockStep block.entry items
  StateT.run (ExceptT.run step) context

end Decompiler
