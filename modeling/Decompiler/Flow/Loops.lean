import Decompiler.Flow.Recovery
import Decompiler.Order
import Decompiler.Peephole.Site

/-!
# Loops and scopes

Recovers loops and scopes from a list of basic blocks.  The dominator tree is walked level by level,
so that the widest loop is found first.  A header that is nothing but a test with one side in the
loop becomes the test of the loop; any other header becomes the start of an endless loop, whose
exits stay jumps.
-/

namespace Decompiler

/-- The block list of a unit, entered at its first block. -/
def blockOfBasicBlocks (blocks : List BasicBlock) : Block :=
  { entry := blocks.head?.bind BasicBlockOf.entryLabel?, body := blocks.map Stmt.basic }

namespace Loops

/-- What is left of a region, and the items that were placed. -/
structure Progress where
  region : Region
  placed : List (Nat × Stmt) := []

/-- The test of a loop that starts with one: the condition to go on, where the body is entered, and
where control goes after the loop. -/
structure Test where
  condition : Expr
  enter : LabelId
  exit : LabelId

/-- The test of a header with exactly one side in the loop. -/
def test? (layout : Layout) (content : Region) (header : BasicBlock) : Option Test := do
  let (test, target, other) ← singleBranch? header
  let inside label := (layout.flow.itemOf? label).any content.mem
  match inside target, inside other with
  | true, false => some ⟨test, target, other⟩
  | false, true => some ⟨test.negate, other, target⟩
  | _, _ => none

/-- What the header dominates in a region, apart from what comes after the loop. -/
def pulled (layout : Layout) (region : Region) (head : Nat) (exit : LabelId) : Region :=
  match layout.flow.nodeOf? exit with
  | none => .empty
  | some post =>
    let after := layout.dominated region post
    region.filter fun item =>
      !after.mem item && layout.tree.dominates head (FlowNode.item item).index

/-- A scope that starts at the end of a block: its instances, the block that ends a round, the body,
and what comes after the scope. -/
structure ScopeParts where
  env : Expr
  skip : LabelId
  pop : Nat
  enter : LabelId
  body : Nat
  after : LabelId

/-- The start of a scope at the end of a block. -/
def scopeStart? (block : BasicBlock) : Option (Expr × LabelId × LabelId) :=
  match block.tail? 2 with
  | some [.pushEnv env skip, .goto enter] => some (env, skip, enter)
  | _ => none

/-- The parts of a scope whose head is `item`. -/
def scopeParts? (layout : Layout) (region : Region) (item : Nat) (env : Expr)
    (skip enter : LabelId) : Recovery (Option ScopeParts) := do
  match layout.flow.itemOf? skip, layout.flow.itemOf? enter with
  | some pop, some body =>
    if pop = item ∨ body = item ∨ pop = body ∨ !region.mem pop ∨ !region.mem body then return none
    else
      match (← Recovery.basicBlock? pop).map BasicBlockOf.body with
      | some [.label _, .popEnv back, .goto after] =>
        if back = enter then return some { env, skip, pop, enter, body, after } else return none
      | _ => return none
  | _, _ => return none

/-- Puts the recovered scope at the end of its head. -/
def closeScope (item : Nat) (parts : ScopeParts) (body : List Stmt) : Recovery Unit := do
  match ← Recovery.basicBlock? item with
  | some head =>
    let kept := head.body.take (head.body.length - 2)
    let scope := Stmt.scope parts.env { entry := some parts.enter, body } (some parts.skip)
    Recovery.setSlot item (.basic { head with body := kept ++ [scope, .goto parts.after] })
  | none => return ()

/-- Takes the header of a loop with a test, and makes the loop of it. -/
def testedLoop (item : Nat) (test : Test) (body : List Stmt) : Recovery Stmt := do
  match ← Recovery.take item with
  | .basic header =>
    let loop := Stmt.loop (some test.condition) { entry := some test.enter, body }
    return .basic { header with body := header.body.take 1 ++ [loop, .goto test.exit] }
  | _ => Recovery.broken .headerNotBasicBlock

/-- The stem of the labels of endless loops. -/
def stem : String := "Loop"

/-- Makes an endless loop that starts at a label. -/
def endlessLoop (head : LabelId) (body : List Stmt) : Recovery Stmt := do
  let label ← Recovery.fresh stem
  return .basic { body := [.label label, .loop none { entry := some head, body }] }

/-- What a region holds once its loops are found, in list order. -/
def inListOrder (placed : List (Nat × Stmt)) : List Stmt :=
  (stableSort (fun a b => decide (a.1 < b.1)) placed).map Prod.snd

/-- How the items of a body are recovered: from the region, the node at which it is entered, and
whether the loop of that node is left out. -/
abbrev Inner := Region → Nat → Bool → Recovery (List Stmt)

/-- Recovers the loop whose header is `item`. -/
def recoverLoop (inner : Inner) (layout : Layout) (progress : Progress) (item : Nat) :
    Recovery Progress := do
  let head := (FlowNode.item item).index
  let content := layout.loopContent progress.region head
  let header ← Recovery.basicBlock? item
  match header.bind (test? layout content) with
  | some test =>
    let content ← Recovery.remove content item
    let region ← Recovery.remove progress.region item
    let content := content.union (pulled layout region head test.exit)
    let region ← Recovery.claimAll region content
    let body ← inner content head false
    let loop ← testedLoop item test body
    return { region, placed := progress.placed ++ [(item, loop)] }
  | none =>
    match header.bind BasicBlockOf.entryLabel? with
    | none => Recovery.broken (.block .noLabel)
    | some label =>
      let region ← Recovery.claimAll progress.region content
      let body ← inner content head true
      let loop ← endlessLoop label body
      return { region, placed := progress.placed ++ [(item, loop)] }

/-- Recovers the scope that starts at the end of `item`, over all that its body's entry dominates.
A start without the matching end is reported. -/
def recoverScope (inner : Inner) (layout : Layout) (region : Region) (item : Nat) :
    Recovery Region := do
  match (← Recovery.basicBlock? item).bind scopeStart? with
  | none => return region
  | some (env, skip, enter) =>
    match ← scopeParts? layout region item env skip enter with
    | none =>
      Recovery.reportError "unexpected skip block for with statement" (.pushEnv env skip)
      return region
    | some parts =>
      let bodyNode := (FlowNode.item parts.body).index
      let content := (layout.dominated region bodyNode).erase parts.pop
      let region ← Recovery.claimAll region content
      let region ← Recovery.remove region parts.pop
      let _ ← Recovery.take parts.pop
      let body ← inner content bodyNode false
      closeScope item parts body
      return region

/-- Recovers the scope and the loop at one node, if it is an item that is still to be claimed. -/
def recoverAt (inner : Inner) (layout : Layout) (withoutLoop : Nat → Bool) (progress : Progress)
    (node : Nat) : Recovery Progress :=
  match FlowNode.ofIndex node with
  | .item item =>
    if progress.region.mem item then do
      let region ← recoverScope inner layout progress.region item
      if layout.tree.inFrontier node node && !withoutLoop node then
        recoverLoop inner layout { progress with region } item
      else return { progress with region }
    else return progress
  | _ => return progress

/-- Recovers the loops and scopes of a region that is entered at `entry`.  The loop of the entry
itself is left out on demand, since it is the one being recovered.  Every other step down works on
fewer items, so that `fuel` of twice their number is enough. -/
def recover (layout : Layout) : Nat → Inner
  | 0, region, _, _ => return inListOrder (← Recovery.drain region)
  | fuel + 1, region, entry, excludeEntry => do
    let withoutLoop node := node == entry && excludeEntry
    let progress ← (layout.tree.breadthFirst entry).foldlM
      (recoverAt (recover layout fuel) layout withoutLoop) { region }
    return inListOrder (progress.placed ++ (← Recovery.drain progress.region))

end Loops

/-- Recovers the loops and scopes of a list of basic blocks. -/
def findLoops (block : Block) (context : Context) : Except Error Block × Context :=
  let layout := Layout.ofBlock block
  let recovery := Loops.recover layout (2 * block.body.length + 2) layout.fullRegion
    layout.flow.first.index false
  let (result, context) := recovery.run block.body context
  (result.map fun body => { block with body }, context)

end Decompiler
