import Decompiler.Peephole.Site

/-!
# Counted loops

A counted loop keeps its counter on the stack:

```text
head:  <count> dup 0; push 0; sle; bt exit; b body
tail:  push step; sub; dup 0; bt body; b exit
exit:  popz; ...
```

The edit keeps the counter in a new temporary, which a new block in front of the body tests.
-/

namespace Decompiler.CountedLoop

open Bytecode

/-- The end of a loop's head. -/
structure Head where
  exit : LabelId
  body : LabelId
  offset : Nat

/-- Recognises the end of a loop's head. -/
def head? (block : BasicBlock) : Option Head :=
  match block.tail? 5 with
  | some [.raw _ (.dup flag), .raw _ (.push zero), .raw _ (.binary .le),
      .raw offset (.branchTrue exit), .goto body] =>
    if flag = 0 ∧ zero.integer? = some 0 ∧ exit ≠ body then some { exit, body, offset } else none
  | _ => none

/-- The end of a loop's tail: what is subtracted from the counter, and where. -/
structure Tail where
  step : Constant
  offset : Nat

/-- Recognises the end of a tail that goes back to the body or on to the exit. -/
def tail? (head : Head) (block : BasicBlock) : Option Tail :=
  match block.tail? 5 with
  | some [.raw offset (.push step), .raw _ (.binary .sub), .raw _ (.dup flag),
      .raw _ (.branchTrue back), .goto out] =>
    if flag = 0 ∧ back = head.body ∧ out = head.exit then some { step, offset } else none
  | _ => none

/-- The first block that ends as a tail, and its position. -/
def findTail? (head : Head) (blocks : List BasicBlock) : Option (Nat × BasicBlock × Tail) :=
  blocks.zipIdx.findSome? fun (block, i) => (tail? head block).map (i, block, ·)

/-- The new block that tests the counter before each round. -/
def testBlock (head : Head) (counter : String) (label : LabelId) : BasicBlock :=
  { body :=
      [.label label,
        .raw head.offset (.pushTemporary counter),
        .raw head.offset (.push (.int 0)),
        .raw head.offset (.binary .le),
        .raw head.offset (.branchTrue head.exit),
        .goto head.body] }

/-- The new end of the head: the counter goes into the temporary. -/
def headEnd (head : Head) (counter : String) (label : LabelId) : List Stmt :=
  [.raw head.offset (.popTemporary counter), .goto label]

/-- The new tail: the temporary is counted down. -/
def tailBlock (block : BasicBlock) (tail : Tail) (counter : String) (label : LabelId) :
    BasicBlock :=
  { block with
    body := block.body.take (block.body.length - 5) ++
      [.raw tail.offset (.pushTemporary counter),
        .raw tail.offset (.push tail.step),
        .raw tail.offset (.binary .sub),
        .raw tail.offset (.popTemporary counter),
        .goto label] }

/-- The parts of a loop whose head is the head of the site. -/
structure Match where
  head : Head
  tailBlock : BasicBlock
  tail : Tail
  exitBlock : BasicBlock

/-- Finds the parts of a loop. -/
def match? (site : Site) : Option Match := do
  let head ← head? site.head
  let (tailAt, tailBlock, tail) ← findTail? head site.blocks
  let exitAt ← site.map.position? head.exit
  let exitBlock ← site.blocks[exitAt]?
  if tailAt = site.pos ∨ exitAt = site.pos ∨ exitAt = tailAt ∨ !startsWithPopz exitBlock then none
  else return { head, tailBlock, tail, exitBlock }

/-- The stem of the labels of counter tests. -/
def stem : String := "Repeat"

/-- Keeps the counter of a loop in a temporary. -/
def edit? (site : Site) (context : Context) : Option Edit × Context :=
  match match? site with
  | none => (none, context)
  | some found =>
    let (n, labels) := context.labels.nextIndex stem
    let counter := "repeat_" ++ toString n
    let (label, labels) := labels.named (stem ++ "_" ++ toString n)
    (some
      { head := some (site.headWith 5 (headEnd found.head counter label))
        insert := [testBlock found.head counter label]
        replace :=
          [tailBlock found.tailBlock found.tail counter label, withoutFirst found.exitBlock] },
      { context with labels })

end Decompiler.CountedLoop
