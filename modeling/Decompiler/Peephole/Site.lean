import Decompiler.Context
import Decompiler.Peephole.Edit

/-!
# Sites of rules

What a rule sees: the block list, how often each label is named in it, and the block at which the
rule is tried, its head.
-/

namespace Decompiler

/-- A block list together with all labels that it names, one entry for each mention. -/
structure BlockMap where
  blocks : List BasicBlock
  mentions : List LabelId

namespace BlockMap

/-- The map of a block list. -/
def ofBlocks (blocks : List BasicBlock) : BlockMap :=
  ⟨blocks, blocks.flatMap fun block => Stmt.targetsOfList block.body⟩

/-- How often a label is named. -/
def refcount (map : BlockMap) (label : LabelId) : Nat :=
  map.mentions.count label

/-- The position of the block with a given label; of several the last. -/
def position? (map : BlockMap) (label : LabelId) : Option Nat :=
  (map.blocks.zipIdx.reverse.find? fun (block, _) => block.entryLabel? == some label).map Prod.snd

/-- The block with a given label. -/
def block? (map : BlockMap) (label : LabelId) : Option BasicBlock := do
  map.blocks[← map.position? label]?

end BlockMap

/-- A block list and the head at which a rule is tried. -/
structure Site where
  map : BlockMap
  pos : Nat
  head : BasicBlock

namespace Site

/-- The blocks around the head. -/
def blocks (site : Site) : List BasicBlock :=
  site.map.blocks

/-- How often a label is named. -/
def refcount (site : Site) (label : LabelId) : Nat :=
  site.map.refcount label

/-- The block with a given label, unless it is the head. -/
def other? (site : Site) (label : LabelId) : Option BasicBlock := do
  let i ← site.map.position? label
  if i = site.pos then none else site.blocks[i]?

/-- The head with `drop` statements at its end exchanged for others. -/
def headWith (site : Site) (drop : Nat) (stmts : List Stmt) : BasicBlock :=
  { site.head with body := site.head.body.take (site.head.body.length - drop) ++ stmts }

end Site

/-- Whether the statement after the label drops the top of the stack. -/
def startsWithPopz (block : BasicBlock) : Bool :=
  match block.body with
  | _ :: .raw _ .popz :: _ => true
  | _ => false

/-- The block without the statement after its label. -/
def withoutFirst (block : BasicBlock) : BasicBlock :=
  { block with body := block.body.eraseIdx 1 }

/-- The branch of a block that does nothing but branch: its test, the label it jumps to, and the
label it goes on to. -/
def singleBranch? (block : BasicBlock) : Option (Expr × LabelId × LabelId) :=
  match block.body with
  | [.label _, .condGoto test target, .goto other] => some (test, target, other)
  | _ => none

/-- The branch at the end of a block. -/
def finalBranch? (block : BasicBlock) : Option (Expr × LabelId × LabelId) :=
  match block.tail? 2 with
  | some [.condGoto test target, .goto other] => some (test, target, other)
  | _ => none

end Decompiler
