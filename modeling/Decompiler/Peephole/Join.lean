import Decompiler.Peephole.Site
import Decompiler.Syntax.MapExprs

/-!
# Joining blocks

A head that only jumps on takes in the block it jumps to, when nothing else goes there.  The values
that the head leaves on the stack take the place of the incoming values of that block.
-/

namespace Decompiler.Join

/-- The values of a list of `push` statements. -/
def pushedValues? : List Stmt → Option (List Expr)
  | [] => some []
  | .push value :: rest => (value :: ·) <$> pushedValues? rest
  | _ => none

/-- The head and the block after it in one; `none` when the head does not push what the block
expects. -/
def joined? (head next : BasicBlock) : Option BasicBlock := do
  let jumpAt := head.body.length - 1
  if jumpAt < next.entryDepth + 1 then none
  let keep := jumpAt - next.entryDepth
  let values ← pushedValues? ((head.body.take jumpAt).drop keep)
  return { head with
           body := head.body.take keep ++ (next.body.drop 1).map (Stmt.substitute values) }

/-- Takes in the block that the head jumps to. -/
def edit? (site : Site) : Option Edit := do
  let next ← site.head.gotoTarget?
  if site.refcount next ≠ 1 ∨ site.head.body.any Stmt.isConditional then none
  let nextAt ← site.map.position? next
  if nextAt = site.pos ∨ nextAt = 0 then none
  let nextBlock ← site.blocks[nextAt]?
  let head ← joined? site.head nextBlock
  return { head := some head, remove := [next] }

end Decompiler.Join
