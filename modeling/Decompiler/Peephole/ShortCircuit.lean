import Decompiler.Peephole.Site

/-!
# Short-circuit conditions

Two branches that share a target become one branch on `&&` or `||`.  The second branch has to stand
alone in a block that only the first one enters, with nothing on the stack.
-/

namespace Decompiler.ShortCircuit

/-- A block that does nothing but branch, is named once, and is entered with an empty stack. -/
def inner? (site : Site) (label : LabelId) : Option (Expr × LabelId × LabelId) := do
  if site.refcount label ≠ 1 then none
  let block ← site.other? label
  if block.entryDepth ≠ 0 then none
  singleBranch? block

/-- The condition of the two branches together, when the second test `d` is made where the first
test `c` fails.  The first branch goes to `t`, the second to `t'` or else to `f'`. -/
def fuseElse? (c : Expr) (t : LabelId) (d : Expr) (t' f' : LabelId) : Option Expr :=
  if t = t' then some (.binary .or c d)
  else if t = f' then some (.binary .and c.negate d)
  else none

/-- The condition of the two branches together, when the second test `d` is made where the first
test `c` holds.  The first branch otherwise goes on to `f`, the second goes to `t'` or else to `f'`.
-/
def fuseThen? (c : Expr) (f : LabelId) (d : Expr) (t' f' : LabelId) : Option Expr :=
  if f = f' then some (.binary .and c d)
  else if f = t' then some (.binary .or c.negate d)
  else none

/-- The edit that puts the fused branch at the end of the head. -/
def fusedEdit (site : Site) (test : Expr) (target other inner : LabelId) : Edit :=
  { head := some (site.headWith 2 [.condGoto test.leftAssociate target, .goto other])
    remove := [inner] }

/-- Fuses a branch with the one on the side where its test fails. -/
def editElse? (site : Site) : Option Edit := do
  let (c, t, f) ← finalBranch? site.head
  let (d, t', f') ← inner? site f
  let test ← fuseElse? c t d t' f'
  return fusedEdit site test t' f' f

/-- Fuses a branch with the one on the side where its test holds. -/
def editThen? (site : Site) : Option Edit := do
  let (c, t, f) ← finalBranch? site.head
  let (d, t', f') ← inner? site t
  let test ← fuseThen? c f d t' f'
  return fusedEdit site test t' f' t

/-- Fuses a branch with the one that follows it, if there is one. -/
def edit? (site : Site) : Option Edit :=
  editElse? site <|> editThen? site

end Decompiler.ShortCircuit
