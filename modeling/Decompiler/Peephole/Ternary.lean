import Decompiler.Peephole.Site

/-!
# Conditional values

A branch whose two arms each push one value and meet again.  When one of the values is a literal
zero or one, the value is a logical expression.  It goes straight into the test of the meeting block
when that block only branches on it, and is pushed at the end of the head otherwise.
-/

namespace Decompiler.Ternary

/-- The value an arm pushes and where it goes on: a block that is named once, is entered with an
empty stack and does nothing else. -/
def arm? (site : Site) (label : LabelId) : Option (Expr × LabelId) := do
  if site.refcount label ≠ 1 then none
  let block ← site.other? label
  if block.entryDepth ≠ 0 then none
  match block.body with
  | [.label _, .push value, .goto fall] => some (value, fall)
  | _ => none

/-- The value `onTrue` where the test holds and `onFalse` where it fails, as a logical expression.
-/
def fold? (test onTrue onFalse : Expr) : Option Expr :=
  Expr.leftAssociate <$>
    if onTrue.isLiteral 1 then some (.binary .or test onFalse)
    else if onTrue.isLiteral 0 then some (.binary .and test.negate onFalse)
    else if onFalse.isLiteral 1 then some (.binary .or test.negate onTrue)
    else if onFalse.isLiteral 0 then some (.binary .and test onTrue)
    else none

/-- The branch of a meeting block that is entered by the two arms alone, with their value. -/
def meeting? (site : Site) (label : LabelId) : Option (Expr × LabelId × LabelId) := do
  let block ← site.other? label
  if block.entryDepth ≠ 1 ∨ site.refcount label ≠ 2 then none
  singleBranch? block

/-- Replaces a branch with two arms by their value. -/
def edit? (site : Site) : Option Edit := do
  let (test, t, f) ← finalBranch? site.head
  if t = f then none
  let (onTrue, fall) ← arm? site t
  let (onFalse, fall') ← arm? site f
  if fall ≠ fall' ∨ fall = t ∨ fall = f then none
  let value ← fold? test onTrue onFalse
  match meeting? site fall with
  | some (next, target, other) =>
    return { head := some (site.headWith 2
               [.condGoto (next.substitute [value]) target, .goto other])
             remove := [t, f, fall] }
  | none =>
    return { head := some (site.headWith 2 [.push value, .goto fall])
             remove := [t, f] }

end Decompiler.Ternary
