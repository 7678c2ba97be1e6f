import Decompiler.Peephole.Site

/-!
# Scopes with a straight body

```text
head:  ... pushenv(env, skip: pop); goto body
body:  <statements>; goto pop
pop:   popenv(back: body); goto after
```

The edit makes one statement of such a scope.  A body that branches is left to the recovery of
loops.
-/

namespace Decompiler.WithScope

/-- Statements that the body may hold. -/
def isStraight : Stmt → Bool
  | .assign _ _ | .call _ _ | .discard _ | .scope _ _ _ => true
  | _ => false

/-- The start of a scope at the end of a block: the instances, where to go when there are none, and
the body. -/
def enter? (block : BasicBlock) : Option (Expr × LabelId × LabelId) :=
  match block.tail? 2 with
  | some [.pushEnv env skip, .goto body] => some (env, skip, body)
  | _ => none

/-- The end of a scope: where the next round starts, and what comes after the last. -/
def leave? (block : BasicBlock) : Option (LabelId × LabelId) :=
  match block.body with
  | [.label _, .popEnv back, .goto after] => some (back, after)
  | _ => none

/-- The statements of a block between its label and its jump, and the target of the jump. -/
def straight? (block : BasicBlock) : Option (List Stmt × LabelId) :=
  match block.body with
  | .label _ :: rest =>
    match rest.getLast? with
    | some (.goto target) => some (rest.dropLast, target)
    | _ => none
  | _ => none

/-- Makes one statement of a scope with a straight body. -/
def edit? (site : Site) : Option Edit := do
  let (env, skip, body) ← enter? site.head
  if skip = body ∨ site.refcount body ≠ 2 ∨ site.refcount skip ≠ 2 then none
  let (back, after) ← (← site.other? skip) |> leave?
  if back ≠ body then none
  let bodyBlock ← site.other? body
  let (stmts, last) ← straight? bodyBlock
  if last ≠ skip ∨ bodyBlock.entryDepth ≠ 0 ∨ !stmts.all isStraight then none
  return { head := some (site.headWith 2 [.scope env { body := stmts } none, .goto after])
           remove := [body, skip] }

end Decompiler.WithScope
