import Decompiler.Peephole.CountedLoop
import Decompiler.Peephole.Join
import Decompiler.Peephole.ShortCircuit
import Decompiler.Peephole.SwitchDispatch
import Decompiler.Peephole.Ternary
import Decompiler.Peephole.WithScope

/-!
# Rules

The nine rules, and the two lists in which they are run: one on stack operations, for the idioms
that carry values on the stack from block to block, and one on simulated blocks.
-/

namespace Decompiler

/-- A rule that edits the blocks around a head. -/
inductive Rule where
  | countedLoop
  | switchDispatch
  | withScope
  | shortCircuit
  | ternary
  | join
  /-- Folds negations. -/
  | logicNot
  /-- Makes a call statement of a call whose value is dropped. -/
  | popz
  /-- Deletes a block that nothing names. -/
  | deadBlocks
deriving DecidableEq, Repr

namespace Rule

/-- Every rule. -/
def all : List Rule :=
  [.countedLoop, .switchDispatch, .withScope, .shortCircuit, .ternary, .join, .logicNot, .popz,
    .deadBlocks]

/-- The name of a rule. -/
def name : Rule → String
  | .countedLoop => "counted_loop"
  | .switchDispatch => "switch_dispatch"
  | .withScope => "with_scope"
  | .shortCircuit => "short_circuit"
  | .ternary => "ternary"
  | .join => "join"
  | .logicNot => "logic_not"
  | .popz => "popz"
  | .deadBlocks => "dead_blocks"

/-- Folds negations in the head. -/
def logicNotEdit? (site : Site) : Option Edit :=
  if Stmt.hasFoldableNot site.head.body then
    some { head := some { site.head with body := Stmt.simplifyNotList site.head.body } }
  else none

/-- Makes call statements of the dropped calls in the head. -/
def popzEdit? (site : Site) : Option Edit :=
  if Stmt.countList Stmt.isDroppedCall site.head.body = 0 then none
  else some { head := some { site.head with body := Stmt.promoteCallsList site.head.body } }

/-- Deletes the head when nothing names it.  The first block is where the unit is entered, and it
stays.  A block that held more than a jump is reported. -/
def deadBlocksEdit? (site : Site) (context : Context) : Option Edit × Context :=
  match site.head.entryLabel? with
  | none => (none, context)
  | some label =>
    if site.pos = 0 ∨ site.refcount label ≠ 0 then (none, context)
    else if 2 < site.head.body.length then
      (some {}, context.report .warning
        ("removed unreachable block " ++ context.labels.name label) site.head.body[1]?)
    else (some {}, context)

/-- The edit a rule asks for at a site.  A rule may mint labels and report messages. -/
def edit? (rule : Rule) (site : Site) (context : Context) : Option Edit × Context :=
  match rule with
  | .countedLoop => CountedLoop.edit? site context
  | .switchDispatch => SwitchDispatch.edit? site context
  | .withScope => (WithScope.edit? site, context)
  | .shortCircuit => (ShortCircuit.edit? site, context)
  | .ternary => (Ternary.edit? site, context)
  | .join => (Join.edit? site, context)
  | .logicNot => (logicNotEdit? site, context)
  | .popz => (popzEdit? site, context)
  | .deadBlocks => deadBlocksEdit? site context

/-- The rules for blocks of stack operations. -/
def forStackOps : List Rule :=
  [.countedLoop, .switchDispatch, .deadBlocks]

/-- The rules for simulated blocks. -/
def forExprs : List Rule :=
  [.withScope, .shortCircuit, .ternary, .join, .logicNot, .popz, .deadBlocks]

end Rule

end Decompiler
