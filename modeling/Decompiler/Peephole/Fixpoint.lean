import Decompiler.Peephole.Rule

/-!
# Running rules to a fixpoint

A sweep tries each rule in turn at every block.  Sweeps go on until one of them changes nothing, or
until there have been as many as allowed.
-/

namespace Decompiler

namespace Fixpoint

/-- Blocks under work, with the names and messages of the unit. -/
structure State where
  blocks : List BasicBlock
  context : Context
  /-- Whether an edit has been made in this sweep. -/
  changed : Bool := false

/-- The outcome of some work: its result or an error, and the state at its end. -/
abbrev Outcome (α : Type) := Except Error α × State

/-- Tries a rule at every block from `pos` on.  An edit resumes behind its new head.  An edit that
makes the list longer uses up the pattern it was made for, so that `fuel` of twice the number of
blocks is enough to reach the end. -/
def tryFrom (rule : Rule) : Nat → BlockMap → Nat → State → Outcome Unit
  | 0, _, _, state => (.ok (), state)
  | fuel + 1, map, pos, state =>
    match state.blocks[pos]? with
    | none => (.ok (), state)
    | some head =>
      match rule.edit? { map, pos, head } state.context with
      | (none, context) => tryFrom rule fuel map (pos + 1) { state with context }
      | (some edit, context) =>
        match edit.apply state.blocks pos with
        | .error error => (.error error, { state with context })
        | .ok (blocks, resume) =>
          tryFrom rule fuel (BlockMap.ofBlocks blocks) resume { blocks, context, changed := true }

/-- Tries a rule at every block. -/
def tryRule (rule : Rule) (state : State) : Outcome Unit :=
  tryFrom rule (2 * state.blocks.length + 1) (BlockMap.ofBlocks state.blocks) 0 state

/-- Tries each of the rules at every block. -/
def sweep : List Rule → State → Outcome Unit
  | [], state => (.ok (), state)
  | rule :: rules, state =>
    match tryRule rule state with
    | (.error error, state) => (.error error, state)
    | (.ok (), state) => sweep rules state

/-- Sweeps until nothing changes, at most `remaining` times; `done` sweeps have been made. -/
def sweeps (rules : List Rule) : Nat → Nat → State → Outcome Nat
  | 0, done, state => (.error (.fixpointExceeded done), state)
  | remaining + 1, done, state =>
    match sweep rules { state with changed := false } with
    | (.error error, state) => (.error error, state)
    | (.ok (), state) =>
      if state.changed then sweeps rules remaining (done + 1) state else (.ok (done + 1), state)

end Fixpoint

/-- Runs rules until a sweep changes nothing.  Gives the number of sweeps, the last and quiet one
included. -/
def runFixpoint (rules : List Rule) (maxSweeps : Nat) (blocks : List BasicBlock)
    (context : Context) : Fixpoint.Outcome Nat :=
  Fixpoint.sweeps rules maxSweeps 0 { blocks, context }

/-- Recognises the idioms that carry values on the stack, before the stack is simulated. -/
def optimizeStackOps (maxSweeps : Nat) (blocks : List BasicBlock) (context : Context) :
    Fixpoint.Outcome Nat :=
  runFixpoint Rule.forStackOps maxSweeps blocks context

/-- Simplifies simulated blocks. -/
def optimizeExprs (maxSweeps : Nat) (blocks : List BasicBlock) (context : Context) :
    Fixpoint.Outcome Nat :=
  runFixpoint Rule.forExprs maxSweeps blocks context

end Decompiler
