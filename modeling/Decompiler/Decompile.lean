import Decompiler.Flow.Cleanup
import Decompiler.Flow.Conditions
import Decompiler.Flow.Flatten
import Decompiler.Flow.Loops
import Decompiler.Peephole.Fixpoint
import Decompiler.Print.Render
import Decompiler.Stack.Lowering
import Decompiler.Stack.Partition
import Decompiler.Stack.Simulation
import Decompiler.Timing

/-!
# Decompiling a unit

`decompile` takes one unit from its bytes to source text.  It always gives text: a unit that fails
is printed as far as it was built, or else as a listing.
-/

namespace Decompiler

open Bytecode

/-- All that comes of one unit. -/
structure UnitResult where
  name : String
  text : String
  diagnostics : Diagnostics
  /-- Outlines of the stages that were passed, if they were asked for. -/
  snapshots : List (Stage × String)
  /-- The phases that were entered, in order. -/
  phases : List Phase
  /-- What ended the unit early, if anything did. -/
  error : Option Error

/-- Whether the unit could not be decompiled. -/
def UnitResult.failed (result : UnitResult) : Bool :=
  result.error.isSome

/-- What a unit gathers on its way. -/
structure UnitState where
  context : Context
  snapshots : List (Stage × String) := []
  phases : List Phase := []

/-- A step of the way.  A step that fails keeps what was gathered before. -/
abbrev UnitStep := ExceptT Error (StateM UnitState)

namespace UnitStep

/-- Enters a phase. -/
def enter (phase : Phase) : UnitStep Unit :=
  modify fun state => { state with phases := state.phases ++ [phase] }

/-- Records the outline of a stage, if outlines are asked for. -/
def record (options : Options) (stage : Stage) (outline : Labels → String) : UnitStep Unit :=
  modify fun state =>
    if options.snapshots then
      { state with snapshots := state.snapshots ++ [(stage, outline state.context.labels)] }
    else state

/-- A step that cannot touch the names and messages. -/
def lift {α : Type} (result : Except Error α) : UnitStep α :=
  MonadExcept.ofExcept result

/-- A step on the names and messages. -/
def onContext {α : Type} (step : Context → Except Error α × Context) : UnitStep α :=
  fun state =>
    let (result, context) := step state.context
    (result, { state with context })

/-- The label names. -/
def labels : UnitStep Labels :=
  return (← get).context.labels

/-- Splits statements into blocks. -/
def split (stmts : List Stmt) : UnitStep (List BasicBlock) :=
  onContext fun context =>
    let (blocks, labels) := checkedPartition context.labels stmts
    (blocks, { context with labels })

/-- Runs rules to a fixpoint. -/
def optimize (rules : Nat → List BasicBlock → Context → Fixpoint.Outcome Nat) (options : Options)
    (blocks : List BasicBlock) : UnitStep (List BasicBlock) :=
  onContext fun context =>
    let (result, state) := rules options.maxSweeps blocks context
    (result.map fun _ => state.blocks, state.context)

end UnitStep

open UnitStep in
/-- The way of a unit from its bytes to its final tree. -/
def recoverTree (names : Names) (options : Options) (bytes : List UInt8) : UnitStep Block := do
  enter .decode
  let code ← lift ((Bytecode.decode names bytes).mapError Error.decode)
  onContext fun context => (.ok (), { context with labels := .ofTable code.labels })
  enter .lift
  let stmts ← lift (lower code)
  record options .raw (outlineStmts · stmts)
  enter .lift
  let blocks ← split stmts
  record options .blocks (outlineBlocks · blocks)
  enter .optimize
  let blocks ← optimize optimizeStackOps options blocks
  record options .idioms (outlineBlocks · blocks)
  enter .lift
  let blocks ← lift (simulate names (← labels) blocks)
  record options .expressions (outlineBlocks · blocks)
  enter .optimize
  let blocks ← optimize optimizeExprs options blocks
  record options .optimized (outlineBlocks · blocks)
  enter .structuring
  let tree ← onContext (findLoops (blockOfBasicBlocks blocks))
  record options .loops (outline · tree)
  enter .structuring
  let tree ← onContext (findConditions tree)
  let tree ← lift (flatten tree)
  record options .flattened (outline · tree)
  enter .gotos
  let tree := simplify tree
  record options .final (outline · tree)
  return tree

/-- The listing of a unit. -/
def disassemble (names : Names) (bytes : List UInt8) : Except DecodeError String :=
  (Bytecode.decode names bytes).map (·.listing names)

/-- What is printed for a unit that failed: the error, and then the statements built before it, or
the listing if there are none. -/
def bestEffort (names : Names) (dialect : Dialect) (bytes : List UInt8) (labels : Labels)
    (error : Error) : String :=
  let rest :=
    match error.built? with
    | some built => render labels dialect { body := built }
    | none =>
      match disassemble names bytes with
      | .ok listing =>
        String.join ((Text.lines listing).map fun line => dialect.comment ++ " " ++ line ++ "\n")
      | .error _ => ""
  dialect.comment ++ " decompilation failed: " ++ error.message ++ "\n" ++ rest

/-- Decompiles a unit. -/
def decompile (names : Names) (options : Options) (name : String) (bytes : List UInt8) :
    UnitResult :=
  let start : UnitState := { context := { diagnostics := { unit := name } } }
  let (result, state) := StateT.run (ExceptT.run (recoverTree names options bytes)) start
  match result with
  | .ok tree =>
    { name
      text := render state.context.labels options.dialect tree
      diagnostics := state.context.diagnostics
      snapshots := state.snapshots
      phases := state.phases ++ [.emit]
      error := none }
  | .error error =>
    { name
      text := bestEffort names options.dialect bytes state.context.labels error
      diagnostics := (state.context.report .fatal error.message none).diagnostics
      snapshots := state.snapshots
      phases := state.phases
      error := some error }

end Decompiler
