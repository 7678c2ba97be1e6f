import Mathlib.Tactic.Lemma
import Decompiler.Stack.Simulation

/-!
# The stack machine and the meaning of statements

Two ways of running a block.  The stack machine runs the operations of a raw block on a stack of
values: a variable is read when it is pushed, and a call is made when it is met.  The statements of a
simulated block hold expressions, which are evaluated when their statement runs.  `runRaw` and
`runStmts` give the outcome of the two: the memory, the calls with their arguments, the answer of the
branch, the values left for the next block, and how control leaves.

The machine around the block is a parameter (`World`), and `World.Lawful` says what is asked of it:
variables of different names lie apart, negation turns truth round, and an integer denotes the instance
that its name denotes.  Expressions are evaluated from left to right; of a call the last argument
comes first, of a variable its owner comes before its index, and an assignment evaluates its value
before its target.  The machine has no short-circuit operations, and so every operator evaluates both
operands.
-/

namespace Decompiler.StackMachine

open Bytecode

/-! ### Worlds -/

/-- Where a variable is stored; a temporary has no owner. -/
structure Location (Instance Value : Type) where
  name : String
  owner : Option Instance
  index : Option Value
deriving DecidableEq

/-- What tells variables apart before the program runs: the name, and whether it is a temporary. -/
abbrev Cell := String × Bool

/-- The cell of a location. -/
def Location.cell {Instance Value : Type} (p : Location Instance Value) : Cell :=
  (p.name, p.owner.isNone)

/-- The location of a temporary. -/
def Location.temporary {Instance Value : Type} (name : String) : Location Instance Value :=
  ⟨name, none, none⟩

/-- The machine around a block: its values, its memory, and what operations and calls do. -/
structure World where
  Value : Type
  Instance : Type
  Memory : Type
  /-- The value in place of one that is not there. -/
  undefined : Value
  constant : Constant → Value
  unary : UnaryOp → Value → Value
  binary : BinaryOp → Value → Value → Value
  truthy : Value → Bool
  /-- Whether a value is the one of a case. -/
  equal : Value → Value → Bool
  /-- The instance that a value stands for. -/
  instanceOf : Value → Instance
  /-- The instance of a name. -/
  named : String → Instance
  read : Location Instance Value → Memory → Value
  write : Location Instance Value → Value → Memory → Memory
  call : String → List Value → Memory → Value × Memory
  /-- Enters the scope of an instance, and says whether there is nothing to enter. -/
  enter : Instance → Memory → Bool × Memory
  /-- Ends a round of a scope, and says whether there is another one. -/
  leave : Memory → Bool × Memory

/-- What is asked of a world. -/
structure World.Lawful (w : World) (names : Names) : Prop where
  /-- A store does not change variables of other names. -/
  read_write : ∀ p q v m, p.cell ≠ q.cell → w.read p (w.write q v m) = w.read p m
  truthy_not : ∀ v, w.truthy (w.unary .not v) = !w.truthy v
  truthy_inverse : ∀ op inverse a b, op.inverse? = some inverse →
    w.truthy (w.binary inverse a b) = !w.truthy (w.binary op a b)
  /-- An integer stands for the instance that its name denotes. -/
  instanceOf_constant : ∀ c id, c.integer? = some id →
    w.instanceOf (w.constant c) = w.named (Simulation.instanceName names id)
  /-- The name of an instance stands for that instance. -/
  instanceOf_name : ∀ id m,
    w.instanceOf (w.read (.temporary (Simulation.instanceName names id)) m) =
      w.named (Simulation.instanceName names id)

/-- How far a run has come: the memory, and the calls that were made with their arguments. -/
structure Run (w : World) where
  memory : w.Memory
  calls : List (String × List w.Value) := []

/-- Makes a call. -/
def Run.call {w : World} (r : Run w) (name : String) (args : List w.Value) : w.Value × Run w :=
  ((w.call name args r.memory).1, ⟨(w.call name args r.memory).2, r.calls ++ [(name, args)]⟩)

/-- Stores a value. -/
def Run.write {w : World} (r : Run w) (p : Location w.Instance w.Value) (v : w.Value) : Run w :=
  { r with memory := w.write p v r.memory }

/-- How control leaves a block. -/
inductive Transfer (w : World) where
  | goto (target : LabelId)
  | exit
  | ret (value : w.Value)

/-- What a block does. -/
structure Outcome (w : World) where
  run : Run w
  /-- The values left on the stack, the lowest first. -/
  left : List w.Value
  /-- The answer of the branch, if one was met: the target it takes, or none. -/
  decision : Option (Option LabelId) := none
  transfer : Transfer w

/-! ### Expressions -/

section Eval

variable (w : World) (entry : List w.Value)

mutual

/-- The value of an expression in a block that was entered with the values `entry`, and the run after
its evaluation. -/
def eval : Expr → Run w → w.Value × Run w
  | .const c, r => (w.constant c, r)
  | .var v, r =>
    let (p, r) := locate v r
    (w.read p r.memory, r)
  | .call name args, r =>
    let (values, r) := evalStack args r
    r.call name values
  | .unary op operand, r =>
    let (v, r) := eval operand r
    (w.unary op v, r)
  | .binary op left right, r =>
    let (a, r) := eval left r
    let (b, r) := eval right r
    (w.binary op a b, r)
  | .incoming i, r => ((entry[i]?).getD w.undefined, r)

/-- The location of a variable. -/
def locate : Variable → Run w → Location w.Instance w.Value × Run w
  | ⟨name, owner, index⟩, r =>
    let (owner, r) := evalOwner owner r
    let (index, r) := evalOption index r
    (⟨name, owner, index⟩, r)

/-- The instance of an owner. -/
def evalOwner : Owner → Run w → Option w.Instance × Run w
  | .temporary, r => (none, r)
  | .named name, r => (some (w.named name), r)
  | .computed value, r =>
    let (v, r) := eval value r
    (some (w.instanceOf v), r)

/-- The value of an optional expression. -/
def evalOption : Option Expr → Run w → Option w.Value × Run w
  | none, r => (none, r)
  | some e, r =>
    let (v, r) := eval e r
    (some v, r)

/-- The values of a stack of expressions with the top first; the lowest one is evaluated first. -/
def evalStack : List Expr → Run w → List w.Value × Run w
  | [], r => ([], r)
  | e :: rest, r =>
    let (values, r) := evalStack rest r
    let (v, r) := eval e r
    (v :: values, r)

end

end Eval

/-! ### Decisions -/

/-- The case that a value selects. -/
def select {w : World} (value : w.Value) (default : LabelId) :
    List (w.Value × LabelId) → LabelId
  | [] => default
  | (v, target) :: rest => if w.equal value v then target else select value default rest

/-- The target of a branch that is taken. -/
def taken (answer : Bool) (target : LabelId) : Option LabelId :=
  if answer then some target else none

/-- Goes on after a branch with the given answer, unless it leaves the block. -/
def Outcome.decide {w : World} (r : Run w) (left : List w.Value) (answer : Option LabelId)
    (later : Option (Outcome w)) : Option (Outcome w) :=
  match answer with
  | some target => some { run := r, left, decision := some (some target), transfer := .goto target }
  | none => later.map fun outcome => { outcome with decision := some none }

/-! ### Statements -/

/-- Runs the statements of a simulated block; `left` are the values that were pushed.  Statements that
no simulated block has do not run. -/
def runStmts (w : World) (entry : List w.Value) :
    List Stmt → Run w → List w.Value → Option (Outcome w)
  | .label _ :: rest, r, left => runStmts w entry rest r left
  | .push e :: rest, r, left =>
    let (v, r) := eval w entry e r
    runStmts w entry rest r (left ++ [v])
  | .assign target value :: rest, r, left =>
    let (v, r) := eval w entry value r
    let (p, r) := locate w entry target r
    runStmts w entry rest (r.write p v) left
  | .call name args :: rest, r, left =>
    let (_, r) := eval w entry (.call name args) r
    runStmts w entry rest r left
  | .discard e :: rest, r, left =>
    let (_, r) := eval w entry e r
    runStmts w entry rest r left
  | .condGoto test target :: rest, r, left =>
    let (v, r) := eval w entry test r
    Outcome.decide r left (taken (w.truthy v) target) (runStmts w entry rest r left)
  | .pushEnv env skip :: rest, r, left =>
    let (v, r) := eval w entry env r
    let (answer, memory) := w.enter (w.instanceOf v) r.memory
    let r := { r with memory }
    Outcome.decide r left (taken answer skip) (runStmts w entry rest r left)
  | .popEnv back :: rest, r, left =>
    let (answer, memory) := w.leave r.memory
    let r := { r with memory }
    Outcome.decide r left (taken answer back) (runStmts w entry rest r left)
  | .dispatch value cases default :: rest, r, left =>
    let (v, r) := eval w entry value r
    let cases := cases.map fun c => ((eval w entry c.1 r).1, c.2)
    Outcome.decide r left (some (select v default cases)) (runStmts w entry rest r left)
  | .ret e :: _, r, left =>
    let (v, r) := eval w entry e r
    some { run := r, left, transfer := .ret v }
  | .goto target :: _, r, left => some { run := r, left, transfer := .goto target }
  | .exit :: _, r, left => some { run := r, left, transfer := .exit }
  | _, _, _ => none

/-! ### Stack operations -/

/-- Takes the index of a variable off the stack, if it has one there. -/
def takeIndex? {w : World} (ref : VarRef) (stack : List w.Value) :
    Option (Option w.Value × List w.Value) :=
  if ref.array then
    match stack with
    | index :: stack => some (some index, stack)
    | [] => none
  else some (none, stack)

/-- Takes the owner of a variable off the stack, if it is there. -/
def takeOwner? {w : World} (names : Names) (ref : VarRef) (stack : List w.Value) :
    Option (w.Instance × List w.Value) :=
  if ref.owner = 0 then
    match stack with
    | owner :: stack => some (w.instanceOf owner, stack)
    | [] => none
  else some (w.named (names.instanceName ref.owner.toInt), stack)

/-- Takes what names a variable off the stack. -/
def takeLocation? {w : World} (names : Names) (ref : VarRef) (stack : List w.Value) :
    Option (Location w.Instance w.Value × List w.Value) := do
  let (index, stack) ← takeIndex? ref stack
  let (owner, stack) ← takeOwner? names ref stack
  return (⟨ref.name, some owner, index⟩, stack)

/-- One operation that does not leave the block, on a stack with the top value first. -/
def stackStep {w : World} (names : Names) (r : Run w) (stack : List w.Value) :
    StackOp → Option (Run w × List w.Value)
  | .push value => some (r, w.constant value :: stack)
  | .pushTemporary name => some (r, w.read (.temporary name) r.memory :: stack)
  | .pushVar ref => do
    let (p, stack) ← takeLocation? names ref stack
    return (r, w.read p r.memory :: stack)
  | .pop ref true => do
    let value :: stack := stack | none
    let (p, stack) ← takeLocation? names ref stack
    return (r.write p value, stack)
  | .pop ref false => do
    let (p, stack) ← takeLocation? names ref stack
    let value :: stack := stack | none
    return (r.write p value, stack)
  | .popTemporary name => do
    let value :: stack := stack | none
    return (r.write (.temporary name) value, stack)
  | .dup flag =>
    if flag = 0 then
      match stack with
      | a :: stack => some (r, a :: a :: stack)
      | _ => none
    else if flag = 1 then
      match stack with
      | b :: a :: stack => some (r, b :: a :: b :: a :: stack)
      | _ => none
    else none
  | .binary op => do
    let right :: left :: stack := stack | none
    return (r, w.binary op left right :: stack)
  | .unary op => do
    let operand :: stack := stack | none
    return (r, w.unary op operand :: stack)
  | .call name argc =>
    if stack.length < argc.toNat then none
    else
      let (v, r) := r.call name (stack.take argc.toNat)
      some (r, v :: stack.drop argc.toNat)
  | .popz => do
    let _ :: stack := stack | none
    return (r, stack)
  | .ret | .branchTrue _ | .branchFalse _ | .pushEnv _ | .popEnv _ | .dispatch _ _ => none

/-- Runs the statements of a raw block on a stack with the top value first. -/
def runRaw {w : World} (names : Names) : List Stmt → Run w → List w.Value → Option (Outcome w)
  | .label _ :: rest, r, stack => runRaw names rest r stack
  | .goto target :: _, r, stack => some { run := r, left := stack.reverse, transfer := .goto target }
  | .exit :: _, r, stack => some { run := r, left := stack.reverse, transfer := .exit }
  | .raw _ .ret :: _, r, value :: stack =>
    some { run := r, left := stack.reverse, transfer := .ret value }
  | .raw _ (.branchTrue target) :: rest, r, test :: stack =>
    Outcome.decide r stack.reverse (taken (w.truthy test) target) (runRaw names rest r stack)
  | .raw _ (.branchFalse target) :: rest, r, test :: stack =>
    Outcome.decide r stack.reverse (taken (!w.truthy test) target) (runRaw names rest r stack)
  | .raw _ (.pushEnv skip) :: rest, r, env :: stack =>
    let (answer, memory) := w.enter (w.instanceOf env) r.memory
    let r := { r with memory }
    Outcome.decide r stack.reverse (taken answer skip) (runRaw names rest r stack)
  | .raw _ (.popEnv back) :: rest, r, stack =>
    let (answer, memory) := w.leave r.memory
    let r := { r with memory }
    Outcome.decide r stack.reverse (taken answer back) (runRaw names rest r stack)
  | .raw _ (.dispatch cases default) :: rest, r, value :: stack =>
    let cases := cases.map fun c => (w.constant c.1, c.2)
    Outcome.decide r stack.reverse (some (select value default cases)) (runRaw names rest r stack)
  | .raw _ op :: rest, r, stack =>
    match stackStep names r stack op with
    | some (r, stack) => runRaw names rest r stack
    | none => none
  | _, _, _ => none

end Decompiler.StackMachine
