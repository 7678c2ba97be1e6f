import Decompiler.Stack.Depth

/-!
# Stack simulation

Runs the operations of a block on a stack of expressions.  Operations that only move values build
expressions; the others become statements.  A block that is entered with values on the stack starts
with the incoming values there, and values that are left at a branch or at the end of the block
become `push` statements before it.
-/

namespace Decompiler

open Bytecode

namespace Simulation

/-- A block under simulation. -/
structure State where
  /-- The stack, the top value first. -/
  stack : List Expr
  /-- The statements of the block so far. -/
  out : List Stmt := []
  /-- How many scopes are open. -/
  scopes : Nat
deriving Repr

/-- What can go wrong in one step. -/
inductive Fault where
  | underflow (needed available : Nat)
  | dupFlag (flag : UInt16)
  | unmatchedPopEnv

namespace State

/-- Adds a statement. -/
def emit (state : State) (s : Stmt) : State :=
  { state with out := state.out ++ [s] }

/-- Leaves the stack as `push` statements, the lowest value first. -/
def flush (state : State) : State :=
  { state with stack := [], out := state.out ++ state.stack.reverse.map Stmt.push }

/-- Leaves the stack before a branch, which then follows. -/
def branch (state : State) (s : Stmt) : State :=
  state.flush.emit s

end State

/-- The name of the instance with a given number; the number is taken in 32 bits. -/
def instanceName (names : Names) (id : Int) : String :=
  names.instanceName (id.bmod (Nat.pow 2 32))

/-- The owner that a value on the stack stands for: a number names an instance. -/
def ownerOf (names : Names) (value : Expr) : Owner :=
  match value.constant?.bind Constant.integer? with
  | some id => .named (instanceName names id)
  | none => .computed value

/-- The instances that a scope is entered for: a number reads as the name of an instance. -/
def scopeOf (names : Names) (value : Expr) : Expr :=
  match value.constant?.bind Constant.integer? with
  | some id => .var (Variable.temporary (instanceName names id))
  | none => value

/-- Takes the index of a variable off the stack, if it has one there. -/
def takeIndex? (ref : VarRef) (stack : List Expr) : Option (Option Expr × List Expr) :=
  if ref.array then
    match stack with
    | index :: stack => some (some index, stack)
    | [] => none
  else some (none, stack)

/-- Takes the owner of a variable off the stack, if it is there. -/
def takeOwner? (names : Names) (ref : VarRef) (stack : List Expr) : Option (Owner × List Expr) :=
  if ref.owner = 0 then
    match stack with
    | owner :: stack => some (ownerOf names owner, stack)
    | [] => none
  else some (.named (names.instanceName ref.owner.toInt), stack)

/-- Takes what names a variable off the stack. -/
def takeVariable? (names : Names) (ref : VarRef) (stack : List Expr) :
    Option (Variable × List Expr) := do
  let (index, stack) ← takeIndex? ref stack
  let (owner, stack) ← takeOwner? names ref stack
  return ({ name := ref.name, owner, index }, stack)

/-- The statement of a value that is dropped. -/
def dropped : Expr → Stmt
  | .call name args => .call name args
  | value => .discard value

/-- One operation, on a stack that has enough values for it. -/
def step? (names : Names) (state : State) : StackOp → Option State
  | .push value => some { state with stack := .const value :: state.stack }
  | .pushTemporary name =>
    some { state with stack := .var (Variable.temporary name) :: state.stack }
  | .pushVar ref => do
    let (v, stack) ← takeVariable? names ref state.stack
    return { state with stack := .var v :: stack }
  | .pop ref true => do
    let value :: stack := state.stack | none
    let (target, stack) ← takeVariable? names ref stack
    return { state with stack }.emit (.assign target value)
  | .pop ref false => do
    let (target, stack) ← takeVariable? names ref state.stack
    let value :: stack := stack | none
    return { state with stack }.emit (.assign target value)
  | .popTemporary name => do
    let value :: stack := state.stack | none
    return { state with stack }.emit (.assign (Variable.temporary name) value)
  | .dup flag =>
    if flag = 0 then
      match state.stack with
      | a :: stack => some { state with stack := a :: a :: stack }
      | _ => none
    else if flag = 1 then
      match state.stack with
      | b :: a :: stack => some { state with stack := b :: a :: b :: a :: stack }
      | _ => none
    else none
  | .binary op => do
    let right :: left :: stack := state.stack | none
    return { state with stack := .binary op left right :: stack }
  | .unary op => do
    let operand :: stack := state.stack | none
    return { state with stack := .unary op operand :: stack }
  | .call name argc =>
    let count := argc.toNat
    if state.stack.length < count then none
    else
      some { state with stack := .call name (state.stack.take count) :: state.stack.drop count }
  | .popz => do
    let value :: stack := state.stack | none
    return { state with stack }.emit (dropped value)
  | .ret => do
    let value :: stack := state.stack | none
    return { state with stack }.emit (.ret value)
  | .branchTrue target => do
    let test :: stack := state.stack | none
    return { state with stack }.branch (.condGoto test target)
  | .branchFalse target => do
    let test :: stack := state.stack | none
    return { state with stack }.branch (.condGoto test.negate target)
  | .pushEnv skip => do
    let env :: stack := state.stack | none
    return { state with stack, scopes := state.scopes + 1 }.branch
      (.pushEnv (scopeOf names env) skip)
  | .popEnv back =>
    match state.scopes with
    | 0 => none
    | scopes + 1 => some ({ state with scopes }.branch (.popEnv back))
  | .dispatch cases default => do
    let value :: stack := state.stack | none
    let cases := cases.map fun (value, target) => (Expr.const value, target)
    return { state with stack }.branch (.dispatch value cases default)

/-- Why an operation cannot be run. -/
def fault (state : State) (op : StackOp) : Fault :=
  match op, op.effect? with
  | .popEnv _, _ => .unmatchedPopEnv
  | .dup flag, none => .dupFlag flag
  | _, some (pops, _) => .underflow pops state.stack.length
  | _, none => .underflow 0 state.stack.length

/-- One operation. -/
def step (names : Names) (state : State) (op : StackOp) : Except Fault State :=
  match step? names state op with
  | some state => .ok state
  | none => .error (fault state op)

/-- A fault with the place where it arose and the statements built before it. -/
def Fault.toError (offset : Nat) (op : StackOp) (built : List Stmt) : Fault → Error
  | .underflow needed available => .stackUnderflow offset op needed available built
  | .dupFlag flag => .dupArity offset flag built
  | .unmatchedPopEnv => .unmatchedPopEnv offset built

/-- The statements of a block, one after the other.  Before the last one, if it is not a stack
operation, the stack is left behind. -/
def stmts (names : Names) (done : List Stmt) : State → List Stmt → Except Error State
  | state, [] => .ok state
  | state, .raw offset op :: rest =>
    match step names state op with
    | .ok state => stmts names done state rest
    | .error fault => .error (fault.toError offset op (done ++ state.out))
  | state, s :: rest =>
    let state := if rest.isEmpty then state.flush else state
    stmts names done (state.emit s) rest

/-- Values that are left after a block that ends in a stack operation go before its last statement.
-/
def settle (state : State) : List Stmt :=
  if state.stack.isEmpty then state.out
  else state.out.dropLast ++ state.stack.reverse.map Stmt.push ++ state.out.getLast?.toList

/-- The stack at the entry of a block. -/
def incomingStack (depth : Nat) : List Expr :=
  (List.range depth).reverse.map Expr.incoming

/-- Simulates a block that is entered with `depth` values on the stack and `scopes` open scopes. -/
def block (names : Names) (done : List Stmt) (scopes depth : Nat) (body : List Stmt) :
    Except Error (List Stmt × Nat) := do
  let state ← stmts names done { stack := incomingStack depth, scopes } body
  return (settle state, state.scopes)

/-- Simulates blocks in order; `done` are the statements of the blocks before. -/
def blocks (names : Names) (done : List Stmt) (scopes : Nat) :
    List (BasicBlock × Nat) → Except Error (List BasicBlock)
  | [] => if scopes = 0 then .ok [] else .error (.unbalancedScopes scopes done)
  | (source, entryDepth) :: rest => do
    let (body, scopes) ← block names done scopes entryDepth source.body
    let later ← blocks names (done ++ body) scopes rest
    return { entryDepth, body } :: later

end Simulation

/-- Turns the stack operations of all blocks into expressions and statements. -/
def simulate (names : Names) (labels : Labels) (blocks : List BasicBlock) :
    Except Error (List BasicBlock) := do
  let depths ← Depth.entryDepths blocks labels
  Simulation.blocks names [] 0 (blocks.zip depths)

end Decompiler
