import Decompiler.Bytecode.Instruction
import Decompiler.Syntax.Expr

/-!
# Statements

One type holds a program at every stage of its recovery: single stack operations right after
decoding, assignments and branches after the stack has been simulated, loops and conditions once
control flow is structured.  A `BasicBlock` is a straight run of statements behind a label; a
`Block` is the body of a structured statement, and until control flow is settled it may say at which
label it is entered.

The views of the module (`Stmt.branchTargets`, `Stmt.targets`, `Stmt.labels`, `Stmt.exprs`) say what
a statement refers to and defines; the passes are written with them.
-/

namespace Decompiler

open Bytecode

/-! ### Stack operations -/

/-- An operation of the stack machine, before the stack is simulated. -/
inductive StackOp where
  | push (value : Constant)
  | pushVar (ref : VarRef)
  /-- Stores into a variable.  A swapped store has the value above the index and the instance, any
  other has it below them. -/
  | pop (ref : VarRef) (swapped : Bool)
  | pushTemporary (name : String)
  | popTemporary (name : String)
  | dup (flag : UInt16)
  | binary (op : BinaryOp)
  | unary (op : UnaryOp)
  | call (name : String) (argc : UInt16)
  | popz
  | ret
  | branchTrue (target : LabelId)
  | branchFalse (target : LabelId)
  | pushEnv (skip : LabelId)
  | popEnv (back : LabelId)
  /-- A chain of comparisons with constants; it takes the compared value off the stack. -/
  | dispatch (cases : List (Constant × LabelId)) (default : LabelId)
deriving DecidableEq, Repr

namespace StackOp

/-- How many values an operation takes off the stack and how many it puts back.  A `dup` with any
flag but zero and one has no meaning. -/
def effect? : StackOp → Option (Nat × Nat)
  | .push _ | .pushTemporary _ => some (0, 1)
  | .pushVar ref => some (ref.stackOperands, 1)
  | .pop ref _ => some (ref.stackOperands + 1, 0)
  | .popTemporary _ => some (1, 0)
  | .dup flag => if flag = 0 then some (1, 2) else if flag = 1 then some (2, 4) else none
  | .binary _ => some (2, 1)
  | .unary _ => some (1, 1)
  | .call _ argc => some (argc.toNat, 1)
  | .popz | .ret | .branchTrue _ | .branchFalse _ | .pushEnv _ | .dispatch _ _ => some (1, 0)
  | .popEnv _ => some (0, 0)

/-- The labels an operation may jump to. -/
def targets : StackOp → List LabelId
  | .branchTrue target | .branchFalse target | .pushEnv target | .popEnv target => [target]
  | .dispatch cases default => cases.map Prod.snd ++ [default]
  | _ => []

/-- Whether the operation may or may not jump. -/
def isConditional : StackOp → Bool
  | .branchTrue _ | .branchFalse _ | .pushEnv _ | .popEnv _ | .dispatch _ _ => true
  | _ => false

/-- The text of an operation in a dump. -/
def text : StackOp → String
  | .push value => "push " ++ value.text
  | .pushVar ref => "push.v " ++ ref.name
  | .pop ref swapped => "pop" ++ (if swapped then ".i.v" else ".v.v") ++ " " ++ ref.name
  | .pushTemporary name => "push.local " ++ name
  | .popTemporary name => "pop.local " ++ name
  | .dup flag => "dup " ++ toString flag.toNat
  | .binary op => op.title
  | .unary op => op.title
  | .call name argc => "call " ++ name ++ "(argc=" ++ toString argc.toNat ++ ")"
  | .popz => "popz"
  | .ret => "ret"
  | .branchTrue target => "bt #" ++ toString target
  | .branchFalse target => "bf #" ++ toString target
  | .pushEnv skip => "pushenv #" ++ toString skip
  | .popEnv back => "popenv #" ++ toString back
  | .dispatch cases default =>
    "switch (" ++ toString cases.length ++ " cases, default #" ++ toString default ++ ")"

/-- Equality of case lists, with the equality of numbers at the constants. -/
def sameCases : List (Constant × LabelId) → List (Constant × LabelId) → Bool
  | [], [] => true
  | (a, l) :: as, (b, m) :: bs => a.same b && l == m && sameCases as bs
  | _, _ => false

/-- Equality of operations, with the equality of numbers at the constants. -/
def same : StackOp → StackOp → Bool
  | .push a, .push b => a.same b
  | .dispatch as l, .dispatch bs m => sameCases as bs && l == m
  | a, b => a == b

end StackOp

/-! ### Statements -/

/-- The body of a structured statement. -/
structure BlockOf (σ : Type) where
  /-- The label at which control enters, where that is not simply the first statement. -/
  entry : Option LabelId := none
  body : List σ := []
deriving Repr

/-- A straight run of statements: a label at its head and a transfer of control at its end. -/
structure BasicBlockOf (σ : Type) where
  /-- The number of values on the stack when control enters. -/
  entryDepth : Nat := 0
  body : List σ := []
deriving Repr

/-- One case of a switch. -/
structure CaseOf (σ : Type) where
  values : List Expr := []
  isDefault : Bool := false
  body : BlockOf σ := {}
deriving Repr

/-- A statement. -/
inductive Stmt where
  | label (id : LabelId)
  /-- A stack operation and the offset of its instruction. -/
  | raw (offset : Nat) (op : StackOp)
  /-- A value that stays on the stack at the end of a block. -/
  | push (value : Expr)
  | assign (target : Variable) (value : Expr)
  | call (name : String) (args : List Expr)
  /-- A value that is computed and dropped. -/
  | discard (value : Expr)
  | goto (target : LabelId)
  | condGoto (test : Expr) (target : LabelId)
  /-- Enters the instances of `env`, or jumps to `skip` when there are none. -/
  | pushEnv (env : Expr) (skip : LabelId)
  /-- Jumps to `back` for the next instance, or goes on. -/
  | popEnv (back : LabelId)
  /-- A recognised chain of comparisons, which becomes a switch once its cases are found. -/
  | dispatch (value : Expr) (cases : List (Expr × LabelId)) (default : LabelId)
  | ret (value : Expr)
  | exit
  /-- Leaves the innermost loop, scope or switch. -/
  | breakOut
  /-- Starts the next round of the innermost loop or scope. -/
  | continueLoop
  | basic (block : BasicBlockOf Stmt)
  | seq (block : BlockOf Stmt)
  | cond (test : Expr) (thenBlock elseBlock : BlockOf Stmt)
  /-- A loop that tests before each round, or never. -/
  | loop (test : Option Expr) (body : BlockOf Stmt)
  | switch (value : Expr) (cases : List (CaseOf Stmt))
  /-- Runs its body in each instance of `env`.  A jump to `stop` finishes one round of the body. -/
  | scope (env : Expr) (body : BlockOf Stmt) (stop : Option LabelId)
deriving Repr

/-- The body of a structured statement. -/
abbrev Block := BlockOf Stmt

/-- A straight run of statements. -/
abbrev BasicBlock := BasicBlockOf Stmt

/-- One case of a switch. -/
abbrev SwitchCase := CaseOf Stmt

namespace Stmt

/-- The stack operation that the statement is, if it is one. -/
def stackOp? : Stmt → Option StackOp
  | .raw _ op => some op
  | _ => none

/-- Whether control never goes on to the next statement. -/
def isUnconditional : Stmt → Bool
  | .goto _ | .ret _ | .exit | .breakOut | .continueLoop | .raw _ .ret => true
  | _ => false

/-- Whether the statement is a branch that may or may not be taken. -/
def isConditional : Stmt → Bool
  | .condGoto _ _ | .pushEnv _ _ | .popEnv _ | .dispatch _ _ _ => true
  | .raw _ op => op.isConditional
  | _ => false

/-- Whether the statement holds blocks. -/
def isStructured : Stmt → Bool
  | .cond _ _ _ | .loop _ _ | .switch _ _ | .scope _ _ _ | .seq _ => true
  | _ => false

/-- The labels the statement itself may jump to. -/
def branchTargets : Stmt → List LabelId
  | .goto target | .condGoto _ target | .pushEnv _ target | .popEnv target => [target]
  | .dispatch _ cases default => cases.map Prod.snd ++ [default]
  | .raw _ op => op.targets
  | _ => []

/-- The blocks directly inside a structured statement. -/
def childBlocks : Stmt → List Block
  | .seq block => [block]
  | .cond _ thenBlock elseBlock => [thenBlock, elseBlock]
  | .loop _ body | .scope _ body _ => [body]
  | .switch _ cases => cases.map CaseOf.body
  | _ => []

/-- The expressions the statement itself holds, those of its blocks apart. -/
def exprs : Stmt → List Expr
  | .push e | .discard e | .ret e => [e]
  | .assign target value => target.children ++ [value]
  | .call _ args => args
  | .condGoto e _ | .pushEnv e _ | .scope e _ _ | .cond e _ _ => [e]
  | .dispatch value cases _ => value :: cases.map Prod.fst
  | .loop test _ => test.toList
  | .switch value cases => value :: cases.flatMap CaseOf.values
  | _ => []

mutual

/-- Every label that the statement and what is nested in it may jump to or enter a block at. -/
def targets : Stmt → List LabelId
  | .basic block => targetsOfList block.body
  | .seq block => block.entry.toList ++ targetsOfList block.body
  | .cond _ thenBlock elseBlock =>
    thenBlock.entry.toList ++ targetsOfList thenBlock.body ++
      (elseBlock.entry.toList ++ targetsOfList elseBlock.body)
  | .loop _ body => body.entry.toList ++ targetsOfList body.body
  | .scope _ body _ => body.entry.toList ++ targetsOfList body.body
  | .switch _ cases => targetsOfCases cases
  | s => s.branchTargets

/-- The targets of a list of statements. -/
def targetsOfList : List Stmt → List LabelId
  | [] => []
  | s :: rest => s.targets ++ targetsOfList rest

/-- The targets of the cases of a switch. -/
def targetsOfCases : List SwitchCase → List LabelId
  | [] => []
  | c :: rest => c.body.entry.toList ++ targetsOfList c.body.body ++ targetsOfCases rest

end

mutual

/-- Every label that is defined in the statement or in what is nested in it. -/
def labels : Stmt → List LabelId
  | .label id => [id]
  | .basic block => labelsOfList block.body
  | .seq block => labelsOfList block.body
  | .cond _ thenBlock elseBlock => labelsOfList thenBlock.body ++ labelsOfList elseBlock.body
  | .loop _ body => labelsOfList body.body
  | .scope _ body _ => labelsOfList body.body
  | .switch _ cases => labelsOfCases cases
  | _ => []

/-- The labels defined in a list of statements. -/
def labelsOfList : List Stmt → List LabelId
  | [] => []
  | s :: rest => s.labels ++ labelsOfList rest

/-- The labels defined in the cases of a switch. -/
def labelsOfCases : List SwitchCase → List LabelId
  | [] => []
  | c :: rest => labelsOfList c.body.body ++ labelsOfCases rest

end

mutual

/-- The number of statements that pass a test, the statement itself and all that is nested in it. -/
def count (test : Stmt → Bool) : Stmt → Nat
  | .basic block => (if test (.basic block) then 1 else 0) + countList test block.body
  | .seq block => (if test (.seq block) then 1 else 0) + countList test block.body
  | .cond e thenBlock elseBlock =>
    (if test (.cond e thenBlock elseBlock) then 1 else 0) + countList test thenBlock.body
      + countList test elseBlock.body
  | .loop e body => (if test (.loop e body) then 1 else 0) + countList test body.body
  | .scope e body stop => (if test (.scope e body stop) then 1 else 0) + countList test body.body
  | .switch e cases => (if test (.switch e cases) then 1 else 0) + countCases test cases
  | s => if test s then 1 else 0

/-- The number of statements of a list that pass a test, nested ones included. -/
def countList (test : Stmt → Bool) : List Stmt → Nat
  | [] => 0
  | s :: rest => s.count test + countList test rest

/-- The number of statements of the cases of a switch that pass a test. -/
def countCases (test : Stmt → Bool) : List SwitchCase → Nat
  | [] => 0
  | c :: rest => countList test c.body.body + countCases test rest

end

/-! ### Equality -/

/-- Equality of dispatch cases. -/
def sameDispatch : List (Expr × LabelId) → List (Expr × LabelId) → Bool
  | [], [] => true
  | (a, l) :: as, (b, m) :: bs => a.same b && l == m && sameDispatch as bs
  | _, _ => false

mutual

/-- Equality of statements, with the equality of numbers at the constants. -/
def same : Stmt → Stmt → Bool
  | .label a, .label b => a == b
  | .raw m a, .raw n b => m == n && a.same b
  | .push a, .push b => a.same b
  | .assign t a, .assign u b => Expr.sameVariable t u && a.same b
  | .call f as, .call g bs => f == g && Expr.sameList as bs
  | .discard a, .discard b => a.same b
  | .goto a, .goto b => a == b
  | .condGoto a l, .condGoto b m => a.same b && l == m
  | .pushEnv a l, .pushEnv b m => a.same b && l == m
  | .popEnv a, .popEnv b => a == b
  | .dispatch a as l, .dispatch b bs m => a.same b && sameDispatch as bs && l == m
  | .ret a, .ret b => a.same b
  | .exit, .exit => true
  | .breakOut, .breakOut => true
  | .continueLoop, .continueLoop => true
  | .basic a, .basic b => a.entryDepth == b.entryDepth && sameStmts a.body b.body
  | .seq a, .seq b => a.entry == b.entry && sameStmts a.body b.body
  | .cond a s t, .cond b u v =>
    a.same b && s.entry == u.entry && sameStmts s.body u.body && t.entry == v.entry
      && sameStmts t.body v.body
  | .loop a s, .loop b t => Expr.sameOption a b && s.entry == t.entry && sameStmts s.body t.body
  | .switch a as, .switch b bs => a.same b && sameSwitchCases as bs
  | .scope a s l, .scope b t m =>
    a.same b && s.entry == t.entry && sameStmts s.body t.body && l == m
  | _, _ => false

/-- Equality of lists of statements. -/
def sameStmts : List Stmt → List Stmt → Bool
  | [], [] => true
  | a :: as, b :: bs => a.same b && sameStmts as bs
  | _, _ => false

/-- Equality of the cases of a switch. -/
def sameSwitchCases : List SwitchCase → List SwitchCase → Bool
  | [], [] => true
  | a :: as, b :: bs =>
    Expr.sameList a.values b.values && a.isDefault == b.isDefault && a.body.entry == b.body.entry
      && sameStmts a.body.body b.body.body && sameSwitchCases as bs
  | _, _ => false

end

end Stmt

/-! ### Basic blocks -/

/-- How a basic block can fail to be one. -/
inductive BlockFault where
  | noLabel
  | noTransfer
deriving DecidableEq, Repr

/-- The text of a fault. -/
def BlockFault.message : BlockFault → String
  | .noLabel => "basic block has to start with a label"
  | .noTransfer => "basic block has to end with unconditional control flow"

namespace BasicBlockOf

/-- The label at the head of a block. -/
def entryLabel? (block : BasicBlock) : Option LabelId :=
  match block.body with
  | .label id :: _ => some id
  | _ => none

/-- The last `n` statements, if so many stand after the label. -/
def tail? (block : BasicBlock) (n : Nat) : Option (List Stmt) :=
  if block.body.length < n + 1 then none else some (block.body.drop (block.body.length - n))

/-- The target of the jump at the end. -/
def gotoTarget? (block : BasicBlock) : Option LabelId :=
  match block.body.getLast? with
  | some (.goto target) => some target
  | _ => none

/-- Whether the block is a label, `n` statements and a jump. -/
def isSingle (block : BasicBlock) (n : Nat) : Bool :=
  block.body.length == n + 2 && block.gotoTarget?.isSome

/-- What is wrong with the shape of the block, if anything: it has to start with a label and to end
in a transfer of control or a structured statement. -/
def fault? (block : BasicBlock) : Option BlockFault :=
  match block.entryLabel? with
  | none => some .noLabel
  | some _ =>
    match block.body.getLast? with
    | some last => if last.isUnconditional || last.isStructured then none else some .noTransfer
    | none => some .noTransfer

end BasicBlockOf

end Decompiler
