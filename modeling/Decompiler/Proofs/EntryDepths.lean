import Decompiler.Proofs.StackDiscipline

/-!
# The depths of simulated blocks

The depths at which blocks are entered come from a search over the branches, and the values that a block
leaves come from its simulation.  The two agree.  Along every way from the first block to another one the
operations find the values they take, and their effects add up to the depth of the block
(`Depth.Way.enters`).  What a block leaves before a branch is as many `push` statements as the depth at
which the search follows that branch (`Simulation.exists_emitted`), whether the branch is taken or control
goes on behind it.

The expressions of a block are built from what lay on the stack, and so they mention incoming values only
from below the depth of the block (`Simulation.State.Below`).
-/

namespace Decompiler

open Bytecode
open StackMachine (RawBody isJump mentions variableMentions ownerMentions optionMentions anyMentions)

/-! ### Incoming values of expressions -/

namespace Expr

/-- Whether the expression is the incoming value at a position. -/
def isIncoming (position : Nat) : Expr → Bool
  | .incoming i => i == position
  | _ => false

/-- Whether the expression is an incoming value that does not lie below a depth. -/
def isIncomingFrom (depth : Nat) : Expr → Bool
  | .incoming i => decide (depth ≤ i)
  | _ => false

/-- The incoming values in the expression lie below a depth. -/
def Below (depth : Nat) (e : Expr) : Prop :=
  mentions (isIncomingFrom depth) e = false

variable {depth : Nat}

/-- What lies below the depth has a smaller position. -/
lemma Below.lt {e : Expr} (h : e.Below depth) {position : Nat}
    (hmentions : mentions (isIncoming position) e = true) : position < depth := by
  rw [← Nat.not_le]
  intro hle
  have hfrom : mentions (isIncomingFrom depth) e = true := by
    refine StackMachine.mentions_mono (fun e he => ?_) e hmentions
    cases e with
    | incoming i =>
      simp only [isIncoming, beq_iff_eq] at he
      simpa only [isIncomingFrom, decide_eq_true_eq, he] using hle
    | _ => cases he
  rw [Below, hfrom] at h
  cases h

/-- Expressions with nothing from the depth on. -/
lemma anyMentions_eq_false {l : List Expr} :
    anyMentions (isIncomingFrom depth) l = false ↔ ∀ e ∈ l, e.Below depth := by
  induction l with
  | nil => simp [anyMentions]
  | cons e rest ih => simp [anyMentions, ih, Below]

/-- A variable is made of the expressions it holds. -/
lemma below_var {v : Variable} (h : ∀ e ∈ v.children, e.Below depth) : (Expr.var v).Below depth := by
  obtain ⟨name, owner, index⟩ := v
  cases owner <;> cases index <;>
    simp_all [Below, mentions, variableMentions, ownerMentions, optionMentions, isIncomingFrom,
      VariableOf.children, OwnerOf.children]

/-- A call is made of its arguments. -/
lemma below_call {name : String} {args : List Expr} :
    (Expr.call name args).Below depth ↔ ∀ e ∈ args, e.Below depth := by
  simp only [Below, mentions, isIncomingFrom, Bool.false_or]
  exact anyMentions_eq_false

/-- A unary operation is made of its operand. -/
lemma below_unary {op : UnaryOp} {operand : Expr} :
    (Expr.unary op operand).Below depth ↔ operand.Below depth := by
  simp only [Below, mentions, isIncomingFrom, Bool.false_or]

/-- A binary operation is made of its operands. -/
lemma below_binary {op : BinaryOp} {left right : Expr} :
    (Expr.binary op left right).Below depth ↔ left.Below depth ∧ right.Below depth := by
  simp only [Below, mentions, isIncomingFrom, Bool.false_or, Bool.or_eq_false_iff]

/-- Negation keeps the incoming values of a test. -/
lemma below_negate {e : Expr} (h : e.Below depth) : e.negate.Below depth := by
  unfold negate
  split
  · split
    · exact below_binary.mpr (below_binary.mp h)
    · exact below_unary.mpr h
  · exact below_unary.mp h
  · exact below_unary.mpr h

end Expr

namespace Stmt

/-- Whether the statement leaves a value on the stack. -/
def isPush : Stmt → Bool
  | .push _ => true
  | _ => false

/-- Whether the statement is a stack operation. -/
def isRaw (s : Stmt) : Bool :=
  s.stackOp?.isSome

/-- By how much a statement changes the number of values on the stack. -/
def netEffect (s : Stmt) : Int :=
  match s.stackOp?.bind StackOp.effect? with
  | some (pops, pushes) => pushes - pops
  | none => 0

end Stmt

/-! ### What simulation builds -/

namespace Simulation

variable {names : Names} {depth : Nat}

/-- The expressions on the stack and in the statements so far mention incoming values from below a
depth. -/
structure State.Below (depth : Nat) (state : State) : Prop where
  stack : ∀ e ∈ state.stack, e.Below depth
  out : ∀ s ∈ state.out, ∀ e ∈ s.exprs, e.Below depth

namespace State.Below

/-- The stack is exchanged. -/
lemma withStack {state : State} (h : state.Below depth) {stack : List Expr} {scopes : Nat}
    (hstack : ∀ e ∈ stack, e.Below depth) : State.Below depth { state with stack, scopes } :=
  ⟨hstack, h.out⟩

/-- A statement is added. -/
lemma emit {state : State} (h : state.Below depth) {s : Stmt}
    (hs : ∀ e ∈ s.exprs, e.Below depth) : (state.emit s).Below depth where
  stack := h.stack
  out := by
    intro t ht
    rcases List.mem_append.mp ht with ht | ht
    · exact h.out t ht
    · rw [List.mem_singleton.mp ht]
      exact hs

/-- The stack is left behind. -/
lemma flush {state : State} (h : state.Below depth) : state.flush.Below depth where
  stack := by simp [State.flush]
  out := by
    intro s hs
    rcases List.mem_append.mp hs with hs | hs
    · exact h.out s hs
    · obtain ⟨value, hvalue, rfl⟩ := List.mem_map.mp hs
      simpa [Stmt.exprs] using h.stack value (List.mem_reverse.mp hvalue)

end State.Below

/-- What an operation does to the expressions of a state: they are built from what lay on the stack, and
values are left only at a branch. -/
structure Builds (depth : Nat) (op : StackOp) (state next : State) : Prop where
  below : state.Below depth → next.Below depth
  pushes : op.isConditional = false → next.out.countP Stmt.isPush = state.out.countP Stmt.isPush

namespace Builds

variable {op : StackOp} {state : State} {stack : List Expr} {scopes : Nat} {s : Stmt}

/-- An operation that only changes the stack. -/
lemma moved (h : (∀ e ∈ state.stack, e.Below depth) → ∀ e ∈ stack, e.Below depth) :
    Builds depth op state { state with stack } where
  below hstate := hstate.withStack (h hstate.stack)
  pushes _ := rfl

/-- An operation that adds a statement. -/
lemma emitted (hpush : s.isPush = false) (h : (∀ e ∈ state.stack, e.Below depth) →
      (∀ e ∈ stack, e.Below depth) ∧ ∀ e ∈ s.exprs, e.Below depth) :
    Builds depth op state (State.emit { state with stack } s) where
  below hstate := (hstate.withStack (h hstate.stack).1).emit (h hstate.stack).2
  pushes _ := by simp [State.emit, hpush]

/-- An operation that makes a statement of the top of the stack. -/
lemma emitted_top {value : Expr} {out : List Stmt} (hpush : s.isPush = false)
    (h : value.Below depth → ∀ e ∈ s.exprs, e.Below depth) :
    Builds depth op ⟨value :: stack, out, scopes⟩ (State.emit ⟨stack, out, scopes⟩ s) := by
  refine emitted hpush fun hstack => ?_
  obtain ⟨hvalue, hrest⟩ := List.forall_mem_cons.mp hstack
  exact ⟨hrest, h hvalue⟩

/-- A branch leaves the stack behind. -/
lemma branched (hop : op.isConditional = true) (h : (∀ e ∈ state.stack, e.Below depth) →
      (∀ e ∈ stack, e.Below depth) ∧ ∀ e ∈ s.exprs, e.Below depth) :
    Builds depth op state (State.branch { state with stack, scopes } s) where
  below hstate := (hstate.withStack (h hstate.stack).1).flush.emit (h hstate.stack).2
  pushes hnot := by
    rw [hop] at hnot
    cases hnot

/-- A branch on the top of the stack leaves the rest behind. -/
lemma branched_top {value : Expr} {out : List Stmt} {scopes' : Nat} (hop : op.isConditional = true)
    (h : value.Below depth → ∀ e ∈ s.exprs, e.Below depth) :
    Builds depth op ⟨value :: stack, out, scopes⟩ (State.branch ⟨stack, out, scopes'⟩ s) := by
  refine branched hop fun hstack => ?_
  obtain ⟨hvalue, hrest⟩ := List.forall_mem_cons.mp hstack
  exact ⟨hrest, h hvalue⟩

end Builds

/-- What names a variable is taken off the stack. -/
lemma below_takeVariable? {ref : VarRef} {stack rest : List Expr} {v : Variable}
    (h : takeVariable? names ref stack = some (v, rest)) (hstack : ∀ e ∈ stack, e.Below depth) :
    (∀ e ∈ v.children, e.Below depth) ∧ ∀ e ∈ rest, e.Below depth := by
  simp only [takeVariable?, Option.bind_eq_bind, Option.bind_eq_some_iff] at h
  obtain ⟨⟨index, middle⟩, hindex, ⟨owner, last⟩, howner, h⟩ := h
  obtain ⟨rfl, rfl⟩ := Prod.mk.inj (Option.some.inj h)
  have hmiddle : (∀ e ∈ index.toList, e.Below depth) ∧ ∀ e ∈ middle, e.Below depth := by
    unfold takeIndex? at hindex
    split at hindex
    · cases stack with
      | nil => cases hindex
      | cons value stack =>
        cases hindex
        simpa using hstack
    · cases hindex
      simpa using hstack
  have hlast : (∀ e ∈ owner.children, e.Below depth) ∧ ∀ e ∈ last, e.Below depth := by
    unfold takeOwner? at howner
    split at howner
    · cases middle with
      | nil => cases howner
      | cons value middle =>
        cases howner
        obtain ⟨hvalue, hrest⟩ := List.forall_mem_cons.mp hmiddle.2
        refine ⟨?_, hrest⟩
        unfold ownerOf
        split
        · simp [OwnerOf.children]
        · simpa [OwnerOf.children] using hvalue
    · cases howner
      exact ⟨by simp [OwnerOf.children], hmiddle.2⟩
  refine ⟨fun e he => ?_, hlast.2⟩
  rcases List.mem_append.mp he with he | he
  · exact hlast.1 e he
  · exact hmiddle.1 e he

/-- A value that is dropped is kept in its statement. -/
lemma below_dropped {value : Expr} (h : value.Below depth) :
    ∀ e ∈ (dropped value).exprs, e.Below depth := by
  cases value with
  | call name args => exact Expr.below_call.mp h
  | _ => simpa [dropped, Stmt.exprs] using h

/-- The instances that a scope is entered for are a value of the stack, or known by name. -/
lemma below_scopeOf {value : Expr} (h : value.Below depth) : (scopeOf names value).Below depth := by
  unfold scopeOf
  split
  · exact Expr.below_var (by simp [Variable.temporary, VariableOf.children, OwnerOf.children])
  · exact h

/-- Every operation builds its expressions from what lies on the stack. -/
lemma builds_step? {op : StackOp} {state next : State} (h : step? names state op = some next) :
    Builds depth op state next := by
  obtain ⟨stack, out, scopes⟩ := state
  cases op with
  | push value =>
    cases h
    exact .moved fun hstack => List.forall_mem_cons.mpr ⟨rfl, hstack⟩
  | pushTemporary name =>
    cases h
    exact .moved fun hstack => List.forall_mem_cons.mpr ⟨rfl, hstack⟩
  | pushVar ref =>
    obtain ⟨⟨v, rest⟩, htake, h⟩ := Option.bind_eq_some_iff.mp h
    cases h
    refine .moved fun hstack => ?_
    obtain ⟨hv, hrest⟩ := below_takeVariable? htake hstack
    exact List.forall_mem_cons.mpr ⟨Expr.below_var hv, hrest⟩
  | pop ref swapped =>
    cases swapped with
    | true =>
      cases stack with
      | nil => cases h
      | cons value stack =>
        obtain ⟨⟨target, rest⟩, htake, h⟩ := Option.bind_eq_some_iff.mp h
        cases h
        refine .emitted rfl fun hstack => ?_
        obtain ⟨hvalue, hstack⟩ := List.forall_mem_cons.mp hstack
        obtain ⟨htarget, hrest⟩ := below_takeVariable? htake hstack
        refine ⟨hrest, fun e he => ?_⟩
        rcases List.mem_append.mp he with he | he
        · exact htarget e he
        · rwa [List.mem_singleton.mp he]
    | false =>
      obtain ⟨⟨target, stack'⟩, htake, h⟩ := Option.bind_eq_some_iff.mp h
      cases stack' with
      | nil => cases h
      | cons value rest =>
        cases h
        refine .emitted rfl fun hstack => ?_
        obtain ⟨htarget, hstack⟩ := below_takeVariable? htake hstack
        obtain ⟨hvalue, hrest⟩ := List.forall_mem_cons.mp hstack
        refine ⟨hrest, fun e he => ?_⟩
        rcases List.mem_append.mp he with he | he
        · exact htarget e he
        · rwa [List.mem_singleton.mp he]
  | popTemporary name =>
    cases stack with
    | nil => cases h
    | cons value rest =>
      cases h
      refine .emitted_top rfl fun hvalue => ?_
      simpa [Stmt.exprs, Variable.temporary, VariableOf.children, OwnerOf.children] using hvalue
  | dup flag =>
    simp only [step?] at h
    split at h
    · cases stack with
      | nil => cases h
      | cons a rest =>
        cases h
        exact .moved (by simp +contextual)
    · split at h
      · obtain _ | ⟨b, _ | ⟨a, rest⟩⟩ := stack
        · cases h
        · cases h
        · cases h
          exact .moved (by simp +contextual)
      · cases h
  | binary op =>
    obtain _ | ⟨right, _ | ⟨left, rest⟩⟩ := stack
    · cases h
    · cases h
    · cases h
      refine .moved fun hstack => ?_
      simp only [List.forall_mem_cons] at hstack ⊢
      exact ⟨Expr.below_binary.mpr ⟨hstack.2.1, hstack.1⟩, hstack.2.2⟩
  | unary op =>
    cases stack with
    | nil => cases h
    | cons value rest =>
      cases h
      refine .moved fun hstack => ?_
      simp only [List.forall_mem_cons] at hstack ⊢
      exact ⟨Expr.below_unary.mpr hstack.1, hstack.2⟩
  | call name argc =>
    simp only [step?] at h
    split at h
    · cases h
    · cases h
      refine .moved fun hstack => List.forall_mem_cons.mpr ⟨Expr.below_call.mpr ?_, ?_⟩
      · exact fun e he => hstack e (List.mem_of_mem_take he)
      · exact fun e he => hstack e (List.mem_of_mem_drop he)
  | popz =>
    cases stack with
    | nil => cases h
    | cons value rest =>
      cases h
      exact .emitted_top (by cases value <;> rfl) below_dropped
  | ret =>
    cases stack with
    | nil => cases h
    | cons value rest =>
      cases h
      exact .emitted_top rfl fun hvalue => by simpa [Stmt.exprs] using hvalue
  | branchTrue target =>
    cases stack with
    | nil => cases h
    | cons value rest =>
      cases h
      exact .branched_top rfl fun hvalue => by simpa [Stmt.exprs] using hvalue
  | branchFalse target =>
    cases stack with
    | nil => cases h
    | cons value rest =>
      cases h
      exact .branched_top rfl fun hvalue => by simpa [Stmt.exprs] using Expr.below_negate hvalue
  | pushEnv skip =>
    cases stack with
    | nil => cases h
    | cons value rest =>
      cases h
      exact .branched_top rfl fun hvalue => by simpa [Stmt.exprs] using below_scopeOf hvalue
  | popEnv back =>
    cases scopes with
    | zero => cases h
    | succ scopes =>
      cases h
      exact .branched rfl fun hstack => ⟨hstack, by simp [Stmt.exprs]⟩
  | dispatch cases default =>
    cases stack with
    | nil => cases h
    | cons value rest =>
      cases h
      refine .branched_top rfl fun hvalue e he => ?_
      simp only [Stmt.exprs, List.map_map, List.mem_cons, List.mem_map, Function.comp_apply] at he
      rcases he with rfl | ⟨_, -, rfl⟩
      · exact hvalue
      · rfl

/-- A statement of a block of stack operations is a label, an operation or a jump. -/
lemma exprs_of_isJump {s : Stmt} (h : isJump s = true) : s.stackOp? = none ∧ s.exprs = [] := by
  cases s with
  | goto | exit => exact ⟨rfl, rfl⟩
  | _ => cases h

/-- The statements of a block are built from what lay on the stack. -/
lemma below_stmts {body done : List Stmt} (hbody : RawBody body) {state final : State}
    (h : stmts names done state body = .ok final) (hstate : state.Below depth) :
    final.Below depth := by
  induction hbody generalizing state with
  | jump hs =>
    rw [StackMachine.stmts_jump hs] at h
    cases h
    exact hstate.flush.emit (by simp [(exprs_of_isJump hs).2])
  | ret offset =>
    obtain ⟨next, hstep, h⟩ := stmts_raw h
    cases h
    exact (builds_step? hstep).below hstate
  | branch offset _ hs =>
    obtain ⟨next, hstep, h⟩ := stmts_raw h
    rw [StackMachine.stmts_jump hs] at h
    cases h
    exact ((builds_step? hstep).below hstate).flush.emit (by simp [(exprs_of_isJump hs).2])
  | label id hrest ih =>
    have hlabel := stmts_other rfl h
    rw [hrest.isEmpty_eq_false] at hlabel
    exact ih hlabel (hstate.emit (by simp [Stmt.exprs]))
  | op offset _ _ _ ih =>
    obtain ⟨next, hstep, h⟩ := stmts_raw h
    exact ih h ((builds_step? hstep).below hstate)

/-- A block mentions incoming values from below the depth with which it is entered. -/
lemma below_block {done body : List Stmt} {result : List Stmt} {scopes scopes' : Nat}
    (hbody : RawBody body) (h : block names done scopes depth body = .ok (result, scopes')) :
    ∀ s ∈ result, ∀ e ∈ s.exprs, e.Below depth := by
  obtain ⟨final, hstmts, h⟩ := Except.bind_eq_ok_iff.mp h
  cases h
  have hstart : State.Below depth { stack := incomingStack depth, scopes } := by
    refine ⟨fun e he => ?_, by simp⟩
    obtain ⟨i, hi, rfl⟩ := List.mem_map.mp he
    have hlt : i < depth := List.mem_range.mp (List.mem_reverse.mp hi)
    simpa [Expr.Below, mentions, Expr.isIncomingFrom] using hlt
  have hfinal := below_stmts hbody hstmts hstart
  intro s hs
  unfold settle at hs
  split at hs
  · exact hfinal.out s hs
  · simp only [List.mem_append, Option.mem_toList] at hs
    rcases hs with (hs | hs) | hs
    · exact hfinal.out s ((List.dropLast_sublist _).subset hs)
    · obtain ⟨value, hvalue, rfl⟩ := List.mem_map.mp hs
      simpa [Stmt.exprs] using hfinal.stack value (List.mem_reverse.mp hvalue)
    · exact hfinal.out s (List.mem_of_getLast? hs)

/-! ### What a block leaves before a branch -/

/-- A branch leaves the values below the one it takes, and goes where it went. -/
lemma step?_leaves {op : StackOp} {state next : State} (hop : op.isConditional = true)
    (h : step? names state op = some next) :
    next.stack = [] ∧ ∃ values s pops, next.out = state.out ++ (List.map Stmt.push values ++ [s]) ∧
      s.isPush = false ∧ s.branchTargets = op.targets ∧ op.effect? = some (pops, 0) ∧
      pops ≤ state.stack.length ∧ values.length = state.stack.length - pops := by
  obtain ⟨stack, out, scopes⟩ := state
  cases op with
  | branchTrue | branchFalse | pushEnv =>
    cases stack with
    | nil => cases h
    | cons value rest =>
      cases h
      exact ⟨rfl, rest.reverse, _, 1, List.append_assoc _ _ _, rfl, rfl, rfl, by simp, by simp⟩
  | popEnv =>
    cases scopes with
    | zero => cases h
    | succ scopes =>
      cases h
      exact ⟨rfl, stack.reverse, _, 0, List.append_assoc _ _ _, rfl, rfl, rfl, by simp, by simp⟩
  | dispatch cases default =>
    cases stack with
    | nil => cases h
    | cons value rest =>
      cases h
      refine ⟨rfl, rest.reverse, _, 1, List.append_assoc _ _ _, rfl, ?_, rfl, by simp, by simp⟩
      simp [Stmt.branchTargets, StackOp.targets, Function.comp_def]
  | _ => cases hop

/-- A branch that does not stand among the first statements stands behind them. -/
lemma exists_behind {init tail before rest : List Stmt} {s : Stmt} {target : LabelId}
    (hinit : ∀ t ∈ init, t.branchTargets = []) (h : init ++ tail = before ++ s :: rest)
    (hs : target ∈ s.branchTargets) : ∃ more, before = init ++ more ∧ tail = more ++ s :: rest := by
  rcases List.append_eq_append_iff.mp h with ⟨more, hbefore, htail⟩ | ⟨more, hbefore, htail⟩
  · exact ⟨more, hbefore, htail⟩
  · cases more with
    | nil => exact ⟨[], by simpa using hbefore.symm, by simpa using htail.symm⟩
    | cons t more =>
      rw [List.cons_append, List.cons.injEq] at htail
      rw [hinit s (by simp [hbefore, htail.1])] at hs
      cases hs

/-- What an operation inside a block leaves is no branch. -/
lemma branchTargets_of_isPlain {s : Stmt} (h : s.isPlain = true) : s.branchTargets = [] := by
  cases s with
  | push _ | assign _ _ | call _ _ | discard _ | ret _ => rfl
  | _ => cases h

/-- The values that are left on the stack are no branches. -/
lemma branchTargets_push {values : List Expr} :
    ∀ t ∈ values.map Stmt.push, t.branchTargets = [] :=
  fun t ht => branchTargets_of_isPlain (Stmt.isPlain_push t ht)

/-- The values that are left on the stack are all left. -/
lemma countP_isPush (values : List Expr) : (values.map Stmt.push).countP Stmt.isPush = values.length := by
  simp [List.countP_map, Function.comp_def, Stmt.isPush]

/-- In what is emitted for the rest of a block, there stand before a branch as many values as the search
for the depths follows the branch with. -/
def LeavesDepths (stack : Nat) (body emitted : List Stmt) : Prop :=
  ∀ before s rest target, emitted = before ++ s :: rest → target ∈ s.branchTargets →
    (target, before.countP Stmt.isPush) ∈ Depth.branches stack body

/-- A jump at the end leaves the whole stack. -/
lemma LeavesDepths.jump {s : Stmt} (hs : isJump s = true) (values : List Expr) :
    LeavesDepths values.length [s] (values.map Stmt.push ++ [s]) := by
  intro before t rest target hsplit ht
  obtain ⟨more, rfl, htail⟩ := exists_behind branchTargets_push hsplit ht
  cases more with
  | cons u more => simp at htail
  | nil =>
    cases htail
    rw [List.append_nil, countP_isPush]
    cases s with
    | goto id =>
      rw [List.mem_singleton.mp ht]
      exact List.mem_singleton_self _
    | exit => simp [Stmt.branchTargets] at ht
    | _ => cases hs

/-- A branch leaves the stack below the value it takes, and the jump behind it leaves nothing more. -/
lemma LeavesDepths.branch {op : StackOp} {s jump : Stmt} {values : List Expr} {pops stack : Nat}
    (offset : Nat) (hpush : s.isPush = false) (htargets : s.branchTargets = op.targets)
    (heffect : op.effect? = some (pops, 0)) (hpops : pops ≤ stack)
    (hvalues : values.length = stack - pops) (hjump : isJump jump = true) :
    LeavesDepths stack [.raw offset op, jump] (values.map Stmt.push ++ [s, jump]) := by
  intro before t rest target hsplit ht
  obtain ⟨more, rfl, htail⟩ := exists_behind branchTargets_push hsplit ht
  have hbranches : Depth.branches stack [.raw offset op, jump] =
      op.targets.map (·, values.length) ++ Depth.branches values.length [jump] := by
    simp only [Depth.branches, heffect, if_neg (Nat.not_lt.mpr hpops), hvalues, Nat.add_zero]
  rw [hbranches, List.countP_append, countP_isPush]
  obtain _ | ⟨u, _ | ⟨v, more⟩⟩ := more
  · cases htail
    rw [htargets] at ht
    exact List.mem_append_left _ (List.mem_map.mpr ⟨target, ht, rfl⟩)
  · cases htail
    have hlast := LeavesDepths.jump hjump values _ _ _ _ rfl ht
    have hone : [s].countP Stmt.isPush = 0 := by simp [hpush]
    rw [countP_isPush] at hlast
    rw [hone, Nat.add_zero]
    exact List.mem_append_right _ hlast
  · simp at htail

/-- Statements that neither branch nor leave values come before. -/
lemma LeavesDepths.after {stack stack' : Nat} {body body' emitted added : List Stmt}
    (h : LeavesDepths stack' body' emitted) (hadded : ∀ t ∈ added, t.branchTargets = [])
    (hpushes : added.countP Stmt.isPush = 0)
    (hbranches : Depth.branches stack' body' ⊆ Depth.branches stack body) :
    LeavesDepths stack body (added ++ emitted) := by
  intro before s rest target hsplit hs
  obtain ⟨more, rfl, htail⟩ := exists_behind hadded hsplit hs
  rw [List.countP_append, hpushes, Nat.zero_add]
  exact hbranches (h more s rest target htail hs)

/-- What is emitted for a block leaves before each branch as many values as the search for the depths
follows it with. -/
lemma exists_emitted {body done : List Stmt} (hbody : RawBody body) {state final : State}
    (h : stmts names done state body = .ok final) :
    ∃ emitted, settle final = state.out ++ emitted ∧
      LeavesDepths state.stack.length body emitted := by
  induction hbody generalizing state with
  | @jump s hs =>
    rw [settle_jump (exprs_of_isJump hs).1 h]
    refine ⟨_, rfl, ?_⟩
    rw [← List.length_reverse]
    exact .jump hs _
  | ret offset =>
    obtain ⟨values, value, hsettle⟩ := settle_ret h
    refine ⟨_, hsettle, fun before s rest target hsplit hs => ?_⟩
    obtain ⟨more, -, htail⟩ := exists_behind branchTargets_push hsplit hs
    cases more with
    | nil =>
      cases htail
      cases hs
    | cons u more => simp at htail
  | @branch offset op s hop hs =>
    obtain ⟨next, hstep, h⟩ := stmts_raw h
    obtain ⟨hstack, values, branch, pops, hout, hpush, htargets, heffect, hpops, hvalues⟩ :=
      step?_leaves hop hstep
    refine ⟨values.map Stmt.push ++ [branch, s], ?_, .branch offset hpush htargets heffect hpops
      hvalues hs⟩
    rw [settle_jump (exprs_of_isJump hs).1 h, hout, hstack]
    simp
  | @label id rest hrest ih =>
    have hlabel := stmts_other rfl h
    rw [hrest.isEmpty_eq_false] at hlabel
    obtain ⟨emitted, hsettle, hleaves⟩ := ih hlabel
    refine ⟨[.label id] ++ emitted, by rw [hsettle]; simp [State.emit], ?_⟩
    exact hleaves.after (by simp [Stmt.branchTargets]) rfl (List.Subset.refl _)
  | @op offset op rest hop _ _ ih =>
    obtain ⟨next, hstep, h⟩ := stmts_raw h
    obtain ⟨emitted, hsettle, hleaves⟩ := ih h
    have hstraight := step?_straight hop hstep
    obtain ⟨pops, pushes, heffect, hpops, hlength⟩ := hstraight.depth
    obtain ⟨added, hout, hplain, -⟩ := hstraight.out
    refine ⟨added ++ emitted, by rw [hsettle, hout, List.append_assoc], ?_⟩
    refine hleaves.after ?_ ?_ ?_
    · exact fun t ht => branchTargets_of_isPlain (hplain t ht)
    · have hbuilds : Builds 0 op state next := builds_step? hstep
      have hpushes := hbuilds.pushes hop
      rw [hout, List.countP_append] at hpushes
      omega
    · simp only [Depth.branches, heffect, if_neg (Nat.not_lt.mpr hpops), hlength,
        targets_of_straight hop]
      exact List.subset_append_right _ _

end Simulation

/-! ### Ways through the blocks -/

/-- The statements of a block of stack operations. -/
lemma StackMachine.RawBody.kinds {body : List Stmt} (h : RawBody body) {s : Stmt} (hs : s ∈ body) :
    s.isRaw = true ∨ isJump s = true ∨ ∃ id, s = .label id := by
  induction h with
  | jump hlast =>
    rw [List.mem_singleton.mp hs]
    exact .inr (.inl hlast)
  | ret offset =>
    rw [List.mem_singleton.mp hs]
    exact .inl rfl
  | branch offset _ hlast =>
    rcases List.mem_pair.mp hs with rfl | rfl
    · exact .inl rfl
    · exact .inr (.inl hlast)
  | label id _ ih =>
    rcases List.mem_cons.mp hs with rfl | hs
    · exact .inr (.inr ⟨id, rfl⟩)
    · exact ih hs
  | op offset _ _ _ ih =>
    rcases List.mem_cons.mp hs with rfl | hs
    · exact .inl rfl
    · exact ih hs

/-- Those that go anywhere are operations and jumps. -/
lemma StackMachine.RawBody.isRaw_or_goto {body : List Stmt} (h : RawBody body) {s : Stmt}
    (hs : s ∈ body) (htargets : s.branchTargets ≠ []) : s.isRaw = true ∨ ∃ target, s = .goto target := by
  rcases h.kinds hs with hraw | hjump | ⟨id, rfl⟩
  · exact .inl hraw
  · cases s with
    | goto target => exact .inr ⟨target, rfl⟩
    | exit => exact absurd rfl htargets
    | _ => cases hjump
  · exact absurd rfl htargets

/-- An operation that goes anywhere puts nothing on the stack. -/
lemma effect?_of_mem_targets {op : StackOp} {pops pushes : Nat} {target : LabelId}
    (heffect : op.effect? = some (pops, pushes)) (htarget : target ∈ op.targets) : pushes = 0 := by
  cases op with
  | branchTrue | branchFalse | pushEnv | popEnv | dispatch =>
    cases heffect
    rfl
  | _ => cases htarget

/-- What statements that find enough values leave is what they found and the sum of their effects. -/
lemma Stmt.foldl_depthAfter_eq {depth : Nat} {list : List Stmt} (h : enough depth list = true) :
    ((list.foldl depthAfter depth : Nat) : Int) = depth + (list.map netEffect).sum := by
  induction list generalizing depth with
  | nil => simp
  | cons s rest ih =>
    simp only [enough, Bool.and_eq_true] at h
    have hone : (s.depthAfter depth : Int) = depth + s.netEffect := by
      cases s with
      | raw offset op =>
        obtain ⟨pops, pushes, heffect, hle⟩ := finds_raw.mp h.1
        rw [depthAfter_raw heffect]
        simp only [netEffect, stackOp?, heffect, Option.bind_some]
        omega
      | _ => simp [depthAfter, netEffect, stackOp?]
    rw [List.foldl_cons, ih h.2, hone, List.map_cons, List.sum_cons, Int.add_assoc]

namespace Depth

/-- The statements along a way of branches from the first block to the start of the block with the
label `label`, those of the branches included. -/
inductive Way (blocks : List BasicBlock) : LabelId → List Stmt → Prop where
  | first {label : LabelId} (h : firstLabel? blocks = some label) : Way blocks label []
  | branch {label target : LabelId} {stmts before rest : List Stmt} {s : Stmt}
      (h : Way blocks label stmts) (hbody : BodyOf blocks label (before ++ s :: rest))
      (hs : target ∈ s.branchTargets) : Way blocks target (stmts ++ (before ++ [s]))

/-- A table of depths that goes with the effects up to every branch gives the effects along every way. -/
lemma Way.sum_eq {blocks : List BasicBlock} (depths : Option LabelId → Int)
    (hfirst : depths (firstLabel? blocks) = 0)
    (hbranch : ∀ block ∈ blocks, ∀ p ∈ block.body.zipIdx, ∀ target ∈ p.1.branchTargets,
      depths (some target) =
        depths block.entryLabel? + ((block.body.take (p.2 + 1)).map Stmt.netEffect).sum)
    {label : LabelId} {stmts : List Stmt} (h : Way blocks label stmts) :
    (stmts.map Stmt.netEffect).sum = depths (some label) := by
  induction h with
  | first hlabel => rw [← hlabel, hfirst, List.map_nil, List.sum_nil]
  | @branch label target stmts before rest s _ hbody hs ih =>
    obtain ⟨block, hblock, hlabel, hsplit⟩ := hbody
    have hat : block.body[before.length]? = some s := by simp [hsplit]
    have htake : block.body.take (before.length + 1) = before ++ [s] := by
      rw [hsplit, List.append_cons]
      exact List.take_left' (by simp)
    rw [hbranch block hblock (s, before.length) (List.mem_zipIdx_iff_getElem?.mpr hat) target hs, hlabel,
      htake, ← ih, List.map_append, List.sum_append]

/-- The search follows a branch of a block with the depth behind it. -/
lemma mem_branches {depth : Nat} {before rest : List Stmt} {s : Stmt} {target : LabelId}
    (hkind : s.isRaw = true ∨ ∃ target, s = .goto target) (hs : target ∈ s.branchTargets)
    (henough : Stmt.enough depth (before ++ [s]) = true) :
    (target, (before ++ [s]).foldl Stmt.depthAfter depth) ∈ branches depth (before ++ s :: rest) := by
  induction before generalizing depth with
  | nil =>
    simp only [List.nil_append, Stmt.enough, Bool.and_true] at henough
    cases s with
    | raw offset op =>
      obtain ⟨pops, pushes, heffect, hle⟩ := Stmt.finds_raw.mp henough
      obtain rfl := effect?_of_mem_targets heffect hs
      simp only [List.nil_append, List.foldl_cons, List.foldl_nil, Stmt.depthAfter_raw heffect, branches,
        heffect, if_neg (Nat.not_lt.mpr hle)]
      exact List.mem_append_left _ (List.mem_map.mpr ⟨target, hs, rfl⟩)
    | goto id =>
      rw [List.mem_singleton.mp hs]
      exact List.mem_cons_self
    | _ =>
      obtain hraw | ⟨_, hgoto⟩ := hkind
      · cases hraw
      · cases hgoto
  | cons u before ih =>
    simp only [List.cons_append, Stmt.enough, Bool.and_eq_true] at henough
    have hlater := ih henough.2
    cases u with
    | raw offset op =>
      obtain ⟨pops, pushes, heffect, hle⟩ := Stmt.finds_raw.mp henough.1
      simp only [List.cons_append, List.foldl_cons, Stmt.depthAfter_raw heffect, branches, heffect,
        if_neg (Nat.not_lt.mpr hle)] at hlater ⊢
      exact List.mem_append_right _ hlater
    | goto id => exact List.mem_cons_of_mem _ hlater
    | _ => exact hlater

/-- What the search follows is a branch of the block, with the depth behind it. -/
lemma exists_of_mem_branches {depth value : Nat} {body : List Stmt} {target : LabelId}
    (h : (target, value) ∈ branches depth body) :
    ∃ before s rest, body = before ++ s :: rest ∧ target ∈ s.branchTargets ∧
      value = (before ++ [s]).foldl Stmt.depthAfter depth := by
  induction body generalizing depth with
  | nil => cases h
  | cons u body ih =>
    -- A branch further on is one behind the first statement.
    have hlater : (target, value) ∈ branches (u.depthAfter depth) body →
        ∃ before s rest, u :: body = before ++ s :: rest ∧ target ∈ s.branchTargets ∧
          value = (before ++ [s]).foldl Stmt.depthAfter depth := by
      intro hmem
      obtain ⟨before, s, rest, rfl, hs, hvalue⟩ := ih hmem
      exact ⟨u :: before, s, rest, rfl, hs, hvalue⟩
    cases u with
    | raw offset op =>
      simp only [branches] at h
      split at h
      · cases h
      · rename_i pops pushes heffect
        rw [Stmt.depthAfter_raw heffect] at hlater
        split at h
        · cases h
        · rcases List.mem_append.mp h with h | h
          · obtain ⟨_, htarget, heq⟩ := List.mem_map.mp h
            cases heq
            obtain rfl := effect?_of_mem_targets heffect htarget
            refine ⟨[], .raw offset op, body, rfl, htarget, ?_⟩
            simp [Stmt.depthAfter_raw heffect]
          · exact hlater h
    | goto id =>
      rcases List.mem_cons.mp h with heq | h
      · cases heq
        exact ⟨[], .goto target, body, rfl, List.mem_singleton_self _, rfl⟩
      · exact hlater h
    | _ => exact hlater h

variable {bound : Nat} {blocks : List BasicBlock}

/-- Along a way each operation finds the values it takes, and the block at its end is entered with what
they leave, as long as that fits into 16 bits everywhere. -/
lemma Way.enters (hraw : ∀ block ∈ blocks, RawBody block.body) (hsupplied : Supplied blocks)
    (hsmall : ∀ label stmts, Way blocks label stmts → (stmts.map Stmt.netEffect).sum < 2 ^ 16)
    {label : LabelId} {stmts : List Stmt} (h : Way blocks label stmts) :
    Stmt.enough 0 stmts = true ∧ stmts.foldl Stmt.depthAfter 0 < 2 ^ 16 ∧
      Enters blocks label (stmts.foldl Stmt.depthAfter 0) := by
  have hfits : ∀ {label : LabelId} {stmts : List Stmt}, Way blocks label stmts →
      Stmt.enough 0 stmts = true → stmts.foldl Stmt.depthAfter 0 < 2 ^ 16 := by
    intro label stmts hway henough
    have hsum := Stmt.foldl_depthAfter_eq henough
    have hlt := hsmall label stmts hway
    omega
  induction h with
  | first hfirst => exact ⟨rfl, Nat.two_pow_pos 16, .first hfirst⟩
  | @branch label target stmts before rest s hway hbody hs ih =>
    obtain ⟨henough, hlt, henters⟩ := ih
    have hblock := hsupplied.enough label _ _ hbody (.inl henters)
    rw [Nat.pow_eq, Nat.mod_eq_of_lt hlt, List.append_cons, Stmt.enough_append] at hblock
    have hall : Stmt.enough 0 (stmts ++ (before ++ [s])) = true :=
      Stmt.enough_append.mpr ⟨henough, hblock.1⟩
    refine ⟨hall, hfits (.branch hway hbody hs) hall, ?_⟩
    obtain ⟨block, hmem, hlabel, hsplit⟩ := hbody
    have hkind := (hraw block hmem).isRaw_or_goto (s := s) (by simp [hsplit]) (List.ne_nil_of_mem hs)
    rw [List.foldl_append]
    exact .branch henters ⟨block, hmem, hlabel, hsplit⟩ (mem_branches hkind hs hblock.1)

end Depth

/-! ### The depths that are assigned -/

section Simulate

variable {names : Names} {labels : Labels} {bound : Nat} {sources results : List BasicBlock}

/-- Each result is the simulation of a source with the same label, from the depth that the search has
found. -/
lemma exists_source (hwf : WellFormed bound sources) (h : simulate names labels sources = .ok results)
    {result : BasicBlock} (hresult : result ∈ results) :
    ∃ source ∈ sources, ∃ label depth, result.entryLabel? = some label ∧ source.Shaped label ∧
      Depth.Starts sources label depth ∧ result.entryDepth = depth % 2 ^ 16 ∧
      ∃ done scopes scopes', Simulation.block names done scopes result.entryDepth source.body =
        .ok (result.body, scopes') := by
  obtain ⟨i, hi⟩ := List.mem_iff_getElem?.mp hresult
  rcases Depth.entryDepths_cases labels hwf with ⟨-, depths, hdepths, hstarts⟩ | ⟨error, herror, -⟩
  · have houtline := (simulate_outline hwf h).1
    rw [simulate, hdepths] at h
    obtain ⟨source, hsource, hblock⟩ := StackMachine.exists_block h hi
    have hat : sources[i]? = some source := (List.getElem?_zip_eq_some.mp hsource).1
    obtain ⟨label, -, hshaped⟩ := hwf.shaped source (List.mem_of_getElem? hat)
    have hlabel : result.entryLabel? = some label := by
      have hlabels := congrArg (fun list => list[i]?) houtline
      simpa [hi, hat, hshaped.entryLabel?] using hlabels
    obtain ⟨depth, hdepth, hentry⟩ :=
      List.forall₂_zip hstarts (List.mem_of_getElem? hsource) label hshaped.entryLabel?
    exact ⟨source, List.mem_of_getElem? hat, label, depth, hlabel, hshaped, hdepth, hentry, hblock⟩
  · rw [simulate, herror] at h
    cases h

/-- The depth of a block that is entered is the one that it is entered with. -/
lemma entryDepth_eq (hwf : WellFormed bound sources) (h : simulate names labels sources = .ok results)
    (hagrees : Depth.Agrees sources) {result : BasicBlock} (hresult : result ∈ results)
    {label : LabelId} (hlabel : result.entryLabel? = some label) {depth : Nat}
    (henters : Depth.Enters sources label depth) (hlt : depth < 2 ^ 16) :
    result.entryDepth = depth := by
  obtain ⟨-, -, label', value, hlabel', -, hvalue, hdepth, -⟩ := exists_source hwf h hresult
  rw [hlabel] at hlabel'
  cases hlabel'
  rw [hdepth, hvalue.unique hagrees (.inl henters), Nat.mod_eq_of_lt hlt]

/-- A block that is entered has a result. -/
lemma exists_result (hwf : WellFormed bound sources) (h : simulate names labels sources = .ok results)
    {label : LabelId} {depth : Nat} (henters : Depth.Enters sources label depth) :
    ∃ result ∈ results, result.entryLabel? = some label := by
  have hlabel : some label ∈ sources.map BasicBlockOf.entryLabel? := by
    cases henters with
    | first hfirst =>
      obtain ⟨first, rest, rfl⟩ := List.exists_cons_of_ne_nil hwf.nonempty
      rw [← hfirst]
      exact List.mem_cons_self
    | branch _ hbody hbranch =>
      obtain ⟨block, hblock, -, rfl⟩ := hbody
      exact hwf.closed _ (List.mem_flatMap.mpr ⟨block, hblock, Depth.mem_targetsOfList hbranch⟩)
  rw [← (simulate_outline hwf h).1] at hlabel
  exact List.mem_map.mp hlabel

/-- Simulated blocks hold no stack operations. -/
lemma count_isRaw_simulate (hwf : WellFormed bound sources)
    (hraw : ∀ block ∈ sources, RawBody block.body) (h : simulate names labels sources = .ok results)
    {result : BasicBlock} (hresult : result ∈ results) {s : Stmt} (hs : s ∈ result.body) :
    s.count Stmt.isRaw = 0 := by
  obtain ⟨source, hsource, label, -, -, hshaped, -, -, done, scopes, scopes', hblock⟩ :=
    exists_source hwf h hresult
  rcases (Simulation.isSimulated_block hshaped hblock).kinds s hs with hplain | hbranch | ⟨hmem, hop⟩
  · cases s with
    | push _ | assign _ _ | call _ _ | discard _ | ret _ => rfl
    | _ => cases hplain
  · cases s with
    | condGoto _ _ | pushEnv _ _ | popEnv _ | dispatch _ _ _ => rfl
    | _ => cases hbranch
  · rcases (hraw source hsource).kinds hmem with hrawStmt | hjump | ⟨id, rfl⟩
    · rw [Stmt.isRaw, hop] at hrawStmt
      cases hrawStmt
    · cases s with
      | goto _ | exit => rfl
      | _ => cases hjump
    · rfl

/-- The depths that simulation assigns are the true ones, as long as they fit into 16 bits.  Along each
way from the first block the operations find the values they take, and their effects add up to the depth
of the block at its end.  Every block mentions incoming values from below its depth, and holds no stack
operation any more.  Before each branch of a block that a way leads to there stand as many `push`
statements as the depth of the block that the branch goes to. -/
theorem simulate_entryDepth (hwf : WellFormed bound sources)
    (hraw : ∀ block ∈ sources, RawBody block.body)
    (hsmall : ∀ label stmts, Depth.Way sources label stmts →
      (stmts.map Stmt.netEffect).sum < 2 ^ 16)
    (h : simulate names labels sources = .ok results) :
    results.map BasicBlockOf.entryLabel? = sources.map BasicBlockOf.entryLabel? ∧
      (∀ label stmts, Depth.Way sources label stmts → Stmt.enough 0 stmts = true ∧
        ∃ result ∈ results, result.entryLabel? = some label ∧
          (result.entryDepth : Int) = (stmts.map Stmt.netEffect).sum) ∧
      (∀ result ∈ results, ∀ s ∈ result.body, s.count Stmt.isRaw = 0 ∧
        ∀ e ∈ s.exprs, ∀ k, mentions (Expr.isIncoming k) e = true → k < result.entryDepth) ∧
      ∀ label stmts, Depth.Way sources label stmts →
        ∀ result ∈ results, result.entryLabel? = some label →
          ∀ before s rest target, result.body = before ++ s :: rest → target ∈ s.branchTargets →
            ∃ next ∈ results, next.entryLabel? = some target ∧
              next.entryDepth = before.countP Stmt.isPush := by
  have hsupplied := ((simulates_iff names labels hwf hraw).mp ⟨results, h⟩).1
  refine ⟨(simulate_outline hwf h).1, ?_, ?_, ?_⟩
  · intro label stmts hway
    obtain ⟨henough, hlt, henters⟩ := hway.enters hraw hsupplied hsmall
    obtain ⟨result, hresult, hlabel⟩ := exists_result hwf h henters
    refine ⟨henough, result, hresult, hlabel, ?_⟩
    rw [entryDepth_eq hwf h hsupplied.agrees hresult hlabel henters hlt,
      Stmt.foldl_depthAfter_eq henough, Int.natCast_zero, Int.zero_add]
  · intro result hresult s hs
    refine ⟨count_isRaw_simulate hwf hraw h hresult hs, fun e he k hk => ?_⟩
    obtain ⟨source, hsource, -, -, -, -, -, -, done, scopes, scopes', hblock⟩ :=
      exists_source hwf h hresult
    exact (Simulation.below_block (hraw source hsource) hblock s hs e he).lt hk
  · intro label stmts hway result hresult hlabel before s rest target hbody hs
    obtain ⟨-, hlt, henters⟩ := hway.enters hraw hsupplied hsmall
    have hentry := entryDepth_eq hwf h hsupplied.agrees hresult hlabel henters hlt
    obtain ⟨source, hsource, label', -, hlabel', hshaped, -, -, done, scopes, scopes', hblock⟩ :=
      exists_source hwf h hresult
    rw [hlabel] at hlabel'
    cases hlabel'
    obtain ⟨final, hstmts, hblock⟩ := Except.bind_eq_ok_iff.mp hblock
    obtain ⟨emitted, hsettle, hleaves⟩ := Simulation.exists_emitted (hraw source hsource) hstmts
    obtain ⟨hfinal, -⟩ := Prod.mk.inj (Except.ok.inj hblock)
    have hbranch := hleaves before s rest target (by rw [← hbody, ← hfinal, hsettle]; rfl) hs
    rw [Simulation.length_incomingStack, hentry] at hbranch
    -- The branch leads on along the way.
    obtain ⟨before', s', rest', hsplit, hs', hvalue⟩ := Depth.exists_of_mem_branches hbranch
    have hway' := hway.branch ⟨source, hsource, hshaped.entryLabel?, hsplit⟩ hs'
    obtain ⟨-, hlt', henters'⟩ := hway'.enters hraw hsupplied hsmall
    rw [List.foldl_append, ← hvalue] at hlt' henters'
    obtain ⟨next, hnext, hnextLabel⟩ := exists_result hwf h henters'
    exact ⟨next, hnext, hnextLabel,
      entryDepth_eq hwf h hsupplied.agrees hnext hnextLabel henters' hlt'⟩

end Simulate

/-- A loop that counts down from three, with the counter on the stack. -/
def countdownBlocks : List BasicBlock :=
  [{ body := [.label 0, .raw 0 (.push (.int 3)), .goto 1] },
    { body := [.label 1, .raw 4 (.push (.int 1)), .raw 8 (.binary .sub), .raw 12 (.dup 0),
      .raw 16 (.branchTrue 2), .goto 1] },
    { body := [.label 2, .raw 20 .popz, .exit] }]

theorem countdownBlocks_entryDepth :
    ∃ results, simulate {} {} countdownBlocks = .ok results ∧
      results.map BasicBlockOf.entryDepth = [0, 1, 1] ∧
      ∀ label stmts, Depth.Way countdownBlocks label stmts → Stmt.enough 0 stmts = true ∧
        ∃ result ∈ results, result.entryLabel? = some label ∧
          (result.entryDepth : Int) = (stmts.map Stmt.netEffect).sum := by
  let counter : Expr := .binary .sub (.incoming 0) (.const (.int 1))
  have hsimulate : simulate {} {} countdownBlocks = .ok
      [{ body := [.label 0, .push (.const (.int 3)), .goto 1] },
        { entryDepth := 1, body := [.label 1, .push counter, .condGoto counter 2, .goto 1] },
        { entryDepth := 1, body := [.label 2, .discard (.incoming 0), .exit] }] := rfl
  have hwf : WellFormed 3 countdownBlocks := by decide
  have hraw : ∀ block ∈ countdownBlocks, RawBody block.body := by
    simp only [countdownBlocks, List.forall_mem_cons]
    exact ⟨.label 0 (.op 0 rfl nofun (.jump rfl)),
      .label 1 (.op 4 rfl nofun (.op 8 rfl nofun (.op 12 rfl nofun (.branch 16 rfl rfl)))),
      .label 2 (.op 20 rfl nofun (.jump rfl)), by simp⟩
  have hsmall : ∀ label stmts, Depth.Way countdownBlocks label stmts →
      (stmts.map Stmt.netEffect).sum < 2 ^ 16 := by
    intro label stmts hway
    rw [hway.sum_eq (fun label => if label = some 0 then 0 else 1) rfl (by decide)]
    split <;> decide
  exact ⟨_, hsimulate, rfl, (simulate_entryDepth hwf hraw hsmall hsimulate).2.1⟩

end Decompiler
