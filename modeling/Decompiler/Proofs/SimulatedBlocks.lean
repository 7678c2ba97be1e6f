import Decompiler.Proofs.WellFormedLists
import Decompiler.Stack.Simulation

/-!
# The shape of simulated blocks

An operation that stays in its block leaves at most one statement, without labels or targets; a branch
leaves the values on the stack and then one statement with the same targets (`Simulation.step?_straight`,
`Simulation.step?_branch`).  So a block keeps its label and its targets when its stack is simulated.

It keeps its shape, too, unless it ends in a branch that is a statement already and meets values on the
stack: these are left between the branch and the jump behind it.  `wellFormed_simulate_iff` says that
nothing else goes wrong.
-/

namespace Decompiler

open Bytecode

namespace Stmt

/-- Whether the statement is one that an operation inside a block leaves. -/
def isPlain : Stmt → Bool
  | .push _ | .assign _ _ | .call _ _ | .discard _ | .ret _ => true
  | _ => false

/-- Whether the statement is one that a branch leaves. -/
def isBranch : Stmt → Bool
  | .condGoto _ _ | .pushEnv _ _ | .popEnv _ | .dispatch _ _ _ => true
  | _ => false

/-- A plain statement has no labels, no targets and no branch. -/
lemma outline_of_isPlain {s : Stmt} (h : s.isPlain = true) :
    s.labels = [] ∧ s.targets = [] ∧ s.isConditional = false := by
  cases s with
  | push _ | assign _ _ | call _ _ | discard _ | ret _ => exact ⟨rfl, rfl, rfl⟩
  | _ => cases h

/-- A branch has no labels. -/
lemma outline_of_isBranch {s : Stmt} (h : s.isBranch = true) :
    s.labels = [] ∧ s.isConditional = true := by
  cases s with
  | condGoto _ _ | pushEnv _ _ | popEnv _ | dispatch _ _ _ => exact ⟨rfl, rfl⟩
  | _ => cases h

/-- Plain statements have no labels and no targets. -/
lemma outline_of_plainList {list : List Stmt} (h : ∀ s ∈ list, s.isPlain = true) :
    IsMiddle list ∧ targetsOfList list = [] := by
  induction list with
  | nil => exact ⟨isMiddle_nil, rfl⟩
  | cons s rest ih =>
    rw [List.forall_mem_cons] at h
    obtain ⟨hlabels, htargets, hstraight⟩ := outline_of_isPlain h.1
    obtain ⟨hmiddle, hrest⟩ := ih h.2
    refine ⟨⟨?_, ?_⟩, ?_⟩
    · rw [labelsOfList, hlabels, hmiddle.labels]
      rfl
    · exact List.forall_mem_cons.mpr ⟨hstraight, hmiddle.straight⟩
    · rw [targetsOfList, htargets, hrest]
      rfl

/-- The values that a branch leaves. -/
lemma isPlain_push {values : List Expr} : ∀ s ∈ values.map push, s.isPlain = true := by
  intro s hs
  obtain ⟨value, -, rfl⟩ := List.mem_map.mp hs
  rfl

/-- The number of values on the stack behind a statement. -/
def depthAfter (depth : Nat) (s : Stmt) : Nat :=
  match s.stackOp?.bind StackOp.effect? with
  | some (pops, pushes) => depth - pops + pushes
  | none => depth

end Stmt

namespace Simulation

variable {names : Names} {op : StackOp} {state state' : State}

/-! ### Single operations -/

/-- The index of a variable, where it has one, is taken off the top. -/
lemma takeIndex?_eq_some {ref : VarRef} {stack rest : List Expr} {index : Option Expr}
    (h : takeIndex? ref stack = some (index, rest)) :
    stack = index.toList ++ rest ∧ index.isSome = ref.array := by
  unfold takeIndex? at h
  split at h
  · rename_i harray
    match stack, h with
    | value :: stack, h =>
      cases h
      exact ⟨rfl, harray.symm⟩
  · rename_i harray
    cases h
    exact ⟨rfl, ((Bool.not_eq_true _).mp harray).symm⟩

/-- The instance of a variable is taken off the top, or it is known by name. -/
lemma takeOwner?_eq_some {ref : VarRef} {stack rest : List Expr} {owner : Owner}
    (h : takeOwner? names ref stack = some (owner, rest)) :
    (ref.owner = 0 ∧ ∃ e, stack = e :: rest ∧ owner = ownerOf names e) ∨
      ref.owner ≠ 0 ∧ stack = rest ∧ owner = .named (names.instanceName ref.owner.toInt) := by
  unfold takeOwner? at h
  split at h
  · rename_i hzero
    match stack, h with
    | value :: stack, h =>
      cases h
      exact .inl ⟨hzero, value, rfl, rfl⟩
  · rename_i hzero
    cases h
    exact .inr ⟨hzero, rfl, rfl⟩

/-- What names a variable is taken off the top, the index above the instance. -/
lemma takeVariable?_eq_some {ref : VarRef} {stack rest : List Expr} {v : Variable}
    (h : takeVariable? names ref stack = some (v, rest)) :
    ∃ index : Option Expr, index.isSome = ref.array ∧
      ((ref.owner = 0 ∧ ∃ e, stack = index.toList ++ e :: rest ∧
          v = ⟨ref.name, ownerOf names e, index⟩) ∨
        ref.owner ≠ 0 ∧ stack = index.toList ++ rest ∧
          v = ⟨ref.name, .named (names.instanceName ref.owner.toInt), index⟩) := by
  simp only [takeVariable?, Option.bind_eq_bind, Option.bind_eq_some_iff] at h
  obtain ⟨⟨index, middle⟩, hindex, ⟨owner, last⟩, howner, h⟩ := h
  obtain ⟨rfl, rfl⟩ := Prod.mk.inj (Option.some.inj h)
  obtain ⟨rfl, harray⟩ := takeIndex?_eq_some hindex
  obtain ⟨hzero, e, rfl, rfl⟩ | ⟨hzero, rfl, rfl⟩ := takeOwner?_eq_some howner
  · exact ⟨index, harray, .inl ⟨hzero, e, rfl, rfl⟩⟩
  · exact ⟨index, harray, .inr ⟨hzero, rfl, rfl⟩⟩

/-- Naming a variable takes as many values as it has operands on the stack. -/
lemma length_takeVariable? {ref : VarRef} {stack rest : List Expr} {v : Variable}
    (h : takeVariable? names ref stack = some (v, rest)) :
    rest.length + ref.stackOperands = stack.length := by
  obtain ⟨index, harray, ⟨hzero, e, rfl, -⟩ | ⟨hzero, rfl, -⟩⟩ := takeVariable?_eq_some h
  · cases index <;> simp [VarRef.stackOperands, hzero, ← harray]
  · cases index <;> simp [VarRef.stackOperands, hzero, ← harray]

/-- A dropped value leaves a plain statement. -/
lemma isPlain_dropped (value : Expr) : (dropped value).isPlain = true := by
  cases value <;> rfl

/-- What an operation inside a block does: it changes the number of values as its effect says and adds
plain statements. -/
structure Straight (op : StackOp) (state state' : State) : Prop where
  depth : ∃ pops pushes, op.effect? = some (pops, pushes) ∧ pops ≤ state.stack.length ∧
    state'.stack.length = state.stack.length - pops + pushes
  out : ∃ added, state'.out = state.out ++ added ∧ (∀ s ∈ added, s.isPlain = true) ∧
    (op = .ret → ∃ value, added = [.ret value])
  scopes : state'.scopes = state.scopes

/-- An operation that only changes the stack. -/
lemma Straight.moved {stack : List Expr} {pops pushes : Nat} (heffect : op.effect? = some (pops, pushes))
    (hpops : pops ≤ state.stack.length) (hlength : stack.length = state.stack.length - pops + pushes)
    (hret : op ≠ .ret) : Straight op state { state with stack } where
  depth := ⟨pops, pushes, heffect, hpops, hlength⟩
  out := ⟨[], (List.append_nil _).symm, by simp, fun h => absurd h hret⟩
  scopes := rfl

/-- An operation that adds a statement. -/
lemma Straight.emitted {stack : List Expr} {s : Stmt} {pops : Nat} (heffect : op.effect? = some (pops, 0))
    (hlength : stack.length + pops = state.stack.length) (hplain : s.isPlain = true)
    (hret : op = .ret → ∃ value, s = .ret value) :
    Straight op state (State.emit { state with stack } s) where
  depth := by
    refine ⟨pops, 0, heffect, by omega, ?_⟩
    change stack.length = _
    omega
  out := by
    refine ⟨[s], rfl, by simpa using hplain, fun h => ?_⟩
    obtain ⟨value, rfl⟩ := hret h
    exact ⟨value, rfl⟩
  scopes := rfl

/-- An operation that stays in the block. -/
lemma step?_straight (hop : op.isConditional = false) (h : step? names state op = some state') :
    Straight op state state' := by
  obtain ⟨stack, out, scopes⟩ := state
  cases op with
  | push | pushTemporary =>
    cases h
    exact .moved rfl (Nat.zero_le _) rfl (by simp)
  | pushVar ref =>
    obtain ⟨⟨v, rest⟩, htake, h⟩ := Option.bind_eq_some_iff.mp h
    cases h
    have hlength := length_takeVariable? htake
    refine .moved rfl ?_ ?_ (by simp) <;> simp only [List.length_cons] at * <;> omega
  | pop ref swapped =>
    cases swapped with
    | true =>
      match stack, h with
      | value :: stack, h =>
        obtain ⟨⟨target, rest⟩, htake, h⟩ := Option.bind_eq_some_iff.mp h
        cases h
        have hlength := length_takeVariable? htake
        refine .emitted rfl ?_ rfl (by simp)
        simp only [List.length_cons]
        omega
    | false =>
      obtain ⟨⟨target, stack'⟩, htake, h⟩ := Option.bind_eq_some_iff.mp h
      match stack', h with
      | value :: rest, h =>
        cases h
        have hlength := length_takeVariable? htake
        refine .emitted rfl ?_ rfl (by simp)
        simp only [List.length_cons] at hlength ⊢
        omega
  | popTemporary =>
    match stack, h with
    | value :: rest, h =>
      cases h
      exact .emitted rfl rfl rfl (by simp)
  | unary =>
    match stack, h with
    | value :: rest, h =>
      cases h
      exact .moved rfl (by simp) (by simp) (by simp)
  | popz =>
    match stack, h with
    | value :: rest, h =>
      cases h
      exact .emitted rfl rfl (isPlain_dropped value) (by simp)
  | ret =>
    match stack, h with
    | value :: rest, h =>
      cases h
      exact .emitted rfl rfl rfl (fun _ => ⟨value, rfl⟩)
  | binary op =>
    match stack, h with
    | right :: left :: rest, h =>
      cases h
      exact .moved rfl (by simp) (by simp) (by simp)
  | dup flag =>
    simp only [step?] at h
    split at h
    · rename_i hzero
      match stack, h with
      | a :: rest, h =>
        cases h
        have heffect : (StackOp.dup flag).effect? = some (1, 2) := by simp [StackOp.effect?, hzero]
        exact .moved heffect (by simp) (by simp) (by simp)
    · rename_i hzero
      split at h
      · rename_i hone
        match stack, h with
        | b :: a :: rest, h =>
          cases h
          have heffect : (StackOp.dup flag).effect? = some (2, 4) := by simp [StackOp.effect?, hone]
          exact .moved heffect (by simp) (by simp) (by simp)
      · cases h
  | call name argc =>
    simp only [step?] at h
    split at h
    · cases h
    · rename_i hlength
      cases h
      exact .moved rfl (Nat.le_of_not_lt hlength) (by simp) (by simp)
  | branchTrue | branchFalse | pushEnv | popEnv | dispatch => cases hop

/-- What a branch does: it leaves the values on the stack, and then a statement that goes where the
branch goes. -/
structure Branched (op : StackOp) (state state' : State) : Prop where
  stack : state'.stack = []
  out : ∃ (values : List Expr) (s : Stmt), state'.out = state.out ++ values.map Stmt.push ++ [s] ∧ s.isBranch = true ∧
    s.targets = op.targets

/-- A branch on a stack that has enough values. -/
lemma step?_branch (hop : op.isConditional = true) (h : step? names state op = some state') :
    Branched op state state' := by
  obtain ⟨stack, out, scopes⟩ := state
  cases op with
  | branchTrue | branchFalse | pushEnv =>
    match stack, h with
    | value :: rest, h =>
      cases h
      exact ⟨rfl, rest.reverse, _, rfl, rfl, rfl⟩
  | popEnv =>
    match scopes, h with
    | scopes + 1, h =>
      cases h
      exact ⟨rfl, stack.reverse, _, rfl, rfl, rfl⟩
  | dispatch cases default =>
    match stack, h with
    | value :: rest, h =>
      cases h
      refine ⟨rfl, rest.reverse, _, rfl, rfl, ?_⟩
      simp [Stmt.targets, Stmt.branchTargets, StackOp.targets, List.map_map, Function.comp_def]
  | _ => cases hop

/-- A stack operation of a block that succeeds. -/
lemma stmts_raw {done rest : List Stmt} {offset : Nat} {final : State}
    (h : stmts names done state (.raw offset op :: rest) = .ok final) :
    ∃ next, step? names state op = some next ∧ stmts names done next rest = .ok final := by
  rw [stmts, step] at h
  cases hstep : step? names state op with
  | none => simp [hstep] at h
  | some next => exact ⟨next, rfl, by simpa [hstep] using h⟩

/-- A statement of a block that is no stack operation. -/
lemma stmts_other {done rest : List Stmt} {s : Stmt} {final : State} (hs : s.stackOp? = none)
    (h : stmts names done state (s :: rest) = .ok final) :
    stmts names done ((if rest.isEmpty then state.flush else state).emit s) rest = .ok final := by
  cases s with
  | raw offset op => cases hs
  | _ =>
    rw [stmts] at h
    · exact h
    · simp

/-- A label before the rest of a block. -/
lemma stmts_label {done rest : List Stmt} {id : LabelId} (hrest : rest ≠ []) :
    stmts names done state (.label id :: rest) = stmts names done (state.emit (.label id)) rest := by
  rw [stmts, List.isEmpty_eq_false_iff.mpr hrest]
  · rfl
  · simp

/-! ### Whole blocks -/

/-- What the middle of a block leaves: its statements, and plain ones for its stack operations. -/
structure Passed (middle : List Stmt) (state state' : State) : Prop where
  depth : state'.stack.length = middle.foldl Stmt.depthAfter state.stack.length
  out : ∃ added, state'.out = state.out ++ added ∧ Stmt.IsMiddle added ∧
    Stmt.targetsOfList added = Stmt.targetsOfList middle ∧
    ∀ s ∈ added, s.isPlain = true ∨ s ∈ middle ∧ s.stackOp? = none

/-- Straight operations have no targets. -/
lemma targets_of_straight (hop : op.isConditional = false) : op.targets = [] := by
  cases op with
  | branchTrue | branchFalse | pushEnv | popEnv | dispatch => cases hop
  | _ => rfl

/-- The middle of a block is simulated before the rest. -/
lemma stmts_middle {done middle rest : List Stmt} {final : State} (hmiddle : Stmt.IsMiddle middle)
    (hrest : rest ≠ []) (h : stmts names done state (middle ++ rest) = .ok final) :
    ∃ state', Passed middle state state' ∧ stmts names done state' rest = .ok final := by
  induction middle generalizing state with
  | nil =>
    refine ⟨state, ⟨rfl, [], (List.append_nil _).symm, Stmt.isMiddle_nil, rfl, by simp⟩, h⟩
  | cons s middle ih =>
    have hsplit : Stmt.IsMiddle ([s] ++ middle) := hmiddle
    obtain ⟨hs, hlater⟩ := Stmt.isMiddle_append.mp hsplit
    have hstraight := hs.straight s List.mem_cons_self
    -- The statements that the first one leaves come before those of the others.
    have hjoin : ∀ {next final : State} {first : List Stmt}, Passed middle next final →
        next.stack.length = s.depthAfter state.stack.length → next.out = state.out ++ first →
        Stmt.IsMiddle first → Stmt.targetsOfList first = s.targets →
        (∀ t ∈ first, t.isPlain = true ∨ t = s ∧ s.stackOp? = none) →
        Passed (s :: middle) state final := by
      intro next final first hpassed hdepth hout hfirst htargets hkinds
      obtain ⟨added, hadded, haddedMiddle, haddedTargets, haddedKinds⟩ := hpassed.out
      refine ⟨by rw [hpassed.depth, hdepth]; rfl, first ++ added, ?_, ?_, ?_, ?_⟩
      · rw [hadded, hout, List.append_assoc]
      · exact Stmt.isMiddle_append.mpr ⟨hfirst, haddedMiddle⟩
      · rw [Stmt.targetsOfList_append, htargets, haddedTargets]
        rfl
      · intro t ht
        rcases List.mem_append.mp ht with ht | ht
        · rcases hkinds t ht with hplain | ⟨rfl, hnone⟩
          · exact .inl hplain
          · exact .inr ⟨List.mem_cons_self, hnone⟩
        · exact (haddedKinds t ht).imp_right (And.imp_left (List.mem_cons_of_mem _))
    cases hop : s.stackOp? with
    | none =>
      have hnext : stmts names done _ (middle ++ rest) = .ok final := stmts_other hop h
      have hempty : (middle ++ rest).isEmpty = false := by simp [hrest]
      simp only [hempty] at hnext
      obtain ⟨final, hpassed, hfinal⟩ := ih hlater hnext
      refine ⟨final, hjoin hpassed ?_ rfl hs (by simp [Stmt.targetsOfList]) (by simp [hop]), hfinal⟩
      simp [Stmt.depthAfter, hop, State.emit]
    | some op =>
      obtain ⟨offset, rfl⟩ : ∃ offset, s = .raw offset op := by
        cases s with
        | raw offset op' =>
          cases hop
          exact ⟨offset, rfl⟩
        | _ => cases hop
      obtain ⟨next, hstep, hnext⟩ := stmts_raw h
      have hdone := step?_straight hstraight hstep
      obtain ⟨pops, pushes, heffect, -, hlength⟩ := hdone.depth
      obtain ⟨first, hout, hplain, -⟩ := hdone.out
      obtain ⟨hfirst, htargets⟩ := Stmt.outline_of_plainList hplain
      obtain ⟨final, hpassed, hfinal⟩ := ih hlater hnext
      refine ⟨final, hjoin hpassed ?_ hout hfirst ?_ (fun t ht => .inl (hplain t ht)), hfinal⟩
      · simp [Stmt.depthAfter, hop, heffect, hlength]
      · rw [htargets]
        exact (targets_of_straight hstraight).symm

/-- Every branch of a block that is a statement already is met with an empty stack, when the block is
entered with `depth` values. -/
def BareBranches (depth : Nat) (body : List Stmt) : Prop :=
  ∀ init branch jump, body = init ++ [branch, jump] → branch.isConditional = true →
    branch.stackOp? = none → init.foldl Stmt.depthAfter depth = 0

/-- What the simulation of a block gives: its label, a middle and an end, with the same targets, and
nothing but its own statements and those that stack operations leave. -/
structure IsSimulated (depth : Nat) (body : List Stmt) (label : LabelId) (result : List Stmt) :
    Prop where
  parts : ∃ middle ending, result = .label label :: (middle ++ ending) ∧ Stmt.IsMiddle middle ∧
    Stmt.labelsOfList ending = [] ∧ (BareBranches depth body ∧ isEnding ending = true ∨
      ¬ BareBranches depth body ∧ ∃ branch pushes jump, ending = branch :: (pushes ++ [jump]) ∧
        pushes ≠ [] ∧ branch.isConditional = true)
  targets : Stmt.targetsOfList result = Stmt.targetsOfList body
  kinds : ∀ s ∈ result, s.isPlain = true ∨ s.isBranch = true ∨ s ∈ body ∧ s.stackOp? = none

/-- A block that ends in one statement has no branch before it. -/
lemma bareBranches_of_isMiddle {depth : Nat} {label : LabelId} {middle : List Stmt} {last : Stmt}
    (hmiddle : Stmt.IsMiddle middle) :
    BareBranches depth (.label label :: (middle ++ [last])) := by
  intro init branch jump hbody hbranch
  have hbody : (.label label :: middle) ++ [last] = (init ++ [branch]) ++ [jump] := by
    simpa using hbody
  obtain ⟨hinit, -⟩ := List.append_inj' hbody rfl
  have hmem : branch ∈ Stmt.label label :: middle := by simp [hinit]
  rcases List.mem_cons.mp hmem with rfl | hmem
  · cases hbranch
  · rw [hmiddle.straight branch hmem] at hbranch
    cases hbranch

/-- A block that ends in a branch has no other. -/
lemma bareBranches_iff {depth : Nat} {label : LabelId} {middle : List Stmt} {branch jump : Stmt}
    (hbranch : branch.isConditional = true) :
    BareBranches depth (.label label :: (middle ++ [branch, jump])) ↔
      (branch.stackOp? = none → middle.foldl Stmt.depthAfter depth = 0) := by
  constructor
  · intro h hop
    exact h (.label label :: middle) branch jump rfl hbranch hop
  · intro h init branch' jump' hbody hbranch' hop
    have hbody : (.label label :: middle) ++ [branch, jump] = init ++ [branch', jump'] := hbody
    obtain ⟨rfl, hend⟩ := List.append_inj' hbody rfl
    cases hend
    exact h hop

section Ends

variable {done added : List Stmt} {label : LabelId} {final : State}

/-- Values that are left on the stack go before the last statement. -/
lemma settle_emit (state : State) (s : Stmt) :
    settle (state.emit s) = state.out ++ (state.stack.reverse.map Stmt.push ++ [s]) := by
  unfold settle
  split
  · rename_i hempty
    have hstack : state.stack = [] := List.isEmpty_iff.mp hempty
    rw [hstack]
    rfl
  · simp [State.emit]

/-- A transfer of control that is a statement already goes behind the values on the stack. -/
lemma settle_jump {s : Stmt} (hs : s.stackOp? = none) (h : stmts names done state [s] = .ok final) :
    settle final = state.out ++ (state.stack.reverse.map Stmt.push ++ [s]) := by
  have h := stmts_other hs h
  rw [stmts] at h
  cases h
  have hempty : settle (state.flush.emit s) = state.flush.out ++ ([] ++ [s]) :=
    settle_emit state.flush s
  rw [List.isEmpty_nil, if_pos rfl, hempty, State.flush, List.append_assoc]
  rfl

/-- Returning a value goes behind the values below it. -/
lemma settle_ret {offset : Nat} (h : stmts names done state [.raw offset .ret] = .ok final) :
    ∃ values value, settle final = state.out ++ (List.map Stmt.push values ++ [.ret value]) := by
  obtain ⟨next, hstep, h⟩ := stmts_raw h
  rw [stmts] at h
  cases h
  obtain ⟨added, hout, -, hret⟩ := (step?_straight rfl hstep).out
  obtain ⟨value, rfl⟩ := hret rfl
  cases hstack : final.stack with
  | nil => exact ⟨[], value, by simp [settle, hstack, hout]⟩
  | cons top rest => exact ⟨(top :: rest).reverse, value, by simp [settle, hstack, hout]⟩

/-- A branch goes behind the values on the stack, and the jump follows it. -/
lemma settle_branch {offset : Nat} {jump : Stmt} (hop : op.isConditional = true)
    (hjump : jump.stackOp? = none)
    (h : stmts names done state [.raw offset op, jump] = .ok final) :
    ∃ values branch, settle final = state.out ++ (List.map Stmt.push values ++ [branch, jump]) ∧
      branch.isBranch = true ∧ branch.targets = op.targets := by
  obtain ⟨next, hstep, h⟩ := stmts_raw h
  obtain ⟨hstack, values, branch, hout, hbranch, htargets⟩ := step?_branch hop hstep
  refine ⟨values, branch, ?_, hbranch, htargets⟩
  rw [settle_jump hjump h, hout, hstack]
  simp

/-- A branch that is a statement already stays before the values on the stack. -/
lemma settle_bare {branch jump : Stmt} (hbranch : branch.stackOp? = none)
    (hjump : jump.stackOp? = none) (h : stmts names done state [branch, jump] = .ok final) :
    settle final =
      state.out ++ (branch :: (state.stack.reverse.map Stmt.push ++ [jump])) := by
  have h := stmts_other hbranch h
  rw [settle_jump hjump h]
  simp [State.emit]

end Ends

/-- A block whose end is a single statement, when values and then a statement are left for it. -/
lemma IsSimulated.single {depth : Nat} {label : LabelId} {middle added ending ending' : List Stmt}
    {values : List Expr} (hadded : Stmt.IsMiddle added)
    (htargets : Stmt.targetsOfList added = Stmt.targetsOfList middle)
    (hkinds : ∀ s ∈ added, s.isPlain = true ∨ s ∈ middle ∧ s.stackOp? = none)
    (hbare : BareBranches depth (.label label :: (middle ++ ending))) (hending : Stmt.IsEnd ending')
    (htargets' : Stmt.targetsOfList ending' = Stmt.targetsOfList ending)
    (hkinds' : ∀ s ∈ ending', s.isPlain = true ∨ s.isBranch = true ∨
      s ∈ ending ∧ s.stackOp? = none) :
    IsSimulated depth (.label label :: (middle ++ ending)) label
      (.label label :: (added ++ (values.map Stmt.push ++ ending'))) where
  parts := by
    refine ⟨added ++ values.map Stmt.push, ending', by simp, ?_, hending.labels,
      .inl ⟨hbare, hending.ending⟩⟩
    exact Stmt.isMiddle_append.mpr ⟨hadded, (Stmt.outline_of_plainList Stmt.isPlain_push).1⟩
  targets := by
    have hpushes : Stmt.targetsOfList (values.map Stmt.push) = [] :=
      (Stmt.outline_of_plainList Stmt.isPlain_push).2
    simp only [Stmt.targetsOfList, Stmt.targetsOfList_append, htargets, htargets', hpushes,
      List.nil_append]
  kinds := by
    intro s hs
    rcases List.mem_cons.mp hs with rfl | hs
    · exact .inr (.inr ⟨List.mem_cons_self, rfl⟩)
    rcases List.mem_append.mp hs with hs | hs
    · rcases hkinds s hs with hplain | ⟨hmem, hop⟩
      · exact .inl hplain
      · exact .inr (.inr ⟨List.mem_cons_of_mem _ (List.mem_append_left _ hmem), hop⟩)
    rcases List.mem_append.mp hs with hs | hs
    · exact .inl (Stmt.isPlain_push s hs)
    · rcases hkinds' s hs with hplain | hbranch | ⟨hmem, hop⟩
      · exact .inl hplain
      · exact .inr (.inl hbranch)
      · exact .inr (.inr ⟨List.mem_cons_of_mem _ (List.mem_append_right _ hmem), hop⟩)

/-- A block whose branch is a statement already, when values are left behind it. -/
lemma IsSimulated.bare {depth : Nat} {label : LabelId} {middle added : List Stmt} {branch jump : Stmt}
    {values : List Expr} (hadded : Stmt.IsMiddle added)
    (htargets : Stmt.targetsOfList added = Stmt.targetsOfList middle)
    (hkinds : ∀ s ∈ added, s.isPlain = true ∨ s ∈ middle ∧ s.stackOp? = none)
    (hending : Stmt.IsEnd [branch, jump]) (hop : branch.stackOp? = none)
    (hvalues : BareBranches depth (.label label :: (middle ++ [branch, jump])) ↔ values = []) :
    IsSimulated depth (.label label :: (middle ++ [branch, jump])) label
      (.label label :: (added ++ (branch :: (values.map Stmt.push ++ [jump])))) := by
  have hpushes : Stmt.IsMiddle (values.map Stmt.push) ∧
      Stmt.targetsOfList (values.map Stmt.push) = [] :=
    Stmt.outline_of_plainList Stmt.isPlain_push
  obtain ⟨hbranch, hgoto⟩ := Bool.and_eq_true_iff.mp hending.ending
  have hlabels := hending.labels
  refine ⟨⟨added, branch :: (values.map Stmt.push ++ [jump]), rfl, hadded, ?_, ?_⟩, ?_, ?_⟩
  · simpa only [Stmt.labelsOfList, Stmt.labelsOfList_append, hpushes.1.labels,
      List.nil_append] using hlabels
  · cases values with
    | nil => exact .inl ⟨hvalues.mpr rfl, hending.ending⟩
    | cons top rest =>
      exact .inr ⟨by simp [hvalues], branch, _, jump, rfl, by simp, hbranch⟩
  · simp only [Stmt.targetsOfList, Stmt.targetsOfList_append, htargets, hpushes.2, List.nil_append]
  · have hjump : jump.stackOp? = none := by
      cases jump with
      | goto _ => rfl
      | _ => cases hgoto
    intro s hs
    simp only [List.mem_cons, List.mem_append, List.not_mem_nil, or_false] at hs ⊢
    rcases hs with rfl | hs | rfl | hs | rfl
    · exact .inr (.inr ⟨.inl rfl, rfl⟩)
    · rcases hkinds s hs with hplain | ⟨hmem, hnone⟩
      · exact .inl hplain
      · exact .inr (.inr ⟨.inr (.inl hmem), hnone⟩)
    · exact .inr (.inr ⟨.inr (.inr (.inl rfl)), hop⟩)
    · exact .inl (Stmt.isPlain_push s hs)
    · exact .inr (.inr ⟨.inr (.inr (.inr rfl)), hjump⟩)

/-- The simulation of a shaped block. -/
theorem isSimulated_block {done : List Stmt} {scopes scopes' depth : Nat} {source : BasicBlock}
    {label : LabelId} {result : List Stmt} (hshaped : source.Shaped label)
    (h : block names done scopes depth source.body = .ok (result, scopes')) :
    IsSimulated depth source.body label result := by
  obtain ⟨middle, ending, hbody, hmiddle, hending⟩ := hshaped
  obtain ⟨final, hstmts, h⟩ := Except.bind_eq_ok_iff.mp h
  cases h
  have hne : ending ≠ [] := by
    rintro rfl
    cases hending.ending
  have hlabel := stmts_other rfl (hbody ▸ hstmts)
  have hempty : (middle ++ ending).isEmpty = false := by simp [hne]
  simp only [hempty] at hlabel
  obtain ⟨mid, hpassed, hfinal⟩ := stmts_middle hmiddle hne hlabel
  obtain ⟨added, hout, hadded, htargets, hkinds⟩ := hpassed.out
  have hout : mid.out = .label label :: added := hout
  have hdepth : mid.stack.length = middle.foldl Stmt.depthAfter depth := by
    simpa [State.emit, incomingStack] using hpassed.depth
  rw [hbody]
  match ending, hending with
  | [s], hending =>
    cases hop : s.stackOp? with
    | none =>
      rw [settle_jump hop hfinal, hout]
      exact .single hadded htargets hkinds (bareBranches_of_isMiddle hmiddle) hending rfl
        (by simp [hop])
    | some op =>
      obtain ⟨offset, rfl⟩ : ∃ offset, s = .raw offset .ret := by
        have hends := hending.ending
        cases s with
        | raw offset op' =>
          cases op' with
          | ret => exact ⟨offset, rfl⟩
          | _ => cases hends
        | _ => cases hop
      obtain ⟨values, value, hsettle⟩ := settle_ret hfinal
      rw [hsettle, hout]
      exact .single hadded htargets hkinds (bareBranches_of_isMiddle hmiddle) ⟨rfl, rfl⟩ rfl
        (by simp [Stmt.isPlain])
  | [branch, jump], hending =>
    obtain ⟨hbranch, hgoto⟩ := Bool.and_eq_true_iff.mp hending.ending
    obtain ⟨target, rfl⟩ : ∃ target, jump = .goto target := by
      cases jump with
      | goto target => exact ⟨target, rfl⟩
      | _ => cases hgoto
    cases hop : branch.stackOp? with
    | some op =>
      obtain ⟨offset, rfl⟩ : ∃ offset, branch = .raw offset op := by
        cases branch with
        | raw offset op' =>
          cases hop
          exact ⟨offset, rfl⟩
        | _ => cases hop
      obtain ⟨values, s, hsettle, hs, hstargets⟩ := settle_branch hbranch rfl hfinal
      obtain ⟨hslabels, hsbranch⟩ := Stmt.outline_of_isBranch hs
      rw [hsettle, hout]
      refine .single hadded htargets hkinds ((bareBranches_iff hbranch).mpr ?_) ⟨?_, ?_⟩ ?_ ?_
      · simp [hop]
      · simp [Stmt.labelsOfList, hslabels, Stmt.labels]
      · simp [isEnding, hsbranch, Stmt.isGoto]
      · simp only [Stmt.targetsOfList, hstargets]
        rfl
      · intro t ht
        rcases List.mem_pair.mp ht with rfl | rfl
        · exact .inr (.inl hs)
        · exact .inr (.inr ⟨by simp, rfl⟩)
    | none =>
      rw [settle_bare hop rfl hfinal, hout]
      refine .bare hadded htargets hkinds hending hop ?_
      rw [bareBranches_iff hbranch, ← hdepth]
      simp [hop]

end Simulation

/-! ### Whole lists -/

/-- A branch does not end a block. -/
lemma Stmt.not_end_of_isConditional {s : Stmt} (h : s.isConditional = true) :
    s.endsBlock = false ∧ s.isGoto = false := by
  cases s with
  | raw offset op =>
    cases op with
    | ret => cases h
    | _ => exact ⟨rfl, rfl⟩
  | condGoto _ _ | pushEnv _ _ | popEnv _ | dispatch _ _ _ => exact ⟨rfl, rfl⟩
  | _ => cases h

/-- Only the last statement but one of a shaped block is a branch. -/
lemma BasicBlockOf.Shaped.length_of_branch {block : BasicBlock} {label : LabelId}
    (h : block.Shaped label) {init rest : List Stmt} {s : Stmt}
    (hbody : block.body = .label label :: (init ++ s :: rest)) (hs : s.isConditional = true) :
    rest.length = 1 := by
  obtain ⟨middle, ending, hblock, hmiddle, hending⟩ := h
  rw [hblock, List.cons.injEq] at hbody
  have hnot : s ∉ middle := by
    intro hmem
    rw [hmiddle.straight s hmem] at hs
    cases hs
  -- The branch stands in the end of the block, and there in the first place.
  obtain ⟨before, rfl⟩ : ∃ before, ending = before ++ s :: rest := by
    rcases List.append_eq_append_iff.mp hbody.2 with ⟨more, -, hmore⟩ | ⟨more, hmore, hrest⟩
    · exact ⟨more, hmore⟩
    · cases more with
      | nil => exact ⟨[], by simpa using hrest.symm⟩
      | cons t more =>
        rw [List.cons_append, List.cons.injEq] at hrest
        exact absurd (by simp [hmore, hrest.1]) hnot
  have hends := hending.ending
  have hnoEnd := Stmt.not_end_of_isConditional hs
  match before, rest with
  | [], [] => simp [isEnding, hnoEnd.1] at hends
  | [], [_] => rfl
  | [], _ :: _ :: _ => simp [isEnding] at hends
  | [_], [] => simp [isEnding, hnoEnd.2] at hends
  | [_], _ :: _ => simp [isEnding] at hends
  | _ :: _ :: _, _ => simp [isEnding] at hends

namespace Simulation

variable {names : Names}

namespace IsSimulated

variable {depth : Nat} {body : List Stmt} {label : LabelId} {result : BasicBlock}
  (h : IsSimulated depth body label result.body)
include h

/-- A simulated block keeps its label. -/
lemma entryLabel? : result.entryLabel? = some label := by
  obtain ⟨middle, ending, hbody, -⟩ := h.parts
  rw [BasicBlockOf.entryLabel?_eq, hbody]
  rfl

/-- A simulated block keeps its shape exactly when its branches are met with an empty stack, as far as
they are statements already. -/
lemma shaped_iff : result.Shaped label ↔ BareBranches depth body := by
  obtain ⟨middle, ending, hbody, hmiddle, hlabels, hends⟩ := h.parts
  rcases hends with ⟨hbare, hends⟩ | ⟨hbare, branch, pushes, jump, rfl, hne, hbranch⟩
  · exact ⟨fun _ => hbare, fun _ => ⟨middle, ending, hbody, hmiddle, hlabels, hends⟩⟩
  · refine ⟨fun hshaped => ?_, fun h => absurd h hbare⟩
    have hlength := hshaped.length_of_branch hbody hbranch
    cases pushes with
    | nil => exact absurd rfl hne
    | cons _ _ => simp at hlength

end IsSimulated

/-- Simulated blocks stand in the order of their sources. -/
lemma forall₂_blocks {done : List Stmt} {scopes : Nat} {sources : List BasicBlock} {depths : List Nat}
    {results : List BasicBlock} (hlength : depths.length = sources.length)
    (h : blocks names done scopes (sources.zip depths) = .ok results) :
    List.Forall₂ (fun source result => ∃ done scopes scopes',
      block names done scopes result.entryDepth source.body = .ok (result.body, scopes'))
      sources results := by
  induction sources generalizing done scopes depths results with
  | nil =>
    rw [List.zip_nil_left, blocks] at h
    split at h
    · cases h
      exact .nil
    · cases h
  | cons source sources ih =>
    cases depths with
    | nil => cases hlength
    | cons depth depths =>
      rw [List.zip_cons_cons, blocks] at h
      obtain ⟨⟨body, scopes'⟩, hblock, h⟩ := Except.bind_eq_ok_iff.mp h
      obtain ⟨later, hlater, h⟩ := Except.bind_eq_ok_iff.mp h
      cases h
      exact .cons ⟨done, scopes, scopes', hblock⟩ (ih (Nat.succ.inj hlength) hlater)

end Simulation

namespace Depth

variable {blocks : List BasicBlock} {labels : Labels}

/-- Following a branch keeps the number of depths. -/
lemma length_follow {state state' : State} {branch : LabelId × Nat}
    (h : follow blocks labels state branch = .ok state') :
    state'.depths.length = state.depths.length := by
  unfold follow at h
  split at h
  · cases h
    rfl
  · split at h
    · cases h
      exact List.length_set
    · split at h
      · cases h
        rfl
      · cases h

/-- Following branches keeps the number of depths. -/
lemma length_foldlM_follow {branches : List (LabelId × Nat)} {state state' : State}
    (h : branches.foldlM (follow blocks labels) state = .ok state') :
    state'.depths.length = state.depths.length := by
  induction branches generalizing state with
  | nil =>
    cases h
    rfl
  | cons branch rest ih =>
    rw [List.foldlM_cons] at h
    obtain ⟨next, hnext, h⟩ := Except.bind_eq_ok_iff.mp h
    exact (ih h).trans (length_follow hnext)

/-- Following the branches of pending blocks keeps the number of depths. -/
lemma length_propagate {fuel : Nat} {state state' : State}
    (h : propagate blocks labels fuel state = .ok state') :
    state'.depths.length = state.depths.length := by
  induction fuel generalizing state with
  | zero =>
    cases h
    rfl
  | succ fuel ih =>
    rw [propagate] at h
    split at h
    · cases h
      rfl
    · obtain ⟨next, hnext, h⟩ := Except.bind_eq_ok_iff.mp h
      exact (ih h).trans (length_foldlM_follow hnext :)

/-- Every block has a depth. -/
lemma length_entryDepths {depths : List Nat} (h : entryDepths blocks labels = .ok depths) :
    depths.length = blocks.length := by
  cases blocks with
  | nil =>
    cases h
    rfl
  | cons block rest =>
    obtain ⟨state, hstate, h⟩ := Except.bind_eq_ok_iff.mp h
    cases h
    rw [List.length_map, length_propagate hstate]
    simp

end Depth

/-- The labels that a list names, block by block. -/
lemma mentions_ofBlocks (blocks : List BasicBlock) :
    (BlockMap.ofBlocks blocks).mentions = (blocks.map (Stmt.targetsOfList ·.body)).flatten := by
  simp [BlockMap.ofBlocks, List.flatMap]

section Simulate

variable {names : Names} {labels : Labels} {bound : Nat} {sources results : List BasicBlock}

/-- Each block of a simulated list is the simulation of the block at its place. -/
lemma isSimulated_simulate (hwf : WellFormed bound sources)
    (h : simulate names labels sources = .ok results) :
    List.Forall₂ (fun source result => ∃ label, source.Shaped label ∧ label < bound ∧
      Simulation.IsSimulated result.entryDepth source.body label result.body) sources results := by
  obtain ⟨depths, hdepths, hzip⟩ := Except.bind_eq_ok_iff.mp h
  have hblocks := Simulation.forall₂_blocks (Depth.length_entryDepths hdepths) hzip
  have hshaped := hwf.shaped
  clear hwf h hzip hdepths
  induction hblocks with
  | nil => exact .nil
  | cons hblock _ ih =>
    rw [List.forall_mem_cons] at hshaped
    obtain ⟨label, hlt, hone⟩ := hshaped.1
    obtain ⟨done, scopes, scopes', hblock⟩ := hblock
    exact .cons ⟨label, hone, hlt, Simulation.isSimulated_block hone hblock⟩ (ih hshaped.2)

/-- Simulated blocks keep their labels and their targets. -/
theorem simulate_outline (hwf : WellFormed bound sources)
    (h : simulate names labels sources = .ok results) :
    results.map BasicBlockOf.entryLabel? = sources.map BasicBlockOf.entryLabel? ∧
      results.map (Stmt.targetsOfList ·.body) = sources.map (Stmt.targetsOfList ·.body) := by
  have hsimulated := isSimulated_simulate hwf h
  clear hwf h
  induction hsimulated with
  | nil => exact ⟨rfl, rfl⟩
  | cons hone _ ih =>
    obtain ⟨label, hshaped, -, hone⟩ := hone
    simp only [List.map_cons, ih.1, ih.2, hone.entryLabel?, hshaped.entryLabel?, hone.targets,
      and_self]

/-- A well-formed list stays well-formed when its stack is simulated, exactly when each branch that is
a statement already is met with an empty stack. -/
theorem wellFormed_simulate_iff (hwf : WellFormed bound sources)
    (h : simulate names labels sources = .ok results) :
    WellFormed bound results ↔ List.Forall₂ (fun source result =>
      Simulation.BareBranches result.entryDepth source.body) sources results := by
  obtain ⟨hlabels, htargets⟩ := simulate_outline hwf h
  have hsimulated := isSimulated_simulate hwf h
  have hshaped : (∀ block ∈ results, ∃ label, label < bound ∧ block.Shaped label) ↔
      List.Forall₂ (fun source result =>
        Simulation.BareBranches result.entryDepth source.body) sources results := by
    clear hwf h hlabels htargets
    induction hsimulated with
    | nil => simp
    | cons hone _ ih =>
      obtain ⟨label, -, hlt, hone⟩ := hone
      rw [List.forall_mem_cons, List.forall₂_cons, ih, ← hone.shaped_iff]
      refine and_congr_left' ⟨?_, fun hshaped => ⟨label, hlt, hshaped⟩⟩
      rintro ⟨label', -, hshaped⟩
      have hsame := hshaped.entryLabel?.symm.trans hone.entryLabel?
      rwa [Option.some.inj hsame] at hshaped
  rw [← hshaped]
  refine ⟨fun hafter => hafter.shaped, fun hafter => ⟨?_, hafter, ?_, ?_⟩⟩
  · rintro rfl
    exact hwf.nonempty (List.map_eq_nil_iff.mp hlabels.symm)
  · rw [hlabels]
    exact hwf.distinct
  · rw [hlabels]
    intro label hlabel
    refine hwf.closed label ?_
    rw [mentions_ofBlocks] at hlabel ⊢
    rwa [htargets] at hlabel

end Simulate

end Decompiler
