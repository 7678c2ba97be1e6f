import Mathlib.Tactic.Linarith
import Decompiler.Proofs.EntryBlock
import Decompiler.Proofs.SimulatedBlocks
import Decompiler.Proofs.StackSimulation

/-!
# The stack discipline

When the stack of a list of blocks can be simulated.  A block may be entered along several ways from
the first one, and each way brings a number of values (`Depth.Enters`).  The search for the depths
follows the branches of every block once; it finds exactly the blocks that are entered, and it fails
exactly when two ways to one block bring different numbers of values (`Depth.entryDepths_cases`).  A
block is then simulated without a fault exactly when each of its operations finds the values it takes
(`Stmt.enough`) and no scope is left that was not entered (`ScopeMark.nest`).

`simulates_iff` puts this together: what the names and the labels of a unit are does not matter.
-/

namespace Decompiler

open Bytecode
open StackMachine (RawBody)

/-! ### Values that a list of statements takes -/

namespace Stmt

/-- Whether a statement finds the values it takes among `depth`. -/
def finds (depth : Nat) (s : Stmt) : Bool :=
  match s.stackOp? with
  | none => true
  | some op => op.effect?.any fun effect => effect.1 ≤ depth

/-- Whether each of the statements, one after the other, finds the values it takes. -/
def enough (depth : Nat) : List Stmt → Bool
  | [] => true
  | s :: rest => s.finds depth && enough (s.depthAfter depth) rest

/-- A stack operation takes what its effect says. -/
lemma finds_raw {depth offset : Nat} {op : StackOp} :
    (raw offset op).finds depth = true ↔
      ∃ pops pushes, op.effect? = some (pops, pushes) ∧ pops ≤ depth := by
  cases heffect : op.effect? with
  | none => simp [finds, stackOp?, heffect]
  | some effect =>
    obtain ⟨pops, pushes⟩ := effect
    simp [finds, stackOp?, heffect]

/-- The depth behind a stack operation. -/
lemma depthAfter_raw {depth offset pops pushes : Nat} {op : StackOp}
    (h : op.effect? = some (pops, pushes)) :
    (raw offset op).depthAfter depth = depth - pops + pushes := by
  simp [depthAfter, stackOp?, h]

/-- Below the values that a statement takes there may be more of them. -/
lemma finds_add {depth : Nat} {s : Stmt} (h : s.finds depth = true) (more : Nat) :
    s.finds (depth + more) = true ∧ s.depthAfter (depth + more) = s.depthAfter depth + more := by
  cases s with
  | raw offset op =>
    obtain ⟨pops, pushes, heffect, hle⟩ := finds_raw.mp h
    refine ⟨finds_raw.mpr ⟨pops, pushes, heffect, Nat.le_add_right_of_le hle⟩, ?_⟩
    rw [depthAfter_raw heffect, depthAfter_raw heffect]
    omega
  | _ => exact ⟨rfl, rfl⟩

/-- Below the values that statements take there may be more of them. -/
lemma enough_mono {depth depth' : Nat} {list : List Stmt} (h : enough depth list = true)
    (hle : depth ≤ depth') : enough depth' list = true := by
  obtain ⟨more, rfl⟩ := Nat.exists_eq_add_of_le hle
  clear hle
  induction list generalizing depth with
  | nil => rfl
  | cons s rest ih =>
    simp only [enough, Bool.and_eq_true] at h ⊢
    obtain ⟨hfinds, hdepth⟩ := finds_add h.1 more
    exact ⟨hfinds, hdepth ▸ ih h.2⟩

/-- Two parts of a list. -/
lemma enough_append {depth : Nat} {a b : List Stmt} :
    enough depth (a ++ b) = true ↔ enough depth a = true ∧ enough (a.foldl depthAfter depth) b = true := by
  induction a generalizing depth with
  | nil => simp [enough]
  | cons s rest ih => simp only [List.cons_append, enough, Bool.and_eq_true, ih, List.foldl_cons, and_assoc]

/-- What statements leave goes with what they find. -/
lemma foldl_depthAfter_add {depth depth' : Nat} {list : List Stmt} (h : enough depth list = true)
    (h' : enough depth' list = true) :
    list.foldl depthAfter depth + depth' = list.foldl depthAfter depth' + depth := by
  induction list generalizing depth depth' with
  | nil => exact Nat.add_comm _ _
  | cons s rest ih =>
    simp only [enough, Bool.and_eq_true] at h h'
    have hrest := ih h.2 h'.2
    have hs : s.depthAfter depth + depth' = s.depthAfter depth' + depth := by
      rcases Nat.le_total depth depth' with hle | hle
      · obtain ⟨more, rfl⟩ := Nat.exists_eq_add_of_le hle
        rw [(finds_add h.1 more).2]
        omega
      · obtain ⟨more, rfl⟩ := Nat.exists_eq_add_of_le hle
        rw [(finds_add h'.1 more).2]
        omega
    simp only [List.foldl_cons]
    omega

/-- Whether the statement neither goes anywhere nor ends the unit: a label, or an operation that stays
in its block. -/
def staysInside : Stmt → Bool
  | .label _ => true
  | .raw _ .ret => false
  | .raw _ op => !op.isConditional
  | _ => false

end Stmt

/-! ### Branches of a block -/

namespace Depth

/-- A branch that is taken with `depth` values before the statements is taken with any other number of
values that is enough for them. -/
lemma exists_mem_branches {depth depth' value' : Nat} {list : List Stmt} {target : LabelId}
    (h : Stmt.enough depth list = true) (hmem : (target, value') ∈ branches depth' list) :
    ∃ value, (target, value) ∈ branches depth list ∧ value + depth' = value' + depth := by
  induction list generalizing depth depth' with
  | nil => simp [branches] at hmem
  | cons s rest ih =>
    simp only [Stmt.enough, Bool.and_eq_true] at h
    cases s with
    | raw offset op =>
      obtain ⟨pops, pushes, heffect, hle⟩ := Stmt.finds_raw.mp h.1
      rw [Stmt.depthAfter_raw heffect] at h
      simp only [branches, heffect] at hmem ⊢
      rw [if_neg (Nat.not_lt.mpr hle)]
      split at hmem
      · simp at hmem
      · rename_i hle'
        rcases List.mem_append.mp hmem with hmem | hmem
        · simp only [List.mem_map, Prod.mk.injEq] at hmem
          obtain ⟨_, htarget, rfl, rfl⟩ := hmem
          refine ⟨depth - pops, List.mem_append_left _ (List.mem_map.mpr ⟨_, htarget, rfl⟩), ?_⟩
          omega
        · obtain ⟨value, hvalue, hsum⟩ := ih h.2 hmem
          refine ⟨value, List.mem_append_right _ hvalue, ?_⟩
          omega
    | goto id =>
      simp only [branches, List.mem_cons, Prod.mk.injEq] at hmem ⊢
      rcases hmem with ⟨rfl, rfl⟩ | hmem
      · exact ⟨depth, .inl ⟨rfl, rfl⟩, Nat.add_comm _ _⟩
      · obtain ⟨value, hvalue, hsum⟩ := ih h.2 hmem
        exact ⟨value, .inr hvalue, hsum⟩
    | _ => exact ih h.2 hmem

/-- Branches go to labels that the statements name. -/
lemma mem_targetsOfList {depth value : Nat} {list : List Stmt} {target : LabelId}
    (h : (target, value) ∈ branches depth list) : target ∈ Stmt.targetsOfList list := by
  induction list generalizing depth with
  | nil => simp [branches] at h
  | cons s rest ih =>
    rw [Stmt.targetsOfList, List.mem_append]
    cases s with
    | raw offset op =>
      simp only [branches] at h
      split at h
      · simp at h
      · split at h
        · simp at h
        · rcases List.mem_append.mp h with h | h
          · simp only [List.mem_map, Prod.mk.injEq] at h
            obtain ⟨_, htarget, rfl, -⟩ := h
            exact .inl htarget
          · exact .inr (ih h)
    | goto id =>
      simp only [branches, List.mem_cons, Prod.mk.injEq] at h
      rcases h with ⟨rfl, -⟩ | h
      · exact .inl (List.mem_singleton_self _)
      · exact .inr (ih h)
    | _ => exact .inr (ih h)

/-- Statements inside a block only change the depth of the branches behind them. -/
lemma mem_branches_append {depth : Nat} {init rest : List Stmt} {branch : LabelId × Nat}
    (hinit : ∀ s ∈ init, s.staysInside = true) :
    branch ∈ branches depth (init ++ rest) ↔
      Stmt.enough depth init = true ∧ branch ∈ branches (init.foldl Stmt.depthAfter depth) rest := by
  induction init generalizing depth with
  | nil => simp [Stmt.enough]
  | cons s init ih =>
    rw [List.forall_mem_cons] at hinit
    simp only [List.cons_append, Stmt.enough, Bool.and_eq_true, List.foldl_cons, and_assoc]
    rw [← ih hinit.2]
    cases s with
    | label id => simp [branches, Stmt.finds, Stmt.stackOp?, Stmt.depthAfter]
    | raw offset op =>
      have htargets : op.targets = [] := by
        refine Simulation.targets_of_straight ?_
        cases op with
        | ret => rfl
        | _ => simpa [Stmt.staysInside] using hinit.1
      simp only [branches]
      cases heffect : op.effect? with
      | none => simp [Stmt.finds, Stmt.stackOp?, heffect]
      | some effect =>
        obtain ⟨pops, pushes⟩ := effect
        rw [Stmt.depthAfter_raw heffect]
        by_cases hle : depth < pops
        · simp [Stmt.finds, Stmt.stackOp?, heffect, hle]
        · simp [Stmt.finds, Stmt.stackOp?, heffect, hle, htargets, Nat.not_lt.mp hle]
    | _ => cases hinit.1

end Depth

/-! ### Scopes -/

/-- The start or the end of a scope. -/
inductive ScopeMark where
  | opens
  | closes
deriving DecidableEq

namespace ScopeMark

/-- How many scopes are open behind some starts and ends, if no end comes too early. -/
def nest : Nat → List ScopeMark → Option Nat
  | scopes, [] => some scopes
  | scopes, opens :: rest => nest (scopes + 1) rest
  | 0, closes :: _ => none
  | scopes + 1, closes :: rest => nest scopes rest

/-- Two parts of a list of marks. -/
lemma nest_append (scopes : Nat) (a b : List ScopeMark) :
    nest scopes (a ++ b) = (nest scopes a).bind (nest · b) := by
  induction a generalizing scopes with
  | nil => rfl
  | cons mark rest ih =>
    cases mark with
    | opens => exact ih (scopes + 1)
    | closes =>
      cases scopes with
      | zero => rfl
      | succ scopes => exact ih scopes

/-- One more scope that is open all the time. -/
lemma nest_succ {scopes final : Nat} {marks : List ScopeMark} (h : nest scopes marks = some final) :
    nest (scopes + 1) marks = some (final + 1) := by
  induction marks generalizing scopes with
  | nil =>
    cases h
    rfl
  | cons mark rest ih =>
    cases mark with
    | opens => exact ih h
    | closes =>
      cases scopes with
      | zero => cases h
      | succ scopes => exact ih h

end ScopeMark

/-- The start or the end of a scope that a statement is. -/
def Stmt.scopeMark? : Stmt → Option ScopeMark
  | .raw _ (.pushEnv _) => some .opens
  | .raw _ (.popEnv _) => some .closes
  | _ => none

/-- The starts and ends of scopes in a block. -/
def BasicBlockOf.scopeMarks (block : BasicBlock) : List ScopeMark :=
  block.body.filterMap Stmt.scopeMark?

/-! ### Simulation without faults -/

namespace Simulation

variable {names : Names}

/-- A variable finds what names it. -/
lemma exists_takeVariable? (names : Names) {ref : VarRef} {stack : List Expr}
    (h : ref.stackOperands ≤ stack.length) :
    ∃ v rest, takeVariable? names ref stack = some (v, rest) := by
  dsimp only [VarRef.stackOperands] at h
  obtain ⟨index, middle, hindex, hmiddle⟩ : ∃ index middle, takeIndex? ref stack = some (index, middle) ∧
      (if ref.owner = 0 then 1 else 0) ≤ middle.length := by
    unfold takeIndex?
    by_cases harray : ref.array = true
    · cases stack with
      | nil => simp [harray] at h
      | cons value stack =>
        refine ⟨some value, stack, by simp [harray], ?_⟩
        simp only [harray, if_true, List.length_cons] at h
        omega
    · refine ⟨none, stack, by simp [harray], ?_⟩
      simp only [harray] at h
      simpa using h
  obtain ⟨owner, rest, howner⟩ : ∃ owner rest, takeOwner? names ref middle = some (owner, rest) := by
    unfold takeOwner?
    by_cases hzero : ref.owner = 0
    · cases middle with
      | nil => simp [hzero] at hmiddle
      | cons value middle => exact ⟨_, _, by simp [hzero]; exact ⟨rfl, rfl⟩⟩
    · exact ⟨_, _, by simp [hzero]; exact ⟨rfl, rfl⟩⟩
  exact ⟨_, _, by simp [takeVariable?, hindex, howner]; exact ⟨rfl, rfl⟩⟩

/-- An operation runs when it finds the values it takes, and a scope to leave if it leaves one. -/
lemma exists_step? (names : Names) {op : StackOp} {state : State} {pops pushes : Nat}
    (heffect : op.effect? = some (pops, pushes)) (hpops : pops ≤ state.stack.length)
    (hscopes : ∀ back, op = .popEnv back → 0 < state.scopes) :
    ∃ next, step? names state op = some next := by
  obtain ⟨stack, out, scopes⟩ := state
  cases op with
  | push | pushTemporary => exact ⟨_, rfl⟩
  | pushVar ref =>
    cases heffect
    obtain ⟨v, rest, htake⟩ := exists_takeVariable? names hpops
    exact ⟨_, by simp only [step?, htake]; rfl⟩
  | pop ref swapped =>
    cases heffect
    cases swapped with
    | true =>
      cases stack with
      | nil => simp at hpops
      | cons value stack =>
        obtain ⟨v, rest, htake⟩ := exists_takeVariable? names
          (show ref.stackOperands ≤ stack.length by simpa using hpops)
        exact ⟨_, by simp only [step?, htake]; rfl⟩
    | false =>
      obtain ⟨v, rest, htake⟩ := exists_takeVariable? names
        (show ref.stackOperands ≤ stack.length from Nat.le_of_succ_le hpops)
      have hlength := length_takeVariable? htake
      simp only at hpops
      cases rest with
      | nil =>
        simp only [List.length_nil] at hlength
        omega
      | cons value rest => exact ⟨_, by simp only [step?, htake]; rfl⟩
  | dup flag =>
    simp only [StackOp.effect?] at heffect
    split at heffect
    · rename_i hzero
      cases heffect
      cases stack with
      | nil => simp at hpops
      | cons a stack => exact ⟨_, by simp only [step?, if_pos hzero]; rfl⟩
    · rename_i hzero
      split at heffect
      · rename_i hone
        cases heffect
        cases stack with
        | nil => simp at hpops
        | cons b stack =>
          cases stack with
          | nil => simp at hpops
          | cons a stack => exact ⟨_, by simp only [step?, if_neg hzero, if_pos hone]; rfl⟩
      · cases heffect
  | binary op =>
    cases heffect
    cases stack with
    | nil => simp at hpops
    | cons right stack =>
      cases stack with
      | nil => simp at hpops
      | cons left stack => exact ⟨_, rfl⟩
  | call name argc =>
    cases heffect
    simp only [step?, if_neg (Nat.not_lt.mpr hpops)]
    exact ⟨_, rfl⟩
  | popEnv back =>
    cases scopes with
    | zero => exact absurd (hscopes back rfl) (Nat.lt_irrefl 0)
    | succ scopes => exact ⟨_, rfl⟩
  | popTemporary | unary | popz | ret | branchTrue | branchFalse | pushEnv | dispatch =>
    cases heffect
    cases stack with
    | nil => simp at hpops
    | cons value stack => exact ⟨_, rfl⟩

/-- An operation that stays in its block finds the values it takes and leaves the scopes alone. -/
lemma finds_of_straight {op : StackOp} {state next : State} (offset : Nat) (h : Straight op state next) :
    (Stmt.raw offset op).finds state.stack.length = true ∧
      next.stack.length = (Stmt.raw offset op).depthAfter state.stack.length := by
  obtain ⟨pops, pushes, heffect, hpops, hlength⟩ := h.depth
  exact ⟨Stmt.finds_raw.mpr ⟨pops, pushes, heffect, hpops⟩, hlength.trans (Stmt.depthAfter_raw heffect).symm⟩

/-- An operation that stays in its block neither starts nor ends a scope. -/
lemma scopeMark?_of_straight {op : StackOp} (offset : Nat) (hop : op.isConditional = false) :
    (Stmt.raw offset op).scopeMark? = none := by
  cases op with
  | pushEnv | popEnv => cases hop
  | _ => rfl

/-- An operation that runs finds the values it takes, and a scope to leave if it leaves one. -/
lemma finds_of_step? {op : StackOp} {state next : State} (offset : Nat)
    (h : step? names state op = some next) :
    (Stmt.raw offset op).finds state.stack.length = true ∧
      ScopeMark.nest state.scopes (Stmt.raw offset op).scopeMark?.toList = some next.scopes := by
  cases hop : op.isConditional with
  | false =>
    have hstraight := step?_straight hop h
    rw [scopeMark?_of_straight offset hop, hstraight.scopes]
    exact ⟨(finds_of_straight offset hstraight).1, rfl⟩
  | true =>
    obtain ⟨stack, out, scopes⟩ := state
    cases op with
    | branchTrue | branchFalse | pushEnv | dispatch =>
      cases stack with
      | nil => cases h
      | cons value stack =>
        cases h
        exact ⟨by simp [Stmt.finds, Stmt.stackOp?, StackOp.effect?], rfl⟩
    | popEnv =>
      cases scopes with
      | zero => cases h
      | succ scopes =>
        cases h
        exact ⟨by simp [Stmt.finds, Stmt.stackOp?, StackOp.effect?], rfl⟩
    | _ => cases hop

/-- An operation runs when it finds the values it takes, and a scope to leave if it leaves one. -/
lemma exists_step?_of_finds (names : Names) {op : StackOp} {state : State} {offset scopes : Nat}
    (hfinds : (Stmt.raw offset op).finds state.stack.length = true)
    (hnest : ScopeMark.nest state.scopes (Stmt.raw offset op).scopeMark?.toList = some scopes) :
    ∃ next, step? names state op = some next ∧ next.scopes = scopes := by
  obtain ⟨pops, pushes, heffect, hpops⟩ := Stmt.finds_raw.mp hfinds
  have hscopes : ∀ back, op = .popEnv back → 0 < state.scopes := by
    rintro back rfl
    rcases Nat.eq_zero_or_pos state.scopes with hzero | hpos
    · rw [hzero] at hnest
      cases hnest
    · exact hpos
  obtain ⟨next, hstep⟩ := exists_step? names heffect hpops hscopes
  rw [(finds_of_step? offset hstep).2] at hnest
  exact ⟨next, hstep, Option.some.inj hnest⟩

/-- Whether the statements of a block are simulated without a fault, and the number of open scopes
behind them. -/
def Ends (names : Names) (done : List Stmt) (state : State) (body : List Stmt) (scopes : Nat) : Prop :=
  ∃ final, stmts names done state body = .ok final ∧ final.scopes = scopes

/-- A jump at the end of a block needs nothing. -/
lemma ends_jump_iff {done : List Stmt} {s : Stmt} {state : State} {depth scopes : Nat}
    (hs : StackMachine.isJump s = true) :
    Ends names done state [s] scopes ↔
      Stmt.enough depth [s] = true ∧
        ScopeMark.nest state.scopes ([s].filterMap Stmt.scopeMark?) = some scopes := by
  rw [Ends, StackMachine.stmts_jump hs]
  cases s with
  | goto | exit =>
    rw [List.filterMap_cons_none rfl, List.filterMap_nil]
    simp [Stmt.enough, Stmt.finds, Stmt.stackOp?, ScopeMark.nest, State.emit, State.flush]
  | _ => cases hs

/-- A stack operation and then the rest of a block. -/
lemma ends_raw_iff {done rest : List Stmt} {state : State} {offset scopes : Nat} {op : StackOp}
    (hrest : ∀ next, step? names state op = some next → (Ends names done next rest scopes ↔
      Stmt.enough ((Stmt.raw offset op).depthAfter state.stack.length) rest = true ∧
        ScopeMark.nest next.scopes (rest.filterMap Stmt.scopeMark?) = some scopes)) :
    Ends names done state (.raw offset op :: rest) scopes ↔
      Stmt.enough state.stack.length (.raw offset op :: rest) = true ∧
        ScopeMark.nest state.scopes ((Stmt.raw offset op :: rest).filterMap Stmt.scopeMark?) =
          some scopes := by
  have hmarks : (Stmt.raw offset op :: rest).filterMap Stmt.scopeMark? =
      (Stmt.raw offset op).scopeMark?.toList ++ rest.filterMap Stmt.scopeMark? := by
    cases hmark : (Stmt.raw offset op).scopeMark? with
    | none => rw [List.filterMap_cons_none hmark]; rfl
    | some mark => rw [List.filterMap_cons_some hmark]; rfl
  rw [hmarks, ScopeMark.nest_append, Option.bind_eq_some_iff, Stmt.enough, Bool.and_eq_true]
  constructor
  · rintro ⟨final, hfinal, hscopes⟩
    obtain ⟨next, hstep, hnext⟩ := stmts_raw hfinal
    obtain ⟨hfinds, hnest⟩ := finds_of_step? offset hstep
    obtain ⟨henough, hlater⟩ := (hrest next hstep).mp ⟨final, hnext, hscopes⟩
    exact ⟨⟨hfinds, henough⟩, next.scopes, hnest, hlater⟩
  · rintro ⟨⟨hfinds, henough⟩, middle, hnest, hlater⟩
    obtain ⟨next, hstep, rfl⟩ := exists_step?_of_finds names hfinds hnest
    obtain ⟨final, hfinal, hscopes⟩ := (hrest next hstep).mpr ⟨henough, hlater⟩
    exact ⟨final, by rw [stmts, step, hstep]; exact hfinal, hscopes⟩

/-- A block of stack operations is simulated without a fault exactly when each operation finds the
values it takes and no scope is left that is not open. -/
lemma ends_iff {body done : List Stmt} {state : State} {scopes : Nat} (hbody : RawBody body) :
    Ends names done state body scopes ↔
      Stmt.enough state.stack.length body = true ∧
        ScopeMark.nest state.scopes (body.filterMap Stmt.scopeMark?) = some scopes := by
  induction hbody generalizing state with
  | jump hs => exact ends_jump_iff hs
  | ret offset =>
    refine ends_raw_iff fun next _ => ?_
    simp [Ends, stmts, Stmt.enough, ScopeMark.nest]
  | branch offset _ hs => exact ends_raw_iff fun next _ => ends_jump_iff hs
  | @label id rest hrest ih =>
    rw [Ends, stmts_label (List.isEmpty_eq_false_iff.mp hrest.isEmpty_eq_false),
      List.filterMap_cons_none rfl]
    exact ih
  | op offset hop _ _ ih =>
    refine ends_raw_iff fun next hstep => ?_
    rw [ih, (finds_of_straight offset (step?_straight hop hstep)).2]

/-- The simulation of a block from its entry. -/
lemma block_eq_ok_iff {done body out : List Stmt} {depth scopes scopes' : Nat} :
    block names done scopes depth body = .ok (out, scopes') ↔
      ∃ final, stmts names done { stack := incomingStack depth, scopes } body = .ok final ∧
        settle final = out ∧ final.scopes = scopes' := by
  rw [block, Except.bind_eq_ok_iff]
  refine exists_congr fun final => and_congr_right fun _ => ?_
  constructor
  · intro h
    cases h
    exact ⟨rfl, rfl⟩
  · rintro ⟨rfl, rfl⟩
    rfl

/-- Whether a block is simulated without a fault from its entry. -/
lemma exists_block_iff {done body : List Stmt} {depth scopes scopes' : Nat} :
    (∃ out, block names done scopes depth body = .ok (out, scopes')) ↔
      Ends names done { stack := incomingStack depth, scopes } body scopes' := by
  simp only [block_eq_ok_iff, Ends]
  constructor
  · rintro ⟨out, final, hfinal, -, hscopes⟩
    exact ⟨final, hfinal, hscopes⟩
  · rintro ⟨final, hfinal, hscopes⟩
    exact ⟨_, final, hfinal, rfl, hscopes⟩

/-- How many values lie on the stack at the entry of a block. -/
lemma length_incomingStack (depth : Nat) : (incomingStack depth).length = depth := by
  simp [incomingStack]

/-- Blocks of stack operations are simulated without a fault exactly when each of them is, and the
scopes in all of them are entered and left in turn. -/
lemma exists_blocks_iff {done : List Stmt} {scopes : Nat} {sources : List (BasicBlock × Nat)}
    (hraw : ∀ source ∈ sources, RawBody source.1.body) :
    (∃ results, blocks names done scopes sources = .ok results) ↔
      (∀ source ∈ sources, Stmt.enough source.2 source.1.body = true) ∧
        ScopeMark.nest scopes (sources.flatMap (·.1.scopeMarks)) = some 0 := by
  induction sources generalizing done scopes with
  | nil =>
    rw [blocks]
    split
    · simp [ScopeMark.nest, *]
    · simp [ScopeMark.nest, *]
  | cons source rest ih =>
    obtain ⟨source, depth⟩ := source
    rw [List.forall_mem_cons] at hraw
    have hone : ∀ {scopes'}, (∃ out, block names done scopes depth source.body = .ok (out, scopes')) ↔
        Stmt.enough depth source.body = true ∧
          ScopeMark.nest scopes source.scopeMarks = some scopes' := by
      intro scopes'
      rw [exists_block_iff, ends_iff hraw.1, length_incomingStack]
      rfl
    rw [List.forall_mem_cons, List.flatMap_cons, ScopeMark.nest_append, Option.bind_eq_some_iff]
    constructor
    · rintro ⟨results, hresults⟩
      obtain ⟨⟨body, scopes'⟩, hblock, hresults⟩ := Except.bind_eq_ok_iff.mp hresults
      obtain ⟨later, hlater, -⟩ := Except.bind_eq_ok_iff.mp hresults
      obtain ⟨henough, hnest⟩ := hone.mp ⟨body, hblock⟩
      obtain ⟨hrest, hnestRest⟩ := (ih hraw.2).mp ⟨later, hlater⟩
      exact ⟨⟨henough, hrest⟩, scopes', hnest, hnestRest⟩
    · rintro ⟨⟨henough, hrest⟩, scopes', hnest, hnestRest⟩
      obtain ⟨body, hblock⟩ := hone.mpr ⟨henough, hnest⟩
      obtain ⟨later, hlater⟩ : ∃ later, blocks names (done ++ body) scopes' rest = .ok later :=
        (ih hraw.2).mpr ⟨hrest, hnestRest⟩
      exact ⟨_, Except.bind_eq_ok_iff.mpr ⟨_, hblock, Except.bind_eq_ok_iff.mpr ⟨later, hlater, rfl⟩⟩⟩

end Simulation

/-! ### Depths at the entries of blocks -/

/-- The statements of a block with a given label. -/
def BodyOf (blocks : List BasicBlock) (label : LabelId) (body : List Stmt) : Prop :=
  ∃ block ∈ blocks, block.entryLabel? = some label ∧ block.body = body

/-- A label of a well-formed list has one block. -/
lemma WellFormed.bodyOf_unique {bound : Nat} {blocks : List BasicBlock} (hwf : WellFormed bound blocks)
    {label : LabelId} {body body' : List Stmt} (h : BodyOf blocks label body)
    (h' : BodyOf blocks label body') : body = body' := by
  obtain ⟨block, hblock, hlabel, rfl⟩ := h
  obtain ⟨block', hblock', hlabel', rfl⟩ := h'
  rw [hwf.eq_of_label hblock hblock' (hlabel.trans hlabel'.symm)]

namespace Depth

/-- The block with the label `label` is entered with `depth` values along some way from the first
block. -/
inductive Enters (blocks : List BasicBlock) : LabelId → Nat → Prop where
  | first {label : LabelId} (h : firstLabel? blocks = some label) : Enters blocks label 0
  | branch {label target : LabelId} {depth value : Nat} {body : List Stmt} (h : Enters blocks label depth)
      (hbody : BodyOf blocks label body) (hbranch : (target, value) ∈ branches depth body) :
      Enters blocks target value

/-- All ways to a block bring the same number of values. -/
def Agrees (blocks : List BasicBlock) : Prop :=
  ∀ label depth depth', Enters blocks label depth → Enters blocks label depth' → depth = depth'

variable {bound : Nat} {blocks : List BasicBlock} {labels : Labels} {state state' : State}

/-- The depth of the block with a label has been found. -/
def State.Has (blocks : List BasicBlock) (state : State) (branch : LabelId × Nat) : Prop :=
  ∃ (i : Nat) (block : BasicBlock), blocks[i]? = some block ∧ block.entryLabel? = some branch.1 ∧
    state.depths[i]? = some (some branch.2)

/-- What following branches does to a state: depths that have been found stay, each new one is that of
a block that is entered and now pending, and each block takes one of the places that are left. -/
structure State.Grows (blocks : List BasicBlock) (state state' : State) : Prop where
  length : state'.depths.length = state.depths.length
  kept : ∀ (i depth : Nat), state.depths[i]? = some (some depth) → state'.depths[i]? = some (some depth)
  pending : ∀ i ∈ state.pending, i ∈ state'.pending
  opened : ∀ i ∈ state'.pending, i ∈ state.pending ∨
    ∃ depth : Nat, state'.depths[i]? = some (some depth)
  fresh : ∀ (i depth : Nat), state'.depths[i]? = some (some depth) →
    state.depths[i]? = some (some depth) ∨ i ∈ state'.pending ∧ ∃ (block : BasicBlock) (label : LabelId),
      blocks[i]? = some block ∧ block.entryLabel? = some label ∧ Enters blocks label depth
  count : state'.depths.count none + state'.pending.length =
    state.depths.count none + state.pending.length

namespace State.Grows

/-- Nothing is done. -/
lemma refl (blocks : List BasicBlock) (state : State) : Grows blocks state state :=
  ⟨rfl, fun _ _ h => h, fun _ h => h, fun _ h => .inl h, fun _ _ h => .inl h, rfl⟩

/-- First one thing is done and then another. -/
lemma trans {state'' : State} (h : Grows blocks state state') (h' : Grows blocks state' state'') :
    Grows blocks state state'' where
  length := h'.length.trans h.length
  kept := fun i depth hdepth => h'.kept i depth (h.kept i depth hdepth)
  pending := fun i hi => h'.pending i (h.pending i hi)
  opened := by
    intro i hi
    rcases h'.opened i hi with hi | hdepth
    · rcases h.opened i hi with hi | ⟨depth, hdepth⟩
      · exact .inl hi
      · exact .inr ⟨depth, h'.kept i depth hdepth⟩
    · exact .inr hdepth
  fresh := by
    intro i depth hdepth
    rcases h'.fresh i depth hdepth with hdepth | hfresh
    · exact (h.fresh i depth hdepth).imp_right (And.imp_left (h'.pending i))
    · exact .inr hfresh
  count := h'.count.trans h.count

/-- A depth that has been found stays. -/
lemma has (h : Grows blocks state state') {branch : LabelId × Nat} (hhas : state.Has blocks branch) :
    state'.Has blocks branch := by
  obtain ⟨i, block, hblock, hlabel, hdepth⟩ := hhas
  exact ⟨i, block, hblock, hlabel, h.kept i branch.2 hdepth⟩

/-- Depths of blocks that are entered with them are joined by others. -/
lemma sound (h : Grows blocks state state')
    (hsound : ∀ branch, state.Has blocks branch → Enters blocks branch.1 branch.2) :
    ∀ branch, state'.Has blocks branch → Enters blocks branch.1 branch.2 := by
  rintro branch ⟨i, block, hblock, hlabel, hdepth⟩
  rcases h.fresh i branch.2 hdepth with hdepth | ⟨-, block', label', hblock', hlabel', henters⟩
  · exact hsound branch ⟨i, block, hblock, hlabel, hdepth⟩
  · rw [hblock] at hblock'
    cases hblock'
    rw [hlabel] at hlabel'
    cases hlabel'
    exact henters

end State.Grows

/-- The position of a block with a label. -/
lemma position?_eq_some {label : LabelId} {i : Nat} (h : position? blocks label = some i) :
    ∃ block, blocks[i]? = some block ∧ block.entryLabel? = some label := by
  have h : (BlockMap.ofBlocks blocks).position? label = some i := h
  exact BlockMap.position?_eq_some h

/-- A label that belongs to a block has a position. -/
lemma exists_position? {label : LabelId} (h : some label ∈ blocks.map BasicBlockOf.entryLabel?) :
    ∃ i, position? blocks label = some i := by
  obtain ⟨block, hblock, hlabel⟩ := List.mem_map.mp h
  obtain ⟨i, hi⟩ := List.mem_iff_getElem?.mp hblock
  have hfind : (blocks.zipIdx.reverse.find? fun p => p.1.entryLabel? == some label).isSome = true := by
    rw [List.find?_isSome]
    refine ⟨(block, i), List.mem_reverse.mpr (List.mem_zipIdx_iff_getElem?.mpr hi), ?_⟩
    simp [hlabel]
  obtain ⟨p, hp⟩ := Option.isSome_iff_exists.mp hfind
  exact ⟨p.2, by rw [position?, hp]; rfl⟩

/-- Following a branch into a block finds its depth, or meets another one. -/
lemma follow_cases (labels : Labels) (hlength : state.depths.length = blocks.length) {branch : LabelId × Nat}
    (hlabel : some branch.1 ∈ blocks.map BasicBlockOf.entryLabel?)
    (henters : Enters blocks branch.1 branch.2) :
    (∃ state', follow blocks labels state branch = .ok state' ∧ state.Grows blocks state' ∧
      state'.Has blocks branch) ∨
    ∃ error depth, follow blocks labels state branch = .error error ∧
      state.Has blocks (branch.1, depth) ∧ depth ≠ branch.2 := by
  obtain ⟨target, value⟩ := branch
  obtain ⟨i, hi⟩ := exists_position? hlabel
  obtain ⟨block, hblock, hown⟩ := position?_eq_some hi
  have hlt : i < state.depths.length := by
    rw [hlength]
    exact (List.getElem?_eq_some_iff.mp hblock).1
  have hget := List.getElem?_eq_getElem hlt
  cases hdepth : state.depths[i] with
  | none =>
    rw [hdepth] at hget
    have hfollow : follow blocks labels state (target, value) =
        .ok ⟨state.depths.set i (some value), i :: state.pending⟩ := by
      simp only [follow, hi, hget, Option.join_some]
    refine .inl ⟨_, hfollow, ⟨List.length_set, ?_, ?_, ?_, ?_, ?_⟩, i, block, hblock, hown,
      List.getElem?_set_self hlt⟩
    · intro j depth hj
      have hne : i ≠ j := by
        rintro rfl
        rw [hget] at hj
        cases hj
      rwa [List.getElem?_set_ne hne]
    · exact fun j hj => List.mem_cons_of_mem _ hj
    · intro j hj
      rcases List.mem_cons.mp hj with rfl | hj
      · exact .inr ⟨value, List.getElem?_set_self hlt⟩
      · exact .inl hj
    · intro j depth hj
      by_cases hij : i = j
      · subst hij
        rw [List.getElem?_set_self hlt] at hj
        cases hj
        exact .inr ⟨List.mem_cons_self, block, target, hblock, hown, henters⟩
      · rw [List.getElem?_set_ne hij] at hj
        exact .inl hj
    · have hpos : 0 < state.depths.count none := List.count_pos_iff.mpr (List.mem_of_getElem? hget)
      have hcount : (state.depths.set i (some value)).count none = state.depths.count none - 1 := by
        simp [List.count_set hlt, hdepth]
      simp only [hcount, List.length_cons]
      omega
  | some expected =>
    rw [hdepth] at hget
    by_cases hsame : expected = value
    · subst hsame
      refine .inl ⟨state, by simp [follow, hi, hget], .refl blocks state, i, block, hblock, hown, hget⟩
    · have hfollow : follow blocks labels state (target, value) =
          .error (.inconsistentStack (labels.name target) expected value) := by
        simp only [follow, hi, hget, Option.join_some, if_neg hsame]
      exact .inr ⟨_, expected, hfollow, ⟨i, block, hblock, hown, hget⟩, hsame⟩

/-- Following several branches into blocks finds all their depths, or meets another one. -/
lemma foldlM_follow_cases (labels : Labels) (state : State)
    (hlength : state.depths.length = blocks.length)
    {branches : List (LabelId × Nat)} (hbranches : ∀ branch ∈ branches,
      some branch.1 ∈ blocks.map BasicBlockOf.entryLabel? ∧ Enters blocks branch.1 branch.2)
    (hsound : ∀ branch, state.Has blocks branch → Enters blocks branch.1 branch.2) :
    (∃ state', branches.foldlM (follow blocks labels) state = .ok state' ∧ state.Grows blocks state' ∧
      ∀ branch ∈ branches, state'.Has blocks branch) ∨
    ∃ error, branches.foldlM (follow blocks labels) state = .error error ∧ ¬ Agrees blocks := by
  induction branches generalizing state with
  | nil => exact .inl ⟨state, rfl, .refl blocks state, by simp⟩
  | cons branch rest ih =>
    rw [List.forall_mem_cons] at hbranches
    rcases follow_cases labels hlength hbranches.1.1 hbranches.1.2 with
      ⟨next, hnext, hgrows, hhas⟩ | ⟨error, depth, herror, hhas, hne⟩
    · rcases ih next (hgrows.length.trans hlength) hbranches.2 (hgrows.sound hsound) with
        ⟨last, hlast, hgrows', hall⟩ | ⟨error, herror, hagrees⟩
      · refine .inl ⟨last, ?_, hgrows.trans hgrows', ?_⟩
        · rw [List.foldlM_cons, hnext]
          exact hlast
        · rw [List.forall_mem_cons]
          exact ⟨hgrows'.has hhas, hall⟩
      · refine .inr ⟨error, ?_, hagrees⟩
        rw [List.foldlM_cons, hnext]
        exact herror
    · refine .inr ⟨error, ?_, fun hagrees => hne (hagrees _ _ _ (hsound _ hhas) hbranches.1.2)⟩
      rw [List.foldlM_cons, herror]
      rfl

/-- The invariant of the search: the depths that have been found are those of blocks that are entered,
the first block is among them, and the branches of a block that is not pending have been followed. -/
structure State.Explores (blocks : List BasicBlock) (state : State) : Prop where
  length : state.depths.length = blocks.length
  sound : ∀ branch, state.Has blocks branch → Enters blocks branch.1 branch.2
  first : ∀ label, firstLabel? blocks = some label → state.Has blocks (label, 0)
  pending : ∀ i ∈ state.pending, ∃ depth : Nat, state.depths[i]? = some (some depth)
  settled : ∀ (i depth : Nat) (block : BasicBlock), blocks[i]? = some block →
    state.depths[i]? = some (some depth) →
    i ∈ state.pending ∨ ∀ branch ∈ branches depth block.body, state.Has blocks branch

/-- A search that has found every depth has found each depth that a block is entered with. -/
lemma State.Explores.complete (hwf : WellFormed bound blocks) (h : state.Explores blocks)
    (hdone : state.pending = []) {label : LabelId} {depth : Nat} (henters : Enters blocks label depth) :
    state.Has blocks (label, depth) := by
  induction henters with
  | first hfirst => exact h.first _ hfirst
  | branch _ hbody hbranch ih =>
    obtain ⟨block, hblock, hlabel, rfl⟩ := hbody
    obtain ⟨i, block', hblock', hlabel', hdepth⟩ := ih
    obtain ⟨j, hj⟩ := List.mem_iff_getElem?.mp hblock
    obtain rfl : i = j := hwf.position_eq hblock' hj (hlabel'.trans hlabel.symm)
    rw [hj] at hblock'
    cases hblock'
    rcases h.settled i _ _ hj hdepth with hpending | hall
    · rw [hdone] at hpending
      cases hpending
    · exact hall _ hbranch

/-- The search starts at the first block. -/
lemma State.Explores.start (first : BasicBlock) (rest : List BasicBlock) :
    State.Explores (first :: rest) ⟨some 0 :: rest.map fun _ => none, [0]⟩ := by
  -- Only the first block has a depth.
  have honly : ∀ {i depth : Nat},
      (some 0 :: rest.map fun _ => (none : Option Nat))[i]? = some (some depth) → i = 0 ∧ depth = 0 := by
    intro i depth hdepth
    cases i with
    | zero =>
      cases hdepth
      exact ⟨rfl, rfl⟩
    | succ i => simp [List.getElem?_replicate] at hdepth
  refine ⟨by simp, ?_, ?_, ?_, ?_⟩
  · rintro ⟨label, depth⟩ ⟨i, block, hblock, hlabel, hdepth⟩
    obtain ⟨rfl, rfl⟩ := honly hdepth
    cases hblock
    exact .first hlabel
  · exact fun label hlabel => ⟨0, first, rfl, hlabel, rfl⟩
  · intro i hi
    rw [List.mem_singleton.mp hi]
    exact ⟨0, rfl⟩
  · intro i depth block _ hdepth
    rw [(honly hdepth).1]
    exact .inl (List.mem_singleton_self 0)

/-- The step of the search: all branches of a block that was pending have been followed. -/
lemma State.Explores.followed {depths : List (Option Nat)} {pending : List Nat} {i depth : Nat}
    {block : BasicBlock} {next : State} (h : State.Explores blocks ⟨depths, i :: pending⟩)
    (hblock : blocks[i]? = some block) (hdepth : depths[i]? = some (some depth))
    (hgrows : State.Grows blocks ⟨depths, pending⟩ next)
    (hall : ∀ branch ∈ branches depth block.body, next.Has blocks branch) : next.Explores blocks where
  length := hgrows.length.trans h.length
  sound := hgrows.sound h.sound
  first := fun label hlabel => hgrows.has (h.first label hlabel)
  pending := by
    intro j hj
    rcases hgrows.opened j hj with hj | hj
    · obtain ⟨depth', hdepth'⟩ := h.pending j (List.mem_cons_of_mem _ hj)
      exact ⟨depth', hgrows.kept j depth' hdepth'⟩
    · exact hj
  settled := by
    intro j depth' block' hblock' hdepth'
    rcases hgrows.fresh j depth' hdepth' with hold | ⟨hpending, -⟩
    · rcases h.settled j depth' block' hblock' hold with hj | hdone
      · rcases List.mem_cons.mp hj with rfl | hj
        · rw [hdepth] at hold
          cases hold
          rw [hblock] at hblock'
          cases hblock'
          exact .inr hall
        · exact .inl (hgrows.pending j hj)
      · exact .inr fun branch hbranch => hgrows.has (hdone branch hbranch)
    · exact .inl hpending

/-- The search ends with nothing pending, or meets two ways to a block that do not agree.  Each block
that is still without a depth, or pending, takes one step at most. -/
lemma propagate_cases (labels : Labels) (hwf : WellFormed bound blocks) {fuel : Nat}
    (h : state.Explores blocks)
    (hfuel : state.depths.count none + state.pending.length ≤ fuel) :
    (∃ state', propagate blocks labels fuel state = .ok state' ∧ state'.Explores blocks ∧
      state'.pending = []) ∨
    ∃ error, propagate blocks labels fuel state = .error error ∧ ¬ Agrees blocks := by
  induction fuel generalizing state with
  | zero =>
    have hempty : state.pending = [] := List.length_eq_zero_iff.mp (by omega)
    exact .inl ⟨state, rfl, h, hempty⟩
  | succ fuel ih =>
    obtain ⟨depths, pending⟩ := state
    cases pending with
    | nil => exact .inl ⟨_, rfl, h, rfl⟩
    | cons i pending =>
      obtain ⟨depth, hdepth⟩ := h.pending i List.mem_cons_self
      have hlt : i < blocks.length := by
        rw [← h.length]
        exact (List.getElem?_eq_some_iff.mp hdepth).1
      have hblock := List.getElem?_eq_getElem hlt
      have hmem := List.mem_of_getElem? hblock
      obtain ⟨label, -, hshaped⟩ := hwf.shaped _ hmem
      have henters : Enters blocks label depth :=
        h.sound (label, depth) ⟨i, _, hblock, hshaped.entryLabel?, hdepth⟩
      have hbranches : ∀ branch ∈ branches depth blocks[i].body,
          some branch.1 ∈ blocks.map BasicBlockOf.entryLabel? ∧ Enters blocks branch.1 branch.2 := by
        intro branch hbranch
        refine ⟨hwf.closed _ ?_, .branch henters ⟨_, hmem, hshaped.entryLabel?, rfl⟩ hbranch⟩
        exact List.mem_flatMap.mpr ⟨_, hmem, mem_targetsOfList hbranch⟩
      have hstep : propagate blocks labels (fuel + 1) ⟨depths, i :: pending⟩ =
          (branches depth blocks[i].body).foldlM (follow blocks labels) ⟨depths, pending⟩ >>=
            propagate blocks labels fuel := by
        simp only [propagate, hdepth, hblock, Option.join_some, Option.getD_some, Option.map_some]
      rw [hstep]
      rcases foldlM_follow_cases labels ⟨depths, pending⟩ h.length hbranches h.sound with
        ⟨next, hnext, hgrows, hall⟩ | ⟨error, herror, hagrees⟩
      · have hcount := hgrows.count
        simp only [List.length_cons] at hcount hfuel
        rw [hnext]
        exact ih (h.followed hblock hdepth hgrows hall) (by omega)
      · rw [herror]
        exact .inr ⟨error, rfl, hagrees⟩

/-- The number of values with which a block is simulated: the number that it is entered with, or none
if it is not entered. -/
def Starts (blocks : List BasicBlock) (label : LabelId) (depth : Nat) : Prop :=
  Enters blocks label depth ∨ depth = 0 ∧ ∀ value, ¬ Enters blocks label value

/-- Where all ways agree, there is one such number. -/
lemma Starts.unique {label : LabelId} {depth depth' : Nat} (h : Starts blocks label depth)
    (hagrees : Agrees blocks) (h' : Starts blocks label depth') : depth = depth' := by
  rcases h with h | ⟨rfl, h⟩
  · rcases h' with h' | ⟨-, h'⟩
    · exact hagrees label depth depth' h h'
    · exact absurd h (h' depth)
  · rcases h' with h' | ⟨rfl, -⟩
    · exact absurd h' (h depth')
    · rfl

/-- The search finds the number of values for each block, in 16 bits, and fails exactly when two ways to
a block do not agree. -/
theorem entryDepths_cases (labels : Labels) (hwf : WellFormed bound blocks) :
    (Agrees blocks ∧ ∃ depths, entryDepths blocks labels = .ok depths ∧
      List.Forall₂ (fun block depth => ∀ label, block.entryLabel? = some label →
        ∃ value, Starts blocks label value ∧ depth = value % Nat.pow 2 16) blocks depths) ∨
    ∃ error, entryDepths blocks labels = .error error ∧ ¬ Agrees blocks := by
  obtain ⟨first, rest, rfl⟩ := List.exists_cons_of_ne_nil hwf.nonempty
  have hfuel : (some 0 :: rest.map fun _ => (none : Option Nat)).count none + [0].length ≤
      (first :: rest).length := by
    simp [List.map_const']
  rcases propagate_cases labels hwf (.start first rest) hfuel with
    ⟨state, hstate, hexplores, hdone⟩ | ⟨error, herror, hagrees⟩
  · have hcomplete : ∀ {i : Nat} {block : BasicBlock} {label : LabelId} {depth : Nat},
        (first :: rest)[i]? = some block → block.entryLabel? = some label →
        Enters (first :: rest) label depth → state.depths[i]? = some (some depth) := by
      intro i block label depth hblock hlabel henters
      obtain ⟨j, block', hblock', hlabel', hdepth⟩ := hexplores.complete hwf hdone henters
      rwa [hwf.position_eq hblock hblock' (hlabel.trans hlabel'.symm)]
    refine .inl ⟨?_, state.depths.map fun depth => depth.getD 0 % Nat.pow 2 16, ?_, ?_⟩
    · intro label depth depth' henters henters'
      obtain ⟨i, block, hblock, hlabel, hdepth⟩ := hexplores.complete hwf hdone henters
      rw [hcomplete hblock hlabel henters'] at hdepth
      cases hdepth
      rfl
    · rw [entryDepths, hstate]
      rfl
    · rw [List.forall₂_map_right_iff, List.forall₂_iff_get]
      refine ⟨hexplores.length.symm, ?_⟩
      intro i hi hi' label hlabel
      have hblock := List.getElem?_eq_getElem hi
      have hget := List.getElem?_eq_getElem hi'
      cases hdepth : state.depths[i] with
      | none =>
        refine ⟨0, .inr ⟨rfl, fun value henters => ?_⟩, by simp [hdepth]⟩
        rw [hcomplete hblock hlabel henters, hdepth] at hget
        cases hget
      | some depth =>
        rw [hdepth] at hget
        exact ⟨depth, .inl (hexplores.sound (label, depth) ⟨i, _, hblock, hlabel, hget⟩), by simp [hdepth]⟩
  · refine .inr ⟨error, ?_, hagrees⟩
    rw [entryDepths, herror]
    rfl

end Depth

/-- All ways to a block bring the same number of values, and each block finds the values it takes among
them. -/
structure Depth.Supplied (blocks : List BasicBlock) : Prop where
  agrees : Depth.Agrees blocks
  enough : ∀ label body depth, BodyOf blocks label body → Depth.Starts blocks label depth →
    Stmt.enough (depth % Nat.pow 2 16) body = true

/-- Scopes are entered and left in turn. -/
def ScopesPaired (blocks : List BasicBlock) : Prop :=
  ScopeMark.nest 0 (blocks.flatMap BasicBlockOf.scopeMarks) = some 0

instance (blocks : List BasicBlock) : Decidable (ScopesPaired blocks) :=
  inferInstanceAs (Decidable (_ = _))

/-- The stack of a list of blocks can be simulated. -/
def Simulates (names : Names) (labels : Labels) (blocks : List BasicBlock) : Prop :=
  ∃ results, simulate names labels blocks = .ok results

instance (names : Names) (labels : Labels) (blocks : List BasicBlock) :
    Decidable (Simulates names labels blocks) :=
  match h : simulate names labels blocks with
  | .ok results => isTrue ⟨results, h⟩
  | .error _ => isFalse fun ⟨_, hok⟩ => nomatch h.symm.trans hok

/-- The stack of a list of blocks can be simulated exactly when the blocks get the values they take, and
scopes are entered and left in turn. -/
theorem simulates_iff {bound : Nat} {blocks : List BasicBlock} (names : Names) (labels : Labels)
    (hwf : WellFormed bound blocks) (hraw : ∀ block ∈ blocks, RawBody block.body) :
    Simulates names labels blocks ↔ Depth.Supplied blocks ∧ ScopesPaired blocks := by
  rcases Depth.entryDepths_cases labels hwf with
    ⟨hagrees, depths, hdepths, hstarts⟩ | ⟨error, herror, hagrees⟩
  · have hfst : (blocks.zip depths).map Prod.fst = blocks := List.map_fst_zip (Nat.le_of_eq hstarts.length_eq)
    have hmarks : (blocks.zip depths).flatMap (·.1.scopeMarks) = blocks.flatMap BasicBlockOf.scopeMarks := by
      conv_rhs => rw [← hfst]
      rw [List.flatMap_map]
    have hzip : ∀ source ∈ blocks.zip depths, RawBody source.1.body := by
      intro source hsource
      exact hraw _ (List.of_mem_zip hsource).1
    have hsimulate : Simulates names labels blocks ↔
        ∃ results, Simulation.blocks names [] 0 (blocks.zip depths) = .ok results := by
      rw [Simulates, simulate, hdepths]
      rfl
    rw [hsimulate, Simulation.exists_blocks_iff hzip, hmarks]
    constructor
    · rintro ⟨henough, hnest⟩
      refine ⟨⟨hagrees, ?_⟩, hnest⟩
      rintro label body depth ⟨block, hblock, hlabel, rfl⟩ hdepth
      rw [← hfst] at hblock
      obtain ⟨⟨block, found⟩, hsource, rfl⟩ := List.mem_map.mp hblock
      obtain ⟨value, hvalue, rfl⟩ := List.forall₂_zip hstarts hsource label hlabel
      rw [hdepth.unique hagrees hvalue]
      exact henough _ hsource
    · rintro ⟨hsupplied, hnest⟩
      refine ⟨?_, hnest⟩
      rintro ⟨block, found⟩ hsource
      have hblock := (List.of_mem_zip hsource).1
      obtain ⟨label, -, hshaped⟩ := hwf.shaped block hblock
      obtain ⟨value, hvalue, rfl⟩ := List.forall₂_zip hstarts hsource label hshaped.entryLabel?
      exact hsupplied.enough label _ value ⟨block, hblock, hshaped.entryLabel?, rfl⟩ hvalue
  · refine iff_of_false ?_ fun h => hagrees h.1.agrees
    rintro ⟨results, hresults⟩
    rw [simulate, herror] at hresults
    cases hresults

end Decompiler
