import Decompiler.Decompile
import Decompiler.Proofs.BuiltStatements
import Decompiler.Proofs.ConditionRecovery
import Decompiler.Proofs.LoopRecovery
import Decompiler.Proofs.SplicedTrees
import Decompiler.Proofs.StatementKinds

/-!
# How a unit can fail

The phases and the outlines that a unit records do not bear on what becomes of it: `treeOf` is the way
of a unit without them (`decompile_error`).  Up to the simplified blocks a unit fails only with a fault
of its code, of its stack or with too many sweeps, and its blocks are sound.  From there on the recovery
of loops is the only step that can break a condition of the passes, at a loop whose header has been taken
by its own scope.
-/

namespace Decompiler

open Bytecode

/-! ### Units without phases and outlines -/

/-- A step on the names and messages of a unit. -/
abbrev ContextStep := ExceptT Error (StateM Context)

/-- A step of a unit that does what a step on its names and messages does, whatever has been recorded.
-/
def UnitStep.Does {α : Type} (x : UnitStep α) (y : ContextStep α) : Prop :=
  ∀ s, (exec x s).1 = (exec y s.context).1 ∧ (exec x s).2.context = (exec y s.context).2

namespace UnitStep.Does

variable {α β : Type}

/-- Giving a value. -/
lemma pure (a : α) : Does (Pure.pure a) (Pure.pure a) := fun _ => ⟨rfl, rfl⟩

/-- One step after the other. -/
lemma bind {x : UnitStep α} {y : ContextStep α} {f : α → UnitStep β} {g : α → ContextStep β}
    (hx : Does x y) (hf : ∀ a, Does (f a) (g a)) : Does (x >>= f) (y >>= g) := by
  intro s
  obtain ⟨hresult, hcontext⟩ := hx s
  cases hrun : exec x s with
  | mk result t =>
    cases hrun' : exec y s.context with
    | mk result' t' =>
      rw [hrun, hrun'] at hresult hcontext
      dsimp only at hresult hcontext
      subst hresult
      cases result with
      | error e =>
        rw [exec_bind_of_error hrun, exec_bind_of_error hrun']
        exact ⟨rfl, hcontext⟩
      | ok a =>
        rw [exec_bind_of_ok hrun, exec_bind_of_ok hrun', ← hcontext]
        exact hf a t

/-- A step that records something and goes on. -/
lemma skip {x : UnitStep Unit} {f : Unit → UnitStep β} {y : ContextStep β}
    (hx : Does x (Pure.pure ())) (hf : Does (f ()) y) : Does (x >>= f) y :=
  bind hx fun _ => hf

/-- Entering a phase does not matter. -/
lemma enter (phase : Phase) : Does (enter phase) (Pure.pure ()) := fun _ => ⟨rfl, rfl⟩

/-- Recording an outline does not matter. -/
lemma record (options : Options) (stage : Stage) (outline : Labels → String) :
    Does (record options stage outline) (Pure.pure ()) := by
  intro s
  refine ⟨rfl, ?_⟩
  change (if options.snapshots then _ else s).context = s.context
  split <;> rfl

/-- A step that cannot touch the names and messages. -/
lemma lift (result : Except Error α) : Does (lift result) (MonadExcept.ofExcept result) := by
  intro s
  cases result <;> exact ⟨rfl, rfl⟩

/-- A step on the names and messages. -/
lemma onContext (step : ContextStep α) : Does (onContext step) step := fun _ => ⟨rfl, rfl⟩

/-- Splitting statements into blocks, where no block is refused. -/
lemma split (stmts : List Stmt) : Does (split stmts) (modifyGet fun context =>
    ((partition context.labels stmts).1,
      { context with labels := (partition context.labels stmts).2 })) := by
  intro s
  simp only [UnitStep.split, checkedPartition_eq]
  exact ⟨rfl, rfl⟩

/-- Looking at the label names. -/
lemma labels : Does labels (modifyGet fun context => (context.labels, context)) :=
  fun _ => ⟨rfl, rfl⟩

end UnitStep.Does

/-- The simplified blocks of a unit. -/
def simplifiedBlocks (names : Names) (options : Options) (bytes : List UInt8) :
    ContextStep (List BasicBlock) := do
  let code ← MonadExcept.ofExcept ((Bytecode.decode names bytes).mapError Error.decode)
  modify fun context => { context with labels := .ofTable code.labels }
  let stmts ← MonadExcept.ofExcept (lower code)
  let blocks ← modifyGet fun context =>
    ((partition context.labels stmts).1,
      { context with labels := (partition context.labels stmts).2 })
  let blocks ← rewrite (optimizeStackOps options.maxSweeps blocks)
  let labels ← modifyGet fun context => (context.labels, context)
  let blocks ← MonadExcept.ofExcept (simulate names labels blocks)
  rewrite (optimizeExprs options.maxSweeps blocks)
where
  /-- A run of rules as a step. -/
  rewrite (run : Context → Fixpoint.Outcome Nat) : ContextStep (List BasicBlock) :=
    fun context => ((run context).1.map fun _ => (run context).2.blocks, (run context).2.context)

/-- The final tree of a unit, from its simplified blocks. -/
def treeOf (blocks : List BasicBlock) : ContextStep Block := do
  let tree ← (findLoops (blockOfBasicBlocks blocks) : ContextStep Block)
  let tree ← (findConditions tree : ContextStep Block)
  return simplify (← MonadExcept.ofExcept (flatten tree))

open UnitStep in
/-- The way of a unit is the way to its simplified blocks and from there to its tree. -/
lemma recoverTree_does (names : Names) (options : Options) (bytes : List UInt8) :
    (recoverTree names options bytes).Does
      (simplifiedBlocks names options bytes >>= treeOf) := by
  unfold recoverTree simplifiedBlocks treeOf
  simp only [bind_assoc]
  refine .skip (.enter _) (.bind (.lift _) fun code => ?_)
  refine .bind (.onContext _) fun _ => .skip (.enter _) (.bind (.lift _) fun stmts => ?_)
  refine .skip (.record _ _ _) (.skip (.enter _) (.bind (.split stmts) fun blocks => ?_))
  refine .skip (.record _ _ _) (.skip (.enter _) (.bind (.onContext _) fun blocks => ?_))
  refine .skip (.record _ _ _) (.skip (.enter _) (.bind .labels fun labels => ?_))
  refine .bind (.lift _) fun blocks => .skip (.record _ _ _) (.skip (.enter _) ?_)
  refine .bind (.onContext _) fun blocks => .skip (.record _ _ _) (.skip (.enter _) ?_)
  refine .bind (.onContext _) fun tree => .skip (.record _ _ _) (.skip (.enter _) ?_)
  refine .bind (.onContext _) fun tree => .bind (.lift _) fun tree => ?_
  exact .skip (.record _ _ _) (.skip (.enter _) (.skip (.record _ _ _) (.pure _)))

/-- The names and messages of a unit at its start. -/
def unitContext (name : String) : Context :=
  { diagnostics := { unit := name } }

/-- The error of a unit is that of the way to its tree. -/
lemma decompile_error_eq_some_iff {names : Names} {options : Options} {name : String}
    {bytes : List UInt8} {error : Error} :
    (decompile names options name bytes).error = some error ↔
      (exec (simplifiedBlocks names options bytes >>= treeOf) (unitContext name)).1 =
        .error error := by
  have hdoes := (recoverTree_does names options bytes { context := unitContext name }).1
  rw [← hdoes]
  unfold decompile exec unitContext
  dsimp only
  generalize StateT.run (ExceptT.run (recoverTree names options bytes)) _ = outcome
  obtain ⟨result, state⟩ := outcome
  cases result <;> simp

/-! ### Faults up to the simplified blocks -/

/-- The step succeeds from a state and leaves `post`, or else it fails and leaves `fault`. -/
def Ends {σ α : Type} (fault : Error → σ → Prop) (x : ExceptT Error (StateM σ) α) (s : σ)
    (post : α → σ → Prop) : Prop :=
  Yields x s post ∨ ∃ e t, exec x s = (.error e, t) ∧ fault e t

namespace Ends

variable {σ α β : Type} {fault : Error → σ → Prop} {x : ExceptT Error (StateM σ) α} {s : σ}

/-- One step after the other. -/
lemma bind {f : α → ExceptT Error (StateM σ) β} {mid : α → σ → Prop} {post : β → σ → Prop}
    (hx : Ends fault x s mid) (hf : ∀ a t, mid a t → Ends fault (f a) t post) :
    Ends fault (x >>= f) s post := by
  rcases hx with ⟨a, t, hrun, hmid⟩ | ⟨e, t, hrun, hfault⟩
  · rcases hf a t hmid with ⟨b, u, hrun', hpost⟩ | ⟨e, u, hrun', hfault⟩
    · exact .inl ⟨b, u, (exec_bind_of_ok hrun).trans hrun', hpost⟩
    · exact .inr ⟨e, u, (exec_bind_of_ok hrun).trans hrun', hfault⟩
  · exact .inr ⟨e, t, exec_bind_of_error hrun, hfault⟩

/-- A step that cannot touch the state. -/
lemma ofExcept {result : Except Error α} {post : α → σ → Prop}
    (hok : ∀ a, result = .ok a → post a s) (herror : ∀ e, result = .error e → fault e s) :
    Ends fault (MonadExcept.ofExcept result) s post := by
  cases result with
  | ok a => exact .inl ⟨a, s, rfl, hok a rfl⟩
  | error e => exact .inr ⟨e, s, rfl, herror e rfl⟩

end Ends

/-- The error breaks no condition of the passes, and what was built before it leads to labels that have
been handed out. -/
structure Error.IsLawful (e : Error) (context : Context) : Prop where
  noInvariant : ∀ fault, e ≠ .invariant fault
  builtLeads : e.BuiltLeads (· < context.labels.names.length)

/-- An error without statements that breaks no condition of the passes. -/
lemma Error.IsLawful.of_none {e : Error} {context : Context} (h : ∀ fault, e ≠ .invariant fault)
    (hbuilt : e.built? = none) : e.IsLawful context where
  noInvariant := h
  builtLeads := by
    intro built hsome
    rw [hbuilt] at hsome
    cases hsome

namespace Simulation

variable {names : Names} {done : List Stmt} {error : Error}

/-- A fault of the stack breaks no condition of the passes. -/
lemma stmts_ne_invariant {state : State} {body : List Stmt}
    (h : stmts names done state body = .error error) (fault : InvariantFault) :
    error ≠ .invariant fault := by
  induction body generalizing state with
  | nil => cases h
  | cons s rest ih =>
    cases hop : s.stackOp? with
    | none =>
      cases s with
      | raw offset op => cases hop
      | _ =>
        rw [stmts] at h
        · exact ih h
        · simp
    | some op =>
      cases s with
      | raw offset op' =>
        rw [stmts] at h
        split at h
        · exact ih h
        · rename_i stackFault _
          cases h
          cases stackFault <;> simp [Fault.toError]
      | _ => cases hop

/-- Simulating blocks breaks no condition of the passes. -/
lemma blocks_ne_invariant {scopes : Nat} {sources : List (BasicBlock × Nat)}
    (h : blocks names done scopes sources = .error error) (fault : InvariantFault) :
    error ≠ .invariant fault := by
  induction sources generalizing done scopes with
  | nil =>
    rw [blocks] at h
    split at h
    · cases h
    · cases h
      simp
  | cons first rest ih =>
    obtain ⟨source, depth⟩ := first
    rw [blocks] at h
    cases hstmts : stmts names done { stack := incomingStack depth, scopes } source.body with
    | error e =>
      simp only [block, hstmts] at h
      cases h
      exact stmts_ne_invariant hstmts fault
    | ok state =>
      simp only [block, hstmts] at h
      cases hlater : blocks names (done ++ settle state) state.scopes rest with
      | error e =>
        simp only [bind, Except.bind, pure, Except.pure, hlater] at h
        cases h
        exact ih hlater
      | ok later =>
        simp only [bind, Except.bind, pure, Except.pure, hlater] at h
        cases h

end Simulation

/-- Simulation breaks no condition of the passes. -/
lemma simulate_ne_invariant {names : Names} {labels : Labels} {blocks : List BasicBlock}
    {error : Error} (h : simulate names labels blocks = .error error) (fault : InvariantFault) :
    error ≠ .invariant fault := by
  unfold simulate at h
  cases hdepths : Depth.entryDepths blocks labels with
  | error e =>
    rw [hdepths] at h
    cases h
    obtain ⟨_, _, _, rfl⟩ := Depth.entryDepths_eq_error hdepths
    simp
  | ok depths =>
    rw [hdepths] at h
    exact Simulation.blocks_ne_invariant h fault

/-- A run of rules on a well-formed list, as a step of a unit. -/
lemma lawful_rewrite {rules : List Rule} {maxSweeps : Nat} {blocks : List BasicBlock}
    {context : Context} (h : WellFormed context.labels.names.length blocks) {P : Stmt → Prop}
    (hkeeps : AllStmts P (runFixpoint rules maxSweeps blocks context).2.blocks) :
    Ends Error.IsLawful (simplifiedBlocks.rewrite (runFixpoint rules maxSweeps blocks)) context
      fun after later => WellFormed later.labels.names.length after ∧ AllStmts P after := by
  obtain ⟨hafter, hresult⟩ := Fixpoint.wellFormed_runFixpoint rules maxSweeps h
  cases hrun : runFixpoint rules maxSweeps blocks context with
  | mk result state =>
    rw [hrun] at hafter hresult hkeeps
    have hexec : exec (simplifiedBlocks.rewrite (runFixpoint rules maxSweeps blocks)) context =
        (result.map fun _ => state.blocks, state.context) := by
      change ((runFixpoint rules maxSweeps blocks context).1.map _, _) = _
      rw [hrun]
    rcases hresult with ⟨n, rfl⟩ | ⟨n, rfl⟩
    · exact .inl ⟨state.blocks, state.context, hexec, hafter, hkeeps⟩
    · exact .inr ⟨.fixpointExceeded n, state.context, hexec, .of_none (by simp) rfl⟩

/-- The simplified blocks of a unit are well-formed and simple, or the unit fails without breaking a
condition of the passes, and what it has built leads to labels of its own. -/
theorem lawful_simplifiedBlocks (names : Names) (options : Options) (bytes : List UInt8)
    (context : Context) :
    Ends Error.IsLawful (simplifiedBlocks names options bytes) context fun blocks later =>
      WellFormed later.labels.names.length blocks ∧ AllStmts (Stmt.isSimple · = true) blocks := by
  have hdecode : Ends Error.IsLawful
      (MonadExcept.ofExcept ((decode names bytes).mapError Error.decode)) context
      fun code _ => decode names bytes = .ok code := by
    refine .ofExcept ?_ ?_ <;> cases decode names bytes
    · simp [Except.mapError]
    · simp [Except.mapError]
    · rintro e ⟨⟩
      exact .of_none (by simp) rfl
    · simp [Except.mapError]
  refine hdecode.bind fun code t hcode => ?_
  -- The labels of the code are the first of the unit, and splitting it into blocks adds to them.
  have hlabels : Ends Error.IsLawful
      (modify fun context : Context => { context with labels := .ofTable code.labels }) t
      fun _ u => u.labels = .ofTable code.labels := .inl ⟨(), _, rfl, rfl⟩
  refine hlabels.bind fun _ u hu => ?_
  obtain ⟨stmts, hlower, hflat⟩ := lower_eq_ok (decode_isProper hcode)
  have hstmts : Ends Error.IsLawful (MonadExcept.ofExcept (lower code)) u
      fun list v => list = stmts ∧ v = u := by
    refine .ofExcept ?_ ?_ <;> rw [hlower]
    · rintro list ⟨⟩
      exact ⟨rfl, rfl⟩
    · simp
  refine hstmts.bind ?_
  rintro _ u ⟨rfl, rfl⟩
  have hlength : u.labels.names.length = code.labels.labels.length := by
    simp [hu, Labels.ofTable]
  rw [← hlength] at hflat
  obtain ⟨hwf, hcode⟩ := wellFormed_partition hflat
  refine Ends.bind (?_ : Ends _ _ _ fun blocks context =>
    WellFormed context.labels.names.length blocks ∧ AllStmts Stmt.IsOfCode blocks) ?_
  · exact .inl ⟨_, _, rfl, hwf, hcode⟩
  rintro blocks t ⟨hwf, hcode⟩
  refine (lawful_rewrite hwf (isOfCode_optimizeStackOps hcode)).bind ?_
  rintro blocks t ⟨hwf, hcode⟩
  refine Ends.bind (.inl ⟨_, _, rfl, rfl⟩ : Ends _ _ _ fun _ u => u = t) ?_
  rintro labels _ rfl
  refine Ends.bind (?_ : Ends _ _ _ fun blocks context =>
    WellFormed context.labels.names.length blocks ∧ AllStmts (Stmt.isSimple · = true) blocks) ?_
  · refine .ofExcept ?_ ?_
    · intro results hsimulate
      refine ⟨?_, isSimple_simulate hwf hcode hsimulate⟩
      exact (wellFormed_simulate_iff hwf hsimulate).mpr (bareBranches_simulate hwf hcode hsimulate)
    · intro e hsimulate
      exact ⟨simulate_ne_invariant hsimulate, builtLeads_simulate hwf hsimulate⟩
  · rintro blocks t ⟨hwf, hsimple⟩
    exact lawful_rewrite hwf (isSimple_optimizeExprs hsimple)

/-! ### Faults behind the simplified blocks -/

/-- The recovery of loops stops at a loop whose header has been taken by its own scope. -/
def StopsAtHeader (blocks : List BasicBlock) (context : Context) : Prop :=
  ∃ context', ∀ stop, findLoopsUntil stop (blockOfBasicBlocks blocks) context = (.error stop, context')

/-- The tree of sound blocks is found, unless the recovery of loops stops at a loop whose header has
been taken by its own scope. -/
lemma treeOf_cases {blocks : List BasicBlock} (h : SoundBlocks (blocks.map Stmt.basic))
    (context : Context) :
    (Yields (treeOf blocks) context (fun _ _ => True) ∧ ¬ StopsAtHeader blocks context) ∨
      (exec (treeOf blocks) context).1 = .error Loops.headerGone ∧ StopsAtHeader blocks context ∧
        Loops.ScopeOverHeader (Layout.ofBlock (blockOfBasicBlocks blocks))
          (blocks.map Stmt.basic) := by
  have hsound : SoundBlocks (blockOfBasicBlocks blocks).body := h
  have hcases := fun stop => findLoops_cases hsound stop context
  rcases hcases Loops.headerGone with ⟨body, t, _, _, hloops, huntil, -, hbuilt, -⟩ |
    ⟨t, hloops, -, hover⟩
  · refine .inl ⟨?_, ?_⟩
    · refine Yields.bind (⟨_, t, hloops, (hbuilt.soundBlocks hsound).soundList⟩ :
        Yields _ _ fun tree _ => Stmt.soundList tree.body = true) fun tree u htree => ?_
      obtain ⟨tree', u', hconditions, htree'⟩ := findConditions_ok htree u
      refine Yields.bind (⟨tree', u', hconditions, htree'⟩ :
        Yields _ _ fun tree _ => Stmt.soundList tree.body = true) fun tree u htree => ?_
      obtain ⟨flat, hflat⟩ := flatten_ok htree
      rw [hflat]
      exact ⟨_, u, rfl, trivial⟩
    · rintro ⟨context', hstop⟩
      have := hstop Loops.headerGone
      rw [huntil] at this
      cases this
  · refine .inr ⟨?_, ⟨t, fun stop => ?_⟩, hover⟩
    · have hexec : exec (findLoops (blockOfBasicBlocks blocks) : ContextStep Block) context =
          (.error Loops.headerGone, t) := hloops
      unfold treeOf
      rw [exec_bind_of_error hexec]
    · rcases hcases stop with ⟨body, t', _, _, hloops', -⟩ | ⟨t', hloops', huntil, -⟩
      · rw [hloops] at hloops'
        cases hloops'
      · rw [hloops] at hloops'
        cases hloops'
        exact huntil

/-- A unit breaks a condition of the passes exactly when the recovery of its loops comes to a loop whose
header has been taken by its own scope, and then for want of a label.  Such a header starts a scope whose
body's entry dominates the header. -/
theorem decompile_invariant_iff (names : Names) (options : Options) (name : String)
    (bytes : List UInt8) (fault : InvariantFault) :
    ((decompile names options name bytes).error = some (.invariant fault) ↔
      fault = .block .noLabel ∧ ∃ blocks context,
        exec (simplifiedBlocks names options bytes) (unitContext name) = (.ok blocks, context) ∧
          StopsAtHeader blocks context) ∧
    ((decompile names options name bytes).error = some (.invariant fault) →
      ∃ blocks context,
        exec (simplifiedBlocks names options bytes) (unitContext name) = (.ok blocks, context) ∧
          Loops.ScopeOverHeader (Layout.ofBlock (blockOfBasicBlocks blocks))
            (blocks.map Stmt.basic)) := by
  rw [decompile_error_eq_some_iff]
  rcases lawful_simplifiedBlocks names options bytes (unitContext name) with
    ⟨blocks, context, hblocks, hwf, hsimple⟩ | ⟨e, t, hfails, hlawful⟩
  · have hsound : SoundBlocks (blocks.map Stmt.basic) :=
      hwf.soundBlocks_of_isSimple hsimple
    rw [exec_bind_of_ok hblocks]
    rcases treeOf_cases hsound context with ⟨⟨tree, t, htree, -⟩, hgoes⟩ | ⟨htree, hstops, hover⟩
    · rw [htree]
      refine ⟨⟨by simp, ?_⟩, by simp⟩
      rintro ⟨-, blocks', context', hblocks', hstops⟩
      rw [hblocks] at hblocks'
      cases hblocks'
      exact absurd hstops hgoes
    · rw [htree]
      refine ⟨⟨?_, ?_⟩, fun _ => ⟨blocks, context, hblocks, hover⟩⟩
      · intro hfault
        cases hfault
        exact ⟨rfl, blocks, context, hblocks, hstops⟩
      · rintro ⟨rfl, -⟩
        rfl
  · rw [exec_bind_of_error hfails]
    refine ⟨⟨?_, ?_⟩, ?_⟩
    · intro hfault
      cases hfault
      exact absurd rfl (hlawful.noInvariant fault)
    · rintro ⟨-, blocks, context, hblocks, -⟩
      rw [hfails] at hblocks
      cases hblocks
    · intro hfault
      cases hfault
      exact absurd rfl (hlawful.noInvariant fault)

/-- Code that enters the body of a scope from outside.  The body sets `z`, tests `c` and goes back to
where the scope starts, and so does the end of the scope. -/
def loopThroughScope : List UInt8 :=
  [0x04, 0, 0, 0xb7, 0, 0, 0x02, 0xc0, 1, 0, 0, 0, 0x09, 0, 0, 0xbb, 0, 0, 0x02, 0xc0, 1, 0, 0, 0,
    0xff, 0xff, 0x55, 0x41, 0, 0, 0, 0xa0, 0xff, 0xff, 0x05, 0xc0, 1, 0, 0, 0xa0,
    0xf7, 0xff, 0xff, 0xb8, 0x03, 0, 0, 0xb7, 0xf8, 0xff, 0xff, 0xbc, 0xf4, 0xff, 0xff, 0xb7,
    0, 0, 0, 0x9e]

/-- Whether an error is the fault of a block without a label. -/
def Error.isNoLabel : Error → Bool
  | .invariant fault => fault == .block .noLabel
  | _ => false

/-- The header of the loop is taken by its own scope. -/
theorem loopThroughScope_fails :
    (decompile { strings := ["z", "c"] } {} "unit" loopThroughScope).error =
      some (.invariant (.block .noLabel)) := by
  have hfault : (decompile { strings := ["z", "c"] } {} "unit" loopThroughScope).error.any
      Error.isNoLabel = true := by
    unfold decompile recoverTree
    rw [decode_eq_decodeBounded]
    decide +kernel
  generalize (decompile { strings := ["z", "c"] } {} "unit" loopThroughScope).error = error at hfault ⊢
  match error, hfault with
  | some (.invariant fault), hfault => rw [eq_of_beq hfault]

end Decompiler
