import Decompiler.Proofs.StatementKinds

/-!
# Well-formed lists along the way of a unit

A unit that decodes is split into a well-formed list of blocks, and each step on the way to simulated
and simplified blocks keeps the list well-formed.  Each rule gives an edit that is carried out and
leaves a well-formed list, so that a run of rules has no way to fail but too many sweeps.

Simulation is the step with a condition: a branch that is a statement already does not leave the values
on the stack before it, as a branch of the stack machine does, and so it has to be met with an empty
stack.  The blocks of decoded code have no such branch; `branchBeforeValue` has one.
-/

namespace Decompiler

open Bytecode

/-- Each step of a unit up to the simplified blocks gives a well-formed list from a well-formed list,
and simulation does so exactly when no branch that is a statement already leaves values behind it. -/
theorem wellFormed_steps :
    (∀ (names : Names) (bytes : List UInt8) (code : Code), decode names bytes = .ok code →
      ∃ stmts, lower code = .ok stmts ∧
        WellFormed (partition (.ofTable code.labels) stmts).2.names.length
          (partition (.ofTable code.labels) stmts).1) ∧
    (∀ (rule : Rule) (blocks : List BasicBlock) (pos : Nat) (head : BasicBlock)
      (context context' : Context) (edit : Edit), WellFormed context.labels.names.length blocks →
      blocks[pos]? = some head →
      rule.edit? ⟨.ofBlocks blocks, pos, head⟩ context = (some edit, context') →
      ∃ after resume, edit.apply blocks pos = .ok (after, resume) ∧
        WellFormed context'.labels.names.length after) ∧
    (∀ (names : Names) (labels : Labels) (bound : Nat) (sources results : List BasicBlock),
      WellFormed bound sources → simulate names labels sources = .ok results →
      results.map BasicBlockOf.entryLabel? = sources.map BasicBlockOf.entryLabel? ∧
        results.map (Stmt.targetsOfList ·.body) = sources.map (Stmt.targetsOfList ·.body) ∧
        (WellFormed bound results ↔ List.Forall₂ (fun source result =>
          Simulation.BareBranches result.entryDepth source.body) sources results)) ∧
    ∀ (maxSweeps : Nat) (blocks : List BasicBlock) (context : Context) (error : Error),
      WellFormed context.labels.names.length blocks →
      (optimizeStackOps maxSweeps blocks context).1 = .error error ∨
        (optimizeExprs maxSweeps blocks context).1 = .error error →
      ∃ n, error = .fixpointExceeded n := by
  refine ⟨?_, ?_, ?_, ?_⟩
  · intro names bytes code hdecode
    obtain ⟨stmts, hlower, hflat⟩ := lower_eq_ok (decode_isProper hdecode)
    have hlength : (Labels.ofTable code.labels).names.length = code.labels.labels.length := by
      simp [Labels.ofTable]
    rw [← hlength] at hflat
    exact ⟨stmts, hlower, (wellFormed_partition hflat).1⟩
  · intro rule blocks pos head context context' edit hwf hhead hedit
    have hstate : Fixpoint.State.IsWellFormed { blocks, context } := hwf
    exact Fixpoint.apply_wellFormed hstate hhead hedit
  · intro names labels bound sources results hwf hsimulate
    obtain ⟨hlabels, htargets⟩ := simulate_outline hwf hsimulate
    exact ⟨hlabels, htargets, wellFormed_simulate_iff hwf hsimulate⟩
  · intro maxSweeps blocks context error hwf herror
    have hrun : ∀ rules, (runFixpoint rules maxSweeps blocks context).1 = .error error →
        ∃ n, error = .fixpointExceeded n := by
      intro rules herror
      obtain ⟨-, ⟨n, hok⟩ | ⟨n, hfail⟩⟩ := Fixpoint.wellFormed_runFixpoint rules maxSweeps hwf
      · rw [hok] at herror
        cases herror
      · rw [hfail] at herror
        cases herror
        exact ⟨n, rfl⟩
    rcases herror with herror | herror
    · exact hrun _ herror
    · exact hrun _ herror

/-- Code that branches over a call. -/
def branchingBytes : List UInt8 :=
  [0, 0, 0x0f, 0xc0, 3, 0, 0, 0xb8, 0, 0, 0x02, 0xda, 0, 0, 0, 0, 0, 0, 0, 0x9e]

/-- Two blocks that are joined under the label of the first. -/
def joinable : List BasicBlock :=
  [{ body := [.label 0, .goto 1] }, { body := [.label 1, .exit] }]

/-- A block that branches with a value on the stack, and one that drops the value. -/
def branchWithValue : List BasicBlock :=
  [{ body := [.label 0, .raw 0 (.push (.int 1)), .raw 1 (.dup 0), .raw 2 (.branchTrue 1), .goto 1] },
    { body := [.label 1, .raw 3 .popz, .exit] }]

/-- Names for two labels. -/
def twoLabels : Context where
  labels := { names := ["L0", "L1"] }
  diagnostics := { unit := "unit" }

/-- A unit that branches, a join, a branch with a value on the stack, and a run without sweeps. -/
theorem wellFormed_steps_instances :
    (∃ code stmts, decode { strings := ["f"] } branchingBytes = .ok code ∧ lower code = .ok stmts ∧
      WellFormed (partition (.ofTable code.labels) stmts).2.names.length
        (partition (.ofTable code.labels) stmts).1) ∧
    (∃ edit after resume, (Rule.join.edit? ⟨.ofBlocks joinable, 0, joinable.head (by decide)⟩
      twoLabels).1 = some edit ∧ edit.apply joinable 0 = .ok (after, resume) ∧
      WellFormed 2 after) ∧
    (∃ results, simulate {} twoLabels.labels branchWithValue = .ok results ∧
      results.map BasicBlockOf.entryLabel? = [some 0, some 1] ∧ WellFormed 2 results) ∧
    ∃ error n, (optimizeStackOps 0 branchWithValue twoLabels).1 = .error error ∧
      error = .fixpointExceeded n := by
  obtain ⟨hunit, hrule, hsimulate, hrun⟩ := wellFormed_steps
  refine ⟨?_, ?_, ?_, ?_⟩
  · have hdecodes : ∃ code, decode { strings := ["f"] } branchingBytes = .ok code := by
      rw [decode_eq_decodeBounded]
      exact ⟨_, rfl⟩
    obtain ⟨code, hcode⟩ := hdecodes
    obtain ⟨stmts, hstmts, hwf⟩ := hunit _ _ code hcode
    exact ⟨code, stmts, hcode, hstmts, hwf⟩
  · obtain ⟨after, resume, happly, hwf⟩ := hrule .join joinable 0 _ twoLabels _ _ (by decide) rfl rfl
    exact ⟨_, after, resume, rfl, happly, hwf⟩
  · obtain ⟨results, hresults⟩ : ∃ results,
        simulate {} twoLabels.labels branchWithValue = .ok results := ⟨_, rfl⟩
    have hwf : WellFormed 2 branchWithValue := by decide
    obtain ⟨hlabels, -, hiff⟩ := hsimulate _ _ 2 _ _ hwf hresults
    refine ⟨results, hresults, hlabels, hiff.mpr (bareBranches_simulate hwf ?_ hresults)⟩
    simp [AllStmts, branchWithValue, Stmt.IsOfCode, Stmt.isLowered]
  · obtain ⟨n, hn⟩ := hrun 0 branchWithValue twoLabels _ (by decide) (.inl rfl)
    exact ⟨_, n, rfl, hn⟩

/-- A block that branches with a value on the stack, where the branch is a statement already. -/
def branchBeforeValue : List BasicBlock :=
  [{ body := [.label 0, .raw 0 (.push (.int 1)), .condGoto (.const (.int 1)) 1, .goto 1] },
    { body := [.label 1, .raw 1 .popz, .exit] }]

/-- The value is left behind the branch, which is then no longer at the end of its block. -/
theorem branchBeforeValue_broken :
    WellFormed 2 branchBeforeValue ∧ ∃ results,
      simulate {} twoLabels.labels branchBeforeValue = .ok results ∧ ¬ WellFormed 2 results :=
  ⟨by decide, _, rfl, by decide⟩

end Decompiler
