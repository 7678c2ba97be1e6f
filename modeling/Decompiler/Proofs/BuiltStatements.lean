import Decompiler.Proofs.SimulatedBlocks

/-!
# What is built before a fault

A fault of the stack carries the statements that were built before it, and they are printed.  Simulation
makes statements of operations one by one, and each of them leads where its operation led
(`Simulation.step?_targets`).  So what was built of well-formed blocks leads only to labels that have been
handed out (`builtLeads_simulate`).
-/

namespace Decompiler

open Bytecode

/-! ### Statements and items -/

/-- Whatever a statement leads to has a property. -/
def Stmt.Leads (P : LabelId → Prop) (s : Stmt) : Prop :=
  ∀ label ∈ s.targets, P label

/-- Whatever an item leads to has a property, and the label that it starts with has it too. -/
structure Stmt.LeadsFrom (P : LabelId → Prop) (s : Stmt) : Prop where
  leads : s.Leads P
  entry : ∀ block, s = .basic block → ∀ label, block.entryLabel? = some label → P label

namespace Stmt

variable {P : LabelId → Prop}

/-- Whatever the statements of a list lead to. -/
lemma leads_list {list : List Stmt} :
    (∀ label ∈ targetsOfList list, P label) ↔ ∀ s ∈ list, s.Leads P := by
  constructor
  · exact fun h s hs label hlabel => h label (mem_targetsOfList.mpr ⟨s, hs, hlabel⟩)
  · intro h label hlabel
    obtain ⟨s, hs, hlabel⟩ := mem_targetsOfList.mp hlabel
    exact h s hs label hlabel

/-- A block leads where its statements lead. -/
lemma leads_basic {block : BasicBlock} : (basic block).Leads P ↔ ∀ s ∈ block.body, s.Leads P :=
  leads_list

lemma leads_label (label : LabelId) : (Stmt.label label).Leads P :=
  List.forall_mem_nil _

lemma leads_goto {target : LabelId} : (goto target).Leads P ↔ P target :=
  List.forall_mem_singleton

lemma leads_condGoto {e : Expr} {target : LabelId} : (condGoto e target).Leads P ↔ P target :=
  List.forall_mem_singleton

/-- A loop leads to its entry, and where its body leads. -/
lemma leads_loop {test : Option Expr} {enter : LabelId} {body : List Stmt} (henter : P enter)
    (hbody : ∀ s ∈ body, s.Leads P) : (loop test ⟨some enter, body⟩).Leads P :=
  List.forall_mem_append.mpr ⟨List.forall_mem_singleton.mpr henter, leads_list.mpr hbody⟩

/-- A scope leads to its entry, and where its body leads. -/
lemma leads_scope {env : Expr} {enter : LabelId} {body : List Stmt} {stop : Option LabelId}
    (henter : P enter) (hbody : ∀ s ∈ body, s.Leads P) :
    (scope env ⟨some enter, body⟩ stop).Leads P :=
  List.forall_mem_append.mpr ⟨List.forall_mem_singleton.mpr henter, leads_list.mpr hbody⟩

end Stmt

/-! ### Simulated blocks -/

/-- What has been built before an error leads to labels with a property. -/
def Error.BuiltLeads (P : LabelId → Prop) (e : Error) : Prop :=
  ∀ built, e.built? = some built → ∀ s ∈ built, s.Leads P

namespace Simulation

variable {P : LabelId → Prop} {names : Names} {done : List Stmt}

/-- An operation adds statements that lead where it leads. -/
lemma step?_targets {op : StackOp} {state next : State} (h : step? names state op = some next) :
    ∃ added, next.out = state.out ++ added ∧ Stmt.targetsOfList added = op.targets := by
  cases hop : op.isConditional with
  | false =>
    obtain ⟨added, hout, hplain, -⟩ := (step?_straight hop h).out
    exact ⟨added, hout, (Stmt.outline_of_plainList hplain).2.trans (targets_of_straight hop).symm⟩
  | true =>
    obtain ⟨values, s, hout, -, htargets⟩ := (step?_branch hop h).out
    refine ⟨values.map Stmt.push ++ [s], by rw [hout, List.append_assoc], ?_⟩
    have hpushes := (Stmt.outline_of_plainList (@Stmt.isPlain_push values)).2
    simp [Stmt.targetsOfList_append, hpushes, Stmt.targetsOfList, htargets]

/-- A fault comes with the statements that were built before it. -/
lemma built?_toError (fault : Fault) (offset : Nat) (op : StackOp) (built : List Stmt) :
    (fault.toError offset op built).built? = some built := by
  cases fault <;> rfl

/-- Leaving the stack behind leads nowhere. -/
lemma leads_flush {state : State} (hout : ∀ s ∈ state.out, s.Leads P) :
    ∀ s ∈ state.flush.out, s.Leads P := by
  refine List.forall_mem_append.mpr ⟨hout, fun s hs => ?_⟩
  obtain ⟨value, -, rfl⟩ := List.mem_map.mp hs
  exact List.forall_mem_nil _

/-- What becomes of the statements of a block leads where they lead, and so does what was built before a
fault. -/
lemma leads_stmts (hdone : ∀ s ∈ done, s.Leads P) {body : List Stmt} (hbody : ∀ s ∈ body, s.Leads P)
    {state : State} (hout : ∀ s ∈ state.out, s.Leads P) :
    (∀ final, stmts names done state body = .ok final → ∀ s ∈ final.out, s.Leads P) ∧
      ∀ e, stmts names done state body = .error e → e.BuiltLeads P := by
  induction body generalizing state with
  | nil => exact ⟨by rintro _ ⟨⟩; exact hout, by rintro _ ⟨⟩⟩
  | cons s rest ih =>
    have hrest := fun t ht => hbody t (List.mem_cons_of_mem s ht)
    cases hop : s.stackOp? with
    | none =>
      have hnext : stmts names done state (s :: rest) =
          stmts names done ((if rest.isEmpty then state.flush else state).emit s) rest := by
        cases s with
        | raw offset op => cases hop
        | _ => rw [stmts]; simp
      rw [hnext]
      refine ih hrest (List.forall_mem_append.mpr
        ⟨?_, List.forall_mem_singleton.mpr (hbody s List.mem_cons_self)⟩)
      split
      · exact leads_flush hout
      · exact hout
    | some op =>
      obtain ⟨offset, rfl⟩ : ∃ offset, s = .raw offset op := by
        cases s with
        | raw offset op' =>
          cases hop
          exact ⟨offset, rfl⟩
        | _ => cases hop
      rw [stmts, step]
      cases hstep : step? names state op with
      | none =>
        refine ⟨by rintro _ ⟨⟩, ?_⟩
        rintro e ⟨⟩ built hbuilt
        rw [built?_toError] at hbuilt
        cases hbuilt
        exact List.forall_mem_append.mpr ⟨hdone, hout⟩
      | some next =>
        obtain ⟨added, hadded, htargets⟩ := step?_targets hstep
        refine ih hrest ?_
        rw [hadded]
        refine List.forall_mem_append.mpr ⟨hout, Stmt.leads_list.mp ?_⟩
        rw [htargets]
        exact hbody _ List.mem_cons_self

/-- What is settled of a block leads where its statements lead. -/
lemma leads_settle {state : State} (hout : ∀ s ∈ state.out, s.Leads P) :
    ∀ s ∈ settle state, s.Leads P := by
  unfold settle
  split
  · exact hout
  · intro s hs
    simp only [List.mem_append, List.mem_map, Option.mem_toList] at hs
    rcases hs with (hs | ⟨value, -, rfl⟩) | hs
    · exact hout s (List.dropLast_subset _ hs)
    · exact List.forall_mem_nil _
    · exact hout s (List.mem_of_getLast? hs)

/-- What was built before a fault leads where the blocks lead. -/
lemma builtLeads_blocks {scopes : Nat} {sources : List (BasicBlock × Nat)} {e : Error}
    (hdone : ∀ s ∈ done, s.Leads P) (hsources : ∀ p ∈ sources, ∀ s ∈ p.1.body, s.Leads P)
    (h : blocks names done scopes sources = .error e) : e.BuiltLeads P := by
  induction sources generalizing done scopes with
  | nil =>
    rw [blocks] at h
    split at h
    · cases h
    · cases h
      rintro built ⟨⟩
      exact hdone
  | cons first rest ih =>
    obtain ⟨source, depth⟩ := first
    have hbegun : ∀ s ∈ ({ stack := incomingStack depth, scopes } : State).out, s.Leads P :=
      List.forall_mem_nil _
    have hstmts := @leads_stmts P names _ hdone _ (hsources _ List.mem_cons_self) _ hbegun
    rw [blocks] at h
    cases hrun : stmts names done { stack := incomingStack depth, scopes } source.body with
    | error e =>
      simp only [block, hrun] at h
      cases h
      exact hstmts.2 e hrun
    | ok state =>
      simp only [block, hrun] at h
      have hdone' : ∀ s ∈ done ++ settle state, s.Leads P :=
        List.forall_mem_append.mpr ⟨hdone, leads_settle (hstmts.1 state hrun)⟩
      cases hlater : blocks names (done ++ settle state) state.scopes rest with
      | error e =>
        simp only [bind, Except.bind, pure, Except.pure, hlater] at h
        cases h
        exact ih hdone' (fun p hp => hsources p (List.mem_cons_of_mem _ hp)) hlater
      | ok later =>
        simp only [bind, Except.bind, pure, Except.pure, hlater] at h
        cases h

end Simulation

/-! ### Whole lists -/

namespace Depth

variable {blocks : List BasicBlock} {labels : Labels} {error : Error}

/-- Following a branch fails only where two depths do not agree. -/
lemma follow_eq_error {state : State} {branch : LabelId × Nat}
    (h : follow blocks labels state branch = .error error) :
    ∃ label expected found, error = .inconsistentStack label expected found := by
  unfold follow at h
  split at h
  · cases h
  · split at h
    · cases h
    · split at h
      · cases h
      · cases h
        exact ⟨_, _, _, rfl⟩

/-- Following branches fails only where two depths do not agree. -/
lemma foldlM_follow_eq_error {branches : List (LabelId × Nat)} {state : State}
    (h : branches.foldlM (follow blocks labels) state = .error error) :
    ∃ label expected found, error = .inconsistentStack label expected found := by
  induction branches generalizing state with
  | nil => cases h
  | cons branch rest ih =>
    rw [List.foldlM_cons] at h
    cases hnext : follow blocks labels state branch with
    | error e =>
      rw [hnext] at h
      cases h
      exact follow_eq_error hnext
    | ok next =>
      rw [hnext] at h
      exact ih h

/-- Carrying depths along branches fails only where two of them do not agree. -/
lemma entryDepths_eq_error (h : entryDepths blocks labels = .error error) :
    ∃ label expected found, error = .inconsistentStack label expected found := by
  have hpropagate : ∀ fuel state, propagate blocks labels fuel state = .error error →
      ∃ label expected found, error = .inconsistentStack label expected found := by
    intro fuel
    induction fuel with
    | zero =>
      intro state h
      cases h
    | succ fuel ih =>
      intro state h
      rw [propagate] at h
      split at h
      · cases h
      · rename_i i pending _
        cases hnext : (branches ((state.depths[i]?).join.getD 0)
            ((blocks[i]?.map BasicBlockOf.body).getD [])).foldlM (follow blocks labels)
            { state with pending } with
        | error e =>
          simp only [hnext] at h
          cases h
          exact foldlM_follow_eq_error hnext
        | ok next =>
          simp only [hnext] at h
          exact ih next h
  cases blocks with
  | nil => cases h
  | cons block rest =>
    cases hstate : propagate (block :: rest) labels (block :: rest).length
        ⟨some 0 :: rest.map fun _ => none, [0]⟩ with
    | error e =>
      simp only [entryDepths, hstate] at h
      cases h
      exact hpropagate _ _ hstate
    | ok state =>
      simp only [entryDepths, hstate] at h
      cases h

end Depth

/-- Everything that the blocks of a well-formed list lead to has been handed out. -/
lemma WellFormed.leadsFrom {bound : Nat} {blocks : List BasicBlock} (h : WellFormed bound blocks) :
    ∀ s ∈ blocks.map Stmt.basic, s.LeadsFrom (· < bound) := by
  intro s hs
  obtain ⟨block, hblock, rfl⟩ := List.mem_map.mp hs
  constructor
  · intro label hlabel
    obtain ⟨other, hother, hentry⟩ := List.mem_map.mp
      (h.closed label (List.mem_flatMap.mpr ⟨block, hblock, hlabel⟩))
    exact (h.shaped_of_label hother hentry).1
  · rintro _ ⟨⟩ label hlabel
    exact (h.shaped_of_label hblock hlabel).1

/-- What was built of a well-formed list before a fault leads to labels that have been handed out. -/
lemma builtLeads_simulate {bound : Nat} {blocks : List BasicBlock} (h : WellFormed bound blocks)
    {names : Names} {labels : Labels} {e : Error} (hrun : simulate names labels blocks = .error e) :
    e.BuiltLeads (· < bound) := by
  unfold simulate at hrun
  cases hdepths : Depth.entryDepths blocks labels with
  | error e =>
    rw [hdepths] at hrun
    cases hrun
    obtain ⟨_, _, _, rfl⟩ := Depth.entryDepths_eq_error hdepths
    rintro built ⟨⟩
  | ok depths =>
    rw [hdepths] at hrun
    refine Simulation.builtLeads_blocks (List.forall_mem_nil _) ?_ hrun
    intro p hp
    exact Stmt.leads_basic.mp (h.leadsFrom _ (List.mem_map_of_mem (List.of_mem_zip hp).1)).leads

end Decompiler
