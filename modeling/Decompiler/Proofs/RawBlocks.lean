import Decompiler.Proofs.PartitionedCode
import Decompiler.Proofs.StackDiscipline

/-!
# Blocks of stack operations

The blocks of decoded code hold labels and stack operations up to their last one or two statements,
where control leaves them (`rawBody_partition`).  So a block can branch in one place only, and there it
can start or end a scope.
-/

namespace Decompiler

open Bytecode
open StackMachine (RawBody)

/-- Labels and operations that stay in a block, and then the rest of the block. -/
lemma rawBody_append {init rest : List Stmt} (hinit : ∀ s ∈ init, s.staysInside = true)
    (hrest : RawBody rest) : RawBody (init ++ rest) := by
  induction init with
  | nil => exact hrest
  | cons s init ih =>
    rw [List.forall_mem_cons] at hinit
    cases s with
    | label id => exact .label id (ih hinit.2)
    | raw offset op =>
      have hop : op.isConditional = false ∧ op ≠ .ret := by
        cases op with
        | ret => cases hinit.1
        | _ => exact ⟨by simpa [Stmt.staysInside] using hinit.1, by simp⟩
      exact .op offset hop.1 hop.2 (ih hinit.2)
    | _ => cases hinit.1

/-- Whatever comes before the last two statements of a block stays in the block. -/
lemma StackMachine.RawBody.of_cons {s : Stmt} {rest : List Stmt} (h : RawBody (s :: rest))
    (hrest : 2 ≤ rest.length) :
    s.staysInside = true ∧ RawBody rest := by
  cases h with
  | jump _ => simp at hrest
  | ret _ => simp at hrest
  | branch _ _ _ => simp at hrest
  | label id h => exact ⟨rfl, h⟩
  | @op offset op rest hcond hret h =>
    refine ⟨?_, h⟩
    cases op with
    | ret => exact absurd rfl hret
    | _ => simpa [Stmt.staysInside] using hcond

/-- Whatever comes before the last two statements of a block stays in the block. -/
lemma StackMachine.RawBody.of_append {init rest : List Stmt} (h : RawBody (init ++ rest))
    (hrest : 2 ≤ rest.length) :
    (∀ s ∈ init, s.staysInside = true) ∧ RawBody rest := by
  induction init with
  | nil => exact ⟨by simp, h⟩
  | cons s init ih =>
    obtain ⟨hs, hlater⟩ := RawBody.of_cons h (by simp only [List.append_eq, List.length_append]; omega)
    obtain ⟨hinit, hrest⟩ := ih hlater
    exact ⟨List.forall_mem_cons.mpr ⟨hs, hinit⟩, hrest⟩

/-- A block without the value that it drops first. -/
lemma StackMachine.RawBody.of_popz {label : LabelId} {offset : Nat} {rest : List Stmt}
    (h : RawBody (.label label :: .raw offset .popz :: rest)) : RawBody (.label label :: rest) := by
  cases h with
  | label _ h =>
    cases h with
    | jump hs => cases hs
    | branch _ hop _ => cases hop
    | op _ _ _ h => exact .label label h

/-! ### Blocks of decoded code -/

namespace Partition

/-- A block that is open holds statements that stay in it, also if it is a new one. -/
lemma staysInside_openBlock (labels : Labels) {current : Option (List Stmt)}
    (h : ∀ body ∈ current, ∀ s ∈ body, s.staysInside = true) :
    ∀ s ∈ (openBlock labels current).1, s.staysInside = true := by
  cases current with
  | none => simp [openBlock, start, Stmt.staysInside]
  | some body => exact h body rfl

/-- A statement that control does not go past ends a block. -/
lemma rawBody_of_isUnconditional {s : Stmt} (hs : s.isLowered = true) (h : s.isUnconditional = true) :
    RawBody [s] := by
  cases s with
  | goto | exit => exact .jump rfl
  | raw offset op =>
    cases op with
    | ret => exact .ret offset
    | _ => cases h
  | _ => cases hs

/-- A branch ends a block, with a jump behind it. -/
lemma rawBody_of_isConditional {s : Stmt} (hs : s.isLowered = true) (h : s.isConditional = true)
    (next : LabelId) : RawBody [s, .goto next] := by
  cases s with
  | raw offset op => exact .branch offset h rfl
  | goto | exit => cases h
  | _ => cases hs

/-- Any other statement that an instruction leaves stays in its block. -/
lemma staysInside_of_isLowered {s : Stmt} (hs : s.isLowered = true) (hjump : ¬ s.isUnconditional = true)
    (hbranch : ¬ s.isConditional = true) : s.staysInside = true := by
  cases s with
  | raw offset op =>
    cases op with
    | ret => exact absurd rfl hjump
    | _ => simpa [Stmt.staysInside, Stmt.isConditional] using hbranch
  | goto | exit => exact absurd rfl hjump
  | _ => cases hs

/-- The blocks of statements that instructions leave. -/
lemma rawBody_blocks {stmts : List Stmt}
    (hkinds : ∀ s ∈ stmts, (∃ id, s = .label id) ∨ s.isLowered = true) {labels : Labels}
    {current : Option (List Stmt)} (hcurrent : ∀ body ∈ current, ∀ s ∈ body, s.staysInside = true) :
    ∀ body ∈ (blocks labels current stmts).1, RawBody body := by
  induction stmts generalizing labels current with
  | nil =>
    intro body hbody
    obtain ⟨body', hopen, rfl⟩ : ∃ body', current = some body' ∧ body' ++ [.exit] = body := by
      simpa [blocks] using hbody
    exact rawBody_append (hcurrent body' hopen) (.jump rfl)
  | cons s rest ih =>
    rw [List.forall_mem_cons] at hkinds
    have hnone : ∀ body ∈ (none : Option (List Stmt)), ∀ s ∈ body, s.staysInside = true := by simp
    have hstart : ∀ id, ∀ body ∈ some (start id), ∀ s ∈ body, s.staysInside = true := by
      simp [start, Stmt.staysInside]
    rcases hkinds.1 with ⟨id, rfl⟩ | hs
    · intro body hbody
      rw [blocks] at hbody
      rcases List.mem_append.mp hbody with hbody | hbody
      · obtain ⟨body', hopen, rfl⟩ : ∃ body', current = some body' ∧ body' ++ [.goto id] = body := by
          simpa using hbody
        exact rawBody_append (hcurrent body' hopen) (.jump rfl)
      · exact ih hkinds.2 (hstart id) body hbody
    · have hopen := staysInside_openBlock labels hcurrent
      intro body hbody
      rw [blocks] at hbody
      · dsimp only at hbody
        split at hbody
        · rename_i hjump
          rcases List.mem_cons.mp hbody with rfl | hbody
          · exact rawBody_append hopen (rawBody_of_isUnconditional hs hjump)
          · exact ih hkinds.2 hnone body hbody
        · rename_i hstraight
          split at hbody
          · rename_i hbranch
            have hend : ∀ next, RawBody ((openBlock labels current).1 ++ [s] ++ [.goto next]) := by
              intro next
              rw [List.append_assoc]
              exact rawBody_append hopen (rawBody_of_isConditional hs hbranch next)
            split at hbody
            · rcases List.mem_cons.mp hbody with rfl | hbody
              · exact hend _
              · exact ih hkinds.2 hnone body hbody
            · rcases List.mem_cons.mp hbody with rfl | hbody
              · exact hend _
              · exact ih hkinds.2 (hstart _) body hbody
          · rename_i hbranch
            refine ih hkinds.2 ?_ body hbody
            intro body' hbody'
            cases hbody'
            rw [List.forall_mem_append]
            exact ⟨hopen, by simpa using staysInside_of_isLowered hs hstraight hbranch⟩
      · rintro id rfl
        cases hs

end Partition

/-- The blocks of statements that instructions leave. -/
theorem rawBody_partition {labels : Labels} {stmts : List Stmt}
    (hkinds : ∀ s ∈ stmts, (∃ id, s = .label id) ∨ s.isLowered = true) :
    ∀ block ∈ (partition labels stmts).1, RawBody block.body := by
  have hblocks : ∀ body ∈ (Partition.blocks labels none stmts).1, RawBody body :=
    Partition.rawBody_blocks hkinds (by simp)
  unfold partition
  split
  · intro block hblock
    rw [List.mem_singleton.mp hblock]
    exact .label _ (.jump rfl)
  · rename_i heq
    rw [heq] at hblocks
    intro block hblock
    obtain ⟨body, hbody, rfl⟩ := List.mem_map.mp hblock
    exact hblocks body hbody

/-- The blocks of decoded code are well-formed blocks of stack operations. -/
theorem wellFormed_of_decode {names : Names} {bytes : List UInt8} {code : Code} {stmts : List Stmt}
    (hdecode : decode names bytes = .ok code) (hlower : lower code = .ok stmts) :
    WellFormed (partition (.ofTable code.labels) stmts).2.names.length
        (partition (.ofTable code.labels) stmts).1 ∧
      ∀ block ∈ (partition (.ofTable code.labels) stmts).1, RawBody block.body := by
  obtain ⟨stmts', hlower', hflat⟩ := lower_eq_ok (decode_isProper hdecode)
  rw [hlower] at hlower'
  cases hlower'
  have hlength : (Labels.ofTable code.labels).names.length = code.labels.labels.length := by
    simp [Labels.ofTable]
  rw [← hlength] at hflat
  exact ⟨(wellFormed_partition hflat).1, rawBody_partition hflat.kinds⟩

end Decompiler
