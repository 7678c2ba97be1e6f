import Decompiler.Proofs.RawBlocks
import Decompiler.Proofs.WellFormedLists

/-!
# Values taken off the stack

An idiom that is recognised keeps a value for itself that was on the stack before: its head takes the
value off, and the block behind it no longer drops the value.  On every way in between, one value is
lacking (`Depth.Lacks`).  `Depth.Spares` says that this does no harm: on all ways to a block equally many
values lack, and the block finds what it takes among the others.

Where the ways of the new list are those of the old one up to what lacks (`Depth.Reroutes`), the blocks of
the new list get the values they take exactly when those that lack can be spared
(`Depth.Reroutes.supplied_iff`).
-/

namespace Decompiler

open Bytecode
open StackMachine (RawBody)

/-! ### Values that are taken off the stack -/

namespace Depth

/-- A way from the first block to the block with the label `label`, which it enters with `depth`
values, and how many of these are taken off the stack along it.  Leaving a block takes off as many
values as `taken` says. -/
inductive Lacks (blocks : List BasicBlock) (taken : LabelId → Int) : LabelId → Nat → Int → Prop where
  | first {label : LabelId} (h : firstLabel? blocks = some label) : Lacks blocks taken label 0 0
  | branch {label target : LabelId} {depth value : Nat} {lack : Int} {body : List Stmt}
      (h : Lacks blocks taken label depth lack) (hbody : BodyOf blocks label body)
      (hbranch : (target, value) ∈ branches depth body) :
      Lacks blocks taken target value (lack + taken label)

variable {before after : List BasicBlock} {taken : LabelId → Int}

/-- A way to a block enters it. -/
lemma Lacks.enters {label : LabelId} {depth : Nat} {lack : Int} (h : Lacks before taken label depth lack) :
    Enters before label depth := by
  induction h with
  | first h => exact .first h
  | branch _ hbody hbranch ih => exact .branch ih hbody hbranch

/-- A block is entered along some way. -/
lemma Enters.exists_lacks (taken : LabelId → Int) {label : LabelId} {depth : Nat}
    (h : Enters before label depth) :
    ∃ lack, Lacks before taken label depth lack := by
  induction h with
  | first h => exact ⟨0, .first h⟩
  | branch _ hbody hbranch ih =>
    obtain ⟨lack, hlack⟩ := ih
    exact ⟨_, .branch hlack hbody hbranch⟩

/-- A label that is entered is that of a block. -/
lemma Enters.exists_bodyOf {bound : Nat} (hwf : WellFormed bound before) {label : LabelId} {depth : Nat}
    (h : Enters before label depth) : ∃ body, BodyOf before label body := by
  cases h with
  | first hfirst =>
    obtain ⟨block, hblock, hlabel⟩ := Option.bind_eq_some_iff.mp hfirst
    exact ⟨block.body, block, List.mem_of_head? hblock, hlabel, rfl⟩
  | branch _ hbody hbranch =>
    obtain ⟨block, hblock, -, rfl⟩ := hbody
    have hnamed := hwf.closed label (List.mem_flatMap.mpr ⟨block, hblock, mem_targetsOfList hbranch⟩)
    obtain ⟨target, htarget, hlabel⟩ := List.mem_map.mp hnamed
    exact ⟨target.body, target, htarget, hlabel, rfl⟩

/-- Each block that is entered finds the values it takes. -/
def Sustained (blocks : List BasicBlock) : Prop :=
  ∀ label body depth, BodyOf blocks label body → Enters blocks label depth →
    Stmt.enough depth body = true

/-- Where the blocks get the values they take, the low sixteen bits of a depth are enough, and so is the
depth. -/
lemma Supplied.sustained {blocks : List BasicBlock} (h : Supplied blocks) : Sustained blocks :=
  fun label body depth hbody henters =>
    Stmt.enough_mono (h.enough label body depth hbody (.inl henters)) (Nat.mod_le _ _)

/-- Where the blocks get the values they take, a block that is not entered needs none. -/
lemma Supplied.enough_of_unreached {blocks : List BasicBlock} (h : Supplied blocks) {label : LabelId}
    {body : List Stmt} (hbody : BodyOf blocks label body) (hnever : ∀ depth, ¬ Enters blocks label depth) :
    Stmt.enough 0 body = true :=
  h.enough label body 0 hbody (.inr ⟨rfl, hnever⟩)

/-- The values that are taken off the stack are the same on all ways to a block, and each block of the
new list finds what it takes among the others. -/
structure Spares (before after : List BasicBlock) (taken : LabelId → Int) : Prop where
  agrees : ∀ label depth lack lack', Lacks before taken label depth lack →
    Lacks before taken label depth lack' → lack = lack'
  enough : ∀ label depth lack body, Lacks before taken label depth lack → BodyOf after label body →
    ∃ left : Nat, left + lack = depth ∧ Stmt.enough (left % Nat.pow 2 16) body = true

/-- A list whose ways are those of another one, with values taken off the stack.  A block of the old
list that is gone has a block of the new one in its `seat`, and a block of the new list that is new
has a `source` in the old one. -/
structure Reroutes (before after : List BasicBlock) (taken : LabelId → Int)
    (seat source : LabelId → LabelId) : Prop where
  forth : Sustained after → ∀ label depth lack, Lacks before taken label depth lack →
    ∃ left : Nat, left + lack = depth ∧ Enters after (seat label) left
  back : ∀ label left, Enters after label left →
    ∃ depth lack, Lacks before taken (source label) depth lack ∧ left + lack = (depth : Int)
  kept : ∀ label body, BodyOf after label body → seat label = label
  fresh : ∀ label body, BodyOf after label body →
    source label = label ∨ ∀ depth, Stmt.enough depth body = true
  unreached : ∀ label body, BodyOf after label body → (∀ depth, ¬ Enters before label depth) →
    Stmt.enough 0 body = true

/-- Where the blocks of the old list get the values they take, those of the new one do exactly when what
is taken off the stack can be spared. -/
lemma Reroutes.supplied_iff {seat source : LabelId → LabelId}
    (h : Reroutes before after taken seat source) (hbefore : Supplied before) :
    Supplied after ↔ Spares before after taken := by
  constructor
  · intro hafter
    have hsustained := hafter.sustained
    refine ⟨?_, ?_⟩
    · intro label depth lack lack' hlack hlack'
      obtain ⟨left, hleft, henters⟩ := h.forth hsustained _ _ _ hlack
      obtain ⟨left', hleft', henters'⟩ := h.forth hsustained _ _ _ hlack'
      have := hafter.agrees _ _ _ henters henters'
      omega
    · intro label depth lack body hlack hbody
      obtain ⟨left, hleft, henters⟩ := h.forth hsustained _ _ _ hlack
      rw [h.kept label body hbody] at henters
      exact ⟨left, hleft, hafter.enough label body left hbody (.inl henters)⟩
  · intro hspares
    have henough : ∀ label body depth, BodyOf after label body → Enters after label depth →
        Stmt.enough (depth % Nat.pow 2 16) body = true := by
      intro label body left hbody henters
      rcases h.fresh label body hbody with hsource | hany
      · obtain ⟨depth, lack, hlack, hleft⟩ := h.back label left henters
        rw [hsource] at hlack
        obtain ⟨left', hleft', hresult⟩ := hspares.enough label depth lack body hlack hbody
        obtain rfl : left' = left := by omega
        exact hresult
      · exact hany _
    have hsustained : Sustained after := fun label body depth hbody henters =>
      Stmt.enough_mono (henough label body depth hbody henters) (Nat.mod_le _ _)
    refine ⟨?_, ?_⟩
    · intro label left left' henters henters'
      obtain ⟨depth, lack, hlack, hleft⟩ := h.back label left henters
      obtain ⟨depth', lack', hlack', hleft'⟩ := h.back label left' henters'
      obtain rfl := hbefore.agrees _ _ _ hlack.enters hlack'.enters
      have := hspares.agrees _ _ _ _ hlack hlack'
      omega
    · rintro label body depth hbody (henters | ⟨rfl, hnever⟩)
      · exact henough label body depth hbody henters
      · refine h.unreached label body hbody fun depth henters => ?_
        obtain ⟨lack, hlack⟩ := henters.exists_lacks taken
        obtain ⟨left, -, henters'⟩ := h.forth hsustained _ _ _ hlack
        rw [h.kept label body hbody] at henters'
        exact hnever left henters'

/-- A block that is in both lists goes where it went, with the same values taken off the stack. -/
lemma Enters.forth {label target : LabelId} {depth left value : Nat} {lack : Int} {body : List Stmt}
    (h : Enters after label left) (hleft : left + lack = depth) (hbody : BodyOf after label body)
    (hsustained : Sustained after) (hbranch : (target, value) ∈ branches depth body) :
    ∃ value' : Nat, value' + lack = value ∧ Enters after target value' := by
  obtain ⟨value', hvalue', hsum⟩ := exists_mem_branches (hsustained label body left hbody h) hbranch
  exact ⟨value', by omega, .branch h hbody hvalue'⟩

/-- A block that is in both lists comes from where it came, with the same values taken off the
stack. -/
lemma Lacks.back {label target : LabelId} {depth left value' : Nat} {lack : Int} {body : List Stmt}
    (h : Lacks before taken label depth lack) (hleft : left + lack = (depth : Int))
    (hbody : BodyOf before label body) (hsustained : Sustained before)
    (hbranch : (target, value') ∈ branches left body) :
    ∃ value, Lacks before taken target value (lack + taken label) ∧ value' + lack = (value : Int) := by
  obtain ⟨value, hvalue, hsum⟩ :=
    exists_mem_branches (hsustained label body depth hbody h.enters) hbranch
  exact ⟨value, .branch h hbody hvalue, by omega⟩

/-- A block of the new list with another end than in the old one: what its common part leaves, and the
branches of the new end. -/
lemma Enters.forth_end {label : LabelId} {depth left : Nat} {lack : Int} {init old new : List Stmt}
    {branch : LabelId × Nat} (h : Enters after label left) (hleft : left + lack = depth)
    (hinner : ∀ s ∈ init, s.staysInside = true) (hnew : BodyOf after label (init ++ new))
    (hsustained : Sustained after) (hbranch : branch ∈ branches depth (init ++ old)) :
    ∃ rest rest' : Nat, rest' + lack = rest ∧ branch ∈ branches rest old ∧
      Stmt.enough rest' new = true ∧
      ∀ target value', (target, value') ∈ branches rest' new → Enters after target value' := by
  obtain ⟨henough, hbranch⟩ := (mem_branches_append hinner).mp hbranch
  obtain ⟨henough', hend⟩ := Stmt.enough_append.mp (hsustained _ _ _ hnew h)
  have hsum := Stmt.foldl_depthAfter_add henough henough'
  refine ⟨_, _, by omega, hbranch, hend, ?_⟩
  intro target value' hvalue'
  exact .branch h hnew ((mem_branches_append hinner).mpr ⟨henough', hvalue'⟩)

/-- A block of the old list with another end than in the new one: what its common part leaves, and the
branches of the old end. -/
lemma Lacks.back_end {label : LabelId} {depth left : Nat} {lack : Int} {init old new : List Stmt}
    {branch : LabelId × Nat} (h : Lacks before taken label depth lack) (hleft : left + lack = (depth : Int))
    (hinner : ∀ s ∈ init, s.staysInside = true) (hold : BodyOf before label (init ++ old))
    (hsustained : Sustained before) (hbranch : branch ∈ branches left (init ++ new)) :
    ∃ rest rest' : Nat, rest' + lack = rest ∧ branch ∈ branches rest' new ∧
      Stmt.enough rest old = true ∧
      ∀ target value, (target, value) ∈ branches rest old →
        Lacks before taken target value (lack + taken label) := by
  obtain ⟨henough', hbranch⟩ := (mem_branches_append hinner).mp hbranch
  obtain ⟨henough, hend⟩ := Stmt.enough_append.mp (hsustained _ _ _ hold h.enters)
  have hsum := Stmt.foldl_depthAfter_add henough henough'
  refine ⟨_, _, by omega, hbranch, hend, ?_⟩
  intro target value hvalue
  exact .branch h hold ((mem_branches_append hinner).mpr ⟨henough, hvalue⟩)

/-- What a block needs that drops a value first. -/
lemma enough_of_popz {depth offset : Nat} {label : LabelId} {rest : List Stmt}
    (h : Stmt.enough depth (.label label :: .raw offset .popz :: rest) = true) :
    1 ≤ depth ∧ Stmt.enough (depth - 1) rest = true := by
  simp only [Stmt.enough, Bool.and_eq_true, Stmt.finds_raw] at h
  obtain ⟨-, ⟨pops, pushes, heffect, hle⟩, hrest⟩ := h
  cases heffect
  exact ⟨hle, hrest⟩

/-- Branches behind a value that is dropped. -/
lemma mem_branches_popz {depth offset : Nat} {label : LabelId} {rest : List Stmt} {branch : LabelId × Nat} :
    branch ∈ branches depth (.label label :: .raw offset .popz :: rest) ↔
      1 ≤ depth ∧ branch ∈ branches (depth - 1) rest := by
  simp only [branches, StackOp.effect?, StackOp.targets, List.map_nil, List.nil_append, Nat.add_zero]
  split
  · rename_i hlt
    simp only [List.not_mem_nil, false_iff, not_and]
    omega
  · rename_i hle
    simp [Nat.not_lt.mp hle]

/-- A block that no longer drops a value goes where it went, with one value less taken off the stack. -/
lemma Enters.forth_withoutPopz {label target : LabelId} {depth left value offset : Nat} {lack : Int}
    {rest : List Stmt} (h : Enters after label left) (hleft : left + lack = depth)
    (hbody : BodyOf after label (.label label :: rest)) (hsustained : Sustained after)
    (hbranch : (target, value) ∈ branches depth (.label label :: .raw offset .popz :: rest)) :
    ∃ value' : Nat, value' + (lack + -1) = value ∧ Enters after target value' := by
  obtain ⟨hpos, hbranch⟩ := mem_branches_popz.mp hbranch
  have henough : Stmt.enough left rest = true := hsustained label (.label label :: rest) left hbody h
  obtain ⟨value', hvalue', hsum⟩ := exists_mem_branches henough hbranch
  exact ⟨value', by omega, .branch h hbody hvalue'⟩

/-- A block that no longer drops a value comes from where it came, with one value less taken off the
stack. -/
lemma Lacks.back_withoutPopz {label target : LabelId} {depth left value' offset : Nat} {lack : Int}
    {rest : List Stmt} (h : Lacks before taken label depth lack) (hleft : left + lack = (depth : Int))
    (hbody : BodyOf before label (.label label :: .raw offset .popz :: rest))
    (hsustained : Sustained before) (hbranch : (target, value') ∈ branches left (.label label :: rest)) :
    ∃ value, Lacks before taken target value (lack + taken label) ∧ value' + (lack + -1) = (value : Int) := by
  obtain ⟨hpos, henough⟩ := enough_of_popz (hsustained label _ depth hbody h.enters)
  have hbranch : (target, value') ∈ branches left rest := hbranch
  obtain ⟨value, hvalue, hsum⟩ := exists_mem_branches henough hbranch
  exact ⟨value, .branch h hbody (mem_branches_popz.mpr ⟨hpos, hvalue⟩), by omega⟩

end Depth

/-! ### Blocks before and after an edit -/

namespace Edit.Applied

variable {edit : Edit} {blocks after : List BasicBlock} {pos bound bound' : Nat} {label : LabelId}
  {replaced : List (Nat × BasicBlock)} {removed : List Nat} {head : BasicBlock}
  (happ : edit.Applied blocks pos replaced removed after) (hwf : WellFormed bound blocks)
  (hfits : edit.Fits blocks label bound bound') (hhead : blocks[pos]? = some head)
  (hlabel : head.entryLabel? = some label)
  (hnodup : (edit.replace.map BasicBlockOf.entryLabel?).Nodup)
include happ hwf hfits hhead hlabel hnodup

/-- A block that an edit brings. -/
lemma bodyOf_new {block : BasicBlock} {l : LabelId}
    (hnew : block ∈ edit.head.toList ++ (edit.replace ++ edit.insert))
    (hl : block.entryLabel? = some l) : BodyOf after l block.body :=
  ⟨block, (happ.mem_after_iff hwf hfits hhead hlabel hnodup).mpr (.inl hnew), hl, rfl⟩

/-- A block that an edit neither brings nor takes away. -/
lemma bodyOf_kept_iff {l : LabelId} {stmts : List Stmt} (hkept : l ∉ label :: edit.remove)
    (hnew : ∀ block ∈ edit.head.toList ++ (edit.replace ++ edit.insert), block.entryLabel? ≠ some l) :
    BodyOf after l stmts ↔ BodyOf blocks l stmts := by
  constructor
  · rintro ⟨block, hblock, hl, rfl⟩
    rcases (happ.mem_after_iff hwf hfits hhead hlabel hnodup).mp hblock with hmem | ⟨hmem, -, -⟩
    · exact absurd hl (hnew block hmem)
    · exact ⟨block, hmem, hl, rfl⟩
  · rintro ⟨block, hblock, hl, rfl⟩
    refine ⟨block, (happ.mem_after_iff hwf hfits hhead hlabel hnodup).mpr (.inr ⟨hblock, ?_, ?_⟩), hl, rfl⟩
    · intro m hm heq
      rw [hl] at heq
      cases heq
      exact hkept hm
    · intro new hmem heq
      exact hnew new (List.mem_append_right _ (List.mem_append_left _ hmem)) (heq.trans hl)

end Edit.Applied

/-- A block that drops a value first, without that. -/
lemma BasicBlockOf.Shaped.exists_popz {block : BasicBlock} {label : LabelId} (h : block.Shaped label)
    (hpopz : startsWithPopz block = true) :
    ∃ offset rest, block.body = .label label :: .raw offset .popz :: rest ∧
      (Decompiler.withoutFirst block).body = .label label :: rest := by
  obtain ⟨middle, ending, hbody, -, -⟩ := h
  unfold startsWithPopz at hpopz
  split at hpopz
  · rename_i first offset rest heq
    obtain rfl : first = .label label := by
      rw [hbody] at heq
      exact (List.cons.inj heq).1.symm
    exact ⟨offset, rest, heq, by simp [Decompiler.withoutFirst, heq]⟩
  · cases hpopz

/-- The values that an idiom takes off the stack: one, from the head to the exit. -/
def takenBetween (head exit label : LabelId) : Int :=
  (if label = head then 1 else 0) - (if label = exit then 1 else 0)

/-- The head takes a value. -/
lemma takenBetween_head {head exit : LabelId} (h : exit ≠ head) : takenBetween head exit head = 1 := by
  simp [takenBetween, h.symm]

/-- The exit gives a value back. -/
lemma takenBetween_exit {head exit : LabelId} (h : exit ≠ head) : takenBetween head exit exit = -1 := by
  simp [takenBetween, h]

/-- Other blocks take nothing. -/
lemma takenBetween_other {head exit label : LabelId} (hhead : label ≠ head) (hexit : label ≠ exit) :
    takenBetween head exit label = 0 := by
  simp [takenBetween, hhead, hexit]

/-- Statements inside a block neither start nor end a scope. -/
lemma filterMap_scopeMark?_inner {init : List Stmt} (h : ∀ s ∈ init, s.staysInside = true) :
    init.filterMap Stmt.scopeMark? = [] := by
  rw [List.filterMap_eq_nil_iff]
  intro s hs
  have hs := h s hs
  cases s with
  | raw offset op =>
    refine Simulation.scopeMark?_of_straight offset ?_
    cases op with
    | ret => rfl
    | _ => simpa [Stmt.staysInside] using hs
  | _ => rfl

/-- A block starts or ends at most one scope. -/
lemma StackMachine.RawBody.scopeMarks {body : List Stmt} (h : RawBody body) :
    body.filterMap Stmt.scopeMark? = [] ∨ ∃ mark, body.filterMap Stmt.scopeMark? = [mark] := by
  have hjump : ∀ {s : Stmt}, StackMachine.isJump s = true → s.scopeMark? = none := by
    intro s hs
    cases s with
    | goto | exit => rfl
    | _ => cases hs
  induction h with
  | jump hs => exact .inl (List.filterMap_cons_none (hjump hs))
  | ret offset => exact .inl rfl
  | @branch offset op s _ hs =>
    cases hmark : (Stmt.raw offset op).scopeMark? with
    | none =>
      rw [List.filterMap_cons_none hmark, List.filterMap_cons_none (hjump hs)]
      exact .inl rfl
    | some mark =>
      rw [List.filterMap_cons_some hmark, List.filterMap_cons_none (hjump hs)]
      exact .inr ⟨mark, rfl⟩
  | label id _ ih => exact ih
  | op offset hop _ _ ih =>
    rwa [List.filterMap_cons_none (Simulation.scopeMark?_of_straight offset hop)]

/-- An edit that keeps the scopes of each block keeps those of the list. -/
lemma Edit.Applied.scopeMarks_eq {edit : Edit} {blocks after : List BasicBlock} {pos bound bound' : Nat}
    {label : LabelId} {replaced : List (Nat × BasicBlock)} {removed : List Nat} {head new : BasicBlock}
    (happ : edit.Applied blocks pos replaced removed after) (hwf : WellFormed bound blocks)
    (hfits : edit.Fits blocks label bound bound') (hhead : blocks[pos]? = some head)
    (hlabel : head.entryLabel? = some label) (hnew : edit.head = some new)
    (hsame : ∀ l stmts stmts', BodyOf blocks l stmts → BodyOf after l stmts' →
      stmts'.filterMap Stmt.scopeMark? = stmts.filterMap Stmt.scopeMark?)
    (hremove : ∀ l ∈ edit.remove, ∀ stmts, BodyOf blocks l stmts → stmts.filterMap Stmt.scopeMark? = [])
    (hinsert : ∀ block ∈ edit.insert, block.scopeMarks = []) :
    after.flatMap BasicBlockOf.scopeMarks = blocks.flatMap BasicBlockOf.scopeMarks := by
  have hplace : ∀ (i : Nat) (block : BasicBlock), blocks[i]? = some block →
      (edit.place pos replaced removed block i).flatMap BasicBlockOf.scopeMarks = block.scopeMarks := by
    intro i block hblock
    have hmem := List.mem_of_getElem? hblock
    obtain ⟨l, -, hshaped⟩ := hwf.shaped block hmem
    have hbody : BodyOf blocks l block.body := ⟨block, hmem, hshaped.entryLabel?, rfl⟩
    by_cases hi : i ∈ removed
    · obtain ⟨l', hl', hlocate⟩ := (happ.removed_spec i).mp hi
      obtain ⟨⟨block', hblock', hlabel'⟩, -⟩ := locate_eq_ok hlocate
      rw [hblock] at hblock'
      cases hblock'
      rw [hshaped.entryLabel?] at hlabel'
      cases hlabel'
      rw [place_removed hi]
      exact (hremove l hl' block.body hbody).symm
    have hafter : ∀ block' ∈ edit.place pos replaced removed block i,
        block'.entryLabel? = block.entryLabel? → block'.scopeMarks = block.scopeMarks := by
      intro block' hblock' hsameLabel
      refine hsame l block.body block'.body hbody ⟨block', ?_, hsameLabel.trans hshaped.entryLabel?, rfl⟩
      exact happ.mem_after.mpr ⟨i, block, hblock, hblock'⟩
    by_cases hpos : i = pos
    · rw [hpos, hhead] at hblock
      cases hblock
      have hinserted : edit.insert.flatMap BasicBlockOf.scopeMarks = [] := by
        simpa using hinsert
      rw [hpos, happ.place_head, hnew] at hafter ⊢
      rw [List.flatMap_append, hinserted, List.append_nil]
      have hone := hafter new (by simp) ((hfits.head new hnew).entryLabel?.trans hlabel.symm)
      simpa using hone
    · obtain ⟨block', hplace, hsameLabel, -⟩ := happ.place_other hblock hpos hi
      rw [hplace] at hafter ⊢
      have hone := hafter block' (List.mem_singleton_self _) hsameLabel
      simpa using hone
  rw [happ.after_eq, List.flatMap_assoc]
  conv_rhs => rw [← List.zipIdx_map_fst 0 blocks, List.flatMap_map]
  refine List.flatMap_congr fun p hp => ?_
  exact hplace p.2 p.1 (List.mem_zipIdx_iff_getElem?.mp hp)

end Decompiler
