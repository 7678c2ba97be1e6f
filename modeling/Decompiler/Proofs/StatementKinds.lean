import Decompiler.Proofs.PartitionedCode
import Decompiler.Proofs.RuleSoundness
import Decompiler.Proofs.SimulatedBlocks

/-!
# Kinds of statements along the way of a unit

The blocks of decoded code hold labels, stack operations, jumps and exits, and the rules for stack
operations bring nothing else.  Once the stack is simulated, blocks hold simple statements
(`Stmt.isSimple`), and the rules for simulated blocks keep them simple: the only structured statement
among them is a scope with a straight body.

A branch of decoded code is a stack operation, so that simulation keeps its blocks well-formed
(`bareBranches_simulate`).
-/

namespace Decompiler

open Bytecode

/-- Every statement of some blocks has a property. -/
def AllStmts (P : Stmt → Prop) (blocks : List BasicBlock) : Prop :=
  ∀ block ∈ blocks, ∀ s ∈ block.body, P s

/-- An edit that brings statements with a property keeps the property. -/
lemma Edit.allStmts_apply {P : Stmt → Prop} {edit : Edit} {blocks after : List BasicBlock}
    {pos resume : Nat} (h : AllStmts P blocks)
    (hnew : AllStmts P (edit.head.toList ++ (edit.replace ++ edit.insert)))
    (happly : edit.apply blocks pos = .ok (after, resume)) : AllStmts P after := by
  obtain ⟨replaced, removed, happ⟩ := apply_eq_ok happly
  intro block hblock
  obtain ⟨i, old, hold, hplace⟩ := happ.mem_after.mp hblock
  by_cases hi : i ∈ removed
  · rw [Applied.place_removed hi] at hplace
    cases hplace
  by_cases hpos : i = pos
  · rw [hpos, happ.place_head] at hplace
    refine hnew block ?_
    simp only [List.mem_append] at hplace ⊢
    exact hplace.imp_right .inr
  obtain ⟨block', hone, -, hfrom⟩ := happ.place_other hold hpos hi
  rw [hone, List.mem_singleton] at hplace
  subst hplace
  rcases hfrom with rfl | hreplace
  · exact h block (List.mem_of_getElem? hold)
  · exact hnew block (List.mem_append_right _ (List.mem_append_left _ hreplace))

namespace Fixpoint

/-- A property of statements that each rule keeps is kept by a run. -/
lemma Rewriting.allStmts {P : Stmt → Prop} {rules : List Rule} {blocks last : List BasicBlock}
    {context lastContext : Context} {rewrites : List Rewrite}
    (hrules : ∀ {rule : Rule} {site : Site} {blocks : List BasicBlock} {context context' : Context}
      {edit : Edit}, rule ∈ rules → site.IsAt blocks → AllStmts P blocks →
      rule.edit? site context = (some edit, context') →
      AllStmts P (edit.head.toList ++ (edit.replace ++ edit.insert)))
    (hrun : Rewriting rules blocks context rewrites last lastContext) (h : AllStmts P blocks) :
    AllStmts P last := by
  induction hrun with
  | done => exact h
  | tried _ _ _ _ ih => exact ih h
  | edited hrule hhead hedit happly _ ih =>
    exact ih (Edit.allStmts_apply h (hrules hrule ⟨rfl, hhead⟩ h hedit) happly)

end Fixpoint

namespace Site

variable {site : Site} {blocks : List BasicBlock} {P : Stmt → Prop}

/-- The statements of the head. -/
lemma IsAt.allStmts_head (hsite : site.IsAt blocks) (h : AllStmts P blocks) :
    ∀ s ∈ site.head.body, P s :=
  h site.head (List.mem_of_getElem? hsite.head_eq)

/-- The statements of any block of the list. -/
lemma IsAt.allStmts_block (hsite : site.IsAt blocks) (h : AllStmts P blocks) {i : Nat}
    {block : BasicBlock} (hblock : site.blocks[i]? = some block) : ∀ s ∈ block.body, P s := by
  rw [Site.blocks, hsite.map_eq] at hblock
  exact h block (List.mem_of_getElem? hblock)

/-- The statements of another block. -/
lemma IsAt.allStmts_other (hsite : site.IsAt blocks) (h : AllStmts P blocks) {label : LabelId}
    {block : BasicBlock} (hblock : site.other? label = some block) : ∀ s ∈ block.body, P s := by
  obtain ⟨i, -, -, hat, -⟩ := other?_eq_some hblock
  exact hsite.allStmts_block h hat

/-- The statements of a head whose end is exchanged. -/
lemma allStmts_headWith {n : Nat} {stmts : List Stmt} (h : ∀ s ∈ site.head.body, P s)
    (hstmts : ∀ s ∈ stmts, P s) : ∀ s ∈ (site.headWith n stmts).body, P s := by
  intro s hs
  rcases List.mem_append.mp hs with hs | hs
  · exact h s (List.mem_of_mem_take hs)
  · exact hstmts s hs

end Site

/-! ### Blocks of stack operations -/

namespace Stmt

/-- A label, or a statement that an instruction leaves. -/
def IsOfCode (s : Stmt) : Prop :=
  (∃ id, s = .label id) ∨ s.isLowered = true

/-- A branch of decoded code is a stack operation. -/
lemma IsOfCode.stackOp?_ne_none {s : Stmt} (h : s.IsOfCode) (hs : s.isConditional = true) :
    s.stackOp? ≠ none := by
  rcases h with ⟨id, rfl⟩ | h
  · cases hs
  · cases s with
    | raw _ _ => simp [stackOp?]
    | goto _ | exit => cases hs
    | _ => cases h

end Stmt

/-- The statements of a block without the one behind its label. -/
lemma allStmts_withoutFirst {block : BasicBlock} {P : Stmt → Prop} (h : ∀ s ∈ block.body, P s) :
    ∀ s ∈ (withoutFirst block).body, P s :=
  fun s hs => h s (List.mem_of_mem_eraseIdx hs)

/-- The rules for stack operations bring labels, stack operations and jumps. -/
lemma Rule.isOfCode_edit? {rule : Rule} {site : Site} {blocks : List BasicBlock}
    {context context' : Context} {edit : Edit} (hrule : rule ∈ forStackOps) (hsite : site.IsAt blocks)
    (h : AllStmts Stmt.IsOfCode blocks) (hedit : rule.edit? site context = (some edit, context')) :
    AllStmts Stmt.IsOfCode (edit.head.toList ++ (edit.replace ++ edit.insert)) := by
  have hhead := hsite.allStmts_head h
  simp only [forStackOps, List.mem_cons, List.not_mem_nil, or_false] at hrule
  rcases hrule with rfl | rfl | rfl
  · obtain ⟨counter, name, counters, head, tailAt, tailBlock, tail, exitAt, exitBlock, -, -, htail, -,
      -, hexit, -, -, -, -, rfl⟩ := CountedLoop.edit?_eq_some hedit
    intro block hblock
    simp only [Option.toList_some, List.cons_append, List.nil_append, List.mem_cons,
      List.not_mem_nil, or_false] at hblock
    rcases hblock with rfl | rfl | rfl | rfl
    · refine Site.allStmts_headWith hhead ?_
      simp [CountedLoop.headEnd, Stmt.IsOfCode, Stmt.isLowered]
    · intro s hs
      rcases List.mem_append.mp hs with hs | hs
      · exact hsite.allStmts_block h htail s (List.mem_of_mem_take hs)
      · right
        simp only [List.mem_cons, List.not_mem_nil, or_false] at hs
        rcases hs with rfl | rfl | rfl | rfl | rfl <;> rfl
    · exact allStmts_withoutFirst (hsite.allStmts_block h hexit)
    · simp [CountedLoop.testBlock, Stmt.IsOfCode, Stmt.isLowered]
  · obtain ⟨-, init, a, b, c, first, chain, last, endBlock, -, -, -, -, hother, -, rfl⟩ :=
      SwitchDispatch.edit?_eq_some hedit
    intro block hblock
    simp only [Option.toList_some, List.append_nil, List.singleton_append, List.mem_cons,
      List.not_mem_nil, or_false] at hblock
    rcases hblock with rfl | rfl
    · refine Site.allStmts_headWith hhead ?_
      simp [Stmt.IsOfCode, Stmt.isLowered]
    · exact allStmts_withoutFirst (hsite.allStmts_other h hother)
  · obtain ⟨-, -, -, -, rfl⟩ := deadBlocksEdit?_eq_some (congrArg Prod.fst hedit)
    simp [AllStmts]

/-- A run of the rules for stack operations brings labels, stack operations and jumps. -/
lemma isOfCode_optimizeStackOps {maxSweeps : Nat} {blocks : List BasicBlock} {context : Context}
    (h : AllStmts Stmt.IsOfCode blocks) :
    AllStmts Stmt.IsOfCode (optimizeStackOps maxSweeps blocks context).2.blocks :=
  (Fixpoint.rewriting_runFixpoint Rule.forStackOps maxSweeps blocks context).allStmts
    Rule.isOfCode_edit? h

/-- The branches of decoded code are stack operations. -/
lemma Simulation.bareBranches_of_isOfCode {depth : Nat} {body : List Stmt}
    (h : ∀ s ∈ body, s.IsOfCode) : BareBranches depth body := by
  intro init branch jump hbody hbranch hop
  have hmem : branch ∈ body := by simp [hbody]
  exact absurd hop ((h branch hmem).stackOp?_ne_none hbranch)

/-- No block of decoded code meets a branch that is a statement already. -/
lemma bareBranches_simulate {names : Names} {labels : Labels} {bound : Nat}
    {sources results : List BasicBlock} (hwf : WellFormed bound sources)
    (hcode : AllStmts Stmt.IsOfCode sources) (h : simulate names labels sources = .ok results) :
    List.Forall₂ (fun source result => Simulation.BareBranches result.entryDepth source.body)
      sources results := by
  have hblocks := (List.forall₂_and_left _ _).mpr ⟨hcode, isSimulated_simulate hwf h⟩
  exact hblocks.imp fun _ _ hone => Simulation.bareBranches_of_isOfCode hone.1

/-! ### Simulated blocks -/

namespace Stmt

mutual

/-- Whether the statement may stand in the body of a scope before loops are recovered. -/
def isInner : Stmt → Bool
  | .assign _ _ | .call _ _ | .discard _ => true
  | .scope _ body stop => body.entry.isNone && stop.isNone && innerList body.body
  | _ => false

/-- Whether every statement of a list may stand in the body of a scope before loops are recovered. -/
def innerList : List Stmt → Bool
  | [] => true
  | s :: rest => s.isInner && innerList rest

end

/-- Whether the statement may stand in a block before loops are recovered: it is no stack operation,
and if it holds other statements then it is a scope with a straight body. -/
def isSimple : Stmt → Bool
  | .label _ | .push _ | .goto _ | .condGoto _ _ | .pushEnv _ _ | .popEnv _ | .dispatch _ _ _
  | .ret _ | .exit => true
  | s => s.isInner

mutual

/-- Expressions do not matter for what may stand in a scope. -/
lemma isInner_mapExprs (f : ExprMap) : (s : Stmt) → (s.mapExprs f).isInner = s.isInner
  | .scope _ body _ => by simp only [mapExprs, isInner, innerList_mapExprsList f body.body]
  | .label _ | .raw _ _ | .push _ | .assign _ _ | .call _ _ | .discard _ | .goto _ | .condGoto _ _
  | .pushEnv _ _ | .popEnv _ | .dispatch _ _ _ | .ret _ | .exit | .breakOut | .continueLoop | .basic _
  | .seq _ | .cond _ _ _ | .loop _ _ | .switch _ _ => rfl

/-- Expressions do not matter for what may stand in a scope. -/
lemma innerList_mapExprsList (f : ExprMap) :
    (list : List Stmt) → innerList (mapExprsList f list) = innerList list
  | [] => rfl
  | s :: rest => by simp only [mapExprsList, innerList, isInner_mapExprs f s,
      innerList_mapExprsList f rest]

end

/-- Expressions do not matter for what may stand in a block. -/
lemma isSimple_mapExprs (f : ExprMap) (s : Stmt) : (s.mapExprs f).isSimple = s.isSimple := by
  cases s with
  | scope env body stop => exact isInner_mapExprs f (.scope env body stop)
  | _ => rfl

mutual

/-- Making call statements does not matter for what may stand in a scope. -/
lemma isInner_promoteCalls : (s : Stmt) → s.promoteCalls.isInner = s.isInner
  | .scope _ body _ => by simp only [promoteCalls, isInner, innerList_promoteCallsList body.body]
  | .discard value => by cases value <;> rfl
  | .label _ | .raw _ _ | .push _ | .assign _ _ | .call _ _ | .goto _ | .condGoto _ _
  | .pushEnv _ _ | .popEnv _ | .dispatch _ _ _ | .ret _ | .exit | .breakOut | .continueLoop | .basic _
  | .seq _ | .cond _ _ _ | .loop _ _ | .switch _ _ => rfl

/-- Making call statements does not matter for what may stand in a scope. -/
lemma innerList_promoteCallsList :
    (list : List Stmt) → innerList (promoteCallsList list) = innerList list
  | [] => rfl
  | s :: rest => by simp only [promoteCallsList, innerList, isInner_promoteCalls s,
      innerList_promoteCallsList rest]

end

/-- Making call statements does not matter for what may stand in a block. -/
lemma isSimple_promoteCalls (s : Stmt) : s.promoteCalls.isSimple = s.isSimple := by
  cases s with
  | scope env body stop => exact isInner_promoteCalls (.scope env body stop)
  | discard value => cases value <;> rfl
  | _ => rfl

/-- A list may stand in a scope when each of its statements may. -/
lemma innerList_eq_true_iff {list : List Stmt} :
    innerList list = true ↔ ∀ s ∈ list, s.isInner = true := by
  induction list with
  | nil => simp [innerList]
  | cons s rest ih => simp [innerList, ih]

mutual

/-- What may stand in a scope holds nothing that passes a test, if no simple statement does. -/
lemma count_eq_zero_of_isInner {test : Stmt → Bool}
    (htest : ∀ s, s.isSimple = true → test s = false) :
    (s : Stmt) → s.isInner = true → s.count test = 0
  | .scope env body stop, h => by
    have hbody : innerList body.body = true := by
      simp only [isInner, Bool.and_eq_true] at h
      exact h.2
    rw [count, htest (.scope env body stop) h, countList_eq_zero_of_innerList htest body.body hbody]
    rfl
  | .assign target value, h => by simp [count, htest (.assign target value) h]
  | .call name args, h => by simp [count, htest (.call name args) h]
  | .discard value, h => by simp [count, htest (.discard value) h]

/-- What may stand in a scope holds nothing that passes a test, if no simple statement does. -/
lemma countList_eq_zero_of_innerList {test : Stmt → Bool}
    (htest : ∀ s, s.isSimple = true → test s = false) :
    (list : List Stmt) → innerList list = true → countList test list = 0
  | [], _ => rfl
  | s :: rest, h => by
    simp only [innerList, Bool.and_eq_true] at h
    rw [countList, count_eq_zero_of_isInner htest s h.1, countList_eq_zero_of_innerList htest rest h.2]

end

/-- A simple statement holds nothing that passes a test, if no simple statement does. -/
lemma count_eq_zero_of_isSimple {test : Stmt → Bool}
    (htest : ∀ s, s.isSimple = true → test s = false) {s : Stmt} (h : s.isSimple = true) :
    s.count test = 0 := by
  cases s with
  | scope _ _ _ | assign _ _ | call _ _ | discard _ => exact count_eq_zero_of_isInner htest _ h
  | label _ | push _ | goto _ | condGoto _ _ | pushEnv _ _ | popEnv _ | dispatch _ _ _ | ret _
  | exit => simp [count, htest _ h]
  | _ => cases h

/-- What a scope with a straight body takes in. -/
lemma isInner_of_isStraight {s : Stmt} (h : s.isSimple = true) (hs : WithScope.isStraight s = true) :
    s.isInner = true := by
  cases s with
  | assign _ _ | call _ _ | discard _ => rfl
  | scope _ _ _ => exact h
  | _ => cases hs

/-- What an operation inside a block leaves is simple. -/
lemma isSimple_of_isPlain {s : Stmt} (h : s.isPlain = true) : s.isSimple = true := by
  cases s with
  | push _ | assign _ _ | call _ _ | discard _ | ret _ => rfl
  | _ => cases h

/-- What a branch leaves is simple. -/
lemma isSimple_of_isBranch {s : Stmt} (h : s.isBranch = true) : s.isSimple = true := by
  cases s with
  | condGoto _ _ | pushEnv _ _ | popEnv _ | dispatch _ _ _ => rfl
  | _ => cases h

/-- A statement of decoded code that is no stack operation is simple. -/
lemma IsOfCode.isSimple {s : Stmt} (h : s.IsOfCode) (hop : s.stackOp? = none) :
    s.isSimple = true := by
  rcases h with ⟨id, rfl⟩ | h
  · rfl
  · cases s with
    | raw _ _ => cases hop
    | goto _ | exit => rfl
    | _ => cases h

mutual

/-- What may stand in a scope holds no basic blocks. -/
lemma isSound_of_isInner : (s : Stmt) → s.isInner = true → s.isSound = true
  | .scope _ body _, h => by
    simp only [isInner, Bool.and_eq_true] at h
    exact soundList_of_innerList body.body h.2
  | .assign _ _, _ | .call _ _, _ | .discard _, _ => rfl

/-- Statements that may stand in a scope hold no basic blocks. -/
lemma soundList_of_innerList : (list : List Stmt) → innerList list = true → soundList list = true
  | [], _ => rfl
  | s :: rest, h => by
    simp only [innerList, Bool.and_eq_true] at h
    simp only [soundList, isSound_of_isInner s h.1, soundList_of_innerList rest h.2, Bool.and_self]

end

/-- A simple statement holds no basic blocks. -/
lemma isSound_of_isSimple {s : Stmt} (h : s.isSimple = true) : s.isSound = true := by
  cases s with
  | scope env body stop => exact isSound_of_isInner _ h
  | basic _ | seq _ | cond _ _ _ | loop _ _ | switch _ _ => cases h
  | _ => rfl

end Stmt

/-- The blocks of a well-formed list of simple statements are sound. -/
lemma WellFormed.soundBlocks_of_isSimple {bound : Nat} {blocks : List BasicBlock}
    (hwf : WellFormed bound blocks) (hsimple : AllStmts (Stmt.isSimple · = true) blocks) :
    SoundBlocks (blocks.map Stmt.basic) := by
  refine hwf.soundBlocks fun block hblock => Stmt.soundList_eq_true_iff.mpr fun s hs => ?_
  exact Stmt.isSound_of_isSimple (hsimple block hblock s hs)

/-- Simulation gives simple statements for the blocks of decoded code. -/
lemma isSimple_simulate {names : Names} {labels : Labels} {bound : Nat}
    {sources results : List BasicBlock} (hwf : WellFormed bound sources)
    (hcode : AllStmts Stmt.IsOfCode sources) (h : simulate names labels sources = .ok results) :
    AllStmts (Stmt.isSimple · = true) results := by
  have hblocks := (List.forall₂_and_left _ _).mpr ⟨hcode, isSimulated_simulate hwf h⟩
  clear hwf hcode h
  induction hblocks with
  | nil => simp [AllStmts]
  | cons hone _ ih =>
    obtain ⟨hcode, label, -, -, hsimulated⟩ := hone
    refine List.forall_mem_cons.mpr ⟨?_, ih⟩
    intro s hs
    rcases hsimulated.kinds s hs with hplain | hbranch | ⟨hmem, hop⟩
    · exact Stmt.isSimple_of_isPlain hplain
    · exact Stmt.isSimple_of_isBranch hbranch
    · exact (hcode s hmem).isSimple hop

/-- An edit of the head alone. -/
lemma AllStmts.head {P : Stmt → Prop} {block : BasicBlock} (h : ∀ s ∈ block.body, P s) :
    AllStmts P ((some block).toList ++ ([] ++ [])) := by
  intro b hb
  simp only [Option.toList_some, List.append_nil, List.mem_singleton] at hb
  rw [hb]
  exact h

/-- A property of statements that the rules for simulated blocks keep: it does not depend on the
expressions, and what the rules put at the end of a head has it. -/
structure Stmt.IsKept (P : Stmt → Prop) : Prop where
  mapExprs : ∀ f s, P s → P (s.mapExprs f)
  promoteCalls : ∀ s, P s → P s.promoteCalls
  push : ∀ value, P (.push value)
  goto : ∀ target, P (.goto target)
  condGoto : ∀ test target, P (.condGoto test target)
  scope : ∀ env stmts, (∀ s ∈ stmts, P s) → (∀ s ∈ stmts, WithScope.isStraight s = true) →
    P (.scope env { body := stmts } none)

namespace Stmt.IsKept

variable {P : Stmt → Prop} (hkept : IsKept P) {list : List Stmt}
include hkept

/-- The property does not depend on the expressions of a list. -/
lemma mapExprsList (f : ExprMap) (h : ∀ s ∈ list, P s) : ∀ s ∈ Stmt.mapExprsList f list, P s := by
  induction list with
  | nil => simp [Stmt.mapExprsList]
  | cons s rest ih =>
    rw [List.forall_mem_cons] at h
    exact List.forall_mem_cons.mpr ⟨hkept.mapExprs f s h.1, ih h.2⟩

/-- Making the call statements of a list keeps the property. -/
lemma promoteCallsList (h : ∀ s ∈ list, P s) : ∀ s ∈ Stmt.promoteCallsList list, P s := by
  induction list with
  | nil => simp [Stmt.promoteCallsList]
  | cons s rest ih =>
    rw [List.forall_mem_cons] at h
    exact List.forall_mem_cons.mpr ⟨hkept.promoteCalls s h.1, ih h.2⟩

end Stmt.IsKept

/-- The rules for simulated blocks bring statements with the properties that they keep. -/
lemma Rule.allStmts_edit? {P : Stmt → Prop} (hkept : Stmt.IsKept P) {rule : Rule} {site : Site}
    {blocks : List BasicBlock} {context context' : Context} {edit : Edit} (hrule : rule ∈ forExprs)
    (hsite : site.IsAt blocks) (h : AllStmts P blocks)
    (hedit : rule.edit? site context = (some edit, context')) :
    AllStmts P (edit.head.toList ++ (edit.replace ++ edit.insert)) := by
  have hhead := hsite.allStmts_head h
  have hedit := congrArg Prod.fst hedit
  simp only [forExprs, List.mem_cons, List.not_mem_nil, or_false] at hrule
  rcases hrule with rfl | rfl | rfl | rfl | rfl | rfl | rfl
  · obtain ⟨init, env, skip, body, popBlock, l, after, bodyBlock, l', stmts, -, -, -, -, -, -, -,
      hbodyBlock, hbody, hstraight, rfl⟩ := WithScope.edit?_eq_some hedit
    refine .head (Site.allStmts_headWith hhead ?_)
    have hscope : P (.scope env { body := stmts } none) := by
      refine hkept.scope env stmts (fun s hs => ?_) (List.all_eq_true.mp hstraight)
      exact hsite.allStmts_other h hbodyBlock s (by simp [hbody, hs])
    simp [hscope, hkept.goto]
  · obtain ⟨init, c, t, f, inner, block, l, d, t', f', e, -, -, -, -, -, -, rfl⟩ :=
      ShortCircuit.edit?_eq_some hedit
    exact .head (Site.allStmts_headWith hhead (by simp [hkept.condGoto, hkept.goto]))
  · obtain ⟨init, test, t, f, onTrue, onFalse, fall, value, -, -, -, -, -, -, -, -, hedit⟩ :=
      Ternary.edit?_eq_some hedit
    rcases hedit with ⟨next, target, other, -, rfl⟩ | rfl
    · exact .head (Site.allStmts_headWith hhead (by simp [hkept.condGoto, hkept.goto]))
    · exact .head (Site.allStmts_headWith hhead (by simp [hkept.push, hkept.goto]))
  · obtain ⟨kept, dropped, next, nextAt, nextBlock, values, -, hbody, -, -, -, -, -, hnext, rfl⟩ :=
      Join.edit?_eq_some hedit
    refine .head fun s hs => ?_
    rcases List.mem_append.mp hs with hs | hs
    · exact hhead s (by simp [hbody, hs])
    · obtain ⟨t, ht, rfl⟩ := List.mem_map.mp hs
      exact hkept.mapExprs _ t (hsite.allStmts_block h hnext t (List.mem_of_mem_drop ht))
  · have hedit : logicNotEdit? site = some edit := hedit
    unfold logicNotEdit? at hedit
    split at hedit
    · cases hedit
      exact .head (hkept.mapExprsList _ hhead)
    · cases hedit
  · have hedit : popzEdit? site = some edit := hedit
    unfold popzEdit? at hedit
    split at hedit
    · cases hedit
    · cases hedit
      exact .head (hkept.promoteCallsList hhead)
  · obtain ⟨-, -, -, -, rfl⟩ := deadBlocksEdit?_eq_some hedit
    simp [AllStmts]

/-- The rules for simulated blocks keep statements simple. -/
lemma Stmt.isKept_isSimple : IsKept (isSimple · = true) where
  mapExprs f s h := (isSimple_mapExprs f s).trans h
  promoteCalls s h := (isSimple_promoteCalls s).trans h
  push _ := rfl
  goto _ := rfl
  condGoto _ _ := rfl
  scope env stmts h hstraight := by
    have hstmts : innerList stmts = true :=
      innerList_eq_true_iff.mpr fun s hs => isInner_of_isStraight (h s hs) (hstraight s hs)
    simp [isSimple, isInner, hstmts]

/-- A run of the rules for simulated blocks keeps their statements simple. -/
lemma isSimple_optimizeExprs {maxSweeps : Nat} {blocks : List BasicBlock} {context : Context}
    (h : AllStmts (Stmt.isSimple · = true) blocks) :
    AllStmts (Stmt.isSimple · = true) (optimizeExprs maxSweeps blocks context).2.blocks :=
  (Fixpoint.rewriting_runFixpoint Rule.forExprs maxSweeps blocks context).allStmts
    (Rule.allStmts_edit? Stmt.isKept_isSimple) h

end Decompiler
