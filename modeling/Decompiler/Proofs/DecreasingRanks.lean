import Mathlib.Algebra.Order.BigOperators.Group.List
import Mathlib.Algebra.Order.Group.Nat
import Mathlib.Data.Nat.Cast.Basic
import Mathlib.Data.Prod.Lex
import Decompiler.Proofs.FoldedStatements
import Decompiler.Proofs.QuietSweeps

/-!
# Ranks that every edit lowers

No count of the blocks of a list goes down at every edit: a counted loop adds a block, joining two
blocks copies expressions and their negations, and folding a negation can uncover a dropped call.  Each
of the two rule lists has a rank all the same (`stackRank`, `exprRank`).

* Of stack operations, a counted loop and a dispatch each use up a copy of the top of the stack, which
  weighs more than the block that a counted loop adds.
* Of simulated blocks, the rules that change control flow leave fewer blocks.  Folding keeps the blocks
  and leaves fewer negations, and making call statements keeps both and leaves no dropped call.

The walk of a rule ends for its own sake (`tries_tryRule`), and a sweep that changes something lowers
the rank, so that the number of sweeps is bounded.  What the rules do to simulated blocks does not
depend on the names and messages, and one bound is enough for all of them.
-/

/-- What holds of the errors of two steps holds of the errors of both together. -/
lemma Except.of_bind_eq_error {ε α β : Type} {P : ε → Prop} {x : Except ε α} {f : α → Except ε β}
    {e : ε} (hx : ∀ e, x = .error e → P e) (hf : ∀ a e, f a = .error e → P e)
    (h : x >>= f = .error e) : P e := by
  cases x with
  | error e' =>
    cases h
    exact hx e rfl
  | ok a => exact hf a e h

namespace Decompiler

/-! ### The weight of a list -/

namespace Edit

/-- The new head and what is inserted weigh no more than the head, and a replacement weighs no more
than the block whose label it has. -/
structure NoHeavier (edit : Edit) (blocks : List BasicBlock) (head : BasicBlock)
    (weight : BasicBlock → Nat) : Prop where
  head_le : ((edit.head.toList ++ edit.insert).map weight).sum ≤ weight head
  replace_le : ∀ new ∈ edit.replace, ∃ old ∈ blocks, old.entryLabel? = new.entryLabel? ∧
    weight new ≤ weight old

variable {edit : Edit} {blocks after : List BasicBlock} {pos resume : Nat} {head : BasicBlock}
  {weight : BasicBlock → Nat}

/-- What an edit puts in the place of a block weighs no more than the block. -/
lemma Applied.sum_place_le {replaced : List (Nat × BasicBlock)} {removed : List Nat}
    (happ : edit.Applied blocks pos replaced removed after) (hhead : blocks[pos]? = some head)
    (h : edit.NoHeavier blocks head weight) {block : BasicBlock} {i : Nat}
    (hblock : blocks[i]? = some block) :
    ((edit.place pos replaced removed block i).map weight).sum ≤ weight block := by
  by_cases hi : i ∈ removed
  · rw [Applied.place_removed hi]
    exact Nat.zero_le _
  by_cases hpos : i = pos
  · rw [hpos, hhead] at hblock
    cases hblock
    rw [hpos, happ.place_head]
    exact h.head_le
  obtain ⟨new, hone, hlabel, rfl | hreplace⟩ := happ.place_other hblock hpos hi
  · simp [hone]
  · obtain ⟨old, hold, hsame, hle⟩ := h.replace_le new hreplace
    obtain ⟨j, hj⟩ := happ.replaces new hreplace
    obtain ⟨-, -, label, hnew, hlocate⟩ := happ.replaced_spec _ hj
    obtain ⟨k, hk⟩ := List.getElem?_of_mem hold
    -- The label of the replacement is located at one block only, which is the one it replaces.
    have hunique := (locate_eq_ok hlocate).2
    have hik : i = k := (hunique i block hblock (hlabel.symm.trans hnew)).trans
      (hunique k old hk (hsame.trans hnew)).symm
    rw [← hik, hblock] at hk
    cases hk
    simpa [hone] using hle

/-- The weight of a list is that of what stands in the place of its blocks. -/
lemma Applied.sum_eq {replaced : List (Nat × BasicBlock)} {removed : List Nat}
    (happ : edit.Applied blocks pos replaced removed after) :
    (after.map weight).sum = (blocks.zipIdx.map fun p =>
      ((edit.place pos replaced removed p.1 p.2).map weight).sum).sum := by
  rw [happ.after_eq, List.map_flatMap, List.flatMap_def, List.sum_flatten, List.map_map]
  rfl

/-- An edit with nothing heavier leaves a list that is no heavier. -/
lemma sum_apply_le (hhead : blocks[pos]? = some head) (h : edit.NoHeavier blocks head weight)
    (happly : edit.apply blocks pos = .ok (after, resume)) :
    (after.map weight).sum ≤ (blocks.map weight).sum := by
  obtain ⟨replaced, removed, happ⟩ := apply_eq_ok happly
  rw [happ.sum_eq]
  conv_rhs => rw [← List.zipIdx_map_fst 0 blocks, List.map_map]
  refine List.sum_le_sum fun p hp => ?_
  exact happ.sum_place_le hhead h (List.mem_zipIdx_iff_getElem?.mp hp)

/-- It leaves a lighter list when the new head and what is inserted are lighter, or when it deletes
anything that has a weight. -/
lemma sum_apply_lt (hhead : blocks[pos]? = some head) (h : edit.NoHeavier blocks head weight)
    (hless : ((edit.head.toList ++ edit.insert).map weight).sum < weight head ∨
      edit.remove ≠ [] ∧ ∀ block, 0 < weight block)
    (happly : edit.apply blocks pos = .ok (after, resume)) :
    (after.map weight).sum < (blocks.map weight).sum := by
  obtain ⟨replaced, removed, happ⟩ := apply_eq_ok happly
  rw [happ.sum_eq]
  conv_rhs => rw [← List.zipIdx_map_fst 0 blocks, List.map_map]
  refine List.sum_lt_sum _ _ (fun p hp => ?_) ?_
  · exact happ.sum_place_le hhead h (List.mem_zipIdx_iff_getElem?.mp hp)
  rcases hless with hless | ⟨hremove, hpositive⟩
  · refine ⟨(head, pos), List.mem_zipIdx_iff_getElem?.mpr hhead, ?_⟩
    rw [happ.place_head]
    exact hless
  · obtain ⟨label, hlabel⟩ := List.exists_mem_of_ne_nil _ hremove
    obtain ⟨i, hlocate⟩ := happ.located label hlabel
    obtain ⟨⟨block, hblock, -⟩, -⟩ := locate_eq_ok hlocate
    refine ⟨(block, i), List.mem_zipIdx_iff_getElem?.mpr hblock, ?_⟩
    rw [Applied.place_removed ((happ.removed_spec i).mpr ⟨label, hlabel, hlocate⟩)]
    exact hpositive block

/-- The error of an edit is a condition of the passes that does not hold. -/
def IsInvariant (e : Error) : Prop :=
  ∃ fault, e = .invariant fault

/-- A label that is not located breaks a condition. -/
lemma locate_eq_error {label : LabelId} {e : Error} (h : locate blocks label = .error e) :
    IsInvariant e := by
  unfold locate at h
  split at h
  · cases h
  · cases h
    exact ⟨_, rfl⟩

/-- A replacement that cannot be placed breaks a condition. -/
lemma replacement_eq_error {block : BasicBlock} {e : Error}
    (h : replacement blocks pos block = .error e) : IsInvariant e := by
  unfold replacement at h
  split at h
  · cases h
    exact ⟨_, rfl⟩
  · refine Except.of_bind_eq_error (fun _ => locate_eq_error) (fun i e h => ?_) h
    split at h
    · cases h
      exact ⟨_, rfl⟩
    · cases h

/-- A deletion that cannot be made breaks a condition. -/
lemma removal_eq_error {replaced removed : List Nat} {label : LabelId} {e : Error}
    (h : removal blocks pos replaced removed label = .error e) : IsInvariant e := by
  refine Except.of_bind_eq_error (fun _ => locate_eq_error) (fun i e h => ?_) h
  split at h
  · cases h
    exact ⟨_, rfl⟩
  · cases h

/-- An edit that is not carried out breaks a condition of the passes. -/
lemma apply_eq_error {e : Error} (h : edit.apply blocks pos = .error e) : IsInvariant e := by
  have hreplace : ∀ (replace : List BasicBlock) (e : Error),
      replace.mapM (replacement blocks pos) = .error e → IsInvariant e := by
    intro replace
    induction replace with
    | nil => intro e h; cases h
    | cons block rest ih =>
      intro e h
      rw [List.mapM_cons] at h
      refine Except.of_bind_eq_error (fun _ => replacement_eq_error) (fun p e h => ?_) h
      exact Except.of_bind_eq_error ih (fun _ _ h => by cases h) h
  have hremove : ∀ (replaced : List Nat) (remove : List LabelId) (removed : List Nat) (e : Error),
      remove.foldlM (removal blocks pos replaced) removed = .error e → IsInvariant e := by
    intro replaced remove
    induction remove with
    | nil => intro removed e h; cases h
    | cons label rest ih =>
      intro removed e h
      rw [List.foldlM_cons] at h
      exact Except.of_bind_eq_error (fun _ => removal_eq_error) ih h
  refine Except.of_bind_eq_error (hreplace edit.replace) (fun replaced e h => ?_) h
  exact Except.of_bind_eq_error (hremove _ _ _) (fun _ _ h => by cases h) h

end Edit

/-! ### The ranks -/

/-- Whether the statement copies the top of the stack. -/
def Stmt.isDup : Stmt → Bool
  | .raw _ (.dup _) => true
  | _ => false

/-- The weight of a block of stack operations: a copy of the top weighs more than a block. -/
def stackWeight (block : BasicBlock) : Nat :=
  2 * block.body.countP Stmt.isDup + 1

/-- The rank of a list of blocks of stack operations. -/
def stackRank (blocks : List BasicBlock) : Nat :=
  (blocks.map stackWeight).sum

/-- The rank of a list of simulated blocks: its blocks, then its negations, then its dropped calls. -/
def exprRank (blocks : List BasicBlock) : ℕ ×ₗ ℕ ×ₗ ℕ :=
  toLex (blocks.length, toLex
    ((blocks.map fun block => Stmt.notsOfList block.body).sum,
      (blocks.map fun block => Stmt.countList Stmt.isDroppedCall block.body).sum))

namespace Fixpoint

/-- One of the rules asks for an edit of the list somewhere, whatever the names and messages are, and
the edit is carried out. -/
def Fires (rules : List Rule) (before after : List BasicBlock) : Prop :=
  ∃ rule ∈ rules, ∃ pos head context context' edit resume, before[pos]? = some head ∧
    rule.edit? ⟨.ofBlocks before, pos, head⟩ context = (some edit, context') ∧
    edit.apply before pos = .ok (after, resume)

end Fixpoint

/-- Taking out the statement behind the label leaves the label. -/
lemma entryLabel?_withoutFirst (block : BasicBlock) :
    (withoutFirst block).entryLabel? = block.entryLabel? := by
  rw [BasicBlockOf.entryLabel?_eq, BasicBlockOf.entryLabel?_eq, withoutFirst]
  cases block.body with
  | nil => rfl
  | cons s rest => rfl

/-- Taking out the statement behind the label leaves no heavier block. -/
lemma stackWeight_withoutFirst_le (block : BasicBlock) :
    stackWeight (withoutFirst block) ≤ stackWeight block := by
  have hle : (withoutFirst block).body.countP Stmt.isDup ≤ block.body.countP Stmt.isDup :=
    (List.eraseIdx_sublist block.body 1).countP_le
  unfold stackWeight
  omega

/-- A head that loses a copy of the top is lighter by two. -/
lemma stackWeight_headWith {site : Site} {init old new : List Stmt}
    (hbody : site.head.body = init ++ old) (hold : old.countP Stmt.isDup = 1)
    (hnew : new.countP Stmt.isDup = 0) :
    stackWeight (site.headWith old.length new) + 2 = stackWeight site.head := by
  rw [stackWeight, stackWeight, Site.body_headWith hbody, hbody, List.countP_append,
    List.countP_append, hold, hnew]
  omega

/-- The edit that keeps a counter in a temporary brings nothing heavier, and less where the head
stood. -/
lemma CountedLoop.noHeavier {site : Site} {blocks : List BasicBlock} {edit : Edit}
    {context context' : Context} (hsite : site.IsAt blocks)
    (h : edit? site context = (some edit, context')) :
    edit.NoHeavier blocks site.head stackWeight ∧
      ((edit.head.toList ++ edit.insert).map stackWeight).sum < stackWeight site.head := by
  obtain ⟨counter, name, counters, head, tailAt, tailBlock, tail, exitAt, exitBlock, -, hhead,
    htailAt, htail, -, hexit, -, -, -, -, rfl⟩ := edit?_eq_some h
  generalize context.labels.names.length = label
  obtain ⟨init, zero, a, b, c, -, hbody⟩ := head?_eq_some hhead
  obtain ⟨init', a', b', c', hinit', htailBody⟩ := tail?_eq_some htail
  rw [Site.blocks, hsite.map_eq] at htailAt hexit
  have hlt : ([site.headWith 5 (headEnd head counter label), testBlock head counter label].map
      stackWeight).sum < stackWeight site.head := by
    have hhead : stackWeight (site.headWith 5 (headEnd head counter label)) + 2 =
        stackWeight site.head := stackWeight_headWith hbody rfl rfl
    have htest : stackWeight (testBlock head counter label) = 1 := rfl
    simp only [List.map_cons, List.map_nil, List.sum_cons, List.sum_nil, htest]
    omega
  refine ⟨⟨Nat.le_of_lt hlt, List.forall_mem_cons.mpr ⟨?_, List.forall_mem_singleton.mpr ?_⟩⟩, hlt⟩
  · have htailEnd : (CountedLoop.tailBlock tailBlock tail counter label).body = init' ++
        [.raw tail.offset (.pushTemporary counter), .raw tail.offset (.push tail.step),
          .raw tail.offset (.binary .sub), .raw tail.offset (.popTemporary counter),
          .goto label] := by
      simp [CountedLoop.tailBlock, htailBody]
    refine ⟨tailBlock, List.mem_of_getElem? htailAt,
      BasicBlockOf.entryLabel?_congr hinit' htailBody htailEnd, ?_⟩
    rw [stackWeight, stackWeight, htailEnd, htailBody, List.countP_append, List.countP_append]
    simp only [List.countP_cons, Stmt.isDup, List.countP_nil, Bool.false_eq_true, if_false, if_true]
    omega
  · exact ⟨exitBlock, List.mem_of_getElem? hexit, (entryLabel?_withoutFirst exitBlock).symm,
      stackWeight_withoutFirst_le exitBlock⟩

/-- The edit that makes a dispatch of a chain brings nothing heavier, and less where the head stood. -/
lemma SwitchDispatch.noHeavier {site : Site} {blocks : List BasicBlock} {edit : Edit}
    {context context' : Context} (hsite : site.IsAt blocks)
    (h : edit? site context = (some edit, context')) :
    edit.NoHeavier blocks site.head stackWeight ∧
      ((edit.head.toList ++ edit.insert).map stackWeight).sum < stackWeight site.head := by
  obtain ⟨-, init, a, b, c, first, chain, last, endBlock, -, hbody, -, -, hother, -, rfl⟩ :=
    edit?_eq_some h
  obtain ⟨i, -, -, hend, -⟩ := Site.other?_eq_some hother
  rw [Site.blocks, hsite.map_eq] at hend
  have hlt : ∀ cases, ([site.headWith 5
      [.raw first.offset (.dispatch cases chain.default), .goto chain.default]].map
        stackWeight).sum < stackWeight site.head := by
    intro cases
    have hhead : stackWeight (site.headWith 5
        [.raw first.offset (.dispatch cases chain.default), .goto chain.default]) + 2 =
          stackWeight site.head := stackWeight_headWith hbody rfl rfl
    simp only [List.map_cons, List.map_nil, List.sum_cons, List.sum_nil]
    omega
  refine ⟨⟨Nat.le_of_lt (hlt _), List.forall_mem_singleton.mpr ?_⟩, hlt _⟩
  exact ⟨endBlock, List.mem_of_getElem? hend, (entryLabel?_withoutFirst endBlock).symm,
    stackWeight_withoutFirst_le endBlock⟩

/-- Every edit of stack operations lowers the rank of the list. -/
theorem stackRank_lt_of_fires {before after : List BasicBlock}
    (h : Fixpoint.Fires Rule.forStackOps before after) : stackRank after < stackRank before := by
  obtain ⟨rule, hrule, pos, head, context, context', edit, resume, hhead, hedit, happly⟩ := h
  have hsite : Site.IsAt ⟨.ofBlocks before, pos, head⟩ before := ⟨rfl, hhead⟩
  simp only [Rule.forStackOps, List.mem_cons, List.not_mem_nil, or_false] at hrule
  rcases hrule with rfl | rfl | rfl
  · obtain ⟨hheavy, hlt⟩ := CountedLoop.noHeavier hsite hedit
    exact Edit.sum_apply_lt hhead hheavy (.inl hlt) happly
  · obtain ⟨hheavy, hlt⟩ := SwitchDispatch.noHeavier hsite hedit
    exact Edit.sum_apply_lt hhead hheavy (.inl hlt) happly
  · obtain ⟨-, -, -, -, rfl⟩ := Rule.deadBlocksEdit?_eq_some (congrArg Prod.fst hedit)
    have hlt : 0 < stackWeight head := Nat.succ_pos _
    have hheavy : Edit.NoHeavier {} before head stackWeight := ⟨Nat.le_of_lt hlt, by simp⟩
    exact Edit.sum_apply_lt hhead hheavy (.inl hlt) happly

/-- An edit that only deletes blocks and exchanges its head leaves fewer blocks. -/
lemma Edit.length_apply_lt {head? : Option BasicBlock} {remove : List LabelId}
    {blocks after : List BasicBlock} {pos resume : Nat} {head : BasicBlock}
    (hhead : blocks[pos]? = some head) (hless : head? = none ∨ remove ≠ [])
    (happly : Edit.apply { head := head?, remove } blocks pos = .ok (after, resume)) :
    after.length < blocks.length := by
  have hweight : ∀ list : List BasicBlock, (list.map fun _ => 1).sum = list.length := by simp
  rw [← hweight after, ← hweight blocks]
  refine sum_apply_lt hhead ⟨?_, by simp⟩ ?_ happly
  · cases head? <;> simp
  · rcases hless with rfl | hremove
    · exact .inl Nat.zero_lt_one
    · exact .inr ⟨hremove, fun _ => Nat.zero_lt_one⟩

/-- Fewer blocks are a lower rank. -/
lemma exprRank_lt_of_length {before after : List BasicBlock} (h : after.length < before.length) :
    exprRank after < exprRank before :=
  Prod.Lex.toLex_lt_toLex.mpr (.inl h)

/-- A head with fewer negations, or as many and fewer dropped calls, is a lower rank. -/
lemma exprRank_lt_of_body {before after : List BasicBlock} {pos resume : Nat} {head : BasicBlock}
    {body : List Stmt} (hhead : before[pos]? = some head)
    (hless : Stmt.notsOfList body < Stmt.notsOfList head.body ∨
      Stmt.notsOfList body ≤ Stmt.notsOfList head.body ∧
        Stmt.countList Stmt.isDroppedCall body < Stmt.countList Stmt.isDroppedCall head.body)
    (happly : Edit.apply { head := some { head with body } } before pos = .ok (after, resume)) :
    exprRank after < exprRank before := by
  have hheavy : ∀ weight : BasicBlock → Nat, weight { head with body } ≤ weight head →
      Edit.NoHeavier { head := some { head with body } } before head weight :=
    fun weight hle => ⟨by simpa using hle, by simp⟩
  have hlength : after.length ≤ before.length := by
    have hle := Edit.sum_apply_le hhead (hheavy (fun _ => 1) (Nat.le_refl 1)) happly
    simpa using hle
  rw [exprRank, exprRank, Prod.Lex.toLex_lt_toLex']
  refine ⟨hlength, fun _ => ?_⟩
  rw [Prod.Lex.toLex_lt_toLex']
  rcases hless with hnots | ⟨hnots, hdropped⟩
  · have hlt := Edit.sum_apply_lt hhead
      (hheavy (fun block => Stmt.notsOfList block.body) (Nat.le_of_lt hnots))
      (.inl (by simpa using hnots)) happly
    exact ⟨Nat.le_of_lt hlt, fun heq => absurd heq (Nat.ne_of_lt hlt)⟩
  · refine ⟨Edit.sum_apply_le hhead (hheavy _ hnots) happly, fun _ => ?_⟩
    exact Edit.sum_apply_lt hhead (hheavy _ (Nat.le_of_lt hdropped)) (.inl (by simpa using hdropped))
      happly

/-- Every edit of simulated blocks lowers the rank of the list, and brings no nested basic block. -/
theorem exprRank_lt_of_fires {before after : List BasicBlock} (hbasic : HoldsNoBasic before)
    (h : Fixpoint.Fires Rule.forExprs before after) :
    HoldsNoBasic after ∧ exprRank after < exprRank before := by
  obtain ⟨rule, hrule, pos, head, context, context', edit, resume, hhead, hedit, happly⟩ := h
  have hsite : Site.IsAt ⟨.ofBlocks before, pos, head⟩ before := ⟨rfl, hhead⟩
  refine ⟨Edit.allStmts_apply hbasic
    (Rule.allStmts_edit? Stmt.isKept_holdsNoBasic hrule hsite hbasic hedit) happly, ?_⟩
  replace hedit := congrArg Prod.fst hedit
  simp only [Rule.forExprs, List.mem_cons, List.not_mem_nil, or_false] at hrule
  rcases hrule with rfl | rfl | rfl | rfl | rfl | rfl | rfl
  · obtain ⟨_, _, _, _, _, _, _, _, _, _, -, -, -, -, -, -, -, -, -, -, rfl⟩ :=
      WithScope.edit?_eq_some hedit
    exact exprRank_lt_of_length (Edit.length_apply_lt hhead (.inr (by simp)) happly)
  · obtain ⟨_, _, _, _, _, _, _, _, _, _, _, -, -, -, -, -, -, rfl⟩ :=
      ShortCircuit.edit?_eq_some hedit
    exact exprRank_lt_of_length (Edit.length_apply_lt hhead (.inr (by simp)) happly)
  · obtain ⟨_, _, _, _, _, _, _, _, -, -, -, -, -, -, -, -, hedit⟩ := Ternary.edit?_eq_some hedit
    rcases hedit with ⟨_, _, _, -, rfl⟩ | rfl
    · exact exprRank_lt_of_length (Edit.length_apply_lt hhead (.inr (by simp)) happly)
    · exact exprRank_lt_of_length (Edit.length_apply_lt hhead (.inr (by simp)) happly)
  · obtain ⟨_, _, _, _, _, _, -, -, -, -, -, -, -, -, rfl⟩ := Join.edit?_eq_some hedit
    exact exprRank_lt_of_length (Edit.length_apply_lt hhead (.inr (by simp)) happly)
  · have hedit : Rule.logicNotEdit? _ = some edit := hedit
    unfold Rule.logicNotEdit? at hedit
    split at hedit
    · rename_i hfold
      cases hedit
      exact exprRank_lt_of_body hhead (.inl (Stmt.notsOfList_simplifyNotList_lt hfold)) happly
    · cases hedit
  · have hedit : Rule.popzEdit? _ = some edit := hedit
    unfold Rule.popzEdit? at hedit
    split at hedit
    · cases hedit
    · rename_i hdropped
      cases hedit
      have hnone := Stmt.countList_isDroppedCall_promoteCallsList head.body
        (Stmt.countList_eq_zero_iff.mpr (hsite.allStmts_head hbasic))
      refine exprRank_lt_of_body hhead (.inr ⟨?_, ?_⟩) happly
      · exact Nat.le_of_eq (Stmt.notsOfList_promoteCallsList head.body)
      · rw [hnone]
        exact Nat.pos_of_ne_zero hdropped
  · obtain ⟨-, -, -, -, rfl⟩ := Rule.deadBlocksEdit?_eq_some hedit
    exact exprRank_lt_of_length (Edit.length_apply_lt hhead (.inl rfl) happly)

/-! ### The number of sweeps -/

/-- What the rules for simulated blocks ask for does not depend on the names and messages. -/
lemma Rule.edit?_congr {rule : Rule} (hrule : rule ∈ Rule.forExprs) (site : Site)
    (context context' : Context) : (rule.edit? site context).1 = (rule.edit? site context').1 := by
  simp only [Rule.forExprs, List.mem_cons, List.not_mem_nil, or_false] at hrule
  rcases hrule with rfl | rfl | rfl | rfl | rfl | rfl | rfl
  · rfl
  · rfl
  · rfl
  · rfl
  · rfl
  · rfl
  · change (Rule.deadBlocksEdit? site context).1 = (Rule.deadBlocksEdit? site context').1
    unfold Rule.deadBlocksEdit?
    split
    · rfl
    · split
      · rfl
      · split <;> rfl

namespace Fixpoint

section Runs

variable {α : Type} [Preorder α] (Holds : List BasicBlock → Prop) (rank : List BasicBlock → α)
  {rules : List Rule}

/-- When every edit lowers a rank, so does every run that makes an edit. -/
lemma Rewriting.rank_lt
    (hlower : ∀ {before after : List BasicBlock}, Holds before → Fires rules before after →
      Holds after ∧ rank after < rank before)
    {blocks last : List BasicBlock} {context lastContext : Context} {edits : List Rewrite}
    (hrun : Rewriting rules blocks context edits last lastContext) (hholds : Holds blocks) :
    Holds last ∧ rank last ≤ rank blocks ∧ (edits ≠ [] → rank last < rank blocks) := by
  induction hrun with
  | done => exact ⟨hholds, le_refl _, fun hne => absurd rfl hne⟩
  | tried _ _ _ _ ih => exact ih hholds
  | edited hrule hhead hedit happly _ ih =>
    obtain ⟨hafter, hlt⟩ :=
      hlower hholds ⟨_, hrule, _, _, _, _, _, _, hhead, hedit, happly⟩
    obtain ⟨hlast, hle, -⟩ := ih hafter
    exact ⟨hlast, hle.trans hlt.le, fun _ => lt_of_le_of_lt hle hlt⟩

/-- A walk without edits changes nothing. -/
lemma changed_tryFrom {rule : Rule} {fuel pos : Nat} {map : BlockMap} {state : State}
    (h : tryFromRewrites rule fuel map pos state = []) :
    (tryFrom rule fuel map pos state).2.changed = state.changed := by
  induction fuel generalizing map pos state with
  | zero => rfl
  | succ fuel ih =>
    rw [tryFromRewrites] at h
    rw [tryFrom]
    cases hhead : state.blocks[pos]? with
    | none => rfl
    | some head =>
      cases hedit : rule.edit? ⟨map, pos, head⟩ state.context with
      | mk edit context =>
        cases edit with
        | none =>
          simp only [hhead, hedit] at h ⊢
          exact ih h
        | some edit =>
          cases happly : edit.apply state.blocks pos with
          | error e => simp only [hedit, happly]
          | ok result => simp only [hhead, hedit, happly, reduceCtorEq] at h

/-- A sweep without edits changes nothing. -/
lemma changed_sweep_of_nil {state : State} (h : sweepRewrites rules state = []) :
    (sweep rules state).2.changed = state.changed := by
  induction rules generalizing state with
  | nil => rfl
  | cons rule rules ih =>
    rw [sweepRewrites, List.append_eq_nil_iff] at h
    have hrule := changed_tryFrom h.1
    rw [sweep]
    cases htry : tryRule rule state with
    | mk result next =>
      rw [tryRule] at htry
      rw [htry] at hrule
      cases result with
      | error e => exact hrule
      | ok _ =>
        replace h := h.2
        rw [tryRule, htry] at h
        exact (ih h).trans hrule

/-- When every edit lowers a rank, so does every sweep that changes something. -/
lemma rank_sweep_lt
    (hlower : ∀ {before after : List BasicBlock}, Holds before → Fires rules before after →
      Holds after ∧ rank after < rank before)
    {blocks : List BasicBlock} {context : Context} {next : State} {result : Except Error Unit}
    (hholds : Holds blocks) (hsweep : sweep rules { blocks, context } = (result, next))
    (hchanged : next.changed = true) : Holds next.blocks ∧ rank next.blocks < rank blocks := by
  have hrun := @Rewriting.sweep rules rules (fun _ h => h) { blocks, context }
  rw [hsweep] at hrun
  obtain ⟨hnext, -, hlt⟩ := hrun.rank_lt Holds rank hlower hholds
  refine ⟨hnext, hlt fun hnil => ?_⟩
  have hsame := changed_sweep_of_nil hnil
  rw [hsweep, hchanged] at hsame
  cases hsame

end Runs

/-- A walk is not cut short by the bound on the sweeps. -/
lemma Tries.ne_fixpointExceeded {rule : Rule} {pos sweeps : Nat} {state : State}
    {outcome : Outcome Unit} (h : Tries rule pos state outcome) :
    outcome.1 ≠ .error (.fixpointExceeded sweeps) := by
  induction h with
  | finished => simp
  | declined _ _ _ ih => exact ih
  | failed _ _ happly =>
    intro heq
    cases heq
    obtain ⟨fault, hfault⟩ := Edit.apply_eq_error happly
    cases hfault
  | edited _ _ _ _ ih => exact ih

/-- A sweep is not cut short by the bound on the sweeps. -/
lemma sweep_ne_fixpointExceeded {rules : List Rule} {state : State} {sweeps : Nat} :
    (sweep rules state).1 ≠ .error (.fixpointExceeded sweeps) := by
  induction rules generalizing state with
  | nil => simp [sweep]
  | cons rule rules ih =>
    have hrule : (tryRule rule state).1 ≠ .error (.fixpointExceeded sweeps) :=
      (tries_tryRule rule state).ne_fixpointExceeded
    rw [sweep]
    cases htry : tryRule rule state with
    | mk result next =>
      rw [htry] at hrule
      cases result with
      | error e => exact hrule
      | ok _ => exact ih

/-- A run that is cut short has changed something in its first sweep, and is cut short after it. -/
lemma sweeps_eq_fixpointExceeded {rules : List Rule} {remaining done exceeded : Nat} {state : State}
    (h : (sweeps rules (remaining + 1) done state).1 = .error (.fixpointExceeded exceeded)) :
    ∃ next, sweep rules { state with changed := false } = (.ok (), next) ∧ next.changed = true ∧
      (sweeps rules remaining (done + 1) next).1 = .error (.fixpointExceeded exceeded) := by
  rw [sweeps] at h
  cases hsweep : sweep rules { state with changed := false } with
  | mk result next =>
    rw [hsweep] at h
    cases result with
    | error e =>
      cases h
      exact absurd (congrArg Prod.fst hsweep) sweep_ne_fixpointExceeded
    | ok _ =>
      simp only at h
      by_cases hchanged : next.changed = true
      · rw [if_pos hchanged] at h
        exact ⟨next, rfl, hchanged, h⟩
      · rw [if_neg hchanged] at h
        cases h

/-- Of stack operations the rank is a bound on the sweeps. -/
lemma sweeps_forStackOps_ne {remaining done exceeded : Nat} {state : State}
    (hrank : stackRank state.blocks < remaining) :
    (sweeps Rule.forStackOps remaining done state).1 ≠ .error (.fixpointExceeded exceeded) := by
  induction remaining generalizing done state with
  | zero => omega
  | succ remaining ih =>
    intro h
    obtain ⟨next, hsweep, hchanged, hrest⟩ := sweeps_eq_fixpointExceeded h
    obtain ⟨-, hlt⟩ := rank_sweep_lt (fun _ => True) stackRank
      (fun _ hfires => ⟨trivial, stackRank_lt_of_fires hfires⟩) trivial hsweep hchanged
    exact ih (by omega) hrest

/-- Two outcomes that differ at most in the names and messages. -/
structure Alike {α : Type} (a b : Outcome α) : Prop where
  result : a.1 = b.1
  blocks : a.2.blocks = b.2.blocks
  changed : a.2.changed = b.2.changed

/-- A walk of a rule for simulated blocks does not depend on the names and messages. -/
lemma alike_tryFrom {rule : Rule} (hrule : rule ∈ Rule.forExprs) {fuel pos : Nat} {map : BlockMap}
    {state state' : State} (hblocks : state.blocks = state'.blocks)
    (hchanged : state.changed = state'.changed) :
    Alike (tryFrom rule fuel map pos state) (tryFrom rule fuel map pos state') := by
  induction fuel generalizing map pos state state' with
  | zero => exact ⟨rfl, hblocks, hchanged⟩
  | succ fuel ih =>
    rw [tryFrom, tryFrom, ← hblocks]
    cases hhead : state.blocks[pos]? with
    | none => exact ⟨rfl, hblocks, hchanged⟩
    | some head =>
      have hsame := Rule.edit?_congr hrule ⟨map, pos, head⟩ state.context state'.context
      cases hedit : rule.edit? ⟨map, pos, head⟩ state.context with
      | mk edit context =>
        cases hedit' : rule.edit? ⟨map, pos, head⟩ state'.context with
        | mk edit' context' =>
          rw [hedit, hedit'] at hsame
          cases hsame
          cases edit with
          | none =>
            simp only [hedit, hedit']
            exact ih rfl hchanged
          | some edit =>
            cases happly : edit.apply state.blocks pos with
            | error e =>
              simp only [hedit, hedit', happly]
              exact ⟨rfl, rfl, hchanged⟩
            | ok result =>
              simp only [hedit, hedit', happly]
              exact ih rfl rfl

/-- A sweep of rules for simulated blocks does not depend on the names and messages. -/
lemma alike_sweep {rules : List Rule} (hrules : ∀ rule ∈ rules, rule ∈ Rule.forExprs)
    (state state' : State) (hblocks : state.blocks = state'.blocks)
    (hchanged : state.changed = state'.changed) : Alike (sweep rules state) (sweep rules state') := by
  induction rules generalizing state state' with
  | nil => exact ⟨rfl, hblocks, hchanged⟩
  | cons rule rules ih =>
    rw [List.forall_mem_cons] at hrules
    have hrule : Alike (tryRule rule state) (tryRule rule state') := by
      rw [tryRule, tryRule, ← hblocks]
      exact alike_tryFrom hrules.1 hblocks hchanged
    rw [sweep, sweep]
    cases htry : tryRule rule state with
    | mk result next =>
      cases htry' : tryRule rule state' with
      | mk result' next' =>
        rw [htry, htry'] at hrule
        obtain ⟨hresult, hnext, hnextChanged⟩ := hrule
        cases hresult
        cases result with
        | error e => exact ⟨rfl, hnext, hnextChanged⟩
        | ok _ => exact ih hrules.2 next next' hnext hnextChanged

/-- Simulated blocks without nested basic blocks have a bound on the sweeps. -/
lemma exists_bound_forExprs {blocks : List BasicBlock} (hbasic : HoldsNoBasic blocks) :
    ∃ bound, ∀ remaining done exceeded state, bound ≤ remaining → state.blocks = blocks →
      (sweeps Rule.forExprs remaining done state).1 ≠ .error (.fixpointExceeded exceeded) := by
  induction hrank : exprRank blocks using WellFoundedLT.induction generalizing blocks with
  | ind rank ih =>
  -- The first sweep does not depend on the names and messages, so any of them tell what it does.
  cases hfirst : sweep Rule.forExprs { blocks, context := { diagnostics := { unit := "" } } } with
  | mk result next =>
    have hsame : ∀ (state next' : State), state.blocks = blocks →
        sweep Rule.forExprs { state with changed := false } = (.ok (), next') →
        next.blocks = next'.blocks ∧ next.changed = next'.changed := by
      rintro state next' hblocks hsweep
      have halike := alike_sweep (fun _ h => h) { blocks, context := { diagnostics := { unit := "" } } }
        { state with changed := false } hblocks.symm rfl
      rw [hfirst, hsweep] at halike
      exact ⟨halike.blocks, halike.changed⟩
    by_cases hchanged : next.changed = true
    · obtain ⟨hnext, hlt⟩ := rank_sweep_lt HoldsNoBasic exprRank exprRank_lt_of_fires hbasic hfirst
        hchanged
      obtain ⟨bound, hbound⟩ := ih _ (hrank ▸ hlt) hnext rfl
      refine ⟨bound + 1, fun remaining done exceeded state hle hblocks h => ?_⟩
      obtain ⟨remaining, rfl⟩ := Nat.exists_eq_add_of_le' (Nat.le_of_add_left_le hle)
      obtain ⟨next', hsweep, -, hrest⟩ := sweeps_eq_fixpointExceeded h
      exact hbound remaining _ _ next' (by omega) (hsame state next' hblocks hsweep).1.symm hrest
    · refine ⟨1, fun remaining done exceeded state hle hblocks h => ?_⟩
      obtain ⟨remaining, rfl⟩ := Nat.exists_eq_add_of_le' hle
      obtain ⟨next', hsweep, hchanged', -⟩ := sweeps_eq_fixpointExceeded h
      rw [(hsame state next' hblocks hsweep).2] at hchanged
      exact hchanged hchanged'

/-- The rules come to an end without their bound.  The walk of a rule over a list ends for its own
sake; every edit of stack operations lowers one rank of the list, and every edit of simulated blocks
another; so there is a number of sweeps, which depends on the list alone, that no run needs to exceed. -/
theorem exists_bound_of_holdsNoBasic (blocks : List BasicBlock) (hbasic : HoldsNoBasic blocks) :
    (∀ rule state, Tries rule 0 state (tryRule rule state)) ∧
      (∀ before after, Fires Rule.forStackOps before after → stackRank after < stackRank before) ∧
      (∀ before after, HoldsNoBasic before → Fires Rule.forExprs before after →
        HoldsNoBasic after ∧ exprRank after < exprRank before) ∧
      ∃ bound, ∀ maxSweeps, bound ≤ maxSweeps → ∀ context sweeps,
        (optimizeStackOps maxSweeps blocks context).1 ≠ .error (.fixpointExceeded sweeps) ∧
          (optimizeExprs maxSweeps blocks context).1 ≠ .error (.fixpointExceeded sweeps) := by
  refine ⟨tries_tryRule, fun _ _ => stackRank_lt_of_fires, fun _ _ => exprRank_lt_of_fires, ?_⟩
  obtain ⟨bound, hbound⟩ := exists_bound_forExprs hbasic
  refine ⟨max (stackRank blocks + 1) bound, fun maxSweeps hle context sweeps => ⟨?_, ?_⟩⟩
  · exact sweeps_forStackOps_ne (by simp only; omega)
  · exact hbound maxSweeps 0 sweeps { blocks, context } (by omega) rfl

/-- Folding uncovers a call here, and then its value is dropped. -/
def negatedCall : List BasicBlock :=
  [{ body := [.label 0, .discard (.not (.not (.call "f" []))), .exit] }]

theorem negatedCall_exists_bound :
    HoldsNoBasic negatedCall ∧
      ∃ bound, ∀ maxSweeps, bound ≤ maxSweeps → ∀ context sweeps,
        (optimizeExprs maxSweeps negatedCall context).1 ≠ .error (.fixpointExceeded sweeps) := by
  have hbasic : HoldsNoBasic negatedCall := by
    unfold HoldsNoBasic AllStmts
    decide
  obtain ⟨bound, hbound⟩ := (exists_bound_of_holdsNoBasic negatedCall hbasic).2.2.2
  exact ⟨hbasic, bound, fun maxSweeps hle context sweeps =>
    (hbound maxSweeps hle context sweeps).2⟩

end Fixpoint

end Decompiler
