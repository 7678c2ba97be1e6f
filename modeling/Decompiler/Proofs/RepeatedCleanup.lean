import Mathlib.Data.List.DropRight
import Mathlib.Logic.Function.Iterate
import Decompiler.Proofs.JumpFreeTrees
import Decompiler.Proofs.RedundantCode

/-!
# Cleaning up again

`simplify` takes a fixed number of turns between dropping what is redundant and removing jumps, and so
it may leave work for the next run: a jump that the last turn drops can have been the only one to a
label, and without the label the statements behind it cannot be reached.

Each of the two passes leaves a tree as it is or leaves less work in it (`Stmt.work`).  So a tree is left
as it is by `simplify` exactly when it is by both passes, and repeated runs come to such a tree
(`iterate_settles`).  What has been cleaned up is left as it is by a second cleaning if its labels are
still named: nothing in it cannot be reached, no condition has to be turned round and nothing stands at
an end that is dropped there (`Cleanup.inList_inList`).
-/

namespace Decompiler

/-! ### Steps that lessen -/

section

variable {α β γ : Type} {size : α → Nat} {size' : β → Nat} {size'' : γ → Nat}

/-- What becomes of `x` is `x`, or is smaller. -/
def Lessens (size : α → Nat) (x y : α) : Prop :=
  y = x ∨ size y < size x

lemma Lessens.refl (x : α) : Lessens size x x := .inl rfl

lemma Lessens.le {x y : α} (h : Lessens size x y) : size y ≤ size x := by
  rcases h with rfl | h
  · exact Nat.le_refl _
  · exact Nat.le_of_lt h

lemma Lessens.trans {x y z : α} (h : Lessens size x y) (h' : Lessens size y z) :
    Lessens size x z := by
  rcases h with rfl | h
  · exact h'
  · exact .inr (Nat.lt_of_le_of_lt h'.le h)

/-- If nothing has become of `x` in the end, then nothing has on the way. -/
lemma Lessens.eq_of_trans {x y : α} (h : Lessens size x y) (h' : Lessens size y x) : y = x := by
  rcases h with h | h
  · exact h
  · exact absurd (Nat.lt_of_le_of_lt h'.le h) (Nat.lt_irrefl _)

/-- What becomes of a part. -/
lemma Lessens.map {x y : α} (h : Lessens size x y) (f : α → β) (c : Nat)
    (hsize : ∀ x, size' (f x) = c + size x) : Lessens size' (f x) (f y) := by
  rcases h with rfl | h
  · exact .refl _
  · exact .inr (by rw [hsize, hsize]; omega)

/-- What becomes of two parts. -/
lemma Lessens.map₂ {x y : α} {x' y' : β} (h : Lessens size x y) (h' : Lessens size' x' y')
    (f : α → β → γ) (c : Nat) (hsize : ∀ x x', size'' (f x x') = c + size x + size' x') :
    Lessens size'' (f x x') (f y y') := by
  have hle := h.le
  have hle' := h'.le
  rcases h with rfl | h
  · rcases h' with rfl | h'
    · exact .refl _
    · exact .inr (by rw [hsize, hsize]; omega)
  · exact .inr (by rw [hsize, hsize]; omega)

/-- Steps that lessen come to a state that they leave as it is. -/
lemma iterate_settles {f : α → α} (h : ∀ x, Lessens size x (f x)) (x : α) :
    ∃ n ≤ size x, f (f^[n] x) = f^[n] x := by
  induction hx : size x using Nat.strongRecOn generalizing x with
  | ind k ih =>
    subst hx
    rcases h x with hsame | hlt
    · exact ⟨0, Nat.zero_le _, hsame⟩
    · obtain ⟨n, hn, hsettled⟩ := ih _ hlt (f x) rfl
      refine ⟨n + 1, Nat.lt_of_le_of_lt hn hlt, ?_⟩
      rw [Function.iterate_succ_apply]
      exact hsettled

end

/-! ### Work in a tree -/

namespace Stmt

mutual

/-- The changes that can be made at most in a statement: one for each statement, one more for a jump,
which may turn into a `break` first, and one for a condition of which only the `else` branch has
statements. -/
def work : Stmt → Nat
  | .goto _ => 2
  | .cond _ thenBlock elseBlock =>
    1 + workOfList thenBlock.body + workOfList elseBlock.body
      + if thenBlock.body.isEmpty && !elseBlock.body.isEmpty then 1 else 0
  | .loop _ block => 1 + workOfList block.body
  | .scope _ block _ => 1 + workOfList block.body
  | .seq block => 1 + workOfList block.body
  | .switch _ cases => 1 + workOfCases cases
  | _ => 1

/-- The changes that can be made at most in a list. -/
def workOfList : List Stmt → Nat
  | [] => 0
  | s :: rest => s.work + workOfList rest

/-- The changes that can be made at most in the cases of a switch. -/
def workOfCases : List SwitchCase → Nat
  | [] => 0
  | c :: rest => workOfList c.body.body + workOfCases rest

end

/-- There is work in every statement, since it may be dropped. -/
lemma work_pos (s : Stmt) : 0 < s.work := by
  cases s <;> simp only [work] <;> omega

lemma workOfList_append (a b : List Stmt) :
    workOfList (a ++ b) = workOfList a + workOfList b := by
  induction a with
  | nil => simp [workOfList]
  | cons s rest ih => simp only [List.cons_append, workOfList, ih, Nat.add_assoc]

/-- Dropping statements at the end. -/
lemma lessens_of_isPrefix {a b : List Stmt} (h : a <+: b) : Lessens workOfList b a := by
  obtain ⟨tail, rfl⟩ := h
  cases tail with
  | nil => exact .inl (List.append_nil a).symm
  | cons s rest =>
    refine .inr ?_
    have := s.work_pos
    rw [workOfList_append, workOfList]
    omega

/-- What becomes of the first statement of a list and of the others. -/
lemma lessens_cons {s s' : Stmt} {rest rest' : List Stmt} (hs : Lessens work s s')
    (hrest : Lessens workOfList rest rest') : Lessens workOfList (s :: rest) (s' :: rest') :=
  hs.map₂ hrest List.cons 0 fun _ _ => by rw [workOfList, Nat.zero_add]

/-- What becomes of a case of a switch and of the later ones. -/
lemma lessens_case {c : SwitchCase} {body : List Stmt} {later later' : List SwitchCase}
    (hbody : Lessens workOfList c.body.body body) (hlater : Lessens workOfCases later later') :
    Lessens workOfCases (c :: later) (⟨c.values, c.isDefault, ⟨c.body.entry, body⟩⟩ :: later') :=
  hbody.map₂ hlater (fun body later => ⟨c.values, c.isDefault, ⟨c.body.entry, body⟩⟩ :: later) 0
    fun _ _ => by rw [workOfCases, Nat.zero_add]

/-- What becomes of the body of a loop. -/
lemma lessens_loop {test : Option Expr} {block : Block} {body : List Stmt}
    (h : Lessens workOfList block.body body) :
    Lessens work (.loop test block) (.loop test ⟨block.entry, body⟩) :=
  h.map (fun body => Stmt.loop test ⟨block.entry, body⟩) 1 fun _ => rfl

/-- What becomes of the body of a scope. -/
lemma lessens_scope {env : Expr} {block : Block} {stop : Option LabelId} {body : List Stmt}
    (h : Lessens workOfList block.body body) :
    Lessens work (.scope env block stop) (.scope env ⟨block.entry, body⟩ stop) :=
  h.map (fun body => Stmt.scope env ⟨block.entry, body⟩ stop) 1 fun _ => rfl

/-- What becomes of the body of a nested list. -/
lemma lessens_seq {block : Block} {body : List Stmt} (h : Lessens workOfList block.body body) :
    Lessens work (.seq block) (.seq ⟨block.entry, body⟩) :=
  h.map (fun body => Stmt.seq ⟨block.entry, body⟩) 1 fun _ => rfl

/-- What becomes of the cases of a switch. -/
lemma lessens_switch {value : Expr} {cases cases' : List SwitchCase}
    (h : Lessens workOfCases cases cases') : Lessens work (.switch value cases) (.switch value cases') :=
  h.map (Stmt.switch value) 1 fun _ => rfl

end Stmt

/-! ### Removing jumps -/

namespace Jumps

open Stmt

/-- Only a jump may vanish, so there is work for two in a list that vanishes. -/
lemma two_le_work_of_newList_eq_nil {flow : Flow} {preceding : List LabelId} {list : List Stmt}
    (h : newList flow preceding list = []) (hne : list ≠ []) : 2 ≤ workOfList list := by
  cases list with
  | nil => exact absurd rfl hne
  | cons s rest =>
    by_cases hs : ∃ target, s = .goto target
    · obtain ⟨target, rfl⟩ := hs
      rw [workOfList, work]
      omega
    · rw [newList_cons fun target ht => hs ⟨target, ht⟩] at h
      cases h

/-- Removing jumps from both branches of a condition.  A branch that loses all its statements has lost
at least a jump, which outweighs that the condition may have to be turned round then. -/
lemma lessens_newStmt_cond {flow : Flow} {follow preceding : List LabelId} {test : Expr}
    {thenBlock elseBlock : Block}
    (hthen : Lessens workOfList thenBlock.body (newList (flow.inner follow) [] thenBlock.body))
    (helse : Lessens workOfList elseBlock.body (newList (flow.inner follow) [] elseBlock.body)) :
    Lessens work (.cond test thenBlock elseBlock)
      (newStmt flow follow preceding (.cond test thenBlock elseBlock)) := by
  have hle := helse.le
  rw [newStmt_cond]
  rcases hthen with hthen | hthen
  · rcases helse with helse | helse
    · exact .inl (by rw [hthen, helse])
    · have hne : elseBlock.body ≠ [] := by
        rintro hnil
        rw [hnil] at helse
        exact absurd helse (Nat.not_lt_zero _)
      refine .inr ?_
      simp only [work, hthen, List.isEmpty_eq_false_iff.mpr hne]
      split
      · rename_i h
        simp only [Bool.and_eq_true] at h
        simp only [h.1, Bool.not_false, Bool.and_self, if_true]
        omega
      · omega
  · have hne : thenBlock.body ≠ [] := by
      rintro hnil
      rw [hnil] at hthen
      exact absurd hthen (Nat.not_lt_zero _)
    refine .inr ?_
    simp only [work]
    split
    · rename_i h
      simp only [Bool.and_eq_true, List.isEmpty_iff] at h
      have htwo := two_le_work_of_newList_eq_nil h.1 hne
      rw [h.1, workOfList]
      omega
    · omega

mutual

/-- A statement stays or has less work when jumps have been removed from it. -/
lemma lessens_newStmt (flow : Flow) (follow preceding : List LabelId) :
    (s : Stmt) → Lessens work s (newStmt flow follow preceding s)
  | .seq block => by
    rw [newStmt_seq]
    exact lessens_seq (lessens_newList _ [] block.body)
  | .cond _ thenBlock elseBlock =>
    lessens_newStmt_cond (lessens_newList _ [] thenBlock.body) (lessens_newList _ [] elseBlock.body)
  | .loop test block => by
    rw [newStmt_loop]
    exact lessens_loop (lessens_newList _ [] block.body)
  | .scope _ block stop => by
    rw [newStmt_scope]
    exact lessens_scope (lessens_newList _ [] block.body)
  | .switch _ cases => by
    rw [newStmt_switch]
    exact lessens_switch (lessens_newCases _ cases)
  | .label _ | .raw _ _ | .push _ | .assign _ _ | .call _ _ | .discard _ | .goto _ | .condGoto _ _
  | .pushEnv _ _ | .popEnv _ | .dispatch _ _ _ | .ret _ | .exit | .breakOut | .continueLoop
  | .basic _ => .inl (newStmt_of_leaf rfl)

/-- A list stays or has less work when jumps have been removed from it. -/
lemma lessens_newList (flow : Flow) (preceding : List LabelId) :
    (list : List Stmt) → Lessens workOfList list (newList flow preceding list)
  | [] => .inl newList_nil
  | s :: rest => by
    by_cases hs : ∃ target, s = .goto target
    · obtain ⟨target, rfl⟩ := hs
      have hrest := lessens_newList flow [] rest
      have hle := hrest.le
      rw [newList_goto]
      rcases jump_cases flow target rest with ⟨-, h⟩ | ⟨_, -, -, h⟩ | ⟨_, -, -, h⟩ | h
      · refine .inr ?_
        rw [h, List.nil_append, workOfList, work]
        omega
      · refine .inr ?_
        rw [h, List.singleton_append, workOfList, workOfList, work, work]
        · omega
        all_goals simp
      · refine .inr ?_
        rw [h, List.singleton_append, workOfList, workOfList, work, work]
        · omega
        all_goals simp
      · rw [h, List.singleton_append]
        exact lessens_cons (.refl _) hrest
    · rw [newList_cons fun target h => hs ⟨target, h⟩]
      exact lessens_cons (lessens_newStmt flow _ preceding s) (lessens_newList flow _ rest)

/-- The cases of a switch stay or have less work when jumps have been removed from them. -/
lemma lessens_newCases (flow : Flow) :
    (cases : List SwitchCase) → Lessens workOfCases cases (newCases flow cases)
  | [] => .inl newCases_nil
  | c :: later => by
    rw [newCases_cons]
    exact lessens_case (lessens_newList flow [] c.body.body) (lessens_newCases flow later)

end

end Jumps

/-! ### Dropping what is redundant -/

namespace Cleanup

open Stmt

/-- Dropping every `continue` at the end leaves the start of a list. -/
lemma dropTrailingContinue_isPrefix (body : List Stmt) : (dropTrailingContinue body).1 <+: body := by
  rw [dropTrailingContinue_eq]
  exact List.rdropWhile_prefix isContinue body

/-- Dropping the `exit` at the end leaves the start of a list. -/
lemma dropFinalExit_isPrefix (body : List Stmt) : (dropFinalExit body).1 <+: body := by
  unfold dropFinalExit
  split
  · exact List.dropLast_prefix body
  · exact List.prefix_rfl

/-- A condition has the work of its branches once it has been turned round where it has to be. -/
lemma work_orient (test : Expr) (thenBlock elseBlock : Block) :
    (orient test thenBlock elseBlock).1.work =
      1 + workOfList thenBlock.body + workOfList elseBlock.body := by
  unfold orient
  split
  · rename_i h
    simp only [Bool.and_eq_true, Bool.not_eq_true'] at h
    simp only [work, h.2, Bool.false_and, Bool.false_eq_true, if_false]
    omega
  · rename_i h
    simp only [work, if_neg h, Nat.add_zero]

/-- What becomes of both branches of a condition. -/
lemma lessens_orient {test : Expr} {thenBlock elseBlock : Block} {thenBody elseBody : List Stmt}
    (hthen : Lessens workOfList thenBlock.body thenBody)
    (helse : Lessens workOfList elseBlock.body elseBody) :
    Lessens work (.cond test thenBlock elseBlock)
      (orient test ⟨thenBlock.entry, thenBody⟩ ⟨elseBlock.entry, elseBody⟩).1 := by
  have hle := hthen.le
  have hle' := helse.le
  have hwork := work_orient test ⟨thenBlock.entry, thenBody⟩ ⟨elseBlock.entry, elseBody⟩
  dsimp only at hwork
  rcases hthen with rfl | hthen
  · rcases helse with rfl | helse
    · by_cases hturn : (thenBlock.body.isEmpty && !elseBlock.body.isEmpty) = true
      · refine .inr ?_
        rw [hwork, work, if_pos hturn]
        omega
      · refine .inl ?_
        rw [orient, if_neg hturn]
    · refine .inr ?_
      rw [hwork, work]
      omega
  · refine .inr ?_
    rw [hwork, work]
    omega

mutual

/-- A statement stays or has less work when it has been cleaned up. -/
lemma lessens_inStmt (named : List LabelId) : (s : Stmt) → Lessens work s (inStmt named s).1
  | .cond _ thenBlock elseBlock =>
    lessens_orient (lessens_inList named false thenBlock.body)
      (lessens_inList named false elseBlock.body)
  | .loop _ block =>
    lessens_loop ((lessens_inList named false block.body).trans
      (lessens_of_isPrefix (dropTrailingContinue_isPrefix _)))
  | .scope _ block stop => by
    have hbody := lessens_inList named false block.body
    cases stop with
    | none => exact lessens_scope hbody
    | some stop =>
      exact lessens_scope (hbody.trans (lessens_of_isPrefix (dropTrailingContinue_isPrefix _)))
  | .switch _ cases => lessens_switch (lessens_inCases named cases)
  | .seq block => lessens_seq (lessens_inList named false block.body)
  | .label _ | .raw _ _ | .push _ | .assign _ _ | .call _ _ | .discard _ | .goto _ | .condGoto _ _
  | .pushEnv _ _ | .popEnv _ | .dispatch _ _ _ | .ret _ | .exit | .breakOut | .continueLoop
  | .basic _ => .refl _

/-- A list stays or has less work when it has been cleaned up. -/
lemma lessens_inList (named : List LabelId) (dead : Bool) :
    (list : List Stmt) → Lessens workOfList list (inList named dead list).1
  | [] => .refl _
  | s :: rest => by
    rw [inList]
    cases reach named dead s with
    | some dead =>
      have hle := (lessens_inList named dead rest).le
      have hpos := s.work_pos
      refine .inr ?_
      rw [workOfList]
      dsimp only
      omega
    | none => exact lessens_cons (lessens_inStmt named s) (lessens_inList named _ rest)

/-- The cases of a switch stay or have less work when they have been cleaned up. -/
lemma lessens_inCases (named : List LabelId) :
    (cases : List SwitchCase) → Lessens workOfCases cases (inCases named cases).1
  | [] => .refl _
  | c :: rest => lessens_case (lessens_inList named false c.body.body) (lessens_inCases named rest)

end

end Cleanup

/-! ### What has been cleaned up -/

namespace Cleanup

open Stmt

variable {named known : List LabelId} {dead : Bool}

/-- Dropping a statement does not change whether control comes to the next one. -/
lemma eq_of_reach_eq_some {s : Stmt} {dead' : Bool} (h : reach named dead s = some dead') :
    dead' = dead := by
  unfold reach at h
  split at h
  · split at h
    · cases h
    · exact (Option.some.inj h).symm
  · split at h
    · rename_i hdead
      rw [hdead, ← Option.some.inj h]
    · cases h

/-- Only a label stands where control does not come, and only one that is named. -/
lemma reach_eq_none_iff {s : Stmt} :
    reach named dead s = none ↔ (∃ id ∈ named, s = .label id) ∨ (∀ id, s ≠ .label id) ∧ dead = false := by
  unfold reach
  split
  · rename_i id
    by_cases hid : id ∈ named <;> simp [hid]
  · rename_i hs
    have hs : ∀ id, s ≠ .label id := fun id h => hs id h
    cases dead with
    | false => simp [hs]
    | true => simpa using fun id _ => hs id

/-- A list that cleaning up leaves as it is, statement by statement. -/
lemma inList_cons_eq_self_iff {s : Stmt} {rest : List Stmt} :
    (inList named dead (s :: rest)).1 = s :: rest ↔
      reach named dead s = none ∧ (inStmt named s).1 = s ∧
        (inList named s.isUnconditional rest).1 = rest := by
  rw [inList]
  cases hreach : reach named dead s with
  | some dead' =>
    have hle := (lessens_inList named dead' rest).le
    have hpos := s.work_pos
    simp only [reduceCtorEq, false_and, iff_false]
    intro h
    rw [h, workOfList] at hle
    omega
  | none => simp

/-- Nothing is dropped from the start of a list of which nothing is dropped. -/
lemma inList_of_isPrefix {list start : List Stmt} (h : (inList named dead list).1 = list)
    (hstart : start <+: list) : (inList named dead start).1 = start := by
  induction start generalizing dead list with
  | nil => rfl
  | cons s start ih =>
    obtain ⟨tail, rfl⟩ := hstart
    rw [List.cons_append, inList_cons_eq_self_iff] at h
    exact inList_cons_eq_self_iff.mpr ⟨h.1, h.2.1, ih h.2.2 (List.prefix_append start tail)⟩

/-- Two statements of a list of which nothing is dropped: behind a transfer of control there is a
label. -/
lemma exists_label_of_inList {before after : List Stmt} {s t : Stmt}
    (h : (inList named dead (before ++ s :: t :: after)).1 = before ++ s :: t :: after)
    (hs : s.isUnconditional = true) : ∃ id, t = .label id := by
  induction before generalizing dead with
  | nil =>
    rw [List.nil_append, inList_cons_eq_self_iff, inList_cons_eq_self_iff, hs] at h
    rcases reach_eq_none_iff.mp h.2.2.1 with ⟨id, -, ht⟩ | ⟨-, hdead⟩
    · exact ⟨id, ht⟩
    · cases hdead
  | cons u before ih =>
    rw [List.cons_append, inList_cons_eq_self_iff] at h
    exact ih h.2.2

/-- No `continue` is left at the end. -/
lemma dropTrailingContinue_idem (body : List Stmt) :
    (dropTrailingContinue (dropTrailingContinue body).1).1 = (dropTrailingContinue body).1 := by
  rw [dropTrailingContinue_eq, dropTrailingContinue_eq, List.reverse_reverse,
    List.dropWhile_idempotent]

/-- A condition that has been turned round where it has to be is not turned round again. -/
lemma orient_idem (test : Expr) (thenBlock elseBlock : Block) :
    ∃ test' thenBlock' elseBlock', (orient test thenBlock elseBlock).1 = .cond test' thenBlock' elseBlock' ∧
      (orient test' thenBlock' elseBlock').1 = .cond test' thenBlock' elseBlock' ∧
      (thenBlock' = thenBlock ∧ elseBlock' = elseBlock ∨
        thenBlock' = elseBlock ∧ elseBlock' = thenBlock) := by
  unfold orient
  split
  · rename_i h
    simp only [Bool.and_eq_true, Bool.not_eq_true'] at h
    refine ⟨_, _, _, rfl, ?_, .inr ⟨rfl, rfl⟩⟩
    rw [if_neg (by simp [h.2])]
  · rename_i h
    refine ⟨_, _, _, rfl, ?_, .inl ⟨rfl, rfl⟩⟩
    rw [if_neg h]

/-- What is left of a statement is a transfer of control if the statement is one. -/
lemma isUnconditional_inStmt (s : Stmt) :
    (inStmt named s).1.isUnconditional = s.isUnconditional := by
  cases s with
  | cond test thenBlock elseBlock =>
    simp only [inStmt, orient]
    split <;> rfl
  | label | basic | seq | loop | scope | switch | raw | push | assign | call | discard | goto
  | condGoto | pushEnv | popEnv | dispatch | ret | exit | breakOut | continueLoop => rfl

/-- A body without a `continue` at its end that has been cleaned up. -/
lemma inList_dropTrailingContinue {list : List Stmt} (h : (inList known false list).1 = list) :
    (dropTrailingContinue (inList known false (dropTrailingContinue list).1).1).1 =
      (dropTrailingContinue list).1 := by
  rw [inList_of_isPrefix h (dropTrailingContinue_isPrefix list), dropTrailingContinue_idem]

mutual

/-- A statement that has been cleaned up is left as it is while its labels are named. -/
lemma inStmt_inStmt (named known : List LabelId) :
    (s : Stmt) → (∀ id ∈ (inStmt named s).1.labels, id ∈ known) →
      (inStmt known (inStmt named s).1).1 = (inStmt named s).1
  | .cond test thenBlock elseBlock, h => by
    have hthen := inList_inList named known false thenBlock.body
    have helse := inList_inList named known false elseBlock.body
    obtain ⟨test', thenBlock', elseBlock', heq, hidem, hblocks⟩ := orient_idem test
      ⟨thenBlock.entry, (inList named false thenBlock.body).1⟩
      ⟨elseBlock.entry, (inList named false elseBlock.body).1⟩
    have hcond : (inStmt named (.cond test thenBlock elseBlock)).1 = .cond test' thenBlock' elseBlock' :=
      heq
    rw [hcond, Stmt.labels, List.forall_mem_append] at h
    rw [hcond]
    rcases hblocks with ⟨rfl, rfl⟩ | ⟨rfl, rfl⟩
    · simp only [inStmt, hthen h.1, helse h.2, hidem]
    · simp only [inStmt, hthen h.2, helse h.1, hidem]
  | .loop test block, h => by
    have hlabels := labelsOfList_dropTrailingContinue (inList named false block.body).1
    have hbody := inList_inList named known false block.body (hlabels ▸ h)
    simp only [inStmt, inList_dropTrailingContinue hbody]
  | .scope env block stop, h => by
    cases stop with
    | none =>
      have hbody := inList_inList named known false block.body h
      simp only [inStmt, Option.isSome_none, Bool.false_eq_true, if_false, hbody]
    | some stop =>
      have hlabels := labelsOfList_dropTrailingContinue (inList named false block.body).1
      have hbody := inList_inList named known false block.body (hlabels ▸ h)
      simp only [inStmt, Option.isSome_some, if_true, inList_dropTrailingContinue hbody]
  | .switch value cases, h => by
    have hcases := inCases_inCases named known cases h
    simp only [inStmt, hcases]
  | .seq block, h => by
    have hbody := inList_inList named known false block.body h
    simp only [inStmt, hbody]
  | .label _, _ | .raw _ _, _ | .push _, _ | .assign _ _, _ | .call _ _, _ | .discard _, _
  | .goto _, _ | .condGoto _ _, _ | .pushEnv _ _, _ | .popEnv _, _ | .dispatch _ _ _, _ | .ret _, _
  | .exit, _ | .breakOut, _ | .continueLoop, _ | .basic _, _ => rfl

/-- A list that has been cleaned up is left as it is while its labels are named. -/
lemma inList_inList (named known : List LabelId) (dead : Bool) :
    (list : List Stmt) → (∀ id ∈ Stmt.labelsOfList (inList named dead list).1, id ∈ known) →
      (inList known dead (inList named dead list).1).1 = (inList named dead list).1
  | [], _ => rfl
  | s :: rest, h => by
    rw [inList] at h ⊢
    cases hreach : reach named dead s with
    | some dead' =>
      obtain rfl := eq_of_reach_eq_some hreach
      simp only [hreach] at h ⊢
      exact inList_inList named known _ rest h
    | none =>
      simp only [hreach] at h ⊢
      rw [Stmt.labelsOfList, List.forall_mem_append] at h
      refine inList_cons_eq_self_iff.mpr ⟨?_, inStmt_inStmt named known s h.1, ?_⟩
      · rcases reach_eq_none_iff.mp hreach with ⟨id, -, rfl⟩ | ⟨hs, hdead⟩
        · exact reach_eq_none_iff.mpr (.inl ⟨id, h.1 id List.mem_cons_self, rfl⟩)
        · exact reach_eq_none_iff.mpr (.inr ⟨inStmt_ne_label hs, hdead⟩)
      · rw [isUnconditional_inStmt]
        exact inList_inList named known _ rest h.2

/-- The cases of a switch that have been cleaned up are left as they are while their labels are named.
-/
lemma inCases_inCases (named known : List LabelId) :
    (cases : List SwitchCase) → (∀ id ∈ Stmt.labelsOfCases (inCases named cases).1, id ∈ known) →
      (inCases known (inCases named cases).1).1 = (inCases named cases).1
  | [], _ => rfl
  | c :: rest, h => by
    simp only [inCases, Stmt.labelsOfCases, List.forall_mem_append] at h ⊢
    rw [inList_inList named known false c.body.body h.1, inCases_inCases named known rest h.2]

end

end Cleanup

/-! ### Properties that stay -/

namespace Execution

/-- A property of trees that the removal of jumps and the cleaning keep: it holds of every statement with
blocks but a switch, whatever is in the blocks, and of a switch it holds still when jumps are removed from
its cases or they are cleaned up. -/
structure Property.Stays (P : Property) : Prop where
  structured : ∀ s, s.isStructured = true → (∀ value cases, s ≠ .switch value cases) → P.stmt s
  breakOut : P.stmt .breakOut
  continueLoop : P.stmt .continueLoop
  newCases : ∀ flow value cases, flow.after = [] → P.stmt (.switch value cases) →
    P.stmt (.switch value (Jumps.newCases flow cases))
  inCases : ∀ named value cases, P.stmt (.switch value cases) → EveryCase P cases →
    P.stmt (.switch value (Cleanup.inCases named cases).1)

/-- Flat trees stay flat. -/
lemma isFlat_stays : isFlat.Stays where
  structured s hs _ := by rintro block rfl; cases hs
  breakOut := by simp [isFlat]
  continueLoop := by simp [isFlat]
  newCases := by simp [isFlat]
  inCases := by simp [isFlat]

end Execution

namespace Jumps

open Execution

variable {P : Property}

mutual

/-- What stays holds of a statement without its jumps. -/
lemma every_newStmt (hP : P.Stays) (flow : Flow) (follow preceding : List LabelId) :
    (s : Stmt) → Every P s → Every P (newStmt flow follow preceding s)
  | .seq block, h => by
    rw [Every] at h
    rw [newStmt_seq, Every]
    exact ⟨hP.structured _ rfl (by simp), h.2.1, every_newList hP _ [] block.body h.2.2⟩
  | .cond _ thenBlock elseBlock, h => by
    rw [Every] at h
    rw [newStmt_cond, Every]
    exact ⟨hP.structured _ rfl (by simp),
      ⟨h.2.1.1, every_newList hP _ [] thenBlock.body h.2.1.2⟩, h.2.2.1,
      every_newList hP _ [] elseBlock.body h.2.2.2⟩
  | .loop _ block, h => by
    rw [Every] at h
    rw [newStmt_loop, Every]
    exact ⟨hP.structured _ rfl (by simp), h.2.1, every_newList hP _ [] block.body h.2.2⟩
  | .scope _ block _, h => by
    rw [Every] at h
    rw [newStmt_scope, Every]
    exact ⟨hP.structured _ rfl (by simp), h.2.1, every_newList hP _ [] block.body h.2.2⟩
  | .switch value cases, h => by
    rw [Every] at h
    rw [newStmt_switch, Every]
    exact ⟨hP.newCases _ value cases rfl h.1, every_newCases hP _ cases h.2⟩
  | .label _, h | .raw _ _, h | .push _, h | .assign _ _, h | .call _ _, h | .discard _, h
  | .goto _, h | .condGoto _ _, h | .pushEnv _ _, h | .popEnv _, h | .dispatch _ _ _, h | .ret _, h
  | .exit, h | .breakOut, h | .continueLoop, h | .basic _, h => by rwa [newStmt_of_leaf rfl]

/-- What stays holds of a list without its jumps. -/
lemma every_newList (hP : P.Stays) (flow : Flow) (preceding : List LabelId) :
    (list : List Stmt) → EveryIn P list → EveryIn P (newList flow preceding list)
  | [], _ => by
    rw [newList_nil]
    trivial
  | s :: rest, h => by
    rw [EveryIn] at h
    by_cases hs : ∃ target, s = .goto target
    · obtain ⟨target, rfl⟩ := hs
      have hrest := every_newList hP flow [] rest h.2
      rw [newList_goto]
      rcases jump_cases flow target rest with ⟨-, hjump⟩ | ⟨_, -, -, hjump⟩ | ⟨_, -, -, hjump⟩ | hjump
      · rwa [hjump]
      · rw [hjump]
        exact ⟨hP.breakOut, hrest⟩
      · rw [hjump]
        exact ⟨hP.continueLoop, hrest⟩
      · rw [hjump]
        exact ⟨h.1, hrest⟩
    · rw [newList_cons fun target h => hs ⟨target, h⟩, EveryIn]
      exact ⟨every_newStmt hP flow _ preceding s h.1, every_newList hP flow _ rest h.2⟩

/-- What stays holds of the cases of a switch without their jumps. -/
lemma every_newCases (hP : P.Stays) (flow : Flow) :
    (cases : List SwitchCase) → EveryCase P cases → EveryCase P (newCases flow cases)
  | [], _ => by
    rw [newCases_nil]
    trivial
  | c :: later, h => by
    rw [EveryCase] at h
    rw [newCases_cons, EveryCase]
    exact ⟨⟨h.1.1, every_newList hP flow [] c.body.body h.1.2⟩, every_newCases hP flow later h.2⟩

end

end Jumps

namespace Cleanup

open Execution

variable {P : Property} {named : List LabelId}

/-- What holds of a list holds of its start. -/
lemma everyIn_of_isPrefix {a b : List Stmt} (h : a <+: b) (hb : EveryIn P b) : EveryIn P a := by
  induction a generalizing b with
  | nil => trivial
  | cons s a ih =>
    obtain ⟨tail, rfl⟩ := h
    rw [List.cons_append, EveryIn] at hb
    exact ⟨hb.1, ih (List.prefix_append a tail) hb.2⟩

mutual

/-- What stays holds of what is left of a statement. -/
lemma every_inStmt (hP : P.Stays) (named : List LabelId) :
    (s : Stmt) → Every P s → Every P (inStmt named s).1
  | .cond test thenBlock elseBlock, h => by
    rw [Every] at h
    have hthen := every_inList hP named false thenBlock.body h.2.1.2
    have helse := every_inList hP named false elseBlock.body h.2.2.2
    simp only [inStmt, orient]
    split
    · exact ⟨hP.structured _ rfl (by simp), ⟨h.2.2.1, helse⟩, h.2.1.1, hthen⟩
    · exact ⟨hP.structured _ rfl (by simp), ⟨h.2.1.1, hthen⟩, h.2.2.1, helse⟩
  | .loop _ block, h => by
    rw [Every] at h
    have hbody := every_inList hP named false block.body h.2.2
    exact ⟨hP.structured _ rfl (by simp), h.2.1,
      everyIn_of_isPrefix (dropTrailingContinue_isPrefix _) hbody⟩
  | .scope _ block stop, h => by
    rw [Every] at h
    have hbody := every_inList hP named false block.body h.2.2
    cases stop with
    | none => exact ⟨hP.structured _ rfl (by simp), h.2.1, hbody⟩
    | some stop =>
      exact ⟨hP.structured _ rfl (by simp), h.2.1,
        everyIn_of_isPrefix (dropTrailingContinue_isPrefix _) hbody⟩
  | .switch value cases, h => by
    rw [Every] at h
    exact ⟨hP.inCases named value cases h.1 h.2, every_inCases hP named cases h.2⟩
  | .seq block, h => by
    rw [Every] at h
    exact ⟨hP.structured _ rfl (by simp), h.2.1, every_inList hP named false block.body h.2.2⟩
  | .label _, h | .raw _ _, h | .push _, h | .assign _ _, h | .call _ _, h | .discard _, h
  | .goto _, h | .condGoto _ _, h | .pushEnv _ _, h | .popEnv _, h | .dispatch _ _ _, h | .ret _, h
  | .exit, h | .breakOut, h | .continueLoop, h | .basic _, h => h

/-- What stays holds of what is left of a list. -/
lemma every_inList (hP : P.Stays) (named : List LabelId) (dead : Bool) :
    (list : List Stmt) → EveryIn P list → EveryIn P (inList named dead list).1
  | [], _ => trivial
  | s :: rest, h => by
    rw [EveryIn] at h
    rw [inList]
    cases reach named dead s with
    | some dead => exact every_inList hP named dead rest h.2
    | none => exact ⟨every_inStmt hP named s h.1, every_inList hP named _ rest h.2⟩

/-- What stays holds of what is left of the cases of a switch. -/
lemma every_inCases (hP : P.Stays) (named : List LabelId) :
    (cases : List SwitchCase) → EveryCase P cases → EveryCase P (inCases named cases).1
  | [], _ => trivial
  | c :: rest, h => by
    rw [EveryCase] at h
    exact ⟨⟨h.1.1, every_inList hP named false c.body.body h.1.2⟩, every_inCases hP named rest h.2⟩

end

mutual

/-- Only named labels are left in a flat statement that is no label itself. -/
lemma mem_named_of_inStmt (named : List LabelId) {id : LabelId} :
    (s : Stmt) → Every isFlat s → (∀ id, s ≠ .label id) → id ∈ (inStmt named s).1.labels → id ∈ named
  | .cond test thenBlock elseBlock, h, _, hid => by
    rw [Every] at h
    have hthen : id ∈ _ → id ∈ named := mem_named_of_inList named false thenBlock.body h.2.1.2
    have helse : id ∈ _ → id ∈ named := mem_named_of_inList named false elseBlock.body h.2.2.2
    rw [← List.count_pos_iff, inStmt] at hid
    dsimp only at hid
    rw [count_labels_orient, Nat.add_pos_iff_pos_or_pos, List.count_pos_iff, List.count_pos_iff] at hid
    exact hid.elim hthen helse
  | .loop _ block, h, _, hid => by
    rw [Every] at h
    have hlabels := labelsOfList_dropTrailingContinue (inList named false block.body).1
    exact mem_named_of_inList named false block.body h.2.2 (hlabels ▸ hid)
  | .scope _ block stop, h, _, hid => by
    rw [Every] at h
    cases stop with
    | none => exact mem_named_of_inList named false block.body h.2.2 hid
    | some stop =>
      have hlabels := labelsOfList_dropTrailingContinue (inList named false block.body).1
      exact mem_named_of_inList named false block.body h.2.2 (hlabels ▸ hid)
  | .switch _ cases, h, _, hid => by
    rw [Every] at h
    exact mem_named_of_inCases named cases h.2 hid
  | .seq block, h, _, hid => by
    rw [Every] at h
    exact mem_named_of_inList named false block.body h.2.2 hid
  | .label id, _, hs, _ => absurd rfl (hs id)
  | .basic block, h, _, _ => absurd rfl (h.self block)
  | .raw _ _, _, _, hid | .push _, _, _, hid | .assign _ _, _, _, hid | .call _ _, _, _, hid
  | .discard _, _, _, hid | .goto _, _, _, hid | .condGoto _ _, _, _, hid | .pushEnv _ _, _, _, hid
  | .popEnv _, _, _, hid | .dispatch _ _ _, _, _, hid | .ret _, _, _, hid | .exit, _, _, hid
  | .breakOut, _, _, hid | .continueLoop, _, _, hid => absurd hid List.not_mem_nil

/-- Only named labels are left in a flat list. -/
lemma mem_named_of_inList (named : List LabelId) (dead : Bool) {id : LabelId} :
    (list : List Stmt) → EveryIn isFlat list → id ∈ Stmt.labelsOfList (inList named dead list).1 →
      id ∈ named
  | [], _, hid => absurd hid List.not_mem_nil
  | s :: rest, h, hid => by
    rw [EveryIn] at h
    rw [inList] at hid
    cases hreach : reach named dead s with
    | some dead' =>
      simp only [hreach] at hid
      exact mem_named_of_inList named dead' rest h.2 hid
    | none =>
      simp only [hreach, Stmt.labelsOfList] at hid
      rcases List.mem_append.mp hid with hid | hid
      · rcases reach_eq_none_iff.mp hreach with ⟨other, hother, rfl⟩ | ⟨hs, -⟩
        · exact (List.mem_singleton.mp hid) ▸ hother
        · exact mem_named_of_inStmt named s h.1 hs hid
      · exact mem_named_of_inList named _ rest h.2 hid

/-- Only named labels are left in flat cases of a switch. -/
lemma mem_named_of_inCases (named : List LabelId) {id : LabelId} :
    (cases : List SwitchCase) → EveryCase isFlat cases →
      id ∈ Stmt.labelsOfCases (inCases named cases).1 → id ∈ named
  | [], _, hid => absurd hid List.not_mem_nil
  | c :: rest, h, hid => by
    rw [EveryCase] at h
    rw [inCases, Stmt.labelsOfCases] at hid
    rcases List.mem_append.mp hid with hid | hid
    · exact mem_named_of_inList named false c.body.body h.1.2 hid
    · exact mem_named_of_inCases named rest h.2 hid

end

end Cleanup

/-! ### The two passes -/

namespace BlockOf

/-- The changes that can be made at most in a unit. -/
def work (block : Block) : Nat :=
  Stmt.workOfList block.body

end BlockOf

/-- Removing jumps leaves a unit as it is or with less work. -/
lemma lessens_removeGotos (block : Block) : Lessens BlockOf.work block (removeGotos block).1 :=
  (Jumps.lessens_newList {} [] block.body).map (fun body => { block with body }) 0 fun _ =>
    (Nat.zero_add _).symm

/-- Dropping what is redundant leaves a unit as it is or with less work. -/
lemma lessens_removeRedundantCode (block : Block) :
    Lessens BlockOf.work block (removeRedundantCode block).1 :=
  ((Cleanup.lessens_inList (Stmt.targetsOfList block.body) false block.body).trans
    (Stmt.lessens_of_isPrefix (Cleanup.dropFinalExit_isPrefix _))).map (fun body => { block with body }) 0
      fun _ => (Nat.zero_add _).symm

/-- Cleaning up leaves a unit as it is or with less work. -/
lemma lessens_simplify (block : Block) : Lessens BlockOf.work block (simplify block) :=
  (((lessens_removeRedundantCode _).trans (lessens_removeGotos _)).trans
    (lessens_removeRedundantCode _)).trans
      ((lessens_removeGotos _).trans (lessens_removeRedundantCode _))

/-- Cleaning up leaves a unit as it is exactly when both passes do. -/
lemma simplify_eq_self_iff (block : Block) :
    simplify block = block ↔
      (removeRedundantCode block).1 = block ∧ (removeGotos block).1 = block := by
  constructor
  · intro h
    unfold simplify at h
    dsimp only at h
    have hcode : (removeRedundantCode block).1 = block := by
      have hrest := (((lessens_removeGotos (removeRedundantCode block).1).trans
        (lessens_removeRedundantCode _)).trans (lessens_removeGotos _)).trans
          (lessens_removeRedundantCode _)
      rw [h] at hrest
      exact (lessens_removeRedundantCode block).eq_of_trans hrest
    rw [hcode] at h
    have hrest := ((lessens_removeRedundantCode (removeGotos block).1).trans
      (lessens_removeGotos _)).trans (lessens_removeRedundantCode _)
    rw [h] at hrest
    exact ⟨hcode, (lessens_removeGotos block).eq_of_trans hrest⟩
  · rintro ⟨hcode, hgotos⟩
    simp only [simplify, hcode, hgotos]

/-! ### Cleaning up twice -/

namespace Execution

/-- What stays holds of a unit without its jumps. -/
lemma Property.Stays.removeGotos {P : Property} (hP : P.Stays) {block : Block}
    (h : EveryIn P block.body) : EveryIn P (removeGotos block).1.body :=
  Jumps.every_newList hP {} [] block.body h

/-- What stays holds of what is left of a unit. -/
lemma Property.Stays.removeRedundantCode {P : Property} (hP : P.Stays) {block : Block}
    (h : EveryIn P block.body) : EveryIn P (removeRedundantCode block).1.body :=
  Cleanup.everyIn_of_isPrefix (Cleanup.dropFinalExit_isPrefix _)
    (Cleanup.every_inList hP _ false block.body h)

/-- What stays holds of a simplified unit. -/
lemma Property.Stays.simplify {P : Property} (hP : P.Stays) {block tree : Block}
    (htree : tree = simplify block) (h : EveryIn P block.body) : EveryIn P tree.body := by
  rw [htree]
  exact hP.removeRedundantCode (hP.removeGotos (hP.removeRedundantCode (hP.removeGotos
    (hP.removeRedundantCode h))))

/-- A flat unit is flat without its jumps. -/
lemma FlatUnit.withoutGotos {block : Block} (h : FlatUnit block) : FlatUnit (removeGotos block).1 :=
  ⟨h.entry, isFlat_stays.removeGotos h.body⟩

/-- What is left of a flat unit is flat. -/
lemma FlatUnit.withoutRedundantCode {block : Block} (h : FlatUnit block) :
    FlatUnit (removeRedundantCode block).1 :=
  ⟨h.entry, isFlat_stays.removeRedundantCode h.body⟩

/-- A flat unit is flat when it has been simplified. -/
lemma FlatUnit.simplified {block : Block} (h : FlatUnit block) : FlatUnit (simplify block) :=
  h.withoutRedundantCode.withoutGotos.withoutRedundantCode.withoutGotos.withoutRedundantCode

end Execution

namespace Cleanup

open Execution

/-- A list without an `exit` at its end keeps its end. -/
lemma dropFinalExit_of_ne {body : List Stmt} (h : body.getLast? ≠ some .exit) :
    (dropFinalExit body).1 = body := by
  unfold dropFinalExit
  split
  · rename_i hlast
    exact absurd hlast h
  · rfl

/-- No `exit` is left at the end of a list that has been cleaned up: behind another `exit` it cannot be
reached. -/
lemma dropFinalExit_idem {named : List LabelId} {dead : Bool} {body : List Stmt}
    (h : (inList named dead body).1 = body) :
    (dropFinalExit (dropFinalExit body).1).1 = (dropFinalExit body).1 := by
  by_cases hlast : body.getLast? = some .exit
  · obtain ⟨before, rfl⟩ := List.getLast?_eq_some_iff.mp hlast
    have hdrop : (dropFinalExit (before ++ [.exit])).1 = before := by
      rw [dropFinalExit, hlast, List.dropLast_concat]
    rw [hdrop]
    refine dropFinalExit_of_ne fun hlast => ?_
    obtain ⟨start, rfl⟩ := List.getLast?_eq_some_iff.mp hlast
    rw [List.append_assoc] at h
    obtain ⟨id, hid⟩ := exists_label_of_inList h rfl
    cases hid
  · rw [dropFinalExit_of_ne hlast, dropFinalExit_of_ne hlast]

/-- What has been cleaned up is left as it is by a second cleaning exactly when all its labels are still
named. -/
lemma removeRedundantCode_eq_self_iff {block : Block} (hflat : FlatUnit block) :
    (removeRedundantCode (removeRedundantCode block).1).1 = (removeRedundantCode block).1 ↔
      ∀ id ∈ Stmt.labelsOfList (removeRedundantCode block).1.body,
        id ∈ Stmt.targetsOfList (removeRedundantCode block).1.body := by
  constructor
  · intro h id hid
    rw [← h, body_removeRedundantCode, pruneCode, labelsOfList_trim] at hid
    exact mem_named_of_inList _ false _ hflat.withoutRedundantCode.body hid
  · intro h
    set known := Stmt.targetsOfList (removeRedundantCode block).1.body with hknown
    rw [body_removeRedundantCode, pruneCode, labelsOfList_trim] at h
    have hlist := inList_inList (Stmt.targetsOfList block.body) known false block.body h
    have hbody : (removeRedundantCode (removeRedundantCode block).1).1.body =
        (removeRedundantCode block).1.body := by
      rw [body_removeRedundantCode, ← hknown, body_removeRedundantCode]
      simp only [pruneCode, trim]
      rw [inList_of_isPrefix hlist (dropFinalExit_isPrefix _), dropFinalExit_idem hlist]
    exact congrArg (BlockOf.mk block.entry) hbody

end Cleanup

/-- Cleaning up a flat unit a second time leaves it as it is exactly when each label that is left is still
named and no jump that is left can be removed.  This may fail after one run, but after at most as many
runs as there is work in the unit the next one changes nothing. -/
theorem simplify_simplify_iff {block : Block} (hflat : Execution.FlatUnit block) :
    (simplify (simplify block) = simplify block ↔
      (∀ id ∈ Stmt.labelsOfList (simplify block).body,
        id ∈ Stmt.targetsOfList (simplify block).body) ∧
      (removeGotos (simplify block)).1 = simplify block) ∧
    ∃ n ≤ block.work, simplify (simplify^[n] block) = simplify^[n] block := by
  refine ⟨?_, iterate_settles lessens_simplify block⟩
  rw [simplify_eq_self_iff]
  refine and_congr_left' ?_
  exact Cleanup.removeRedundantCode_eq_self_iff
    hflat.withoutRedundantCode.withoutGotos.withoutRedundantCode.withoutGotos

/-- A loop that is left by a jump, behind a call that is never reached. -/
def leftLoop : Block where
  body := [.goto 1, .call "f" [], .label 1,
    .loop (some (.incoming 0)) { body := [.cond (.incoming 1) { body := [.goto 2] } {}, .call "g" []] },
    .label 2, .exit]

/-- The loop is left by a `break` after one run, and nothing is left to do. -/
theorem leftLoop_settled :
    Execution.FlatUnit leftLoop ∧
      (simplify leftLoop).body =
        [.loop (some (.incoming 0))
          { body := [.cond (.incoming 1) { body := [.breakOut] } {}, .call "g" []] }] ∧
      simplify (simplify leftLoop) = simplify leftLoop ∧
      ∃ n ≤ leftLoop.work, simplify (simplify^[n] leftLoop) = simplify^[n] leftLoop := by
  have hflat : Execution.FlatUnit leftLoop := by
    refine ⟨rfl, ?_⟩
    simp [leftLoop, Execution.EveryIn, Execution.Every, Execution.isFlat]
  have hiff := simplify_simplify_iff hflat
  exact ⟨hflat, rfl, hiff.1.mpr ⟨by decide, rfl⟩, hiff.2⟩

/-- Behind a `return` stands another one with a label, which is named by a jump that is named by a jump
that is named by a jump, none of which is reached. -/
def namedReturn : Block where
  body := [.ret (.int 0), .label 1, .ret (.int 1), .label 2, .goto 1, .label 3, .goto 2, .label 4,
    .goto 3]

/-- Each turn drops the last of the jumps, and the label of the second `return` goes with the next run
only. -/
theorem namedReturn_changes :
    Execution.FlatUnit namedReturn ∧
      (simplify namedReturn).body = [.ret (.int 0), .label 1, .ret (.int 1)] ∧
      (simplify (simplify namedReturn)).body = [.ret (.int 0)] ∧
      simplify (simplify namedReturn) ≠ simplify namedReturn := by
  refine ⟨⟨rfl, ?_⟩, rfl, rfl, fun h => ?_⟩
  · simp [namedReturn, Execution.EveryIn, Execution.Every, Execution.isFlat]
  · have hlength := congrArg (List.length ∘ BlockOf.body) h
    exact absurd hlength (by decide)

end Decompiler
