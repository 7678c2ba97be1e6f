import Mathlib.Data.List.Basic
import Mathlib.Logic.Relation
import Decompiler.Proofs.JumpTargets
import Decompiler.Proofs.RemainingJumps
import Decompiler.Proofs.Rewriting

/-!
# Names of labels

The names of decoded labels come from offsets, those of minted labels from a number for each stem, and
nothing looks whether a name is in use.  That no name is given twice is an invariant of the run: each
minted name stands below the counter of its stem (`Labels.Numbered`), so that the next number of a stem
is new.  An underscore stands behind the stem and nowhere else in a name, which keeps the stems apart
from each other and from the decoded names.

Minting is the only way in which a pass changes the names (`Labels.Minted`), whichever stems it takes and
in whichever order, and also when it fails on the way.  The induction is over the passes as steps on a
state: `Mints` is closed under sequences and loops.
-/

namespace Decompiler

open Bytecode

namespace Labels

/-! ### Names -/

/-- The stems of minted labels. -/
def stems : List String :=
  [Partition.stem, CountedLoop.stem, Loops.stem, Conditions.stem]

/-- The name of a minted label. -/
def mintedName (stem : String) (n : Nat) : String :=
  stem ++ "_" ++ toString n

lemma toList_mintedName (stem : String) (n : Nat) :
    (mintedName stem n).toList = stem.toList ++ '_' :: Nat.toDigits 10 n := by
  simp [mintedName]

/-- A number is written without an underscore. -/
lemma underscore_notMem_toDigits (n : Nat) : '_' ∉ Nat.toDigits 10 n := by
  intro h
  have hdigit := Nat.isDigit_of_mem_toDigits (b := 10) (by decide) (by decide) h
  revert hdigit
  decide

/-- A number can be read off its digits. -/
lemma toDigits_inj {n n' : Nat} (h : Nat.toDigits 10 n = Nat.toDigits 10 n') : n = n' := by
  have hnumber := congrArg (fun digits => Nat.ofDigitChars 10 digits 0) h
  rwa [Nat.ofDigitChars_ten_toDigits, Nat.ofDigitChars_ten_toDigits] at hnumber

/-- A stem has no underscore. -/
lemma underscore_notMem_stem {stem : String} (h : stem ∈ stems) : '_' ∉ stem.toList := by
  revert stem
  decide

/-- Minted names agree only where the stems and the numbers do. -/
lemma mintedName_inj {stem stem' : String} (h : stem ∈ stems) {n n' : Nat}
    (heq : mintedName stem n = mintedName stem' n') : stem = stem' ∧ n = n' := by
  have hchars := congrArg String.toList heq
  rw [toList_mintedName, toList_mintedName] at hchars
  obtain ⟨hstem, -, hdigits⟩ := (List.append_cons_inj_of_notMem (underscore_notMem_stem h)
    (underscore_notMem_toDigits n)).mp hchars
  exact ⟨String.toList_injective hstem, toDigits_inj hdigits⟩

/-- A minted name has an underscore. -/
lemma underscore_mem_mintedName (stem : String) (n : Nat) : '_' ∈ (mintedName stem n).toList := by
  simp [toList_mintedName]

/-- A decoded name has none. -/
lemma underscore_notMem_labelName (label : Label) : '_' ∉ label.name.toList := by
  simp [Label.name]

/-- Decoded names agree only where the offsets do. -/
lemma labelName_inj {a b : Label} (h : a.name = b.name) : a.offset = b.offset := by
  have hchars := congrArg String.toList h
  simp only [Label.name, String.toList_append, List.append_cancel_left_eq] at hchars
  exact toDigits_inj (by simpa using hchars)

/-! ### Numbered names -/

variable {labels later : Labels} {stem : String}

/-- No name is given twice, and a name that is not a decoded one stands below the counter of its stem. -/
structure Numbered (labels : Labels) : Prop where
  nodup : labels.names.Nodup
  known : ∀ name ∈ labels.names, '_' ∉ name.toList ∨
    ∃ stem ∈ stems, ∃ n < labels.counter stem, name = mintedName stem n

/-- The names of a unit at its start. -/
lemma numbered_start : Numbered {} where
  nodup := List.nodup_nil
  known := by simp

/-- The names of labels that have offsets of their own. -/
lemma numbered_ofTable {table : LabelTable} (h : table.offsets.Nodup) : (ofTable table).Numbered where
  nodup := by
    have hlabels := List.pairwise_map.mp h
    exact List.pairwise_map.mpr (hlabels.imp fun hne heq => hne (labelName_inj heq))
  known := by
    intro name hname
    obtain ⟨label, -, rfl⟩ := List.mem_map.mp hname
    exact .inl (underscore_notMem_labelName label)

/-- A new label comes behind the others. -/
lemma names_fresh (labels : Labels) (stem : String) :
    (labels.fresh stem).2.names = labels.names ++ [mintedName stem (labels.counter stem)] :=
  rfl

/-- Looking for a key among the entries for other keys. -/
lemma lookup_filter_ne {counters : List (String × Nat)} {key other : String} (h : key ≠ other) :
    (counters.filter (·.1 != other)).lookup key = counters.lookup key := by
  induction counters with
  | nil => rfl
  | cons entry rest ih =>
    obtain ⟨first, n⟩ := entry
    by_cases hfirst : first = other
    · rw [List.filter_cons_of_neg (by simp [hfirst]), ih, List.lookup_cons, hfirst,
        beq_false_of_ne h]
    · rw [List.filter_cons_of_pos (by simp [hfirst]), List.lookup_cons, List.lookup_cons, ih]

/-- A new label moves the counter of its stem and no other. -/
lemma counter_fresh (labels : Labels) (stem other : String) :
    (labels.fresh stem).2.counter other =
      if other = stem then labels.counter stem + 1 else labels.counter other := by
  change (((stem, labels.counter stem + 1) ::
    labels.counters.filter (·.1 != stem)).lookup other).getD 0 = _
  by_cases h : other = stem
  · simp [h]
  · rw [List.lookup_cons, beq_false_of_ne h, if_neg h, lookup_filter_ne h]
    rfl

/-- The next name of a stem is not in use. -/
lemma Numbered.mintedName_notMem (h : labels.Numbered) (hstem : stem ∈ stems) :
    mintedName stem (labels.counter stem) ∉ labels.names := by
  intro hmem
  rcases h.known _ hmem with hplain | ⟨other, -, n, hn, heq⟩
  · exact hplain (underscore_mem_mintedName stem _)
  · obtain ⟨rfl, rfl⟩ := mintedName_inj hstem heq
    exact Nat.lt_irrefl _ hn

/-- Names stay numbered when a label is minted. -/
lemma Numbered.fresh (h : labels.Numbered) (hstem : stem ∈ stems) :
    (labels.fresh stem).2.Numbered where
  nodup := by
    rw [names_fresh, ← List.concat_eq_append]
    exact h.nodup.concat (h.mintedName_notMem hstem)
  known := by
    intro name hname
    rw [names_fresh, List.mem_append, List.mem_singleton] at hname
    rcases hname with hname | rfl
    · refine (h.known name hname).imp_right ?_
      rintro ⟨other, hother, n, hn, rfl⟩
      refine ⟨other, hother, n, ?_, rfl⟩
      rw [counter_fresh]
      split
      · rename_i heq
        exact Nat.lt_succ_of_lt (heq ▸ hn)
      · exact hn
    · exact .inr ⟨stem, hstem, _, by simp [counter_fresh], rfl⟩

/-- A label that has been handed out is the only one of its name. -/
lemma Numbered.name_inj (h : labels.Numbered) {id other : LabelId} (hid : id < labels.names.length)
    (hother : other < labels.names.length) (heq : labels.name id = labels.name other) : id = other := by
  rw [name, name, List.getElem?_eq_getElem hid, List.getElem?_eq_getElem hother] at heq
  exact h.nodup.getElem_inj_iff.mp heq

/-! ### Minting -/

/-- The second state of the names is the first one with labels minted for any of the stems, in any order.
-/
def Minted : Labels → Labels → Prop :=
  Relation.ReflTransGen fun labels later => ∃ stem ∈ stems, later = (labels.fresh stem).2

/-- Minting a label. -/
lemma minted_fresh (labels : Labels) (hstem : stem ∈ stems) : Minted labels (labels.fresh stem).2 :=
  .single ⟨stem, hstem, rfl⟩

/-- Names stay numbered when labels are minted. -/
lemma Minted.numbered (h : Minted labels later) (hlabels : labels.Numbered) : later.Numbered := by
  induction h with
  | refl => exact hlabels
  | tail _ hstep ih =>
    obtain ⟨stem, hstem, rfl⟩ := hstep
    exact ih.fresh hstem

/-- The labels that were there keep their places and their names. -/
lemma Minted.names_isPrefixOf (h : Minted labels later) : labels.names <+: later.names := by
  induction h with
  | refl => exact List.prefix_rfl
  | tail _ hstep ih =>
    obtain ⟨stem, -, rfl⟩ := hstep
    exact ih.trans (List.prefix_append _ _)

/-- A label that has been handed out keeps its name. -/
lemma Minted.name_eq (h : Minted labels later) {id : LabelId} (hid : id < labels.names.length) :
    later.name id = labels.name id := by
  obtain ⟨new, hnew⟩ := h.names_isPrefixOf
  rw [name, name, ← hnew, List.getElem?_append_left hid]

end Labels

open Labels

/-! ### Steps that mint -/

/-- The step changes the names only by minting labels, whether it succeeds or fails. -/
def Mints {σ α : Type} (labels : σ → Labels) (x : ExceptT Error (StateM σ) α) : Prop :=
  ∀ s, Minted (labels s) (labels (exec x s).2)

namespace Mints

variable {σ α β : Type} {labels : σ → Labels}

/-- A step that leaves the names alone. -/
lemma of_eq {x : ExceptT Error (StateM σ) α} (h : ∀ s, labels (exec x s).2 = labels s) :
    Mints labels x := by
  intro s
  rw [h s]
  exact .refl

lemma pure (a : α) : Mints labels (Pure.pure a) := of_eq fun _ => rfl

lemma throw (e : Error) : Mints labels (MonadExcept.throw e : ExceptT Error (StateM σ) α) :=
  of_eq fun _ => rfl

lemma ofExcept (result : Except Error α) :
    Mints labels (MonadExcept.ofExcept result : ExceptT Error (StateM σ) α) := by
  cases result with
  | ok a => exact pure a
  | error e => exact throw e

/-- One step after the other. -/
lemma bind {x : ExceptT Error (StateM σ) α} {f : α → ExceptT Error (StateM σ) β}
    (hx : Mints labels x) (hf : ∀ a, Mints labels (f a)) : Mints labels (x >>= f) := by
  intro s
  have hfirst := hx s
  cases hrun : exec x s with
  | mk result t =>
    rw [hrun] at hfirst
    cases result with
    | error e =>
      rw [exec_bind_of_error hrun]
      exact hfirst
    | ok a =>
      rw [exec_bind_of_ok hrun]
      exact hfirst.trans (hf a t)

/-- A loop of steps. -/
lemma foldlM {f : β → α → ExceptT Error (StateM σ) β} (hf : ∀ b a, Mints labels (f b a)) (b : β)
    (list : List α) : Mints labels (list.foldlM f b) := by
  induction list generalizing b with
  | nil => exact pure b
  | cons a rest ih =>
    rw [List.foldlM_cons]
    exact (hf b a).bind ih

/-- A step for each element of a list. -/
lemma mapM {f : α → ExceptT Error (StateM σ) β} (hf : ∀ a, Mints labels (f a)) (list : List α) :
    Mints labels (list.mapM f) := by
  induction list with
  | nil =>
    rw [List.mapM_nil]
    exact pure _
  | cons a rest ih =>
    rw [List.mapM_cons]
    exact (hf a).bind fun _ => ih.bind fun _ => pure _

end Mints

/-! ### Blocks and rules -/

namespace Partition

/-- Opening a block mints at most one label. -/
lemma minted_openBlock (labels : Labels) (current : Option (List Stmt)) :
    Minted labels (openBlock labels current).2 := by
  cases current with
  | some body => exact .refl
  | none => exact minted_fresh labels (by simp [stems])

/-- Splitting statements into blocks only mints labels. -/
lemma minted_blocks (labels : Labels) (current : Option (List Stmt)) (list : List Stmt) :
    Minted labels (blocks labels current list).2 := by
  fun_induction blocks labels current list with
  | case1 labels current => exact .refl
  | case2 labels current id rest later labels' hlater ih => rwa [hlater] at ih
  | case3 labels current s rest _ body labels' hopen _ _ later labels'' hlater ih =>
    have hfirst := minted_openBlock labels current
    rw [hopen] at hfirst
    rw [hlater] at ih
    exact hfirst.trans ih
  | case4 labels current s rest _ body labels' hopen _ _ _ next _ later labels'' hlater ih =>
    have hfirst := minted_openBlock labels current
    rw [hopen] at hfirst
    rw [hlater] at ih
    exact hfirst.trans ih
  | case5 labels current s rest _ body labels' hopen _ _ _ _ next fresh hfresh later labels'' hlater ih =>
    have hfirst := minted_openBlock labels current
    have hnext := @minted_fresh stem labels' (by simp [stems])
    rw [hopen] at hfirst
    rw [hfresh] at hnext
    rw [hlater] at ih
    exact (hfirst.trans hnext).trans ih
  | case6 labels current s rest _ body labels' hopen _ _ _ ih =>
    have hfirst := minted_openBlock labels current
    rw [hopen] at hfirst
    exact hfirst.trans ih

end Partition

/-- The partition of statements only mints labels. -/
lemma minted_partition (labels : Labels) (list : List Stmt) :
    Minted labels (partition labels list).2 := by
  have hblocks := Partition.minted_blocks labels none list
  unfold partition
  split
  · rename_i labels' heq
    rw [heq] at hblocks
    exact hblocks.trans (minted_fresh labels' (by simp [stems]))
  · rename_i bodies labels' _ heq
    rw [heq] at hblocks
    exact hblocks

/-- A rule only mints labels. -/
lemma Rule.minted_edit? (rule : Rule) (site : Site) (context : Context) :
    Minted context.labels (rule.edit? site context).2.labels := by
  cases rule with
  | countedLoop =>
    rw [edit?, CountedLoop.edit?]
    split
    · exact .refl
    · exact @minted_fresh CountedLoop.stem context.labels (by simp [stems])
  | switchDispatch =>
    rw [edit?, SwitchDispatch.edit?]
    split
    · exact .refl
    · split <;> exact .refl
  | deadBlocks =>
    rw [edit?, deadBlocksEdit?]
    split
    · exact .refl
    · split
      · exact .refl
      · split <;> exact .refl
  | withScope | shortCircuit | ternary | join | logicNot | popz => exact .refl

/-- A part of a run of rules only mints labels. -/
lemma Fixpoint.Rewriting.minted {rules : List Rule} {blocks last : List BasicBlock}
    {context lastContext : Context} {rewrites : List Rewrite}
    (h : Rewriting rules blocks context rewrites last lastContext) :
    Minted context.labels lastContext.labels := by
  induction h with
  | done => exact .refl
  | @tried rule blocks _ context _ _ pos head _ _ _ _ hedit _ ih =>
    have hfirst := rule.minted_edit? ⟨.ofBlocks blocks, pos, head⟩ context
    rw [hedit] at hfirst
    exact hfirst.trans ih
  | @edited rule blocks _ _ context _ _ pos _ head _ _ _ _ hedit _ _ ih =>
    have hfirst := rule.minted_edit? ⟨.ofBlocks blocks, pos, head⟩ context
    rw [hedit] at hfirst
    exact hfirst.trans ih

/-! ### Recovery -/

/-- The names during the recovery of a list. -/
def RecoveryState.labels (s : RecoveryState) : Labels :=
  s.context.labels

namespace Recovery

open RecoveryState (labels)

lemma mints_slot? (item : Nat) : Mints labels (slot? item) :=
  .of_eq fun _ => rfl

lemma mints_basicBlock? (item : Nat) : Mints labels (basicBlock? item) := by
  refine (mints_slot? item).bind fun found => ?_
  split <;> exact .pure _

lemma mints_setSlot (item : Nat) (s : Stmt) : Mints labels (setSlot item s) :=
  .of_eq fun _ => rfl

lemma mints_take (item : Nat) : Mints labels (take item) := by
  refine (mints_slot? item).bind fun found => ?_
  cases found with
  | some s => exact .of_eq fun _ => rfl
  | none => exact .throw _

lemma mints_fresh {stem : String} (h : stem ∈ stems) : Mints labels (fresh stem) :=
  fun s => minted_fresh s.labels h

lemma mints_reportError (message : String) (s : Stmt) : Mints labels (reportError message s) :=
  .of_eq fun _ => rfl

lemma mints_remove (region : Region) (item : Nat) : Mints labels (remove region item) := by
  unfold remove
  split
  · exact .pure _
  · exact .throw _

lemma mints_claimAll (region items : Region) : Mints labels (claimAll region items) :=
  .foldlM mints_remove region _

lemma mints_drain (region : Region) : Mints labels (drain region) :=
  .mapM (fun item => (mints_take item).bind fun _ => .pure _) _

end Recovery

namespace Loops

open Recovery
open RecoveryState (labels)

variable {inner : Inner}

lemma mints_scopeParts? (layout : Layout) (region : Region) (item : Nat) (env : Expr)
    (skip enter : LabelId) : Mints labels (scopeParts? layout region item env skip enter) := by
  unfold scopeParts?
  split
  · split
    · exact .pure _
    · refine (mints_basicBlock? _).bind fun found => ?_
      split
      · split <;> exact .pure _
      · exact .pure _
  · exact .pure _

lemma mints_closeScope (item : Nat) (parts : ScopeParts) (body : List Stmt) :
    Mints labels (closeScope item parts body) := by
  refine (mints_basicBlock? item).bind fun found => ?_
  split
  · exact mints_setSlot _ _
  · exact .pure _

lemma mints_testedLoop (item : Nat) (test : Test) (body : List Stmt) :
    Mints labels (testedLoop item test body) := by
  refine (mints_take item).bind fun s => ?_
  split
  · exact .pure _
  · exact .throw _

lemma mints_endlessLoop (head : LabelId) (body : List Stmt) : Mints labels (endlessLoop head body) :=
  (mints_fresh (by simp [stems])).bind fun _ => .pure _

lemma mints_recoverLoop (hinner : ∀ region node out, Mints labels (inner region node out))
    (layout : Layout) (progress : Progress) (item : Nat) :
    Mints labels (recoverLoop inner layout progress item) := by
  refine (mints_basicBlock? item).bind fun header => ?_
  split
  · refine (mints_remove _ _).bind fun content => (mints_remove _ _).bind fun region => ?_
    refine (mints_claimAll _ _).bind fun region => (hinner _ _ _).bind fun body => ?_
    exact (mints_testedLoop _ _ _).bind fun _ => .pure _
  · split
    · exact .throw _
    · refine (mints_claimAll _ _).bind fun region => (hinner _ _ _).bind fun body => ?_
      exact (mints_endlessLoop _ _).bind fun _ => .pure _

lemma mints_recoverScope (hinner : ∀ region node out, Mints labels (inner region node out))
    (layout : Layout) (region : Region) (item : Nat) :
    Mints labels (recoverScope inner layout region item) := by
  refine (mints_basicBlock? item).bind fun header => ?_
  split
  · exact .pure _
  · refine (mints_scopeParts? _ _ _ _ _ _).bind fun parts => ?_
    split
    · exact (mints_reportError _ _).bind fun _ => .pure _
    · refine (mints_claimAll _ _).bind fun region => (mints_remove _ _).bind fun region => ?_
      refine (mints_take _).bind fun _ => (hinner _ _ _).bind fun body => ?_
      exact (mints_closeScope _ _ _).bind fun _ => .pure _

lemma mints_recoverAt (hinner : ∀ region node out, Mints labels (inner region node out))
    (layout : Layout) (withoutLoop : Nat → Bool) (progress : Progress) (node : Nat) :
    Mints labels (recoverAt inner layout withoutLoop progress node) := by
  unfold recoverAt
  split
  · split
    · refine (mints_recoverScope hinner _ _ _).bind fun region => ?_
      split
      · exact mints_recoverLoop hinner _ _ _
      · exact .pure _
    · exact .pure _
  · exact .pure _

/-- The recovery of loops and scopes only mints labels. -/
lemma mints_recover (layout : Layout) (fuel : Nat) (region : Region) (entry : Nat)
    (excludeEntry : Bool) : Mints labels (recover layout fuel region entry excludeEntry) := by
  induction fuel generalizing region entry excludeEntry with
  | zero => exact (mints_drain region).bind fun _ => .pure _
  | succ fuel ih =>
    refine (Mints.foldlM (mints_recoverAt ih layout _) _ _).bind fun progress => ?_
    exact (mints_drain _).bind fun _ => .pure _

end Loops

/-- The recovery of loops and scopes only mints labels. -/
lemma minted_findLoops (block : Block) (context : Context) :
    Minted context.labels (findLoops block context).2.labels := by
  simp only [findLoops, Recovery.run_eq]
  exact Loops.mints_recover _ _ _ _ _ (.start block.body context)

namespace Conditions

open Recovery
open RecoveryState (labels)

variable {inner : Inner}

lemma mints_takeBlock (item : Nat) : Mints labels (takeBlock item) := by
  refine (mints_take item).bind fun s => ?_
  split
  · exact .pure _
  · exact .throw _

lemma mints_openBlock (region : Region) (item : Nat) : Mints labels (openBlock region item) :=
  (mints_remove region item).bind fun _ => (mints_takeBlock item).bind fun _ => .pure _

lemma mints_claimDominated (hinner : ∀ region node, Mints labels (inner region node))
    (layout : Layout) (region : Region) (node : Nat) :
    Mints labels (claimDominated inner layout region node) :=
  (mints_claimAll _ _).bind fun _ => (hinner _ _).bind fun _ => .pure _

lemma mints_arm (hinner : ∀ region node, Mints labels (inner region node)) (layout : Layout)
    (region : Region) (label : LabelId) : Mints labels (arm inner layout region label) := by
  unfold arm
  split
  · exact .pure _
  · split
    · exact (mints_claimDominated hinner _ _ _).bind fun _ => .pure _
    · exact .pure _

lemma mints_recoverCondition (hinner : ∀ region node, Mints labels (inner region node))
    (layout : Layout) (region : Region) (item : Nat) :
    Mints labels (recoverCondition inner layout region item) := by
  refine (mints_basicBlock? item).bind fun found => ?_
  split
  · exact .pure _
  · refine (mints_openBlock _ _).bind fun _ => (mints_arm hinner _ _ _).bind fun _ => ?_
    exact (mints_arm hinner _ _ _).bind fun _ => .pure _

lemma mints_caseEnd : Mints labels caseEnd :=
  (mints_fresh (by simp [stems])).bind fun _ => .pure _

lemma mints_recoverCase (hinner : ∀ region node, Mints labels (inner region node))
    (layout : Layout) (joins : List Nat) (progress : List SwitchCase × Region)
    (group : LabelId × List Expr) : Mints labels (recoverCase inner layout joins progress group) := by
  unfold recoverCase
  dsimp only
  split
  · exact .pure _
  · exact (mints_claimDominated hinner _ _ _).bind fun _ => mints_caseEnd.bind fun _ => .pure _

lemma mints_recoverDefault (hinner : ∀ region node, Mints labels (inner region node))
    (layout : Layout) (joins : List Nat) (region : Region) (fall : LabelId) :
    Mints labels (recoverDefault inner layout joins region fall) := by
  unfold recoverDefault
  split
  · exact .pure _
  · split
    · exact .pure _
    · exact (mints_claimDominated hinner _ _ _).bind fun _ => mints_caseEnd.bind fun _ => .pure _

lemma mints_recoverSwitch (hinner : ∀ region node, Mints labels (inner region node))
    (layout : Layout) (region : Region) (item : Nat) :
    Mints labels (recoverSwitch inner layout region item) := by
  refine (mints_basicBlock? item).bind fun found => ?_
  split
  · exact .pure _
  · refine (mints_openBlock _ _).bind fun _ => ?_
    refine (Mints.foldlM (mints_recoverCase hinner _ _) _ _).bind fun _ => ?_
    refine (mints_recoverDefault hinner _ _ _ _).bind fun _ => ?_
    split <;> exact .pure _

lemma mints_recoverAt (hinner : ∀ region node, Mints labels (inner region node)) (layout : Layout)
    (progress : List Stmt × Region) (node : Nat) :
    Mints labels (recoverAt inner layout progress node) := by
  unfold recoverAt
  dsimp only
  split
  · split
    · refine (mints_recoverSwitch hinner _ _ _).bind fun _ => ?_
      split
      · exact .pure _
      · refine (mints_recoverCondition hinner _ _ _).bind fun _ => ?_
        split
        · exact .pure _
        · exact (mints_remove _ _).bind fun _ => (mints_take _).bind fun _ => .pure _
    · exact .pure _
  · exact .pure _

lemma mints_recover (layout : Layout) (fuel : Nat) (region : Region) (entry : Nat) :
    Mints labels (recover layout fuel region entry) := by
  induction fuel generalizing region entry with
  | zero => exact (mints_drain region).bind fun _ => .pure _
  | succ fuel ih =>
    refine (Mints.foldlM (mints_recoverAt ih layout) _ _).bind fun _ => ?_
    exact (mints_drain _).bind fun _ => .pure _

lemma mints_recoverBlockStep (entry : Option LabelId) (body : List Stmt) :
    Mints Context.labels (recoverBlockStep entry body) := by
  intro context
  change Minted context.labels (recoverBlock ⟨entry, body⟩ context).2.labels
  unfold recoverBlock
  split
  · exact .refl
  · simp only [Recovery.run_eq]
    exact mints_recover _ _ _ _ (.start body context)

mutual

lemma mints_inItem : (s : Stmt) → Mints Context.labels (inItem s)
  | .basic block => by
    rw [inItem]
    exact (mints_inBasicBlock block.body).bind fun _ => .pure _
  | .label _ | .raw _ _ | .push _ | .assign _ _ | .call _ _ | .discard _ | .goto _ | .condGoto _ _
  | .pushEnv _ _ | .popEnv _ | .dispatch _ _ _ | .ret _ | .exit | .breakOut | .continueLoop | .seq _
  | .cond _ _ _ | .loop _ _ | .switch _ _ | .scope _ _ _ => .pure _

lemma mints_inItems : (list : List Stmt) → Mints Context.labels (inItems list)
  | [] => .pure _
  | s :: rest => by
    rw [inItems]
    exact (mints_inItem s).bind fun _ => (mints_inItems rest).bind fun _ => .pure _

lemma mints_inLoop : (s : Stmt) → Mints Context.labels (inLoop s)
  | .loop test block | .scope env block stop => by
    rw [inLoop]
    refine (mints_inItems block.body).bind fun items => ?_
    exact (mints_recoverBlockStep block.entry items).bind fun _ => .pure _
  | .label _ | .raw _ _ | .push _ | .assign _ _ | .call _ _ | .discard _ | .goto _ | .condGoto _ _
  | .pushEnv _ _ | .popEnv _ | .dispatch _ _ _ | .ret _ | .exit | .breakOut | .continueLoop
  | .basic _ | .seq _ | .cond _ _ _ | .switch _ _ => .pure _

lemma mints_inBasicBlock : (list : List Stmt) → Mints Context.labels (inBasicBlock list)
  | [] => .pure _
  | s :: rest => by
    rw [inBasicBlock]
    exact (mints_inLoop s).bind fun _ => (mints_inBasicBlock rest).bind fun _ => .pure _

end

end Conditions

/-- The recovery of conditions and switches only mints labels. -/
lemma minted_findConditions (block : Block) (context : Context) :
    Minted context.labels (findConditions block context).2.labels :=
  ((Conditions.mints_inItems block.body).bind fun items =>
    Conditions.mints_recoverBlockStep block.entry items) context

/-! ### Units -/

/-- A run of rules only mints labels. -/
lemma mints_rewrite (rules : List Rule) (maxSweeps : Nat) (blocks : List BasicBlock) :
    Mints Context.labels (simplifiedBlocks.rewrite (runFixpoint rules maxSweeps blocks)) :=
  fun context => (Fixpoint.rewriting_runFixpoint rules maxSweeps blocks context).minted

/-- The way from the simplified blocks of a unit to its tree only mints labels. -/
lemma mints_treeOf (blocks : List BasicBlock) : Mints Context.labels (treeOf blocks) := by
  refine Mints.bind (minted_findLoops _) fun tree => ?_
  exact Mints.bind (minted_findConditions _) fun tree => (Mints.ofExcept _).bind fun _ => .pure _

/-- The names of a unit: none or those of its decoded labels, and those of labels minted since. -/
def Labels.OfUnit (names : Names) (bytes : List UInt8) (labels : Labels) : Prop :=
  ∃ start, (start = {} ∨ ∃ code, decode names bytes = .ok code ∧ start = .ofTable code.labels) ∧
    Minted start labels

/-- A label has been handed out, and it is the only one of its name. -/
def Labels.Identifies (labels : Labels) (id : LabelId) : Prop :=
  id < labels.names.length ∧
    ∀ other < labels.names.length, labels.name other = labels.name id → other = id

namespace Labels.OfUnit

variable {names : Names} {bytes : List UInt8} {labels : Labels}

/-- The names of a unit are numbered. -/
lemma numbered (h : labels.OfUnit names bytes) : labels.Numbered := by
  obtain ⟨start, rfl | ⟨code, hdecode, rfl⟩, hminted⟩ := h
  · exact hminted.numbered numbered_start
  · exact hminted.numbered (numbered_ofTable (decode_isProper hdecode).labels_nodup)

/-- Minting leads from names of a unit to names of the unit. -/
lemma minted {later : Labels} (h : labels.OfUnit names bytes) (hlater : Minted labels later) :
    later.OfUnit names bytes := by
  obtain ⟨start, hstart, hminted⟩ := h
  exact ⟨start, hstart, hminted.trans hlater⟩

/-- Each label of a unit is the only one of its name. -/
lemma identifies (h : labels.OfUnit names bytes) {id : LabelId} (hid : id < labels.names.length) :
    labels.Identifies id :=
  ⟨hid, fun _ hother heq => h.numbered.name_inj hother hid heq⟩

end Labels.OfUnit

/-- The names at the end of the way of a unit, wherever it ends. -/
lemma ofUnit_treeOf (names : Names) (options : Options) (bytes : List UInt8) (name : String) :
    (exec (simplifiedBlocks names options bytes >>= treeOf) (unitContext name)).2.labels.OfUnit
      names bytes := by
  have hstart : exec (MonadExcept.ofExcept ((decode names bytes).mapError Error.decode))
      (unitContext name) = ((decode names bytes).mapError Error.decode, unitContext name) := by
    cases decode names bytes <;> rfl
  unfold simplifiedBlocks
  rw [bind_assoc]
  cases hdecode : decode names bytes with
  | error e =>
    rw [hdecode] at hstart
    rw [exec_bind_of_error hstart]
    exact ⟨{}, .inl rfl, .refl⟩
  | ok code =>
    rw [hdecode] at hstart
    rw [exec_bind_of_ok hstart]
    refine ⟨.ofTable code.labels, .inr ⟨code, hdecode, rfl⟩, ?_⟩
    rw [bind_assoc, exec_bind_of_ok (rfl : exec (modify _) (unitContext name) = (.ok (), _))]
    -- From here on every step mints.
    refine (?_ : Mints Context.labels _) { unitContext name with labels := .ofTable code.labels }
    simp only [bind_assoc]
    refine (Mints.ofExcept _).bind fun stmts => Mints.bind ?_ fun blocks => ?_
    · exact fun context => minted_partition context.labels stmts
    · refine (mints_rewrite _ _ _).bind fun blocks => Mints.bind (.of_eq fun _ => rfl) fun labels => ?_
      refine (Mints.ofExcept _).bind fun blocks => (mints_rewrite _ _ _).bind fun blocks => ?_
      exact mints_treeOf blocks

/-- The final tree of a unit leads to labels that have been handed out. -/
lemma target_lt_of_recoverTree {names : Names} {options : Options} {name : String}
    {bytes : List UInt8} {tree : Block}
    (h : (exec (recoverTree names options bytes) { context := unitContext name }).1 = .ok tree)
    {target : LabelId} (htarget : target ∈ tree.entry.toList ++ Stmt.targetsOfList tree.body) :
    target < (exec (recoverTree names options bytes)
      { context := unitContext name }).2.context.labels.names.length := by
  obtain ⟨blocks, context, hblocks, hwf, hsimple, htree⟩ := recoverTree_eq_ok h
  have hlt : target < context.labels.names.length := by
    refine leads_treeOf (P := (· < context.labels.names.length))
      (hwf.soundBlocks_of_isSimple hsimple) hwf.leadsFrom ?_ htree target htarget
    intro label hlabel
    obtain ⟨block, hblock, hentry⟩ := Option.bind_eq_some_iff.mp hlabel
    exact (hwf.shaped_of_label (List.mem_of_mem_head? hblock) hentry).1
  rw [(recoverTree_does names options bytes { context := unitContext name }).2,
    exec_bind_of_ok hblocks]
  exact Nat.lt_of_lt_of_le hlt (mints_treeOf blocks context).names_isPrefixOf.length_le

/-- What a unit has built before a fault leads to labels that have been handed out. -/
lemma target_lt_of_built {names : Names} {options : Options} {name : String} {bytes : List UInt8}
    {e : Error} {built : List Stmt}
    (h : (exec (recoverTree names options bytes) { context := unitContext name }).1 = .error e)
    (hbuilt : e.built? = some built) {target : LabelId} (htarget : target ∈ Stmt.targetsOfList built) :
    target < (exec (recoverTree names options bytes)
      { context := unitContext name }).2.context.labels.names.length := by
  obtain ⟨hresult, hcontext⟩ := recoverTree_does names options bytes { context := unitContext name }
  rw [hresult] at h
  rw [hcontext]
  rcases lawful_simplifiedBlocks names options bytes (unitContext name) with
    ⟨blocks, context, hblocks, hwf, hsimple⟩ | ⟨e', t, hfails, hlawful⟩
  · rw [exec_bind_of_ok hblocks] at h
    rcases treeOf_cases (hwf.soundBlocks_of_isSimple hsimple) context with
      ⟨⟨tree, t, htree, -⟩, -⟩ | ⟨hgone, -, -⟩
    · rw [htree] at h
      cases h
    · cases hgone.symm.trans h
      cases hbuilt
  · rw [exec_bind_of_error hfails] at h ⊢
    cases h
    exact Stmt.leads_list.mpr (hlawful.builtLeads built hbuilt) target htarget

/-- No label shares its name with another one, at any point of a unit.  Whatever labels are minted for
whichever of the stems behind the decoded ones, the names stay apart and each label keeps its own
(`Labels.OfUnit`), and minting is all that the passes do to the names, whether they succeed or not.  So
each branch that is printed, in the final tree or among the statements that were built before a fault,
names exactly one label: plain jumps and entries of blocks, and conditional branches that have found no
structure. -/
theorem identifies_recoverTree (names : Names) (options : Options) (name : String)
    (bytes : List UInt8) :
    (∀ labels : Labels, labels.OfUnit names bytes →
      labels.names.Nodup ∧ (∀ id < labels.names.length, labels.Identifies id) ∧
        ∀ later, Minted labels later → later.OfUnit names bytes ∧ labels.names <+: later.names ∧
          ∀ id < labels.names.length, later.name id = labels.name id) ∧
    (∀ labels stmts, Minted labels (partition labels stmts).2) ∧
    (∀ (rule : Rule) site context, Minted context.labels (rule.edit? site context).2.labels) ∧
    (∀ block context, Minted context.labels (findLoops block context).2.labels) ∧
    (∀ block context, Minted context.labels (findConditions block context).2.labels) ∧
    ∃ result last, exec (recoverTree names options bytes) { context := unitContext name } =
        (result, last) ∧
      last.context.labels.OfUnit names bytes ∧
      (∀ tree, result = .ok tree → ∀ target ∈ tree.entry.toList ++ Stmt.targetsOfList tree.body,
        last.context.labels.Identifies target) ∧
      ∀ e built, result = .error e → e.built? = some built →
        ∀ target ∈ Stmt.targetsOfList built, last.context.labels.Identifies target := by
  refine ⟨?_, minted_partition, Rule.minted_edit?, minted_findLoops, minted_findConditions,
    _, _, rfl, ?_⟩
  · intro labels hlabels
    refine ⟨hlabels.numbered.nodup, fun id hid => hlabels.identifies hid, fun later hlater => ?_⟩
    exact ⟨hlabels.minted hlater, hlater.names_isPrefixOf, fun id hid => hlater.name_eq hid⟩
  · have hunit : (exec (recoverTree names options bytes)
        { context := unitContext name }).2.context.labels.OfUnit names bytes := by
      rw [(recoverTree_does names options bytes { context := unitContext name }).2]
      exact ofUnit_treeOf names options bytes name
    refine ⟨hunit, fun tree htree target htarget => hunit.identifies ?_,
      fun e built herror hbuilt target htarget => hunit.identifies ?_⟩
    · exact target_lt_of_recoverTree htree htarget
    · exact target_lt_of_built herror hbuilt htarget

/-- Code that counts from three down to zero on the stack, stops counting when `c` is set, and then sets
`z` in one of two ways and in most cases once more. -/
def countdownThenSkips : List UInt8 :=
  [0, 0, 0x02, 0xc0, 3, 0, 0, 0, 0, 0, 0x05, 0x82, 0, 0, 0x02, 0xc0, 0, 0, 0, 0, 0, 0, 0x55, 0x12,
    0x09, 0, 0, 0xb8, 0xff, 0xff, 0x05, 0xc0, 0x01, 0, 0, 0xa0, 0x06, 0, 0, 0xb8,
    0, 0, 0x02, 0xc0, 1, 0, 0, 0, 0, 0, 0x55, 0x09, 0, 0, 0x05, 0x82, 0xf9, 0xff, 0xff, 0xb8,
    0, 0, 0, 0x9f, 0xff, 0xff, 0x05, 0xc0, 0x01, 0, 0, 0xa0, 0x08, 0, 0, 0xb8,
    0xff, 0xff, 0x05, 0xc0, 0x02, 0, 0, 0xa0, 0x0c, 0, 0, 0xb8,
    0x01, 0, 0x0f, 0xc0, 0xff, 0xff, 0x55, 0x41, 0, 0, 0, 0xa0, 0x0b, 0, 0, 0xb7,
    0x02, 0, 0x0f, 0xc0, 0xff, 0xff, 0x55, 0x41, 0, 0, 0, 0xa0,
    0xff, 0xff, 0x05, 0xc0, 0x03, 0, 0, 0xa0, 0x02, 0, 0, 0xb8, 0x04, 0, 0, 0xb7,
    0x03, 0, 0x0f, 0xc0, 0xff, 0xff, 0x55, 0x41, 0, 0, 0, 0xa0, 0, 0, 0, 0x9e]

/-- Both jumps that remain lead to one label, and no other label is named like it. -/
theorem countdownThenSkips_identified :
    ∃ tree last, exec (recoverTree { strings := ["z", "c", "d", "e"] } {} countdownThenSkips)
        { context := unitContext "unit" } = (.ok tree, last) ∧
      last.context.labels.names = ["L15", "L7", "L26", "L33", "L36", "Block_0", "Block_1", "Block_2",
        "Block_3", "Block_4", "Repeat_0"] ∧
      tree.gotos.map PlacedJump.target = [4, 4] ∧ Stmt.targetsOfList tree.body = [4, 4] ∧
      last.context.labels.Identifies 4 := by
  have houtcome : (exec (recoverTree { strings := ["z", "c", "d", "e"] } {} countdownThenSkips)
        { context := unitContext "unit" }).2.context.labels.names = ["L15", "L7", "L26", "L33", "L36",
          "Block_0", "Block_1", "Block_2", "Block_3", "Block_4", "Repeat_0"] ∧
      (exec (recoverTree { strings := ["z", "c", "d", "e"] } {} countdownThenSkips)
        { context := unitContext "unit" }).1.toOption.map (fun tree =>
          (tree.gotos.map PlacedJump.target, Stmt.targetsOfList tree.body)) =
        some ([4, 4], [4, 4]) := by
    unfold recoverTree
    rw [decode_eq_decodeBounded]
    decide +kernel
  obtain ⟨-, -, -, -, -, result, last, hrun, -, htree, -⟩ :=
    identifies_recoverTree { strings := ["z", "c", "d", "e"] } {} "unit" countdownThenSkips
  rw [hrun] at houtcome
  obtain ⟨hnames, htargets⟩ := houtcome
  cases result with
  | error e => cases htargets
  | ok tree =>
    obtain ⟨hgotos, htargets⟩ := Prod.mk.inj (Option.some.inj htargets)
    refine ⟨tree, last, hrun, hnames, hgotos, htargets, ?_⟩
    exact htree tree rfl 4 (List.mem_append_right _ (by simp [htargets]))

end Decompiler
