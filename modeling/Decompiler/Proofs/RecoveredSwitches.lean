import Mathlib.Data.List.TakeWhile
import Decompiler.Proofs.ConditionArrangements
import Decompiler.Proofs.DispatchExecution
import Decompiler.Proofs.SplicedTrees

/-!
# Switches in the place of dispatches

A dispatch tries its constants one after the other, a recovered switch has them grouped by target and
sorted.  When no two constants match the same value, the order does not matter, and the switch goes where
the dispatch went (`enters_switch`).
-/

namespace Decompiler

namespace Conditions

open Execution Flatten

variable {V : Type} {fits : V → Expr → Bool} {cases : List (Expr × LabelId)} {default fall : LabelId}
  {own : List SwitchCase}

/-- No two constants of a dispatch match the same value. -/
def Distinct (fits : V → Expr → Bool) (cases : List (Expr × LabelId)) : Prop :=
  cases.Pairwise fun a b => ∀ v, ¬ (fits v a.1 = true ∧ fits v b.1 = true)

/-- A dispatch goes to the target of the constant that matches. -/
lemma Distinct.dispatchTo_eq (h : Distinct fits cases) {v : V} {value : Expr} {target : LabelId}
    (hmem : (value, target) ∈ cases) (hfits : fits v value = true) :
    dispatchTo (fits v) cases default = target := by
  rw [dispatchTo]
  cases hfind : cases.find? fun c => fits v c.1 with
  | none => exact absurd hfits (List.find?_eq_none.mp hfind _ hmem)
  | some c =>
    have hc := List.mem_of_find?_eq_some hfind
    have hfits' : fits v c.1 = true := by simpa using List.find?_some hfind
    have hsymm : Std.Symm fun a b : Expr × LabelId => ∀ v, ¬ (fits v a.1 = true ∧ fits v b.1 = true) :=
      ⟨fun a b hab v hba => hab v hba.symm⟩
    have heq : c = (value, target) := by
      by_contra hne
      exact List.Pairwise.forall h hc hmem hne v ⟨hfits', hfits⟩
    rw [heq]
    rfl

/-- A dispatch goes to its default when no constant matches. -/
lemma dispatchTo_eq_default {matched : Expr → Bool} (h : ∀ c ∈ cases, matched c.1 = false) :
    dispatchTo matched cases default = default := by
  have hfind : (cases.find? fun c => matched c.1) = none :=
    List.find?_eq_none.mpr fun c hc => by simp [h c hc]
  rw [dispatchTo, hfind]
  rfl

/-- The first case with a value that matches is entered. -/
lemma enteredCases_of_any {matched : Expr → Bool} {list : List SwitchCase}
    (h : ∃ c ∈ list, c.values.any matched = true) (more : List SwitchCase) :
    ∃ c later, c ∈ list ∧ c.values.any matched = true ∧
      enteredCases matched (list ++ more) = c :: later := by
  have hdrop : ∃ c later, c ∈ list ∧ c.values.any matched = true ∧
      ((list ++ more).dropWhile fun c => !c.values.any matched) = c :: later := by
    induction list with
    | nil => simp at h
    | cons c rest ih =>
      by_cases hc : c.values.any matched = true
      · exact ⟨c, rest ++ more, List.mem_cons_self, hc, by simp [hc]⟩
      · obtain ⟨d, hd, hmatch⟩ := h
        have hrest : d ∈ rest := by
          rcases List.mem_cons.mp hd with rfl | hd
          · exact absurd hmatch hc
          · exact hd
        obtain ⟨e, later, he, hmatch', hlater⟩ := ih ⟨d, hrest, hmatch⟩
        refine ⟨e, later, List.mem_cons_of_mem _ he, hmatch', ?_⟩
        rw [List.cons_append, List.dropWhile_cons, if_pos (by simp [hc]), hlater]
  obtain ⟨c, later, hc, hmatch, hlater⟩ := hdrop
  exact ⟨c, later, hc, hmatch, by rw [enteredCases, hlater]⟩

/-- The default case is entered when no value matches. -/
lemma enteredCases_of_none {matched : Expr → Bool} {list : List SwitchCase}
    (h : ∀ c ∈ list, c.values.any matched = false) :
    enteredCases matched list = list.dropWhile fun c => !c.isDefault := by
  have hdrop : (list.dropWhile fun c => !c.values.any matched) = [] :=
    List.dropWhile_eq_nil_iff.mpr fun c hc => by rw [h c hc]; rfl
  rw [enteredCases, hdrop]

/-- The element that an element of a related list is related to. -/
lemma exists_of_forall₂ {α β : Type} {R : α → β → Prop} {a : List α} {b : List β}
    (h : List.Forall₂ R a b) {y : β} (hy : y ∈ b) : ∃ x ∈ a, R x y := by
  induction h with
  | nil => cases hy
  | cons hxy _ ih =>
    rcases List.mem_cons.mp hy with rfl | hy
    · exact ⟨_, List.mem_cons_self, hxy⟩
    · obtain ⟨x, hx, hxy'⟩ := ih hy
      exact ⟨x, List.mem_cons_of_mem _ hx, hxy'⟩

/-- A recovered case starts with the jump to the target of its values. -/
lemma exists_target (hown : List.Forall₂ OfGroup (groups cases []) own) {c : SwitchCase}
    (hc : c ∈ spliceCases (sortCases own)) : c.isDefault = false ∧
      ∃ target body, c.body = ⟨none, .goto target :: body⟩ ∧
        ∀ value ∈ c.values, (value, target) ∈ cases := by
  rw [spliceCases_eq_map] at hc
  obtain ⟨d, hd, rfl⟩ := List.mem_map.mp hc
  obtain ⟨e, he, hsame⟩ := exists_sameCase hd
  obtain ⟨group, hgroup, hof⟩ := exists_of_forall₂ hown he
  refine ⟨hsame.isDefault.trans hof.isDefault, group.1, splice e.body.body, ?_, ?_⟩
  · simp [spliced, hsame.body, hof.entry, entryJump]
  · intro value hvalue
    have hmem : value ∈ group.2 := hof.values ▸ hsame.values.mem_iff.mp hvalue
    have hgroups := mem_groups.mp ⟨group, hgroup, rfl, hmem⟩
    simpa using hgroups

/-- Each constant of a dispatch is a value of a recovered case. -/
lemma exists_case (hown : List.Forall₂ OfGroup (groups cases []) own) {value : Expr}
    {target : LabelId} (hmem : (value, target) ∈ cases) :
    ∃ c ∈ spliceCases (sortCases own), value ∈ c.values := by
  obtain ⟨f, hf, hperm⟩ := sortCases_perm own
  have hexists : ∃ group ∈ groups cases [], group.1 = target ∧ value ∈ group.2 :=
    mem_groups.mpr (.inl hmem)
  obtain ⟨group, hgroup, -, hvalue⟩ := hexists
  obtain ⟨c, hc, hof⟩ := exists_of_forall₂ hown.flip hgroup
  rw [spliceCases_eq_map]
  refine ⟨_, List.mem_map_of_mem (hperm.mem_iff.mpr (List.mem_map_of_mem hc)), ?_⟩
  exact (hf c).values.mem_iff.mpr (hof.values ▸ hvalue)

/-- A recovered switch goes where the dispatch went. -/
lemma enters_switch (hown : List.Forall₂ OfGroup (groups cases []) own)
    (hdistinct : Distinct fits cases) (last : Option (List Stmt)) (rest : List Stmt) (v : V)
    (frames : List Frame) : Enters (dispatchTo (fits v) cases fall) frames
      (enterCase (spliceStmts (fallJump fall last) ++ rest) frames
        (enteredCases (fits v) (spliceCases (sortCases own ++ defaultCase fall last)))) := by
  have happend : spliceCases (sortCases own ++ defaultCase fall last) =
      spliceCases (sortCases own) ++ spliceCases (defaultCase fall last) := by
    simp only [spliceCases_eq_map, List.map_append]
  rw [happend]
  by_cases hany : ∃ c ∈ spliceCases (sortCases own), c.values.any (fits v) = true
  · obtain ⟨c, later, hc, hmatch, hentered⟩ :=
      enteredCases_of_any hany (spliceCases (defaultCase fall last))
    obtain ⟨-, target, body, hbody, htarget⟩ := exists_target hown hc
    obtain ⟨value, hvalue, hfits⟩ := List.any_eq_true.mp hmatch
    rw [hentered, hdistinct.dispatchTo_eq (htarget value hvalue) hfits, enterCase, hbody]
    exact .case _ _ _
  · have hnone : ∀ c ∈ spliceCases (sortCases own), c.values.any (fits v) = false :=
      fun c hc => Bool.eq_false_iff.mpr fun h => hany ⟨c, hc, h⟩
    have hdefault : dispatchTo (fits v) cases fall = fall := by
      refine dispatchTo_eq_default fun c hc => ?_
      obtain ⟨d, hd, hvalue⟩ := exists_case hown hc
      exact Bool.eq_false_iff.mpr fun h =>
        Bool.eq_false_iff.mp (hnone d hd) (List.any_eq_true.mpr ⟨_, hvalue, h⟩)
    have hall : ∀ c ∈ spliceCases (sortCases own) ++ spliceCases (defaultCase fall last),
        c.values.any (fits v) = false := by
      intro c hc
      rcases List.mem_append.mp hc with hc | hc
      · exact hnone c hc
      · cases last with
        | none => cases hc
        | some body =>
          rw [List.mem_singleton.mp hc]
          rfl
    have hpass : ∀ c ∈ spliceCases (sortCases own), (!c.isDefault) = true := fun c hc => by
      rw [(exists_target hown hc).1]
      rfl
    rw [enteredCases_of_none hall, List.dropWhile_append_of_pos hpass, hdefault]
    cases last with
    | none => exact .behind _
    | some body => exact .case _ _ _

end Conditions

end Decompiler
