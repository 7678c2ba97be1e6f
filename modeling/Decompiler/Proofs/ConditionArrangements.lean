import Mathlib.Algebra.BigOperators.Group.Multiset.Basic
import Mathlib.Data.List.Nodup
import Decompiler.Flow.Conditions
import Decompiler.Proofs.BlockLists

/-!
# Arrangements of conditions

What the recovery of conditions makes of a list of items.  Each block of the result has taken the place
of one item: it is the item, or the item with a condition or a switch in the place of the branch at its
end (`Reshaped`).  The arms and cases hold lists of the same kind again (`Arranges`), and the only other
blocks are those that end a case.

An arrangement comes with the items that it is made of, each as often as it went in, so that nothing can
get lost or be copied on the way unseen.
-/

namespace Decompiler

namespace Conditions

/-! ### Groups -/

lemma isSome_lookup_iff {found : List (LabelId × List Expr)} {label : LabelId} :
    (found.lookup label).isSome = true ↔ label ∈ found.map Prod.fst := by
  induction found with
  | nil => simp
  | cons group rest ih =>
    obtain ⟨l, values⟩ := group
    by_cases h : label = l
    · simp [h]
    · simp [List.lookup_cons, h, ih, beq_false_of_ne h]

/-- Each target has one group. -/
lemma nodup_groups {cases : List (Expr × LabelId)} {found : List (LabelId × List Expr)}
    (h : (found.map Prod.fst).Nodup) : ((groups cases found).map Prod.fst).Nodup := by
  induction cases generalizing found with
  | nil => exact h
  | cons c rest ih =>
    obtain ⟨value, label⟩ := c
    rw [groups]
    split
    · refine ih ?_
      simpa [Function.comp_def] using h
    · rename_i hnone
      refine ih ?_
      rw [isSome_lookup_iff] at hnone
      rw [List.map_append, List.nodup_append']
      exact ⟨h, List.nodup_singleton _, by simpa using hnone⟩

/-- The targets that have groups. -/
lemma mem_map_groups {cases : List (Expr × LabelId)} {found : List (LabelId × List Expr)}
    {label : LabelId} : label ∈ (groups cases found).map Prod.fst ↔
      label ∈ found.map Prod.fst ∨ label ∈ cases.map Prod.snd := by
  induction cases generalizing found with
  | nil => simp [groups]
  | cons c rest ih =>
    obtain ⟨value, label'⟩ := c
    rw [groups]
    split
    · rename_i hsome
      rw [isSome_lookup_iff] at hsome
      rw [ih, List.map_map, List.map_cons, List.mem_cons]
      constructor
      · rintro (h | h)
        · exact .inl (by simpa [Function.comp_def] using h)
        · exact .inr (.inr h)
      · rintro (h | rfl | h)
        · exact .inl (by simpa [Function.comp_def] using h)
        · exact .inl (by simpa [Function.comp_def] using hsome)
        · exact .inr h
    · simp only [ih, List.map_append, List.map_cons, List.map_nil, List.mem_append, List.mem_cons,
        List.not_mem_nil, or_false]
      tauto

/-- A group holds the values that lead to its target. -/
lemma mem_groups {cases : List (Expr × LabelId)} {found : List (LabelId × List Expr)}
    {label : LabelId} {value : Expr} :
    (∃ group ∈ groups cases found, group.1 = label ∧ value ∈ group.2) ↔
      (value, label) ∈ cases ∨ ∃ group ∈ found, group.1 = label ∧ value ∈ group.2 := by
  induction cases generalizing found with
  | nil => simp [groups]
  | cons c rest ih =>
    obtain ⟨value', label'⟩ := c
    rw [groups]
    split
    · rename_i hsome
      rw [isSome_lookup_iff, List.mem_map] at hsome
      obtain ⟨group', hgroup', rfl⟩ := hsome
      rw [ih, List.mem_cons]
      constructor
      · rintro (h | ⟨_, hmem, rfl, hvalue⟩)
        · exact .inl (.inr h)
        · obtain ⟨group, hgroup, rfl⟩ := List.mem_map.mp hmem
          dsimp only at hvalue
          split at hvalue
          · rename_i hlabel
            rcases List.mem_append.mp hvalue with hvalue | hvalue
            · exact .inr ⟨group, hgroup, rfl, hvalue⟩
            · rw [List.mem_singleton.mp hvalue, ← hlabel]
              exact .inl (.inl rfl)
          · exact .inr ⟨group, hgroup, rfl, hvalue⟩
      · rintro ((h | h) | ⟨group, hgroup, rfl, hvalue⟩)
        · obtain ⟨rfl, rfl⟩ := Prod.mk.inj h
          refine .inr ⟨_, List.mem_map_of_mem hgroup', rfl, ?_⟩
          simp
        · exact .inl h
        · refine .inr ⟨_, List.mem_map_of_mem hgroup, rfl, ?_⟩
          dsimp only
          split
          · exact List.mem_append_left _ hvalue
          · exact hvalue
    · rw [ih, List.mem_cons]
      simp only [List.mem_append, List.mem_singleton, Prod.mk.injEq]
      constructor
      · rintro (h | ⟨group, hgroup | rfl, hlabel, hvalue⟩)
        · exact .inl (.inr h)
        · exact .inr ⟨group, hgroup, hlabel, hvalue⟩
        · exact .inl (.inl ⟨List.mem_singleton.mp hvalue, hlabel.symm⟩)
      · rintro ((⟨rfl, rfl⟩ | h) | ⟨group, hgroup, hlabel, hvalue⟩)
        · exact .inr ⟨_, .inr rfl, rfl, List.mem_singleton_self _⟩
        · exact .inl h
        · exact .inr ⟨group, .inl hgroup, hlabel, hvalue⟩

/-! ### Cases -/

/-- A case of a switch that has been recovered for a group of values. -/
structure OfGroup (group : LabelId × List Expr) (c : SwitchCase) : Prop where
  isDefault : c.isDefault = false
  entry : c.body.entry = some group.1
  values : c.values = group.2

/-- Two cases that differ at most in the order of their values. -/
structure SameCase (c c' : SwitchCase) : Prop where
  isDefault : c'.isDefault = c.isDefault
  body : c'.body = c.body
  values : c'.values.Perm c.values

/-- Sorting reorders the cases and the values in each of them. -/
lemma sortCases_perm (cases : List SwitchCase) :
    ∃ f : SwitchCase → SwitchCase, (∀ c, SameCase c (f c)) ∧
      (sortCases cases).Perm (cases.map f) := by
  unfold sortCases
  split
  · exact ⟨fun c => { c with values := stableSort valueBefore c.values },
      fun c => ⟨rfl, rfl, perm_stableSort _ _⟩, perm_stableSort _ _⟩
  · exact ⟨id, fun c => ⟨rfl, rfl, .refl _⟩, by rw [List.map_id]⟩

/-- A case among the sorted ones is one of the cases, up to the order of its values. -/
lemma exists_sameCase {cases : List SwitchCase} {c : SwitchCase} (hc : c ∈ sortCases cases) :
    ∃ d ∈ cases, SameCase d c := by
  obtain ⟨f, hf, hperm⟩ := sortCases_perm cases
  obtain ⟨d, hd, rfl⟩ := List.mem_map.mp (hperm.mem_iff.mp hc)
  exact ⟨d, hd, hf d⟩

/-- The default case of a switch, if the target for all other values is its own. -/
def defaultCase (fall : LabelId) : Option (List Stmt) → List SwitchCase
  | none => []
  | some body => [{ isDefault := true, body := { entry := some fall, body } }]

/-- The jump behind a switch, if the target for all other values is not its own. -/
def fallJump (fall : LabelId) : Option (List Stmt) → List Stmt
  | none => [.goto fall]
  | some _ => []

/-! ### Blocks -/

/-- A block has taken the place of item `i`: the item itself, or the item with a condition or a switch in
the place of the branch at its end.  The lists are the code of the arms or cases. -/
inductive Reshaped (items : List Stmt) (i : Nat) : BasicBlock → List (List Stmt) → Prop where
  | same {block : BasicBlock} (hitem : items[i]? = some (.basic block)) : Reshaped items i block []
  | cond {head : BasicBlock} {init thenBody elseBody : List Stmt} {test : Expr}
      {target other : LabelId} (hitem : items[i]? = some (.basic head))
      (hbody : head.body = init ++ [.condGoto test target, .goto other]) (hinit : init ≠ []) :
      Reshaped items i
        { head with body := init ++ [.cond test ⟨some target, thenBody⟩ ⟨some other, elseBody⟩] }
        [thenBody, elseBody]
  | switch {head : BasicBlock} {init : List Stmt} {value : Expr} {cases : List (Expr × LabelId)}
      {default fall : LabelId} {own : List SwitchCase} {last : Option (List Stmt)}
      (hitem : items[i]? = some (.basic head))
      (hbody : head.body = init ++ [.dispatch value cases default, .goto fall]) (hinit : init ≠ [])
      (hown : List.Forall₂ OfGroup (groups cases []) own) :
      Reshaped items i
        { head with
          body := init ++
            (.switch value (sortCases own ++ defaultCase fall last) :: fallJump fall last) }
        ((own.map fun c => c.body.body) ++ last.toList)

/-- `list` arranges the items with the numbers `ids` of a list.  New labels are at least `bound`. -/
inductive Arranges (items : List Stmt) (bound : Nat) : List Stmt → Multiset Nat → Prop where
  | nil : Arranges items bound [] 0
  /-- A block that has taken the place of an item, with arms or cases of its own. -/
  | block {i : Nat} {block : BasicBlock} {parts : List (List Stmt × Multiset Nat)}
      {rest : List Stmt} {ids : Multiset Nat}
      (hblock : Reshaped items i block (parts.map Prod.fst))
      (hparts : ∀ part ∈ parts, Arranges items bound part.1 part.2)
      (hrest : Arranges items bound rest ids) :
      Arranges items bound (.basic block :: rest) (i ::ₘ ((parts.map Prod.snd).sum + ids))
  /-- The block that ends a case. -/
  | caseEnd {fresh : LabelId} {rest : List Stmt} {ids : Multiset Nat} (hfresh : bound ≤ fresh)
      (hrest : Arranges items bound rest ids) :
      Arranges items bound (.basic { body := [.label fresh, .breakOut] } :: rest) ids

namespace Arranges

variable {items list list' : List Stmt} {bound i : Nat} {ids ids' : Multiset Nat}

/-- One arrangement behind the other. -/
lemma append (h : Arranges items bound list ids) (h' : Arranges items bound list' ids') :
    Arranges items bound (list ++ list') (ids + ids') := by
  induction h with
  | nil =>
    rw [zero_add]
    exact h'
  | block hblock hparts _ _ ih =>
    rw [Multiset.cons_add, add_assoc]
    exact .block hblock hparts ih
  | caseEnd hfresh _ ih => exact .caseEnd hfresh ih

/-- An item as it was. -/
lemma item {block : BasicBlock} (hitem : items[i]? = some (.basic block)) :
    Arranges items bound [.basic block] {i} :=
  @Arranges.block items bound i block [] [] 0 (.same hitem) (by simp) .nil

/-- A block with two arms. -/
lemma cond {head : BasicBlock} {init thenBody elseBody : List Stmt} {test : Expr}
    {target other : LabelId} {a b : Multiset Nat} (hitem : items[i]? = some (.basic head))
    (hbody : head.body = init ++ [.condGoto test target, .goto other]) (hinit : init ≠ [])
    (hthen : Arranges items bound thenBody a) (helse : Arranges items bound elseBody b) :
    Arranges items bound
      [.basic { head with
        body := init ++ [.cond test ⟨some target, thenBody⟩ ⟨some other, elseBody⟩] }]
      (i ::ₘ (a + b)) := by
  have hblock : Arranges items bound _ (i ::ₘ ((([(thenBody, a), (elseBody, b)] :
      List (List Stmt × Multiset Nat)).map Prod.snd).sum + 0)) :=
    .block (.cond hitem hbody hinit) (by simp [hthen, helse]) .nil
  simpa using hblock

end Arranges

/-! ### Soundness -/

/-- Cases with sound bodies. -/
def SoundCases (cases : List SwitchCase) : Prop :=
  ∀ c ∈ cases, Stmt.soundList c.body.body = true

/-- The cases of a switch are sound when their bodies are. -/
lemma SoundCases.soundCases {cases : List SwitchCase} (h : SoundCases cases) :
    Stmt.soundCases cases = true := by
  induction cases with
  | nil => rfl
  | cons c rest ih =>
    rw [Stmt.soundCases, h c List.mem_cons_self, ih fun c hc => h c (List.mem_cons_of_mem _ hc)]
    rfl

/-- Sorting keeps the bodies of the cases. -/
lemma SoundCases.sortCases {cases : List SwitchCase} (h : SoundCases cases) :
    SoundCases (sortCases cases) := by
  intro c hc
  obtain ⟨d, hd, hsame⟩ := exists_sameCase hc
  rw [hsame.body]
  exact h d hd

/-- A block whose end is exchanged for a structured statement, and maybe a jump, is sound. -/
lemma isSound_of_init {block : BasicBlock} {init old middle : List Stmt} {last : Stmt}
    (hblock : (Stmt.basic block).isSound = true) (hinit : init ≠ [])
    (hbody : block.body = init ++ old)
    (hlast : (last.isUnconditional || last.isStructured) = true)
    (hsound : Stmt.soundList (middle ++ [last]) = true) :
    (Stmt.basic { block with body := init ++ (middle ++ [last]) }).isSound = true := by
  obtain ⟨⟨label, hlabel⟩, hlist⟩ := BasicBlockOf.exists_label_of_isSound hblock
  refine BasicBlockOf.isSound_of_append (List.append_assoc init middle [last]).symm
    ((BasicBlockOf.entryLabel?_congr hinit rfl hbody).trans hlabel) hlast ?_
  rw [hbody, Stmt.soundList_append, Bool.and_eq_true] at hlist
  rw [Stmt.soundList_append, hlist.1, hsound]
  rfl

variable {items : List Stmt} {bound i : Nat}

/-- A block that has taken the place of a sound item is sound when its arms or cases are. -/
lemma Reshaped.isSound {block : BasicBlock} {bodies : List (List Stmt)} (hsound : SoundBlocks items)
    (h : Reshaped items i block bodies) (hbodies : ∀ body ∈ bodies, Stmt.soundList body = true) :
    (Stmt.basic block).isSound = true := by
  have hitems : ∀ {block : BasicBlock}, items[i]? = some (.basic block) →
      (Stmt.basic block).isSound = true := by
    intro block hitem
    obtain ⟨block', heq, hblock⟩ := hsound _ (List.mem_of_getElem? hitem)
    cases heq
    exact hblock
  cases h with
  | same hitem => exact hitems hitem
  | @cond head init thenBody elseBody test target other hitem hbody hinit =>
    simp only [List.forall_mem_cons, List.not_mem_nil, false_implies, implies_true, and_true] at hbodies
    have hcond : Stmt.soundList ([] ++
        [.cond test ⟨some target, thenBody⟩ ⟨some other, elseBody⟩]) = true := by
      simp [Stmt.soundList, Stmt.isSound, hbodies.1, hbodies.2]
    exact isSound_of_init (hitems hitem) hinit hbody rfl hcond
  | @switch head init value cases default fall own last hitem hbody hinit hown =>
    rw [List.forall_mem_append] at hbodies
    have hcases : SoundCases own := fun c hc => hbodies.1 _ (List.mem_map_of_mem hc)
    cases last with
    | none =>
      have hswitch : Stmt.soundList ([.switch value (sortCases own ++ defaultCase fall none)] ++
          [.goto fall]) = true := by
        simp [defaultCase, Stmt.soundList, Stmt.isSound, hcases.sortCases.soundCases]
      exact isSound_of_init (hitems hitem) hinit hbody rfl hswitch
    | some body =>
      have hbody' : Stmt.soundList body = true := hbodies.2 body (by simp)
      have hall : SoundCases (sortCases own ++ defaultCase fall (some body)) := by
        intro c hc
        rcases List.mem_append.mp hc with hc | hc
        · exact hcases.sortCases c hc
        · rw [List.mem_singleton.mp hc]
          exact hbody'
      have hswitch : Stmt.soundList ([] ++
          [.switch value (sortCases own ++ defaultCase fall (some body))]) = true := by
        simp [Stmt.soundList, Stmt.isSound, hall.soundCases]
      exact isSound_of_init (hitems hitem) hinit hbody rfl hswitch

/-- An arrangement of sound blocks consists of sound blocks. -/
lemma Arranges.soundBlocks {list : List Stmt} {ids : Multiset Nat} (hsound : SoundBlocks items)
    (h : Arranges items bound list ids) : SoundBlocks list := by
  induction h with
  | nil => simp [SoundBlocks]
  | block hblock _ _ ihParts ih =>
    refine SoundBlocks.append (.singleton (hblock.isSound hsound fun body hbody => ?_)) ih
    obtain ⟨part, hpart, rfl⟩ := List.mem_map.mp hbody
    exact (ihParts part hpart).soundList
  | caseEnd _ _ ih => exact SoundBlocks.append (.singleton rfl) ih

end Conditions

end Decompiler
