import Mathlib.Data.List.Nodup
import Decompiler.Peephole.Fixpoint
import Decompiler.Proofs.RuleEdits

/-!
# Runs of rules

What an edit does to a block list when it is carried out (`Edit.Applied`), and the edits of a run of
rules.  `rewrites` are the edits that `runFixpoint` makes, in order; `Rewriting` says that each of them
starts from the list that the one before it left, and that some rule asked for it there.  What every
edit preserves is then preserved by a whole run, by induction on `Rewriting`.
-/

namespace Decompiler

/-! ### Carrying out an edit -/

namespace Edit

/-- The positions of a label are those of the blocks with the label. -/
lemma mem_positions {blocks : List BasicBlock} {label : LabelId} {i : Nat} :
    i ∈ positions blocks label ↔
      ∃ block, blocks[i]? = some block ∧ block.entryLabel? = some label := by
  simp only [positions, List.mem_map, List.mem_filter, beq_iff_eq]
  constructor
  · rintro ⟨⟨block, j⟩, ⟨hmem, hlabel⟩, rfl⟩
    exact ⟨block, List.mem_zipIdx_iff_getElem?.mp hmem, hlabel⟩
  · rintro ⟨block, hblock, hlabel⟩
    exact ⟨(block, i), ⟨List.mem_zipIdx_iff_getElem?.mpr hblock, hlabel⟩, rfl⟩

/-- A label is located at the only block that has it. -/
lemma locate_eq_ok {blocks : List BasicBlock} {label : LabelId} {i : Nat}
    (h : locate blocks label = .ok i) :
    (∃ block, blocks[i]? = some block ∧ block.entryLabel? = some label) ∧
      ∀ j block, blocks[j]? = some block → block.entryLabel? = some label → j = i := by
  unfold locate at h
  split at h
  · rename_i k hpositions
    cases h
    refine ⟨mem_positions.mp (by simp [hpositions]), ?_⟩
    intro j block hblock hlabel
    have hmem : j ∈ positions blocks label := mem_positions.mpr ⟨block, hblock, hlabel⟩
    simpa [hpositions] using hmem
  · cases h

/-- A label that only one block has is located there. -/
lemma locate_of_unique {blocks : List BasicBlock} {block : BasicBlock} {label : LabelId} {i : Nat}
    (hblock : blocks[i]? = some block) (hlabel : block.entryLabel? = some label)
    (hunique : ∀ j other, blocks[j]? = some other → other.entryLabel? = some label → j = i) :
    locate blocks label = .ok i := by
  have hmem : ∀ j, j ∈ positions blocks label ↔ j = i := by
    intro j
    rw [mem_positions]
    constructor
    · rintro ⟨other, hother, hl⟩
      exact hunique j other hother hl
    · rintro rfl
      exact ⟨block, hblock, hlabel⟩
  have hnodup : (positions blocks label).Nodup := by
    refine List.Nodup.sublist (List.filter_sublist.map Prod.snd) ?_
    rw [List.zipIdx_map_snd]
    exact List.nodup_range'
  have hpositions : positions blocks label = [i] := by
    refine List.perm_singleton.mp ?_
    rw [List.perm_ext_iff_of_nodup hnodup (List.nodup_singleton i)]
    simpa using hmem
  rw [locate, hpositions]

/-- One block has one label. -/
lemma locate_inj {blocks : List BasicBlock} {label label' : LabelId} {i : Nat} (h : locate blocks label = .ok i)
    (h' : locate blocks label' = .ok i) : label = label' := by
  obtain ⟨⟨block, hblock, hlabel⟩, -⟩ := locate_eq_ok h
  obtain ⟨⟨block', hblock', hlabel'⟩, -⟩ := locate_eq_ok h'
  rw [hblock, Option.some.injEq] at hblock'
  rw [hblock', hlabel', Option.some.injEq] at hlabel
  exact hlabel.symm

/-- What an edit comes to: the positions it replaces and deletes, and the list it leaves. -/
structure Applied (edit : Edit) (blocks : List BasicBlock) (pos : Nat)
    (replaced : List (Nat × BasicBlock)) (removed : List Nat) (after : List BasicBlock) :
    Prop where
  replaced_spec : ∀ p ∈ replaced, p.1 ≠ pos ∧ p.2 ∈ edit.replace ∧
    ∃ label, p.2.entryLabel? = some label ∧ locate blocks label = .ok p.1
  replaces : ∀ block ∈ edit.replace, ∃ i, (i, block) ∈ replaced
  removed_spec : ∀ i, i ∈ removed ↔ ∃ label ∈ edit.remove, locate blocks label = .ok i
  located : ∀ label ∈ edit.remove, ∃ i, locate blocks label = .ok i
  pos_kept : pos ∉ removed
  after_eq : after = blocks.zipIdx.flatMap fun (block, i) => edit.place pos replaced removed block i

/-- The replacements of an edit that is carried out. -/
lemma replacement_eq_ok {blocks : List BasicBlock} {pos : Nat} {block : BasicBlock}
    {p : Nat × BasicBlock} (h : replacement blocks pos block = .ok p) :
    p.1 ≠ pos ∧ p.2 = block ∧
      ∃ label, block.entryLabel? = some label ∧ locate blocks label = .ok p.1 := by
  unfold replacement at h
  split at h
  · cases h
  rename_i label hlabel
  obtain ⟨i, hlocate, h⟩ := Except.bind_eq_ok_iff.mp h
  split at h
  · cases h
  · rename_i hne
    cases h
    exact ⟨hne, rfl, label, hlabel, hlocate⟩

/-- The replacements of an edit that is carried out. -/
lemma mapM_replacement_eq_ok {blocks : List BasicBlock} {pos : Nat} {replace : List BasicBlock}
    {replaced : List (Nat × BasicBlock)} (h : replace.mapM (replacement blocks pos) = .ok replaced) :
    (∀ p ∈ replaced, p.1 ≠ pos ∧ p.2 ∈ replace ∧
      ∃ label, p.2.entryLabel? = some label ∧ locate blocks label = .ok p.1) ∧
    ∀ block ∈ replace, ∃ i, (i, block) ∈ replaced := by
  induction replace generalizing replaced with
  | nil =>
    cases h
    simp
  | cons block rest ih =>
    rw [List.mapM_cons] at h
    obtain ⟨p, hp, h⟩ := Except.bind_eq_ok_iff.mp h
    obtain ⟨later, hlater, h⟩ := Except.bind_eq_ok_iff.mp h
    cases h
    obtain ⟨hne, rfl, hlabel⟩ := replacement_eq_ok hp
    obtain ⟨hspec, hreplaces⟩ := ih hlater
    refine ⟨?_, ?_⟩
    · intro q hq
      rcases List.mem_cons.mp hq with rfl | hq
      · exact ⟨hne, List.mem_cons_self, hlabel⟩
      · obtain ⟨hne, hmem, hlabel⟩ := hspec q hq
        exact ⟨hne, List.mem_cons_of_mem _ hmem, hlabel⟩
    · intro block hblock
      rcases List.mem_cons.mp hblock with rfl | hblock
      · exact ⟨p.1, List.mem_cons_self⟩
      · obtain ⟨i, hi⟩ := hreplaces block hblock
        exact ⟨i, List.mem_cons_of_mem _ hi⟩

/-- The deletions of an edit that is carried out, after those of the labels before. -/
lemma foldlM_removal_eq_ok {blocks : List BasicBlock} {pos : Nat} {replaced : List Nat}
    {remove : List LabelId} {before removed : List Nat}
    (h : remove.foldlM (removal blocks pos replaced) before = .ok removed) :
    (∀ i, i ∈ removed ↔ i ∈ before ∨ ∃ label ∈ remove, locate blocks label = .ok i) ∧
      (∀ label ∈ remove, ∃ i, locate blocks label = .ok i) ∧ (pos ∉ before → pos ∉ removed) := by
  induction remove generalizing before with
  | nil =>
    cases h
    simp
  | cons label rest ih =>
    rw [List.foldlM_cons] at h
    obtain ⟨next, hnext, h⟩ := Except.bind_eq_ok_iff.mp h
    obtain ⟨i, hlocate, hnext⟩ := Except.bind_eq_ok_iff.mp hnext
    split at hnext
    · cases hnext
    rename_i hguard
    cases hnext
    have hpos : i ≠ pos := by
      intro hi
      simp [hi] at hguard
    obtain ⟨hmem, hlocated, hkept⟩ := ih h
    refine ⟨?_, ?_, ?_⟩
    · intro j
      rw [hmem, List.mem_append, List.mem_singleton]
      constructor
      · rintro ((hj | rfl) | ⟨l, hl, hj⟩)
        · exact .inl hj
        · exact .inr ⟨label, List.mem_cons_self, hlocate⟩
        · exact .inr ⟨l, List.mem_cons_of_mem _ hl, hj⟩
      · rintro (hj | ⟨l, hl, hj⟩)
        · exact .inl (.inl hj)
        · rcases List.mem_cons.mp hl with rfl | hl
          · rw [hlocate] at hj
            cases hj
            exact .inl (.inr rfl)
          · exact .inr ⟨l, hl, hj⟩
    · intro l hl
      rcases List.mem_cons.mp hl with rfl | hl
      · exact ⟨i, hlocate⟩
      · exact hlocated l hl
    · intro hbefore
      exact hkept (by simp [hbefore, hpos.symm])

/-- The positions that are replaced and deleted say what an edit comes to. -/
lemma applied_of_eq_ok {edit : Edit} {blocks : List BasicBlock} {pos : Nat}
    {replaced : List (Nat × BasicBlock)} {removed : List Nat}
    (hreplaced : edit.replace.mapM (replacement blocks pos) = .ok replaced)
    (hremoved : edit.remove.foldlM (removal blocks pos (replaced.map Prod.fst)) [] = .ok removed) :
    edit.Applied blocks pos replaced removed
      (blocks.zipIdx.flatMap fun (block, i) => edit.place pos replaced removed block i) := by
  obtain ⟨hmem, hlocated, hkept⟩ := foldlM_removal_eq_ok hremoved
  obtain ⟨hspec, hreplaces⟩ := mapM_replacement_eq_ok hreplaced
  refine ⟨hspec, hreplaces, ?_, hlocated, hkept (by simp), rfl⟩
  intro i
  rw [hmem]
  simp

/-- An edit that succeeds replaces, deletes and inserts what it says. -/
lemma apply_eq_ok {edit : Edit} {blocks after : List BasicBlock} {pos resume : Nat}
    (h : edit.apply blocks pos = .ok (after, resume)) :
    ∃ replaced removed, edit.Applied blocks pos replaced removed after := by
  obtain ⟨replaced, hreplaced, h⟩ := Except.bind_eq_ok_iff.mp h
  obtain ⟨removed, hremoved, h⟩ := Except.bind_eq_ok_iff.mp h
  cases h
  exact ⟨replaced, removed, applied_of_eq_ok hreplaced hremoved⟩

/-- A label is located at a block other than the head. -/
def LocatesOther (blocks : List BasicBlock) (pos : Nat) (label : LabelId) : Prop :=
  ∃ i, locate blocks label = .ok i ∧ i ≠ pos

/-- What an edit has to name so that it is carried out: blocks other than the head, each of those that
are deleted once, and none of them replaced. -/
structure Carriable (edit : Edit) (blocks : List BasicBlock) (pos : Nat) : Prop where
  replaces : ∀ block ∈ edit.replace, ∃ label, block.entryLabel? = some label ∧
    label ∉ edit.remove ∧ LocatesOther blocks pos label
  removes : ∀ label ∈ edit.remove, LocatesOther blocks pos label
  once : edit.remove.Nodup

/-- The replacements that are carried out. -/
lemma exists_mapM_replacement_iff {blocks : List BasicBlock} {pos : Nat}
    {replace : List BasicBlock} :
    (∃ replaced, replace.mapM (replacement blocks pos) = .ok replaced) ↔
      ∀ block ∈ replace, ∃ label, block.entryLabel? = some label ∧
        LocatesOther blocks pos label := by
  constructor
  · rintro ⟨replaced, h⟩ block hblock
    obtain ⟨hspec, hreplaces⟩ := mapM_replacement_eq_ok h
    obtain ⟨i, hi⟩ := hreplaces block hblock
    obtain ⟨hne, -, label, hlabel, hlocate⟩ := hspec _ hi
    exact ⟨label, hlabel, i, hlocate, hne⟩
  · intro h
    induction replace with
    | nil => exact ⟨[], rfl⟩
    | cons block later ih =>
      rw [List.forall_mem_cons] at h
      obtain ⟨⟨label, hlabel, i, hlocate, hne⟩, hlater⟩ := h
      obtain ⟨replaced, hreplaced⟩ := ih hlater
      have hone : replacement blocks pos block = .ok (i, block) := by
        simp only [replacement, hlabel]
        refine Except.bind_eq_ok_iff.mpr ⟨i, hlocate, ?_⟩
        rw [if_neg hne]
        rfl
      refine ⟨(i, block) :: replaced, ?_⟩
      rw [List.mapM_cons]
      exact Except.bind_eq_ok_iff.mpr ⟨_, hone, Except.bind_eq_ok_iff.mpr ⟨_, hreplaced, rfl⟩⟩

/-- The deletion that is carried out. -/
lemma removal_eq_ok_iff {blocks : List BasicBlock} {pos : Nat} {replaced before removed : List Nat}
    {label : LabelId} :
    removal blocks pos replaced before label = .ok removed ↔
      ∃ i, locate blocks label = .ok i ∧ i ≠ pos ∧ i ∉ replaced ∧ i ∉ before ∧
        removed = before ++ [i] := by
  unfold removal
  rw [Except.bind_eq_ok_iff]
  refine exists_congr fun i => and_congr_right fun _ => ?_
  by_cases hguard : i = pos ∨ i ∈ replaced ∨ i ∈ before
  · rw [if_pos (by simpa [or_assoc] using hguard)]
    refine iff_of_false (by simp) ?_
    rintro ⟨hne, hfree, hnew, -⟩
    exact hguard.elim hne fun h => h.elim hfree hnew
  · rw [if_neg (by simpa [or_assoc] using hguard)]
    rw [not_or, not_or] at hguard
    obtain ⟨hne, hfree, hnew⟩ := hguard
    change Except.ok (before ++ [i]) = .ok removed ↔ _
    simp [hne, hfree, hnew, eq_comm]

/-- The deletions that are carried out after others. -/
lemma exists_foldlM_removal_iff {blocks : List BasicBlock} {pos : Nat} {replaced before : List Nat}
    {remove : List LabelId} :
    (∃ removed, remove.foldlM (removal blocks pos replaced) before = .ok removed) ↔
      remove.Nodup ∧ ∀ label ∈ remove, ∃ i, locate blocks label = .ok i ∧ i ≠ pos ∧
        i ∉ replaced ∧ i ∉ before := by
  induction remove generalizing before with
  | nil => simp [pure, Except.pure]
  | cons label later ih =>
    rw [List.foldlM_cons, List.nodup_cons, List.forall_mem_cons]
    simp only [Except.bind_eq_ok_iff, removal_eq_ok_iff]
    constructor
    · rintro ⟨removed, _, ⟨i, hlocate, hne, hfree, hnew, rfl⟩, h⟩
      obtain ⟨hnodup, hlater⟩ := ih.mp ⟨removed, h⟩
      refine ⟨⟨fun hmem => ?_, hnodup⟩, ⟨i, hlocate, hne, hfree, hnew⟩, fun l hl => ?_⟩
      · obtain ⟨j, hj, -, -, hbefore⟩ := hlater label hmem
        rw [hlocate, Except.ok.injEq] at hj
        exact hbefore (by simp [hj])
      · obtain ⟨j, hj, hjpos, hjfree, hjbefore⟩ := hlater l hl
        exact ⟨j, hj, hjpos, hjfree, fun hmem => hjbefore (List.mem_append_left _ hmem)⟩
    · rintro ⟨⟨hfirst, hnodup⟩, ⟨i, hlocate, hne, hfree, hnew⟩, hlater⟩
      have hrest : ∀ l ∈ later, ∃ j, locate blocks l = .ok j ∧ j ≠ pos ∧ j ∉ replaced ∧
          j ∉ before ++ [i] := by
        intro l hl
        obtain ⟨j, hj, hjpos, hjfree, hjbefore⟩ := hlater l hl
        have hij : j ≠ i := by
          rintro rfl
          exact hfirst (locate_inj hlocate hj ▸ hl)
        exact ⟨j, hj, hjpos, hjfree, by simp [hjbefore, hij]⟩
      obtain ⟨removed, h⟩ := ih.mpr ⟨hnodup, hrest⟩
      exact ⟨removed, _, ⟨i, hlocate, hne, hfree, hnew, rfl⟩, h⟩

/-- An edit is carried out when what it names allows for it, and only then. -/
theorem exists_apply_iff {edit : Edit} {blocks : List BasicBlock} {pos : Nat} :
    (∃ result, edit.apply blocks pos = .ok result) ↔ edit.Carriable blocks pos := by
  constructor
  · rintro ⟨result, h⟩
    obtain ⟨replaced, hreplaced, h⟩ := Except.bind_eq_ok_iff.mp h
    obtain ⟨removed, hremoved, -⟩ := Except.bind_eq_ok_iff.mp h
    obtain ⟨hspec, hreplaces⟩ := mapM_replacement_eq_ok hreplaced
    obtain ⟨hnodup, hremove⟩ := exists_foldlM_removal_iff.mp ⟨removed, hremoved⟩
    refine ⟨fun block hblock => ?_, fun label hlabel => ?_, hnodup⟩
    · obtain ⟨i, hi⟩ := hreplaces block hblock
      obtain ⟨hne, -, label, hlabel, hlocate⟩ := hspec _ hi
      refine ⟨label, hlabel, fun hmem => ?_, i, hlocate, hne⟩
      obtain ⟨j, hj, -, hfree, -⟩ := hremove label hmem
      rw [hlocate, Except.ok.injEq] at hj
      exact hfree (hj ▸ List.mem_map_of_mem hi)
    · obtain ⟨i, hlocate, hne, -⟩ := hremove label hlabel
      exact ⟨i, hlocate, hne⟩
  · rintro ⟨hreplace, hremove, hnodup⟩
    obtain ⟨replaced, hreplaced⟩ := exists_mapM_replacement_iff.mpr fun block hblock => by
      obtain ⟨label, hlabel, -, hother⟩ := hreplace block hblock
      exact ⟨label, hlabel, hother⟩
    have hfree : ∀ label ∈ edit.remove, ∃ i, locate blocks label = .ok i ∧ i ≠ pos ∧
        i ∉ replaced.map Prod.fst ∧ i ∉ [] := by
      intro label hlabel
      obtain ⟨i, hlocate, hne⟩ := hremove label hlabel
      refine ⟨i, hlocate, hne, fun hmem => ?_, List.not_mem_nil⟩
      obtain ⟨p, hp, rfl⟩ := List.mem_map.mp hmem
      obtain ⟨-, hnew, label', hlabel', hlocate'⟩ := (mapM_replacement_eq_ok hreplaced).1 p hp
      obtain ⟨l, hl, hkept, -⟩ := hreplace p.2 hnew
      rw [hlabel', Option.some.injEq] at hl
      rw [← hl, locate_inj hlocate' hlocate] at hkept
      exact hkept hlabel
    obtain ⟨removed, hremoved⟩ := exists_foldlM_removal_iff.mpr ⟨hnodup, hfree⟩
    exact ⟨_, Except.bind_eq_ok_iff.mpr
      ⟨_, hreplaced, Except.bind_eq_ok_iff.mpr ⟨_, hremoved, rfl⟩⟩⟩

namespace Applied

variable {edit : Edit} {blocks after : List BasicBlock} {pos : Nat}
  {replaced : List (Nat × BasicBlock)} {removed : List Nat}

/-- A deleted block leaves nothing. -/
lemma place_removed {block : BasicBlock} {i : Nat} (hremoved : i ∈ removed) :
    edit.place pos replaced removed block i = [] := by
  simp [place, hremoved]

/-- The head leaves the new head and what is inserted. -/
lemma place_head (h : edit.Applied blocks pos replaced removed after) (block : BasicBlock) :
    edit.place pos replaced removed block pos = edit.head.toList ++ edit.insert := by
  simp [place, h.pos_kept]

/-- A block that is replaced leaves a replacement. -/
lemma place_replaced (h : edit.Applied blocks pos replaced removed after) {old block : BasicBlock}
    {i : Nat} (hi : (i, block) ∈ replaced) (hkept : i ∉ removed) :
    ∃ block', edit.place pos replaced removed old i = [block'] ∧ (i, block') ∈ replaced := by
  have hpos := (h.replaced_spec _ hi).1
  cases hlookup : replaced.reverse.lookup i with
  | none =>
    rw [List.lookup_eq_none_iff] at hlookup
    have hne := hlookup (i, block) (List.mem_reverse.mpr hi)
    simp at hne
  | some block' =>
    obtain ⟨before, later, heq, -⟩ := List.lookup_eq_some_iff.mp hlookup
    refine ⟨block', by simp [place, hpos, hkept, hlookup], ?_⟩
    rw [← List.mem_reverse, heq]
    simp

/-- Any other block leaves itself, or a replacement with the same label. -/
lemma place_other (h : edit.Applied blocks pos replaced removed after) {block : BasicBlock}
    {i : Nat} (hblock : blocks[i]? = some block) (hpos : i ≠ pos) (hkept : i ∉ removed) :
    ∃ block', edit.place pos replaced removed block i = [block'] ∧
      block'.entryLabel? = block.entryLabel? ∧ (block' = block ∨ block' ∈ edit.replace) := by
  have hplace : edit.place pos replaced removed block i =
      [(replaced.reverse.lookup i).getD block] := by
    simp [place, hpos, hkept]
  refine ⟨_, hplace, ?_⟩
  cases hlookup : replaced.reverse.lookup i with
  | none => exact ⟨rfl, .inl rfl⟩
  | some block' =>
    obtain ⟨before, later, heq, -⟩ := List.lookup_eq_some_iff.mp hlookup
    have hmem : (i, block') ∈ replaced := by
      rw [← List.mem_reverse, heq]
      simp
    obtain ⟨-, hreplace, label, hlabel, hlocate⟩ := h.replaced_spec _ hmem
    obtain ⟨⟨block'', hblock'', hlabel''⟩, -⟩ := locate_eq_ok hlocate
    rw [hblock] at hblock''
    cases hblock''
    exact ⟨hlabel.trans hlabel''.symm, .inr hreplace⟩

end Applied

end Edit

/-! ### The edits of a run -/

namespace Fixpoint

/-- One edit of a run: the rule that asked for it, the list and the position where it did, and the
list after it. -/
structure Rewrite where
  rule : Rule
  before : List BasicBlock
  pos : Nat
  edit : Edit
  after : List BasicBlock

/-- The edits of `tryFrom`. -/
def tryFromRewrites (rule : Rule) : Nat → BlockMap → Nat → State → List Rewrite
  | 0, _, _, _ => []
  | fuel + 1, map, pos, state =>
    match state.blocks[pos]? with
    | none => []
    | some head =>
      match rule.edit? { map, pos, head } state.context with
      | (none, context) => tryFromRewrites rule fuel map (pos + 1) { state with context }
      | (some edit, context) =>
        match edit.apply state.blocks pos with
        | .error _ => []
        | .ok (blocks, resume) =>
          { rule, before := state.blocks, pos, edit, after := blocks } ::
            tryFromRewrites rule fuel (BlockMap.ofBlocks blocks) resume
              { blocks, context, changed := true }

/-- The edits of `tryRule`. -/
def tryRuleRewrites (rule : Rule) (state : State) : List Rewrite :=
  tryFromRewrites rule (2 * state.blocks.length + 1) (BlockMap.ofBlocks state.blocks) 0 state

/-- The edits of `sweep`. -/
def sweepRewrites : List Rule → State → List Rewrite
  | [], _ => []
  | rule :: rules, state =>
    tryRuleRewrites rule state ++
      match tryRule rule state with
      | (.error _, _) => []
      | (.ok (), state) => sweepRewrites rules state

/-- The edits of `sweeps`. -/
def sweepsRewrites (rules : List Rule) : Nat → State → List Rewrite
  | 0, _ => []
  | remaining + 1, state =>
    sweepRewrites rules { state with changed := false } ++
      match sweep rules { state with changed := false } with
      | (.error _, _) => []
      | (.ok (), state) => if state.changed then sweepsRewrites rules remaining state else []

/-- The edits that rules make until a sweep changes nothing. -/
def rewrites (rules : List Rule) (maxSweeps : Nat) (blocks : List BasicBlock) (context : Context) :
    List Rewrite :=
  sweepsRewrites rules maxSweeps { blocks, context }

/-- The edits of a part of a run, from one list and its names and messages to another. -/
inductive Rewriting (rules : List Rule) :
    List BasicBlock → Context → List Rewrite → List BasicBlock → Context → Prop where
  | done {blocks : List BasicBlock} {context : Context} :
      Rewriting rules blocks context [] blocks context
  /-- A rule is tried, and the list stays as it is. -/
  | tried {rule : Rule} {blocks last : List BasicBlock} {context context' lastContext : Context}
      {pos : Nat} {head : BasicBlock} {edit : Option Edit} {rest : List Rewrite}
      (hrule : rule ∈ rules) (hhead : blocks[pos]? = some head)
      (hedit : rule.edit? ⟨.ofBlocks blocks, pos, head⟩ context = (edit, context'))
      (hrest : Rewriting rules blocks context' rest last lastContext) :
      Rewriting rules blocks context rest last lastContext
  /-- A rule asks for an edit, which is carried out. -/
  | edited {rule : Rule} {blocks after last : List BasicBlock}
      {context context' lastContext : Context} {pos resume : Nat} {head : BasicBlock} {edit : Edit}
      {rest : List Rewrite} (hrule : rule ∈ rules) (hhead : blocks[pos]? = some head)
      (hedit : rule.edit? ⟨.ofBlocks blocks, pos, head⟩ context = (some edit, context'))
      (happly : edit.apply blocks pos = .ok (after, resume))
      (hrest : Rewriting rules after context' rest last lastContext) :
      Rewriting rules blocks context (⟨rule, blocks, pos, edit, after⟩ :: rest) last lastContext

namespace Rewriting

variable {rules : List Rule}

/-- Two parts of a run, one after the other. -/
lemma trans {blocks middle last : List BasicBlock} {context middleContext lastContext : Context}
    {first second : List Rewrite} (h : Rewriting rules blocks context first middle middleContext)
    (h' : Rewriting rules middle middleContext second last lastContext) :
    Rewriting rules blocks context (first ++ second) last lastContext := by
  induction h with
  | done => exact h'
  | tried hrule hhead hedit _ ih => exact .tried hrule hhead hedit (ih h')
  | edited hrule hhead hedit happly _ ih => exact .edited hrule hhead hedit happly (ih h')

/-- Trying a rule from a position on. -/
lemma tryFrom {rule : Rule} (hrule : rule ∈ rules) (fuel pos : Nat) (state : State) :
    Rewriting rules state.blocks state.context
      (tryFromRewrites rule fuel (.ofBlocks state.blocks) pos state)
      (tryFrom rule fuel (.ofBlocks state.blocks) pos state).2.blocks
      (tryFrom rule fuel (.ofBlocks state.blocks) pos state).2.context := by
  induction fuel generalizing pos state with
  | zero => exact .done
  | succ fuel ih =>
    rw [tryFromRewrites, Fixpoint.tryFrom]
    cases hhead : state.blocks[pos]? with
    | none => exact .done
    | some head =>
      cases hedit : rule.edit? ⟨.ofBlocks state.blocks, pos, head⟩ state.context with
      | mk edit context =>
        cases edit with
        | none =>
          simp only [hedit]
          exact .tried hrule hhead hedit (ih (pos + 1) { state with context })
        | some edit =>
          cases happly : edit.apply state.blocks pos with
          | error e =>
            simp only [hedit, happly]
            exact .tried hrule hhead hedit .done
          | ok result =>
            obtain ⟨blocks, resume⟩ := result
            simp only [hedit, happly]
            exact .edited hrule hhead hedit happly (ih resume { blocks, context, changed := true })

/-- Trying a rule at every block. -/
lemma tryRule {rule : Rule} (hrule : rule ∈ rules) (state : State) :
    Rewriting rules state.blocks state.context (tryRuleRewrites rule state)
      (tryRule rule state).2.blocks (tryRule rule state).2.context :=
  tryFrom hrule _ _ state

/-- Trying some of the rules at every block. -/
lemma sweep {some : List Rule} (hsome : ∀ rule ∈ some, rule ∈ rules) (state : State) :
    Rewriting rules state.blocks state.context (sweepRewrites some state)
      (sweep some state).2.blocks (sweep some state).2.context := by
  induction some generalizing state with
  | nil => exact .done
  | cons rule later ih =>
    have hfirst := tryRule (hsome rule List.mem_cons_self) state
    rw [sweepRewrites, Fixpoint.sweep]
    cases htry : Fixpoint.tryRule rule state with
    | mk result next =>
      rw [htry] at hfirst
      cases result with
      | error e =>
        simp only [List.append_nil]
        exact hfirst
      | ok _ => exact hfirst.trans (ih (fun r hr => hsome r (List.mem_cons_of_mem _ hr)) next)

/-- Sweeping until nothing changes. -/
lemma sweeps (remaining done : Nat) (state : State) :
    Rewriting rules state.blocks state.context (sweepsRewrites rules remaining state)
      (sweeps rules remaining done state).2.blocks
      (sweeps rules remaining done state).2.context := by
  induction remaining generalizing done state with
  | zero => exact .done
  | succ remaining ih =>
    have hfirst := @sweep rules rules (fun _ h => h) { state with changed := false }
    rw [sweepsRewrites, Fixpoint.sweeps]
    cases hsweep : Fixpoint.sweep rules { state with changed := false } with
    | mk result next =>
      rw [hsweep] at hfirst
      cases result with
      | error e =>
        simp only [List.append_nil]
        exact hfirst
      | ok _ =>
        simp only
        split
        · exact hfirst.trans (ih (done + 1) next)
        · simp only [List.append_nil]
          exact hfirst

end Rewriting

/-- The edits of a run lead from the list at its start to the list at its end. -/
theorem rewriting_runFixpoint (rules : List Rule) (maxSweeps : Nat) (blocks : List BasicBlock)
    (context : Context) :
    Rewriting rules blocks context (rewrites rules maxSweeps blocks context)
      (runFixpoint rules maxSweeps blocks context).2.blocks
      (runFixpoint rules maxSweeps blocks context).2.context :=
  Rewriting.sweeps maxSweeps 0 { blocks, context }

end Fixpoint

end Decompiler
