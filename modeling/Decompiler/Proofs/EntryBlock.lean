import Decompiler.Flow.Loops
import Decompiler.Proofs.WellFormedLists

/-!
# The entry of a unit

Control enters a unit at the first block of its list, and no block has to name that one.  Here it is
followed through a run of rules.  An edit keeps the label of the first block unless it deletes the
block (`firstLabel?_apply_iff`).  Joining and the deletion of dead blocks look at the position and leave
the first block alone; the rules in `Rule.unguarded` do not, since they take in a block on the strength
of how often it is named.  So the entry is kept exactly when none of those deletes it
(`runFixpoint_keepsEntry_iff`), and it can be lost: `fusedEntry_lost`.
-/

namespace Decompiler

/-- The label of the first block. -/
def firstLabel? (blocks : List BasicBlock) : Option LabelId :=
  blocks.head?.bind BasicBlockOf.entryLabel?

/-- The rules that delete blocks without a look at their position. -/
def Rule.unguarded : List Rule :=
  [.switchDispatch, .withScope, .shortCircuit, .ternary]

/-- An edit keeps the label of the first block unless it deletes the block. -/
lemma firstLabel?_apply_iff {edit : Edit} {site : Site} {blocks after : List BasicBlock}
    {resume : Nat} {minted entry : LabelId} (hsite : site.IsAt blocks)
    (hmodest : edit.Modest site minted) (happly : edit.apply blocks site.pos = .ok (after, resume))
    (hfirst : firstLabel? blocks = some entry) :
    firstLabel? after = some entry ↔ entry ∉ edit.remove := by
  obtain ⟨replaced, removed, happlied⟩ := Edit.apply_eq_ok happly
  have hafter : firstLabel? after = (blocks.zipIdx.findSome? fun p =>
      (edit.place site.pos replaced removed p.1 p.2).head?).bind BasicBlockOf.entryLabel? := by
    rw [firstLabel?, happlied.after_eq, List.head?_flatMap]
  rw [hafter]
  constructor
  · -- The block that comes first has a label of its own, and the deleted one had `entry`.
    intro hlabel hremove
    obtain ⟨i₀, hlocate⟩ := happlied.located entry hremove
    have hremoved : i₀ ∈ removed := (happlied.removed_spec i₀).mpr ⟨entry, hremove, hlocate⟩
    obtain ⟨-, hunique⟩ := Edit.locate_eq_ok hlocate
    obtain ⟨block', hfind, hlabel⟩ := Option.bind_eq_some_iff.mp hlabel
    obtain ⟨⟨block, i⟩, hmem, hhead⟩ := List.exists_of_findSome?_eq_some hfind
    have hblock : blocks[i]? = some block := List.mem_zipIdx_iff_getElem?.mp hmem
    simp only at hhead
    by_cases hi : i ∈ removed
    · simp [Edit.Applied.place_removed hi] at hhead
    · have hown : block.entryLabel? = some entry := by
        by_cases hpos : i = site.pos
        · subst hpos
          rw [happlied.place_head] at hhead
          cases hnew : edit.head with
          | none =>
            rw [(hmodest.deleted hnew).2] at hremove
            simp at hremove
          | some head =>
            rw [hnew] at hhead
            cases hhead
            rw [hsite.head_eq] at hblock
            cases hblock
            rw [← hmodest.head_label block' hnew, hlabel]
        · obtain ⟨block'', hplace, hsame, -⟩ := happlied.place_other hblock hpos hi
          rw [hplace] at hhead
          cases hhead
          rw [← hsame, hlabel]
      exact hi (hunique i block hblock hown ▸ hremoved)
  · intro hremove
    cases blocks with
    | nil => cases hfirst
    | cons first rest =>
      have hown : first.entryLabel? = some entry := hfirst
      have hkept : 0 ∉ removed := by
        intro h0
        obtain ⟨label, hmem, hlocate⟩ := (happlied.removed_spec 0).mp h0
        obtain ⟨⟨block, hblock, hlabel⟩, -⟩ := Edit.locate_eq_ok hlocate
        cases hblock
        rw [hown] at hlabel
        cases hlabel
        exact hremove hmem
      rw [List.zipIdx_cons, List.findSome?_cons]
      by_cases hpos : 0 = site.pos
      · have hhead : first = site.head := by
          have := hsite.head_eq
          rw [← hpos] at this
          cases this
          rfl
        cases hnew : edit.head with
        | none => exact absurd hpos.symm (hmodest.deleted hnew).1
        | some head =>
          simp only [hpos, happlied.place_head, hnew, Option.toList_some, List.cons_append,
            List.head?_cons, Option.bind_some]
          rw [hmodest.head_label head hnew, ← hhead, hown]
      · obtain ⟨block', hplace, hsame, -⟩ := happlied.place_other rfl hpos hkept
        simp only [hplace, List.head?_cons, Option.bind_some]
        rw [hsame, hown]

/-- The rules that look at the position of a block do not delete the first one. -/
lemma Rule.mem_unguarded_of_mem_remove {rule : Rule} {site : Site} {blocks after : List BasicBlock}
    {edit : Edit} {context context' : Context} {resume : Nat} {entry : LabelId}
    (hsite : site.IsAt blocks) (hedit : rule.edit? site context = (some edit, context'))
    (happly : edit.apply blocks site.pos = .ok (after, resume))
    (hfirst : firstLabel? blocks = some entry) (hremove : entry ∈ edit.remove) :
    rule ∈ unguarded := by
  cases rule with
  | switchDispatch => decide
  | withScope => decide
  | shortCircuit => decide
  | ternary => decide
  | countedLoop =>
    obtain ⟨_, _, _, _, _, _, _, _, _, -, -, -, -, -, -, -, -, -, -, rfl⟩ :=
      CountedLoop.edit?_eq_some hedit
    simp at hremove
  | join =>
    -- The block that is taken in has the position of its label, which is not the first one.
    obtain ⟨_, _, next, nextAt, _, _, -, -, -, -, hat, -, hne, -, rfl⟩ :=
      Join.edit?_eq_some (congrArg Prod.fst hedit)
    obtain rfl : entry = next := List.mem_singleton.mp hremove
    obtain ⟨replaced, removed, happlied⟩ := Edit.apply_eq_ok happly
    obtain ⟨i, hlocate⟩ := happlied.located entry (List.mem_singleton_self entry)
    obtain ⟨-, hunique⟩ := Edit.locate_eq_ok hlocate
    obtain ⟨block, hblock, hlabel⟩ := BlockMap.position?_eq_some hat
    rw [hsite.map_eq] at hblock
    cases blocks with
    | nil => cases hfirst
    | cons first rest =>
      have h0 : 0 = i := hunique 0 first rfl hfirst
      exact absurd ((hunique nextAt block hblock hlabel).trans h0.symm) hne
  | logicNot =>
    have hedit : logicNotEdit? site = some edit := congrArg Prod.fst hedit
    unfold logicNotEdit? at hedit
    split at hedit
    · cases hedit
      simp at hremove
    · cases hedit
  | popz =>
    have hedit : popzEdit? site = some edit := congrArg Prod.fst hedit
    unfold popzEdit? at hedit
    split at hedit
    · cases hedit
    · cases hedit
      simp at hremove
  | deadBlocks =>
    obtain ⟨_, -, -, -, rfl⟩ := deadBlocksEdit?_eq_some (congrArg Prod.fst hedit)
    simp at hremove

/-- A label that no block names, and that is not the next to be minted, is named by no block after an
edit either. -/
lemma unnamed_apply {edit : Edit} {site : Site} {blocks after : List BasicBlock} {resume : Nat}
    {minted label : LabelId} (hsite : site.IsAt blocks) (hmodest : edit.Modest site minted)
    (happly : edit.apply blocks site.pos = .ok (after, resume))
    (hlabel : label ∉ (BlockMap.ofBlocks blocks).mentions) (hminted : label ≠ minted) :
    label ∉ (BlockMap.ofBlocks after).mentions := by
  obtain ⟨replaced, removed, happlied⟩ := Edit.apply_eq_ok happly
  intro hmem
  obtain ⟨block, hblock, hlabel'⟩ := List.mem_flatMap.mp hmem
  have hnew : block ∉ edit.head.toList ++ (edit.replace ++ edit.insert) := by
    intro hnew
    rcases hmodest.targets_named block hnew label hlabel' with h | h
    · rw [hsite.map_eq] at h
      exact hlabel h
    · exact hminted h
  rw [happlied.after_eq] at hblock
  obtain ⟨⟨old, i⟩, hmem, hplace⟩ := List.mem_flatMap.mp hblock
  have hold : blocks[i]? = some old := List.mem_zipIdx_iff_getElem?.mp hmem
  simp only at hplace
  by_cases hi : i ∈ removed
  · simp [Edit.Applied.place_removed hi] at hplace
  · by_cases hpos : i = site.pos
    · subst hpos
      rw [happlied.place_head] at hplace
      apply hnew
      simp only [List.mem_append] at hplace ⊢
      rcases hplace with h | h
      · exact .inl h
      · exact .inr (.inr h)
    · obtain ⟨block', hplace', -, hsame⟩ := happlied.place_other hold hpos hi
      rw [hplace', List.mem_singleton] at hplace
      subst hplace
      rcases hsame with rfl | hreplace
      · exact hlabel (List.mem_flatMap.mpr ⟨block, List.mem_of_getElem? hold, hlabel'⟩)
      · exact hnew (List.mem_append_right _ (List.mem_append_left _ hreplace))

namespace Fixpoint

/-- Whether the first block has the label `entry` after every edit and at the end of a run, where the
unit is then entered. -/
def KeepsEntry (entry : LabelId) (edits : List Rewrite) (last : List BasicBlock) : Prop :=
  (∀ edit ∈ edits, firstLabel? edit.after = some entry) ∧
    (blockOfBasicBlocks last).entry = some entry

variable {rules : List Rule} {blocks last : List BasicBlock} {context lastContext : Context}
  {edits : List Rewrite} {entry : LabelId}

/-- The run lemma: the entry is kept as long as no rule that takes no notice of it deletes it. -/
lemma Rewriting.keepsEntry_iff (h : Rewriting rules blocks context edits last lastContext)
    (hfirst : firstLabel? blocks = some entry) :
    KeepsEntry entry edits last ↔
      ∀ r ∈ edits, r.rule ∈ Rule.unguarded → entry ∉ r.edit.remove := by
  induction h with
  | done =>
    refine ⟨by simp, fun _ => ⟨by simp, hfirst⟩⟩
  | tried _ _ _ _ ih => exact ih hfirst
  | @edited rule blocks after last context context' lastContext pos resume head edit rest hrule hhead
      hedit happly _ ih =>
    have hsite : Site.IsAt ⟨.ofBlocks blocks, pos, head⟩ blocks := ⟨rfl, hhead⟩
    have hiff := firstLabel?_apply_iff hsite (Rule.modest hsite hedit) happly hfirst
    constructor
    · rintro ⟨hedits, hlast⟩ r hr
      have hafter := hedits _ List.mem_cons_self
      rcases List.mem_cons.mp hr with rfl | hr
      · exact fun _ => hiff.mp hafter
      · exact (ih hafter).mp ⟨fun r hr => hedits r (List.mem_cons_of_mem _ hr), hlast⟩ r hr
    · intro hremove
      have hafter : firstLabel? after = some entry := by
        refine hiff.mpr fun hmem => ?_
        exact hremove _ List.mem_cons_self
          (Rule.mem_unguarded_of_mem_remove hsite hedit happly hfirst hmem) hmem
      obtain ⟨hedits, hlast⟩ := (ih hafter).mpr fun r hr => hremove r (List.mem_cons_of_mem _ hr)
      refine ⟨?_, hlast⟩
      intro r hr
      rcases List.mem_cons.mp hr with rfl | hr
      · exact hafter
      · exact hedits r hr

/-- A label that no block names is not deleted in a run, as long as no rule mints it. -/
lemma Rewriting.notMem_remove (h : Rewriting rules blocks context edits last lastContext)
    (hentry : entry ∉ (BlockMap.ofBlocks blocks).mentions)
    (hbound : entry < context.labels.names.length) : ∀ r ∈ edits, entry ∉ r.edit.remove := by
  induction h with
  | done => simp
  | tried _ _ hedit _ ih => exact ih hentry (Nat.lt_of_lt_of_le hbound (Rule.names_length_le hedit))
  | @edited rule blocks after last context context' lastContext pos resume head edit rest hrule hhead
      hedit happly _ ih =>
    have hsite : Site.IsAt ⟨.ofBlocks blocks, pos, head⟩ blocks := ⟨rfl, hhead⟩
    have hmodest := Rule.modest hsite hedit
    have hafter := unnamed_apply hsite hmodest happly hentry (Nat.ne_of_lt hbound)
    intro r hr
    rcases List.mem_cons.mp hr with rfl | hr
    · exact fun hmem => hentry (hmodest.remove_named entry hmem)
    · exact ih hafter (Nat.lt_of_lt_of_le hbound (Rule.names_length_le hedit)) r hr

/-- A run of rules enters the unit where it was entered before, after every edit and at the end,
exactly when no edit of a rule that takes no notice of positions deletes the first block.  That is so
for every list in which nothing jumps to the first block. -/
theorem runFixpoint_keepsEntry_iff (rules : List Rule) (maxSweeps : Nat) (blocks : List BasicBlock)
    (context : Context) (entry : LabelId) (hfirst : firstLabel? blocks = some entry) :
    (KeepsEntry entry (rewrites rules maxSweeps blocks context)
        (runFixpoint rules maxSweeps blocks context).2.blocks ↔
      ∀ r ∈ rewrites rules maxSweeps blocks context,
        r.rule ∈ Rule.unguarded → entry ∉ r.edit.remove) ∧
    (entry ∉ (BlockMap.ofBlocks blocks).mentions → entry < context.labels.names.length →
      KeepsEntry entry (rewrites rules maxSweeps blocks context)
        (runFixpoint rules maxSweeps blocks context).2.blocks) := by
  have hrun := rewriting_runFixpoint rules maxSweeps blocks context
  have hiff := hrun.keepsEntry_iff hfirst
  refine ⟨hiff, ?_⟩
  intro hunnamed hbound
  exact hiff.mpr fun r hr _ => hrun.notMem_remove hunnamed hbound r hr

/-- Names for the labels of small lists. -/
def threeLabels : Context where
  labels := { names := ["L0", "L1", "L2"] }
  diagnostics := { unit := "unit" }

/-- Two blocks that are joined under the label of the first. -/
def twoBlocks : List BasicBlock :=
  [{ body := [.label 0, .goto 1] },
    { body := [.label 1, .assign (Variable.temporary "z") (.const (.int 1)), .exit] }]

/-- Joining two blocks keeps the entry. -/
theorem twoBlocks_keepsEntry :
    (rewrites Rule.forExprs 10 twoBlocks threeLabels).length = 1 ∧
      KeepsEntry 0 (rewrites Rule.forExprs 10 twoBlocks threeLabels)
        (runFixpoint Rule.forExprs 10 twoBlocks threeLabels).2.blocks := by
  refine ⟨by decide +kernel, ?_⟩
  exact (runFixpoint_keepsEntry_iff Rule.forExprs 10 twoBlocks threeLabels 0 (by decide)).2
    (by decide) (by decide)

/-- A loop whose first block only branches: the block after it goes back there when its own test
fails. -/
def branchingEntry : List BasicBlock :=
  [{ body := [.label 0, .condGoto (.var (Variable.temporary "b")) 2, .goto 1] },
    { body := [.label 1, .assign (Variable.temporary "z") (.const (.int 1)),
        .condGoto (.var (Variable.temporary "a")) 2, .goto 0] },
    { body := [.label 2, .exit] }]

/-- The first block is fused into the block that goes back to it, and the unit is then entered at the
assignment. -/
theorem fusedEntry_lost :
    WellFormed 3 branchingEntry ∧ firstLabel? branchingEntry = some 0 ∧
      (optimizeExprs 10 branchingEntry threeLabels).1.toOption.isSome ∧
      (blockOfBasicBlocks (optimizeExprs 10 branchingEntry threeLabels).2.blocks).entry =
        some 1 := by
  refine ⟨⟨by simp [branchingEntry], ?_, by decide, by decide⟩, by decide, by decide +kernel,
    by decide +kernel⟩
  intro block hblock
  simp only [branchingEntry, List.mem_cons, List.not_mem_nil, or_false] at hblock
  rcases hblock with rfl | rfl | rfl
  · exact ⟨0, by decide, [], _, rfl, Stmt.isMiddle_nil, rfl, rfl⟩
  · exact ⟨1, by decide, [_], [_, _], rfl, ⟨rfl, by simp [Stmt.isConditional]⟩, rfl, rfl⟩
  · exact ⟨2, by decide, [], _, rfl, Stmt.isMiddle_nil, rfl, rfl⟩

end Fixpoint

end Decompiler
