import Decompiler.Proofs.WellFormedLists

/-!
# Rules on well-formed lists

Every edit that a rule asks for at a block of a well-formed list fits the list (`Rule.fits`): the
blocks that it deletes are there, and what is left does not name them.  A run of rules on a
well-formed list therefore carries out all of its edits and leaves a well-formed list
(`Fixpoint.wellFormed_runFixpoint`); it can end early only because the sweeps run out.

The rules that delete blocks have one argument in common (`Edit.fits_of_consumed`).  The head and the
deleted blocks, taken together, name the deleted labels as often as the whole list does, and the new
head has none of these mentions.
-/

namespace Decompiler

open Bytecode

/-- A block at another position than the head is the other block under its label. -/
lemma Site.other?_eq {site : Site} {l : LabelId} {block : BasicBlock} {i : Nat}
    (hi : site.map.position? l = some i) (hne : i ≠ site.pos) (hat : site.blocks[i]? = some block) :
    site.other? l = some block := by
  simp only [other?, hi, Option.bind_eq_bind, Option.bind_some, if_neg hne]
  exact hat

namespace Site.IsAt

variable {site : Site} {blocks : List BasicBlock} {label : LabelId} {bound : Nat}
  (hsite : site.IsAt blocks)
include hsite

/-- The head is a block of the list. -/
lemma head_mem : site.head ∈ blocks := List.mem_of_getElem? hsite.head_eq

/-- Another block is a block of the list, under the label that it was asked for. -/
lemma other_mem {l : LabelId} {block : BasicBlock} (h : site.other? l = some block) :
    block ∈ blocks ∧ block.entryLabel? = some l := by
  obtain ⟨i, -, -, hat, hl⟩ := other?_eq_some h
  rw [Site.blocks, hsite.map_eq] at hat
  exact ⟨List.mem_of_getElem? hat, hl⟩

/-- Another block is there. -/
lemma label_mem {l : LabelId} {block : BasicBlock} (h : site.other? l = some block) :
    some l ∈ blocks.map BasicBlockOf.entryLabel? := by
  obtain ⟨hmem, hl⟩ := hsite.other_mem h
  exact List.mem_map.mpr ⟨block, hmem, hl⟩

/-- Another block has another label than the head. -/
lemma other_ne (hwf : WellFormed bound blocks) (hlabel : site.head.entryLabel? = some label)
    {l : LabelId} {block : BasicBlock} (h : site.other? l = some block) : l ≠ label := by
  rintro rfl
  obtain ⟨i, hne, -, hat, hl⟩ := other?_eq_some h
  rw [Site.blocks, hsite.map_eq] at hat
  exact hne (hwf.position_eq hat hsite.head_eq (hl.trans hlabel.symm))

/-- The head and some other blocks are distinct blocks of the list. -/
lemma touched_nodup (hwf : WellFormed bound blocks) (hlabel : site.head.entryLabel? = some label)
    {remove : List LabelId} (hnodup : remove.Nodup) :
    (site.head :: remove.filterMap site.other?).Nodup := by
  refine List.nodup_cons.mpr ⟨?_, ?_⟩
  · intro hmem
    obtain ⟨l, -, hl⟩ := List.mem_filterMap.mp hmem
    have hsame := (hsite.other_mem hl).2
    rw [hlabel] at hsame
    cases hsame
    exact hsite.other_ne hwf hlabel hl rfl
  · refine List.Nodup.filterMap ?_ hnodup
    intro a b block ha hb
    have hsame := (hsite.other_mem ha).2
    rw [(hsite.other_mem hb).2] at hsame
    cases hsame
    rfl

/-- The head and some other blocks are blocks of the list. -/
lemma touched_subset (remove : List LabelId) :
    site.head :: remove.filterMap site.other? ⊆ blocks := by
  intro block hmem
  rcases List.mem_cons.mp hmem with rfl | hmem
  · exact hsite.head_mem
  · obtain ⟨l, -, hl⟩ := List.mem_filterMap.mp hmem
    exact (hsite.other_mem hl).1

end Site.IsAt

/-! ### Edits that delete what nothing else names -/

namespace Edit

variable {site : Site} {blocks : List BasicBlock} {label : LabelId} {bound : Nat}

/-- An edit fits when the head and the blocks that it deletes name each deleted label as often as the
whole list does (`consumed`), and when the new head names only what is left of their mentions
(`rest`). -/
lemma fits_of_consumed (consumed rest : List LabelId) (hwf : WellFormed bound blocks)
    (hsite : site.IsAt blocks) (hlabel : site.head.entryLabel? = some label) {new : BasicBlock}
    {replace : List BasicBlock} {remove : List LabelId}
    (hmodest : ∀ minted, Modest ⟨some new, replace, remove, []⟩ site minted)
    (hnew : new.Shaped label)
    (hreplace : ∀ block ∈ replace, ∃ l old, site.other? l = some old ∧ l ∉ remove ∧
      block.Shaped l ∧ Stmt.targetsOfList block.body ⊆ Stmt.targetsOfList old.body)
    (hnodup : remove.Nodup) (hremove : ∀ l ∈ remove, ∃ block, site.other? l = some block)
    (hsplit : ∀ l, consumed.count l + rest.count l ≤
      ((site.head :: remove.filterMap site.other?).flatMap
        fun block => Stmt.targetsOfList block.body).count l)
    (hcount : ∀ l ∈ remove, site.refcount l ≤ consumed.count l)
    (htargets : Stmt.targetsOfList new.body ⊆ rest) :
    Fits ⟨some new, replace, remove, []⟩ blocks label bound bound := by
  have hrefcount : ∀ l, site.refcount l = (BlockMap.ofBlocks blocks).mentions.count l := by
    intro l
    rw [Site.refcount, BlockMap.refcount, hsite.map_eq]
  have hrest : ∀ l ∈ remove, l ∉ rest := by
    intro l hl
    have hle := (WellFormed.targets_subperm (hsite.touched_nodup hwf hlabel hnodup)
      (hsite.touched_subset remove)).count_le l
    have hsplit := hsplit l
    have hcount := hcount l hl
    rw [hrefcount] at hcount
    exact List.count_eq_zero.mp (by omega)
  -- A block apart from these has no mention of a deleted label left.
  have hkept : ∀ block ∈ blocks, (∀ l ∈ label :: remove, block.entryLabel? ≠ some l) →
      ∀ l ∈ remove, l ∉ Stmt.targetsOfList block.body := by
    intro block hblock hapart l hl
    have hfresh : block ∉ site.head :: remove.filterMap site.other? := by
      intro hmem
      rcases List.mem_cons.mp hmem with rfl | hmem
      · exact hapart label List.mem_cons_self hlabel
      · obtain ⟨m, hm, hother⟩ := List.mem_filterMap.mp hmem
        exact hapart m (List.mem_cons_of_mem _ hm) (hsite.other_mem hother).2
    have hle := (WellFormed.targets_subperm
      (List.nodup_cons.mpr ⟨hfresh, hsite.touched_nodup hwf hlabel hnodup⟩)
      (List.cons_subset.mpr ⟨hblock, hsite.touched_subset remove⟩)).count_le l
    rw [List.flatMap_cons, List.count_append] at hle
    have hsplit := hsplit l
    have hcount := hcount l hl
    rw [hrefcount] at hcount
    exact List.count_eq_zero.mp (by omega)
  have hnamed : ∀ block ∈ new :: replace, ∀ l ∈ Stmt.targetsOfList block.body,
      l ∈ (BlockMap.ofBlocks blocks).mentions := by
    intro block hblock l hl
    rw [← hsite.map_eq]
    have hmem : block ∈ (some new).toList ++ (replace ++ []) := by simpa using hblock
    rcases (hmodest (l + 1)).targets_named block hmem l hl with h | h
    · exact h
    · exact absurd h (Nat.ne_of_lt (Nat.lt_succ_self l))
  refine
    { bound_le := Nat.le_refl _
      head := fun block hblock => by cases hblock; exact hnew
      replace := ?_
      insert := by simp
      insert_nodup := List.nodup_nil
      remove_nodup := hnodup
      remove := ?_
      rest := ?_
      new_targets := ?_
      kept_targets := ?_ }
  · intro block hblock
    obtain ⟨l, old, hother, hl, hshaped, -⟩ := hreplace block hblock
    exact ⟨l, hshaped, hsite.label_mem hother, hsite.other_ne hwf hlabel hother, hl⟩
  · intro l hl
    obtain ⟨block, hother⟩ := hremove l hl
    exact ⟨hsite.label_mem hother, hsite.other_ne hwf hlabel hother⟩
  · refine ⟨label, List.mem_map.mpr ⟨site.head, hsite.head_mem, hlabel⟩, ?_⟩
    intro hl
    obtain ⟨block, hother⟩ := hremove label hl
    exact hsite.other_ne hwf hlabel hother rfl
  · intro block hblock l hl
    have hblock : block ∈ new :: replace := by simpa using hblock
    refine ⟨?_, .inl (hnamed block hblock l hl)⟩
    intro hgone
    rcases List.mem_cons.mp hblock with rfl | hblock
    · exact hrest l hgone (htargets hl)
    · obtain ⟨m, old, hother, hm, -, hsubset⟩ := hreplace block hblock
      obtain ⟨hold, holdLabel⟩ := hsite.other_mem hother
      refine hkept old hold ?_ l hgone (hsubset hl)
      intro n hn heq
      rw [holdLabel] at heq
      cases heq
      rcases List.mem_cons.mp hn with rfl | hn
      · exact hsite.other_ne hwf hlabel hother rfl
      · exact hm hn
  · intro block hblock hapart l hl hgone
    exact hkept block hblock hapart l hgone hl

/-- An edit that exchanges the end of its head fits when the old end and the deleted blocks name each
deleted label as often as the whole list does (`consumed`), and when the new end names only what is
left of their mentions (`rest`). -/
lemma fits_of_headWith (consumed rest : List LabelId) (hwf : WellFormed bound blocks)
    (hsite : site.IsAt blocks) (hlabel : site.head.entryLabel? = some label)
    {init old middle ending : List Stmt} {replace : List BasicBlock} {remove : List LabelId}
    (hinit : init ≠ []) (hbody : site.head.body = init ++ old) (hlen : 2 ≤ old.length)
    (hmiddle : Stmt.IsMiddle middle) (hending : Stmt.IsEnd ending)
    (hmodest : ∀ minted,
      Modest ⟨some (site.headWith old.length (middle ++ ending)), replace, remove, []⟩ site minted)
    (hreplace : ∀ block ∈ replace, ∃ l old, site.other? l = some old ∧ l ∉ remove ∧
      block.Shaped l ∧ Stmt.targetsOfList block.body ⊆ Stmt.targetsOfList old.body)
    (hnodup : remove.Nodup) (hremove : ∀ l ∈ remove, ∃ block, site.other? l = some block)
    (hsplit : ∀ l, consumed.count l + rest.count l ≤ (Stmt.targetsOfList old).count l +
      ((remove.filterMap site.other?).flatMap fun block => Stmt.targetsOfList block.body).count l)
    (hcount : ∀ l ∈ remove, site.refcount l ≤ consumed.count l)
    (htargets : Stmt.targetsOfList (middle ++ ending) ⊆ rest) :
    Fits ⟨some (site.headWith old.length (middle ++ ending)), replace, remove, []⟩ blocks label bound
      bound := by
  have hshaped := (hwf.shaped_of_label hsite.head_mem hlabel).2
  have hnew := Site.body_headWith hbody (middle ++ ending)
  refine fits_of_consumed consumed (Stmt.targetsOfList init ++ rest) hwf hsite hlabel hmodest
    (hshaped.exchange hbody hinit hlen hmiddle hending hnew) hreplace hnodup hremove ?_ hcount ?_
  · intro l
    have hsplit := hsplit l
    rw [List.flatMap_cons, hbody, Stmt.targetsOfList_append, List.count_append, List.count_append,
      List.count_append]
    omega
  · rw [hnew, Stmt.targetsOfList_append]
    exact List.append_subset.mpr ⟨List.subset_append_left _ _,
      List.Subset.trans htargets (List.subset_append_right _ _)⟩

/-- An edit that changes only the expressions of its head fits. -/
lemma fits_of_sameOutlines (hwf : WellFormed bound blocks) (hsite : site.IsAt blocks)
    (hlabel : site.head.entryLabel? = some label) {body : List Stmt}
    (h : Stmt.SameOutlines site.head.body body) :
    Fits { head := some { site.head with body } } blocks label bound bound := by
  have hshaped := (hwf.shaped_of_label hsite.head_mem hlabel).2
  refine fits_of_consumed [] (Stmt.targetsOfList site.head.body) hwf hsite hlabel
    (fun _ => modest_of_sameOutlines hsite h) (hshaped.of_sameOutlines h) (by simp) List.nodup_nil
    (by simp) (by simp) (by simp) ?_
  rw [h.targets]
  exact List.Subset.refl _

end Edit

section

variable {site : Site} {blocks : List BasicBlock} {edit : Edit} {label : LabelId} {bound : Nat}
  (hwf : WellFormed bound blocks) (hsite : site.IsAt blocks)
  (hlabel : site.head.entryLabel? = some label)
include hwf hsite hlabel

/-- The edit that fuses two branches fits. -/
lemma ShortCircuit.fits (h : edit? site = some edit) : edit.Fits blocks label bound bound := by
  have hmodest : ∀ minted, edit.Modest site minted := fun _ => modest hsite h
  obtain ⟨init, c, t, f, inner, block, l, d, t', f', e, hinit, hbody, hinner, hcount, hother, hblock,
    rfl⟩ := edit?_eq_some h
  refine Edit.fits_of_headWith [inner] [t', f'] hwf hsite hlabel hinit hbody (by simp)
    Stmt.isMiddle_nil (Stmt.isEnd_condGoto e t' f') hmodest (by simp) (by simp) (by simp [hother])
    ?_ ?_ (List.Subset.refl _)
  · intro m
    simp only [List.filterMap_cons, hother, List.filterMap_nil, List.flatMap_cons, List.flatMap_nil,
      hblock, Stmt.targetsOfList, Stmt.targets, Stmt.branchTargets, List.append_nil,
      List.cons_append, List.nil_append, List.count_cons, List.count_nil]
    rcases hinner with rfl | rfl <;> omega
  · simp [hcount]

/-- The edit that makes a value of a branch fits. -/
lemma Ternary.fits (h : edit? site = some edit) : edit.Fits blocks label bound bound := by
  have hmodest : ∀ minted, edit.Modest site minted := fun _ => modest hsite h
  obtain ⟨init, test, t, f, onTrue, onFalse, fall, value, hinit, hbody, htf, hthen, helse, hft, hff,
    -, hedit⟩ := edit?_eq_some h
  obtain ⟨htCount, thenBlock, lt, hthenBlock, -, hthenBody⟩ := arm?_eq_some hthen
  obtain ⟨hfCount, elseBlock, lf, helseBlock, -, helseBody⟩ := arm?_eq_some helse
  rcases hedit with ⟨next, target, other, hmeet, rfl⟩ | rfl
  · -- Each arm names the meeting block once, and so all three blocks can go.
    obtain ⟨hmCount, meetBlock, lm, hmeetBlock, -, hmeetBody⟩ := meeting?_eq_some hmeet
    refine Edit.fits_of_headWith [t, f, fall, fall] [target, other] hwf hsite hlabel hinit
      hbody (by simp) Stmt.isMiddle_nil (Stmt.isEnd_condGoto _ target other) hmodest (by simp)
      (by simp [htf, hft.symm, hff.symm]) (by simp [hthenBlock, helseBlock, hmeetBlock]) ?_ ?_
      (List.Subset.refl _)
    · intro m
      simp only [List.filterMap_cons, hthenBlock, helseBlock, hmeetBlock, List.filterMap_nil,
        List.flatMap_cons, List.flatMap_nil, hthenBody, helseBody, hmeetBody, Stmt.targetsOfList,
        Stmt.targets, Stmt.branchTargets, List.append_nil, List.cons_append, List.nil_append,
        List.count_cons, List.count_nil]
      omega
    · simp only [List.forall_mem_cons, htCount, hfCount, hmCount, List.count_cons,
        beq_self_eq_true, if_true]
      refine ⟨by omega, by omega, by omega, by simp⟩
  · have hmiddle : Stmt.IsMiddle [.push value] := ⟨rfl, by simp [Stmt.isConditional]⟩
    refine Edit.fits_of_headWith [t, f] [fall] hwf hsite hlabel hinit hbody (by simp) hmiddle
      (Stmt.isEnd_goto fall) hmodest (by simp) (by simp [htf]) (by simp [hthenBlock, helseBlock]) ?_
      ?_ (List.Subset.refl _)
    · intro m
      simp only [List.filterMap_cons, hthenBlock, helseBlock, List.filterMap_nil, List.flatMap_cons,
        List.flatMap_nil, hthenBody, helseBody, Stmt.targetsOfList, Stmt.targets,
        Stmt.branchTargets, List.append_nil, List.cons_append, List.nil_append, List.count_cons,
        List.count_nil]
      omega
    · simp [htCount, hfCount]

/-- The edit that makes a statement of a scope fits. -/
lemma WithScope.fits (h : edit? site = some edit) : edit.Fits blocks label bound bound := by
  have hmodest : ∀ minted, edit.Modest site minted := fun _ => modest hsite h
  obtain ⟨init, env, skip, body, popBlock, l, after, bodyBlock, l', stmts, hinit, hbody, hne,
    hbodyCount, hskipCount, hpop, hpopBody, hbodyBlock, hbodyBody, -, rfl⟩ := edit?_eq_some h
  obtain ⟨hbodyMem, hbodyLabel⟩ := hsite.other_mem hbodyBlock
  have hlabels := (hwf.shaped_of_label hbodyMem hbodyLabel).2.of_cons hbodyBody
  rw [Stmt.labelsOfList_append, List.append_eq_nil_iff] at hlabels
  have hmiddle : Stmt.IsMiddle [.scope env { body := stmts } none] := by
    refine ⟨?_, by simp [Stmt.isConditional]⟩
    simp [Stmt.labelsOfList, Stmt.labels, hlabels.1]
  refine Edit.fits_of_headWith [skip, body, skip, body] (Stmt.targetsOfList stmts ++ [after]) hwf hsite
    hlabel hinit hbody (by simp) hmiddle (Stmt.isEnd_goto after) hmodest (by simp)
    (by simp [hne.symm]) (by simp [hpop, hbodyBlock]) ?_ ?_ ?_
  · intro m
    simp only [List.filterMap_cons, hpop, hbodyBlock, List.filterMap_nil, List.flatMap_cons,
      List.flatMap_nil, hpopBody, hbodyBody, Stmt.targetsOfList_append, Stmt.targetsOfList,
      Stmt.targets, Stmt.branchTargets, List.append_nil, List.nil_append, List.count_append,
      List.count_cons, List.count_nil]
    omega
  · simp only [List.forall_mem_cons, hbodyCount, hskipCount, List.count_cons, beq_self_eq_true,
      if_true]
    refine ⟨by omega, by omega, by simp⟩
  · simp [Stmt.targetsOfList, Stmt.targets, Stmt.branchTargets]

/-- The edit that joins two blocks fits. -/
lemma Join.fits (h : edit? site = some edit) : edit.Fits blocks label bound bound := by
  have hmodest : ∀ minted, edit.Modest site minted := fun _ => modest hsite h
  have hshaped := (hwf.shaped_of_label hsite.head_mem hlabel).2
  obtain ⟨kept, dropped, next, nextAt, nextBlock, values, hkept, hbody, hcount, hstraight, hat, hpos, -,
    hnext, rfl⟩ := edit?_eq_some h
  have hother := Site.other?_eq hat hpos hnext
  obtain ⟨hnextMem, hnextLabel⟩ := hsite.other_mem hother
  obtain ⟨middle, ending, hnextBody, hmiddle, hending⟩ :=
    (hwf.shaped_of_label hnextMem hnextLabel).2
  have hdrop : nextBlock.body.drop 1 = middle ++ ending := by
    rw [hnextBody]
    rfl
  -- The head branches nowhere, so that all that is kept of it may stand in the middle of a block.
  obtain ⟨s, start, rfl⟩ := List.exists_cons_of_ne_nil hkept
  have hstart : Stmt.IsMiddle start := by
    have hlabels := hshaped.of_cons (hbody.trans (List.cons_append ..))
    rw [Stmt.labelsOfList_append, List.append_eq_nil_iff] at hlabels
    refine ⟨hlabels.1, ?_⟩
    intro t ht
    refine hstraight t ?_
    rw [hbody]
    exact List.mem_append_left _ (List.mem_cons_of_mem _ ht)
  have hs : s = .label label := by
    obtain ⟨_, _, hhead, -⟩ := hshaped
    rw [hhead, List.cons_append, List.cons.injEq] at hbody
    exact hbody.1.symm
  refine Edit.fits_of_consumed [next] (Stmt.targetsOfList start ++ Stmt.targetsOfList (middle ++ ending))
    hwf hsite hlabel hmodest ?_ (by simp) (by simp) (by simp [hother]) ?_ ?_ ?_
  · refine ⟨start ++ middle.map (Stmt.substitute values), ending.map (Stmt.substitute values), ?_,
      Stmt.isMiddle_append.mpr ⟨hstart, ?_⟩, ?_⟩
    · simp [hs, hdrop]
    · exact (Stmt.sameOutlines_map_substitute values middle).isMiddle hmiddle
    · exact (Stmt.sameOutlines_map_substitute values ending).isEnd hending
  · intro m
    simp only [List.filterMap_cons, hother, List.filterMap_nil, List.flatMap_cons, List.flatMap_nil,
      hbody, hnextBody, Stmt.targetsOfList_append, Stmt.targetsOfList, Stmt.targets,
      Stmt.branchTargets, List.append_nil, List.nil_append, List.count_append, List.count_cons,
      List.count_nil]
    omega
  · simp [hcount]
  · simp only [hs, hdrop, Stmt.targetsOfList_append, Stmt.targetsOfList, Stmt.targets,
      Stmt.branchTargets, List.cons_append, List.nil_append,
      (Stmt.sameOutlines_map_substitute values (middle ++ ending)).targets]
    exact List.Subset.refl _

omit hwf hsite hlabel in
/-- The labels of a chain are distinct, and each of them is named once. -/
lemma SwitchDispatch.Chained.labels_spec {next default : LabelId} {links : List Link}
    {labels : List LabelId} (h : Chained site next links labels default) :
    labels.Nodup ∧ ∀ l ∈ labels, site.refcount l = 1 ∧ ∃ block, site.other? l = some block := by
  induction h with
  | last hcount hblock _ => simp [hcount, hblock]
  | link hcount hblock _ _ hnew _ ih =>
    simp only [List.nodup_cons, List.forall_mem_cons]
    exact ⟨⟨hnew, ih.1⟩, ⟨hcount, _, hblock⟩, ih.2⟩

omit hwf hsite hlabel in
/-- The blocks of a chain name its labels but for the first, its cases and its default. -/
lemma SwitchDispatch.Chained.count_targets {next default : LabelId} {links : List Link}
    {labels : List LabelId} (h : Chained site next links labels default) (l : LabelId) :
    ((labels.filterMap site.other?).flatMap fun block => Stmt.targetsOfList block.body).count l +
        [next].count l =
      labels.count l + (links.map Link.case).count l + [default].count l := by
  induction h with
  | last _ hblock hbody =>
    simp only [List.filterMap_cons, hblock, List.filterMap_nil, List.flatMap_cons, List.flatMap_nil,
      hbody, Stmt.targetsOfList, Stmt.targets, Stmt.branchTargets, List.append_nil, List.nil_append,
      List.map_nil, List.count_nil]
    omega
  | link _ hblock hbody hlink _ _ ih =>
    obtain ⟨a, b, c, rfl⟩ := link?_eq_some hlink
    simp only [List.filterMap_cons, hblock, List.flatMap_cons, hbody, Stmt.targetsOfList,
      Stmt.targets, Stmt.branchTargets, StackOp.targets, List.append_nil, List.nil_append,
      List.cons_append, List.map_cons, List.count_cons, List.count_nil] at ih ⊢
    omega

/-- The edit that makes a dispatch of a chain fits. -/
lemma SwitchDispatch.fits {context context' : Context}
    (h : edit? site context = (some edit, context')) : edit.Fits blocks label bound bound := by
  have hmodest : ∀ minted, edit.Modest site minted := fun _ => modest hsite h
  obtain ⟨-, init, a, b, c, first, chain, last, endBlock, hinit, hbody, hchain, hlast, hother,
    hpopz, rfl⟩ := edit?_eq_some h
  obtain ⟨hnodup, hlabels⟩ := hchain.labels_spec
  have hend : Stmt.IsEnd [.raw first.offset (.dispatch
      ((first :: chain.links).map fun link => (link.value, link.case)) chain.default),
      .goto chain.default] := ⟨rfl, rfl⟩
  refine Edit.fits_of_headWith chain.labels
    (first.case :: (chain.links.map Link.case ++ [chain.default])) hwf hsite hlabel hinit hbody
    (by simp) Stmt.isMiddle_nil hend hmodest ?_ hnodup (fun l hl => (hlabels l hl).2) ?_ ?_ ?_
  · intro block hblock
    rw [List.mem_singleton.mp hblock]
    obtain ⟨hmem, hendLabel⟩ := hsite.other_mem hother
    exact ⟨last, endBlock, hother, hlast,
      (hwf.shaped_of_label hmem hendLabel).2.withoutFirst hpopz,
      targetsOfList_withoutFirst_subset endBlock⟩
  · intro l
    have hcount := hchain.count_targets l
    simp only [Stmt.targetsOfList, Stmt.targets, Stmt.branchTargets, StackOp.targets,
      List.append_nil, List.nil_append, List.cons_append, List.count_append, List.count_cons,
      List.count_nil] at hcount ⊢
    omega
  · intro l hl
    rw [(hlabels l hl).1]
    exact List.count_pos_iff.mpr hl
  · intro l hl
    simp only [List.nil_append, Stmt.targetsOfList, Stmt.targets, Stmt.branchTargets,
      StackOp.targets, List.map_cons, List.map_map, List.append_nil, List.mem_append, List.mem_cons,
      List.mem_map, Function.comp_apply, List.not_mem_nil, or_false] at hl ⊢
    rcases hl with ((rfl | hcase) | hdefault) | hdefault
    · exact .inl rfl
    · exact .inr (.inl hcase)
    · exact .inr (.inr hdefault)
    · exact .inr (.inr hdefault)

/-- The edit that keeps a counter in a temporary fits, with one new label. -/
lemma CountedLoop.fits {context context' : Context}
    (hbound : bound = context.labels.names.length)
    (h : edit? site context = (some edit, context')) :
    edit.Fits blocks label bound context'.labels.names.length := by
  have hmodest := modest hsite h
  have hshaped := (hwf.shaped_of_label hsite.head_mem hlabel).2
  obtain ⟨counter, name, counters, head, tailAt, tailBlock, tail, exitAt, exitBlock, rfl, hhead, htail,
    htailEnd, hexitAt, hexit, htailPos, hexitPos, -, hpopz, rfl⟩ := edit?_eq_some h
  obtain ⟨init, zero, a, b, c, hinit, hbody⟩ := head?_eq_some hhead
  obtain ⟨init', a', b', c', hinit', hbody'⟩ := tail?_eq_some htailEnd
  have hother := Site.other?_eq hexitAt hexitPos hexit
  obtain ⟨hexitMem, hexitLabel⟩ := hsite.other_mem hother
  rw [Site.blocks, hsite.map_eq] at htail
  have htailMem := List.mem_of_getElem? htail
  obtain ⟨tailLabel, -, htailShaped⟩ := hwf.shaped tailBlock htailMem
  refine
    { bound_le := by simp [hbound]
      head := ?_
      replace := ?_
      insert := ?_
      insert_nodup := List.nodup_singleton _
      remove_nodup := List.nodup_nil
      remove := by simp
      rest := ⟨label, List.mem_map.mpr ⟨site.head, hsite.head_mem, hlabel⟩, by simp [Edit.gone]⟩
      new_targets := ?_
      kept_targets := by simp [Edit.gone] }
  · intro block hblock
    cases hblock
    have hmiddle : Stmt.IsMiddle [.raw head.offset (.popTemporary counter)] :=
      ⟨rfl, by simp [Stmt.isConditional, StackOp.isConditional]⟩
    exact hshaped.exchange hbody hinit (by simp) hmiddle (Stmt.isEnd_goto context.labels.names.length)
      (Site.body_headWith hbody _)
  · intro block hblock
    simp only [List.mem_cons, List.not_mem_nil, or_false] at hblock
    rcases hblock with rfl | rfl
    · refine ⟨tailLabel, ?_, List.mem_map.mpr ⟨tailBlock, htailMem, htailShaped.entryLabel?⟩, ?_,
        by simp⟩
      · have hmiddle : Stmt.IsMiddle [.raw tail.offset (.pushTemporary counter),
            .raw tail.offset (.push tail.step), .raw tail.offset (.binary .sub),
            .raw tail.offset (.popTemporary counter)] :=
          ⟨rfl, by simp [Stmt.isConditional, StackOp.isConditional]⟩
        refine htailShaped.exchange hbody' hinit' (by simp) hmiddle
          (Stmt.isEnd_goto context.labels.names.length) ?_
        simp [CountedLoop.tailBlock, hbody']
      · rintro rfl
        exact htailPos (hwf.position_eq htail hsite.head_eq
          (htailShaped.entryLabel?.trans hlabel.symm))
    · exact ⟨head.exit, (hwf.shaped_of_label hexitMem hexitLabel).2.withoutFirst hpopz,
        hsite.label_mem hother, hsite.other_ne hwf hlabel hother, by simp⟩
  · intro block hblock
    rw [List.mem_singleton.mp hblock]
    refine ⟨context.labels.names.length, Nat.le_of_eq hbound, by simp, ?_⟩
    exact ⟨[_, _, _], [_, _], rfl,
      ⟨rfl, by simp [Stmt.isConditional, StackOp.isConditional]⟩, rfl, rfl⟩
  · intro block hblock l hl
    refine ⟨by simp [Edit.gone], ?_⟩
    rcases hmodest.targets_named block hblock l hl with hnamed | rfl
    · rw [hsite.map_eq] at hnamed
      exact .inl hnamed
    · exact .inr List.mem_cons_self

/-- The deletion of a block that nothing names fits. -/
lemma Rule.deadBlocks_fits {context : Context} (h : (deadBlocksEdit? site context).1 = some edit) :
    edit.Fits blocks label bound bound := by
  obtain ⟨l, hl, hpos, hcount, rfl⟩ := deadBlocksEdit?_eq_some h
  rw [hlabel] at hl
  cases hl
  have hunnamed : label ∉ (BlockMap.ofBlocks blocks).mentions := by
    rw [Site.refcount, BlockMap.refcount, hsite.map_eq] at hcount
    exact List.count_eq_zero.mp hcount
  refine
    { bound_le := Nat.le_refl _
      head := by simp
      replace := by simp
      insert := by simp
      insert_nodup := List.nodup_nil
      remove_nodup := List.nodup_nil
      remove := by simp
      rest := ?_
      new_targets := by simp
      kept_targets := ?_ }
  · obtain ⟨first, hfirst⟩ : ∃ first, blocks[0]? = some first := by
      obtain ⟨first, rest, rfl⟩ := List.exists_cons_of_ne_nil hwf.nonempty
      exact ⟨first, rfl⟩
    have hmem := List.mem_of_getElem? hfirst
    obtain ⟨m, -, hshaped⟩ := hwf.shaped first hmem
    refine ⟨m, List.mem_map.mpr ⟨first, hmem, hshaped.entryLabel?⟩, ?_⟩
    intro hgone
    have hm : m = label := by simpa [Edit.gone] using hgone
    rw [hm] at hshaped
    exact hpos (hwf.position_eq hsite.head_eq hfirst (hlabel.trans hshaped.entryLabel?.symm))
  · intro block hblock _ l hl hgone
    have hl' : l = label := by simpa [Edit.gone] using hgone
    rw [hl'] at hl
    exact hunnamed (List.mem_flatMap.mpr ⟨block, hblock, hl⟩)

end

/-- Every edit that a rule asks for on a well-formed list fits the list. -/
theorem Rule.fits {rule : Rule} {site : Site} {blocks : List BasicBlock} {edit : Edit}
    {label : LabelId} {context context' : Context}
    (hwf : WellFormed context.labels.names.length blocks) (hsite : site.IsAt blocks)
    (hlabel : site.head.entryLabel? = some label)
    (h : rule.edit? site context = (some edit, context')) :
    edit.Fits blocks label context.labels.names.length context'.labels.names.length := by
  have hle := names_length_le h
  cases rule with
  | countedLoop => exact CountedLoop.fits hwf hsite hlabel rfl h
  | switchDispatch => exact (SwitchDispatch.fits hwf hsite hlabel h).mono hle
  | withScope => exact (WithScope.fits hwf hsite hlabel (congrArg Prod.fst h)).mono hle
  | shortCircuit => exact (ShortCircuit.fits hwf hsite hlabel (congrArg Prod.fst h)).mono hle
  | ternary => exact (Ternary.fits hwf hsite hlabel (congrArg Prod.fst h)).mono hle
  | join => exact (Join.fits hwf hsite hlabel (congrArg Prod.fst h)).mono hle
  | deadBlocks => exact (deadBlocks_fits hwf hsite hlabel (congrArg Prod.fst h)).mono hle
  | logicNot =>
    have h : logicNotEdit? site = some edit := congrArg Prod.fst h
    unfold logicNotEdit? at h
    split at h
    · cases h
      exact (Edit.fits_of_sameOutlines hwf hsite hlabel (Stmt.sameOutlines_mapExprsList _ _)).mono hle
    · cases h
  | popz =>
    have h : popzEdit? site = some edit := congrArg Prod.fst h
    unfold popzEdit? at h
    split at h
    · cases h
    · cases h
      exact (Edit.fits_of_sameOutlines hwf hsite hlabel (Stmt.sameOutlines_promoteCallsList _)).mono hle

/-! ### Runs on well-formed lists -/

namespace Fixpoint

/-- The blocks of a state are well-formed, with the labels that have been handed out. -/
def State.IsWellFormed (state : State) : Prop :=
  WellFormed state.context.labels.names.length state.blocks

/-- One edit on a well-formed list is carried out and leaves a well-formed list. -/
lemma apply_wellFormed {rule : Rule} {state : State} {pos : Nat} {head : BasicBlock} {edit : Edit}
    {context : Context} (h : state.IsWellFormed) (hhead : state.blocks[pos]? = some head)
    (hedit : rule.edit? ⟨.ofBlocks state.blocks, pos, head⟩ state.context = (some edit, context)) :
    ∃ after resume, edit.apply state.blocks pos = .ok (after, resume) ∧
      WellFormed context.labels.names.length after := by
  obtain ⟨label, -, hshaped⟩ := h.shaped head (List.mem_of_getElem? hhead)
  have hfits := Rule.fits h ⟨rfl, hhead⟩ hshaped.entryLabel? hedit
  obtain ⟨after, resume, happly⟩ := hfits.apply_ok h hhead hshaped.entryLabel?
  obtain ⟨replaced, removed, happ⟩ := Edit.apply_eq_ok happly
  exact ⟨after, resume, happly, happ.wellFormed h hfits hhead hshaped.entryLabel?⟩

/-- Trying a rule from a position on. -/
lemma tryFrom_wellFormed (rule : Rule) (fuel pos : Nat) {state : State} (h : state.IsWellFormed) :
    ∃ state', tryFrom rule fuel (.ofBlocks state.blocks) pos state = (.ok (), state') ∧
      state'.IsWellFormed := by
  induction fuel generalizing pos state with
  | zero => exact ⟨state, rfl, h⟩
  | succ fuel ih =>
    rw [tryFrom]
    cases hhead : state.blocks[pos]? with
    | none => exact ⟨state, rfl, h⟩
    | some head =>
      cases hedit : rule.edit? ⟨.ofBlocks state.blocks, pos, head⟩ state.context with
      | mk edit context =>
        cases edit with
        | none =>
          have hnext : State.IsWellFormed { state with context } := h.mono (Rule.names_length_le hedit)
          simp only [hedit]
          exact ih (pos + 1) hnext
        | some edit =>
          obtain ⟨after, resume, happly, hafter⟩ := apply_wellFormed h hhead hedit
          have hnext : State.IsWellFormed { blocks := after, context, changed := true } := hafter
          simp only [hedit, happly]
          exact ih resume hnext

/-- Trying some rules at every block. -/
lemma sweep_wellFormed (rules : List Rule) {state : State} (h : state.IsWellFormed) :
    ∃ state', sweep rules state = (.ok (), state') ∧ state'.IsWellFormed := by
  induction rules generalizing state with
  | nil => exact ⟨state, rfl, h⟩
  | cons rule later ih =>
    obtain ⟨next, htry, hnext⟩ := tryFrom_wellFormed rule (2 * state.blocks.length + 1) 0 h
    rw [sweep, tryRule, htry]
    exact ih hnext

/-- Sweeping until nothing changes. -/
lemma sweeps_wellFormed (rules : List Rule) (remaining done : Nat) {state : State}
    (h : state.IsWellFormed) :
    (sweeps rules remaining done state).2.IsWellFormed ∧
      ((∃ n, (sweeps rules remaining done state).1 = .ok n) ∨
        ∃ n, (sweeps rules remaining done state).1 = .error (.fixpointExceeded n)) := by
  induction remaining generalizing done state with
  | zero => exact ⟨h, .inr ⟨done, rfl⟩⟩
  | succ remaining ih =>
    have hstart : State.IsWellFormed { state with changed := false } := h
    obtain ⟨next, hsweep, hnext⟩ := sweep_wellFormed rules hstart
    rw [sweeps, hsweep]
    dsimp only
    split
    · exact ih (done + 1) hnext
    · exact ⟨hnext, .inl ⟨done + 1, rfl⟩⟩

/-- A run of rules on a well-formed list leaves a well-formed list, and nothing but too many sweeps
ends it early. -/
theorem wellFormed_runFixpoint (rules : List Rule) (maxSweeps : Nat) {blocks : List BasicBlock}
    {context : Context} (h : WellFormed context.labels.names.length blocks) :
    (runFixpoint rules maxSweeps blocks context).2.IsWellFormed ∧
      ((∃ n, (runFixpoint rules maxSweeps blocks context).1 = .ok n) ∨
        ∃ n, (runFixpoint rules maxSweeps blocks context).1 = .error (.fixpointExceeded n)) := by
  have hstart : State.IsWellFormed { blocks, context } := h
  exact sweeps_wellFormed rules maxSweeps 0 hstart

end Fixpoint

end Decompiler
