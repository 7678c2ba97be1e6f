import Decompiler.Proofs.DecodedCode
import Decompiler.Proofs.WellFormedLists
import Decompiler.Stack.Partition

/-!
# The blocks of decoded code

Splitting statements into blocks gives one block for each label of the statements and one for each
label that is minted on the way (`Partition.IsSplit`).  The induction is on the statements, with the
label and the middle of the block that is still open.  Each block passes its check, whatever the
statements are (`checkedPartition_eq`).  For the statements of decoded code, which define each label below
the number of labels once, the blocks are well-formed (`wellFormed_partition`).
-/

namespace Decompiler

open Bytecode

namespace Labels

/-- A minted label is the next number. -/
lemma fresh_fst (labels : Labels) (stem : String) : (labels.fresh stem).1 = labels.names.length :=
  rfl

/-- Minting a label takes one number. -/
lemma length_fresh (labels : Labels) (stem : String) :
    (labels.fresh stem).2.names.length = labels.names.length + 1 := by
  simp [fresh, nextIndex, named]

end Labels

namespace Partition

/-- The label at the head of the statements of a block. -/
def entry? (body : List Stmt) : Option LabelId :=
  BasicBlockOf.entryLabel? { body }

/-- The statements of a block that is still open: its label and a middle. -/
def opened (current : LabelId × List Stmt) : List Stmt :=
  .label current.1 :: current.2

/-- A block that is still open holds neither labels nor branches behind its label, and nothing that an
instruction does not leave. -/
structure IsOpen (current : LabelId × List Stmt) : Prop where
  middle : Stmt.IsMiddle current.2
  kinds : ∀ s ∈ current.2, s.isLowered = true

/-- What the split of some statements is, from the labels before, the block that is open and the
statements to the blocks and the labels after. -/
structure IsSplit (labels : Labels) (current : Option (LabelId × List Stmt)) (stmts : List Stmt)
    (bodies : List (List Stmt)) (later : Labels) : Prop where
  length_le : labels.names.length ≤ later.names.length
  shaped : ∀ body ∈ bodies, ∃ label, BasicBlockOf.Shaped { body } label
  kinds : ∀ body ∈ bodies, ∀ s ∈ body, (∃ id, s = .label id) ∨ s.isLowered = true
  entries : (bodies.map entry?).Perm (((current.map Prod.fst).toList ++ Stmt.labelsOfList stmts ++
    List.range' labels.names.length (later.names.length - labels.names.length)).map some)
  targets : ∀ body ∈ bodies, ∀ id ∈ Stmt.targetsOfList body,
    (∃ block ∈ current, id ∈ Stmt.targetsOfList block.2) ∨ id ∈ Stmt.targetsOfList stmts ∨
      some id ∈ bodies.map entry?

/-- A block whose end is known is shaped. -/
lemma IsOpen.shaped {block : LabelId × List Stmt} {ending : List Stmt} (h : IsOpen block)
    (hend : Stmt.IsEnd ending) : BasicBlockOf.Shaped { body := opened block ++ ending } block.1 :=
  ⟨block.2, ending, rfl, h.middle, hend⟩

/-- The numbers from `n` on, the first of them apart. -/
lemma range'_perm_cons {n later : Nat} (h : n + 1 ≤ later) (front : List LabelId) :
    (n :: (front ++ List.range' (n + 1) (later - (n + 1)))).Perm
      (front ++ List.range' n (later - n)) := by
  have hrange : List.range' n (later - n) = n :: List.range' (n + 1) (later - (n + 1)) := by
    rw [show later - n = later - (n + 1) + 1 by omega, List.range'_succ]
  rw [hrange]
  exact List.perm_middle.symm

namespace IsSplit

variable {labels labels' later : Labels} {block : LabelId × List Stmt}
  {current : Option (LabelId × List Stmt)} {stmts rest ending : List Stmt}
  {bodies : List (List Stmt)}

/-- The block that is open is closed, and the split goes on with the rest. -/
lemma close (hopen : IsOpen block) (hend : Stmt.IsEnd ending)
    (hkinds : ∀ s ∈ ending, s.isLowered = true) (hrest : IsSplit labels' current rest bodies later)
    (hle : labels.names.length ≤ labels'.names.length)
    (hentries : ((current.map Prod.fst).toList ++ Stmt.labelsOfList rest ++
      List.range' labels'.names.length (later.names.length - labels'.names.length)).Perm
      (Stmt.labelsOfList stmts ++
        List.range' labels.names.length (later.names.length - labels.names.length)))
    (hcurrent : ∀ b ∈ current, b.2 = [])
    (htargets : ∀ id ∈ Stmt.targetsOfList ending, id ∈ Stmt.targetsOfList stmts ∨
      some id ∈ bodies.map entry?)
    (hsubset : Stmt.targetsOfList rest ⊆ Stmt.targetsOfList stmts) :
    IsSplit labels (some block) stmts ((opened block ++ ending) :: bodies) later where
  length_le := Nat.le_trans hle hrest.length_le
  shaped := List.forall_mem_cons.mpr ⟨⟨block.1, hopen.shaped hend⟩, hrest.shaped⟩
  kinds := by
    refine List.forall_mem_cons.mpr ⟨?_, hrest.kinds⟩
    intro s hs
    rcases List.mem_append.mp hs with hs | hs
    · rcases List.mem_cons.mp hs with rfl | hs
      · exact .inl ⟨block.1, rfl⟩
      · exact .inr (hopen.kinds s hs)
    · exact .inr (hkinds s hs)
  entries := by
    have hentry : entry? (opened block ++ ending) = some block.1 := rfl
    rw [List.map_cons, hentry]
    exact (hrest.entries.trans (hentries.map some)).cons (some block.1)
  targets := by
    refine List.forall_mem_cons.mpr ⟨?_, ?_⟩
    · intro id hid
      rw [Stmt.targetsOfList_append] at hid
      rcases List.mem_append.mp hid with hid | hid
      · exact .inl ⟨block, rfl, hid⟩
      · exact .inr ((htargets id hid).imp_right (List.mem_cons_of_mem _))
    · intro body hbody id hid
      rcases hrest.targets body hbody id hid with ⟨b, hb, hid⟩ | hid | hid
      · rw [hcurrent b hb] at hid
        cases hid
      · exact .inr (.inl (hsubset hid))
      · exact .inr (.inr (List.mem_cons_of_mem _ hid))

/-- A label where no block is open opens one. -/
lemma openLabel {id : LabelId} (h : IsSplit labels (some (id, [])) rest bodies later) :
    IsSplit labels none (.label id :: rest) bodies later where
  length_le := h.length_le
  shaped := h.shaped
  kinds := h.kinds
  entries := h.entries
  targets := by
    intro body hbody target htarget
    rcases h.targets body hbody target htarget with ⟨b, hb, htarget⟩ | htarget
    · cases hb
      cases htarget
    · exact .inr htarget

/-- A statement where no block is open opens one under a minted label. -/
lemma openFresh (h : IsSplit (labels.fresh stem).2 (some ((labels.fresh stem).1, [])) stmts bodies
      later) : IsSplit labels none stmts bodies later where
  length_le := by
    have := h.length_le
    rw [Labels.length_fresh] at this
    omega
  shaped := h.shaped
  kinds := h.kinds
  entries := by
    have hle := h.length_le
    have hentries := h.entries
    rw [Labels.length_fresh] at hle hentries
    exact hentries.trans ((range'_perm_cons hle (Stmt.labelsOfList stmts)).map some)
  targets := by
    intro body hbody target htarget
    rcases h.targets body hbody target htarget with ⟨b, hb, htarget⟩ | htarget
    · cases hb
      cases htarget
    · exact .inr htarget

/-- A statement that stays in the block that is open. -/
lemma keep {s : Stmt} (hlabels : s.labels = [])
    (h : IsSplit labels (some (block.1, block.2 ++ [s])) rest bodies later) :
    IsSplit labels (some block) (s :: rest) bodies later where
  length_le := h.length_le
  shaped := h.shaped
  kinds := h.kinds
  entries := by
    have hentries := h.entries
    rw [Stmt.labelsOfList, hlabels]
    exact hentries
  targets := by
    intro body hbody target htarget
    rcases h.targets body hbody target htarget with ⟨b, hb, htarget⟩ | htarget | htarget
    · cases hb
      rw [Stmt.targetsOfList_append] at htarget
      rcases List.mem_append.mp htarget with htarget | htarget
      · exact .inl ⟨block, rfl, htarget⟩
      · refine .inr (.inl (List.mem_append_left _ ?_))
        simpa [Stmt.targetsOfList] using htarget
    · exact .inr (.inl (List.mem_append_right _ htarget))
    · exact .inr (.inr htarget)

end IsSplit

/-- The label that a list of statements starts with is one of its labels. -/
lemma mem_labels_of_leadingLabel? {stmts : List Stmt} {id : LabelId}
    (h : leadingLabel? stmts = some id) : id ∈ Stmt.labelsOfList stmts := by
  unfold leadingLabel? at h
  split at h
  · cases h
    exact List.mem_cons_self
  · cases h

/-- A statement that an instruction leaves defines no label. -/
lemma labels_of_isLowered {s : Stmt} (h : s.isLowered = true) : s.labels = [] := by
  cases s with
  | raw _ _ | goto _ | exit => rfl
  | _ => cases h

/-- Of what instructions leave, only what can end a block is never passed by control. -/
lemma endsBlock_of_isUnconditional {s : Stmt} (h : s.isLowered = true)
    (hs : s.isUnconditional = true) : s.endsBlock = true := by
  cases s with
  | goto _ | exit => rfl
  | raw _ op =>
    cases op with
    | ret => rfl
    | _ => cases hs
  | _ => cases h

/-- A statement in an open block is split off as the case may be. -/
lemma isSplit_some {labels : Labels} {block : LabelId × List Stmt} {s : Stmt} {rest : List Stmt}
    (hopen : IsOpen block) (hs : s.isLowered = true)
    (ih : ∀ (labels : Labels) (current : Option (LabelId × List Stmt)), (∀ b ∈ current, IsOpen b) →
      IsSplit labels current rest (blocks labels (current.map opened) rest).1
        (blocks labels (current.map opened) rest).2) :
    IsSplit labels (some block) (s :: rest) (blocks labels (some (opened block)) (s :: rest)).1
      (blocks labels (some (opened block)) (s :: rest)).2 := by
  have hlabels := labels_of_isLowered hs
  have hstmts : Stmt.labelsOfList (s :: rest) = Stmt.labelsOfList rest := by
    rw [Stmt.labelsOfList, hlabels]
    rfl
  have hsubset : Stmt.targetsOfList rest ⊆ Stmt.targetsOfList (s :: rest) :=
    List.subset_append_right _ _
  have hself : ∀ id ∈ s.targets, id ∈ Stmt.targetsOfList (s :: rest) :=
    fun id hid => List.mem_append_left _ hid
  have hnolabel : ∀ id, s ≠ .label id := by
    rintro id rfl
    cases hs
  rw [blocks]
  · simp only [openBlock]
    split
    · rename_i hjump
      have hend : Stmt.IsEnd [s] :=
        ⟨by simp [Stmt.labelsOfList, hlabels], endsBlock_of_isUnconditional hs hjump⟩
      refine IsSplit.close hopen hend (by simpa using hs) (ih labels none (by simp)) (Nat.le_refl _) ?_
        (by simp) ?_ hsubset
      · rw [hstmts]
        exact .refl _
      · intro id hid
        refine .inl (hself id ?_)
        simpa [Stmt.targetsOfList] using hid
    · split
      · rename_i hbranch
        have hend : ∀ next, Stmt.IsEnd [s, .goto next] := by
          intro next
          exact ⟨by simp [Stmt.labelsOfList, hlabels, Stmt.labels], by simp [isEnding, hbranch,
            Stmt.isGoto]⟩
        have hkinds : ∀ next, ∀ t ∈ [s, .goto next], t.isLowered = true := by
          intro next t ht
          rcases List.mem_pair.mp ht with rfl | rfl
          · exact hs
          · rfl
        have htargets : ∀ {next : LabelId} {bodies : List (List Stmt)},
            some next ∈ bodies.map entry? → ∀ id ∈ Stmt.targetsOfList [s, .goto next],
            id ∈ Stmt.targetsOfList (s :: rest) ∨ some id ∈ bodies.map entry? := by
          intro next bodies hnext id hid
          rcases List.mem_append.mp hid with hid | hid
          · exact .inl (hself id hid)
          · rw [show id = next by simpa [Stmt.targetsOfList, Stmt.targets, Stmt.branchTargets]
              using hid]
            exact .inr hnext
        split
        · rename_i next hnext
          have hrest := ih labels none (by simp)
          rw [List.append_assoc]
          refine IsSplit.close hopen (hend next) (hkinds next) hrest (Nat.le_refl _) ?_ (by simp)
            (htargets ?_) hsubset
          · rw [hstmts]
            exact .refl _
          · refine hrest.entries.mem_iff.mpr (List.mem_map_of_mem ?_)
            exact List.mem_append_left _ (List.mem_append_right _ (mem_labels_of_leadingLabel? hnext))
        · have hrest := ih (labels.fresh stem).2 (some ((labels.fresh stem).1, []))
            (by simpa using ⟨Stmt.isMiddle_nil, by simp⟩)
          have hle := hrest.length_le
          rw [List.append_assoc]
          refine IsSplit.close hopen (hend _) (hkinds _) hrest ?_ ?_ (by simp) (htargets ?_) hsubset
          · rw [Labels.length_fresh]
            exact Nat.le_succ _
          · rw [hstmts]
            rw [Labels.length_fresh] at hle ⊢
            exact range'_perm_cons hle _
          · refine hrest.entries.mem_iff.mpr (List.mem_map_of_mem ?_)
            exact List.mem_append_left _ (List.mem_append_left _ (by simp))
      · rename_i hstraight
        refine IsSplit.keep hlabels (ih labels (some (block.1, block.2 ++ [s])) ?_)
        rintro b hb
        cases hb
        refine ⟨Stmt.isMiddle_append.mpr ⟨hopen.middle, ?_⟩, ?_⟩
        · exact ⟨by simp [Stmt.labelsOfList, hlabels], by simpa using hstraight⟩
        · rw [List.forall_mem_append]
          exact ⟨hopen.kinds, by simpa using hs⟩
  · exact hnolabel

/-- Splitting statements into blocks. -/
theorem isSplit_blocks {stmts : List Stmt}
    (hkinds : ∀ s ∈ stmts, (∃ id, s = .label id) ∨ s.isLowered = true) (labels : Labels)
    (current : Option (LabelId × List Stmt)) (hopen : ∀ block ∈ current, IsOpen block) :
    IsSplit labels current stmts (blocks labels (current.map opened) stmts).1
      (blocks labels (current.map opened) stmts).2 := by
  induction stmts generalizing labels current with
  | nil =>
    cases current with
    | none => exact ⟨(Nat.le_refl _), by simp [blocks], by simp [blocks], by simp [blocks, Stmt.labelsOfList],
        by simp [blocks]⟩
    | some block =>
      have hnone : IsSplit labels none [] [] labels :=
        ⟨(Nat.le_refl _), by simp, by simp, by simp [Stmt.labelsOfList], by simp⟩
      exact IsSplit.close (hopen block rfl) ⟨rfl, rfl⟩ (by simp [Stmt.isLowered]) hnone (Nat.le_refl _) (.refl _)
        (by simp) (by simp [Stmt.targetsOfList, Stmt.targets, Stmt.branchTargets]) (by simp)
  | cons s rest ih =>
    rw [List.forall_mem_cons] at hkinds
    have ih := fun labels current hopen => ih hkinds.2 labels current hopen
    rcases hkinds.1 with ⟨id, rfl⟩ | hs
    · have hrest := ih labels (some (id, [])) (by simpa using ⟨Stmt.isMiddle_nil, by simp⟩)
      rw [blocks]
      cases current with
      | none => exact hrest.openLabel
      | some block =>
        refine IsSplit.close (hopen block rfl) (Stmt.isEnd_goto id) (by simp [Stmt.isLowered]) hrest
          (Nat.le_refl _) (.refl _) (by simp) ?_ (List.Subset.refl _)
        intro target htarget
        rw [show target = id by simpa [Stmt.targetsOfList, Stmt.targets, Stmt.branchTargets]
          using htarget]
        refine .inr (hrest.entries.mem_iff.mpr (List.mem_map_of_mem ?_))
        exact List.mem_append_left _ (List.mem_append_left _ (by simp))
    · cases current with
      | some block => exact isSplit_some (hopen block rfl) hs ih
      | none =>
        have hnone : blocks labels none (s :: rest) =
            blocks (labels.fresh stem).2 (some (start (labels.fresh stem).1)) (s :: rest) := by
          cases s with
          | label id => cases hs
          | _ => simp only [blocks, openBlock]
        rw [Option.map_none, hnone]
        exact IsSplit.openFresh (isSplit_some ⟨Stmt.isMiddle_nil, by simp⟩ hs ih)

end Partition

/-! ### The check of the blocks -/

namespace Partition

/-- Nothing is wrong with a block that is open when a statement that control never passes is put at its
end. -/
lemma fault?_concat {front : List Stmt} {last : Stmt} (hfront : ∃ block, front = opened block)
    (hlast : last.isUnconditional = true) :
    BasicBlockOf.fault? { body := front ++ [last] } = none := by
  obtain ⟨block, rfl⟩ := hfront
  have hentry : BasicBlockOf.entryLabel? { body := opened block ++ [last] } = some block.1 := rfl
  simp [BasicBlockOf.fault?, hentry, hlast]

/-- The block that a statement stands in is one that was open, or a new one. -/
lemma exists_opened {labels labels' : Labels} {current : Option (List Stmt)} {body : List Stmt}
    (hcurrent : ∀ body ∈ current, ∃ block, body = opened block)
    (hopen : openBlock labels current = (body, labels')) (s : Stmt) :
    (∃ block, body = opened block) ∧ ∃ block, body ++ [s] = opened block := by
  have hbody : ∃ block, body = opened block := by
    cases current with
    | none =>
      cases hopen
      exact ⟨(_, []), rfl⟩
    | some body =>
      cases hopen
      exact hcurrent body rfl
  obtain ⟨block, rfl⟩ := hbody
  exact ⟨⟨block, rfl⟩, (block.1, block.2 ++ [s]), rfl⟩

/-- Whatever the statements are, nothing is wrong with the blocks. -/
lemma fault?_of_mem_blocks (labels : Labels) (current : Option (List Stmt)) (stmts : List Stmt)
    (hcurrent : ∀ body ∈ current, ∃ block, body = opened block) :
    ∀ body ∈ (blocks labels current stmts).1, BasicBlockOf.fault? { body } = none := by
  have hclose : ∀ {current : Option (List Stmt)} {last : Stmt}, last.isUnconditional = true →
      (∀ body ∈ current, ∃ block, body = opened block) →
      ∀ body ∈ (current.map (· ++ [last])).toList, BasicBlockOf.fault? { body } = none := by
    intro current last hlast hcurrent body hbody
    obtain ⟨front, hfront, rfl⟩ := Option.map_eq_some_iff.mp (Option.mem_toList.mp hbody)
    exact fault?_concat (hcurrent front hfront) hlast
  have hstart : ∀ id, ∀ body ∈ some (start id), ∃ block, body = opened block := by
    rintro id _ ⟨⟩
    exact ⟨(id, []), rfl⟩
  fun_induction blocks labels current stmts with
  | case1 => exact hclose rfl hcurrent
  | case2 labels current id rest later labels' hlater ih =>
    rw [hlater] at ih
    exact List.forall_mem_append.mpr ⟨hclose rfl hcurrent, ih (hstart id)⟩
  | case3 labels current s rest _ body labels' hopen _ hjump later labels'' hlater ih =>
    rw [hlater] at ih
    exact List.forall_mem_cons.mpr
      ⟨fault?_concat (exists_opened hcurrent hopen s).1 hjump, ih nofun⟩
  | case4 labels current s rest _ body labels' hopen _ _ _ next _ later labels'' hlater ih =>
    rw [hlater] at ih
    exact List.forall_mem_cons.mpr ⟨fault?_concat (exists_opened hcurrent hopen s).2 rfl, ih nofun⟩
  | case5 labels current s rest _ body labels' hopen _ _ _ _ next fresh hfresh later labels'' hlater ih =>
    rw [hlater] at ih
    exact List.forall_mem_cons.mpr
      ⟨fault?_concat (exists_opened hcurrent hopen s).2 rfl, ih (hstart next)⟩
  | case6 labels current s rest _ body labels' hopen _ _ _ ih =>
    refine ih ?_
    rintro _ ⟨⟩
    exact (exists_opened hcurrent hopen s).2

end Partition

/-- A list in which nothing is wrong with a block passes the check. -/
lemma forM_check {blocks : List BasicBlock} (h : ∀ block ∈ blocks, block.fault? = none) :
    blocks.forM BasicBlockOf.check = .ok () := by
  induction blocks with
  | nil => rfl
  | cons block rest ih =>
    obtain ⟨hblock, hrest⟩ := List.forall_mem_cons.mp h
    change (block.check >>= fun _ => rest.forM BasicBlockOf.check) = .ok ()
    rw [BasicBlockOf.check, hblock, ih hrest]
    rfl

/-- Splitting statements into blocks never fails, whatever the statements are. -/
theorem checkedPartition_eq (labels : Labels) (stmts : List Stmt) :
    checkedPartition labels stmts =
      (.ok (partition labels stmts).1, (partition labels stmts).2) := by
  have hblocks := Partition.fault?_of_mem_blocks labels none stmts nofun
  have hcheck : (partition labels stmts).1.forM BasicBlockOf.check = .ok () := by
    refine forM_check ?_
    unfold partition
    split
    · simp [BasicBlockOf.fault?, BasicBlockOf.entryLabel?, Partition.start, Stmt.isUnconditional]
    · rename_i heq
      rw [heq] at hblocks
      exact List.forall_mem_map.mpr hblocks
  simp only [checkedPartition, hcheck]
  rfl

/-- The blocks of statements that define each label once are well-formed, and hold nothing that an
instruction does not leave. -/
theorem wellFormed_partition {labels : Labels} {stmts : List Stmt}
    (h : Stmt.IsFlat labels.names.length stmts) :
    WellFormed (partition labels stmts).2.names.length (partition labels stmts).1 ∧
      ∀ block ∈ (partition labels stmts).1, ∀ s ∈ block.body,
        (∃ id, s = .label id) ∨ s.isLowered = true := by
  have hsplit := Partition.isSplit_blocks h.kinds labels none (by simp)
  rw [Option.map_none] at hsplit
  unfold partition
  split
  · -- No statements at all make one block.
    rename_i later hblocks
    rw [hblocks] at hsplit
    refine ⟨⟨by simp, ?_, by simp, ?_⟩, ?_⟩
    · intro block hblock
      rw [List.mem_singleton.mp hblock]
      refine ⟨_, ?_, [], [.exit], rfl, Stmt.isMiddle_nil, rfl, rfl⟩
      rw [Labels.fresh_fst, Labels.length_fresh]
      exact Nat.lt_succ_self _
    · simp [BlockMap.ofBlocks, Partition.start, Stmt.targetsOfList, Stmt.targets, Stmt.branchTargets]
    · simp [Partition.start, Stmt.isLowered]
  · rename_i bodies later hne hblocks
    rw [hblocks] at hsplit
    dsimp only at hsplit ⊢
    have hmap : (bodies.map fun body => ({ body } : BasicBlock)).map BasicBlockOf.entryLabel? =
        bodies.map Partition.entry? := by
      rw [List.map_map]
      rfl
    have hentries : (bodies.map Partition.entry?).Perm ((List.range later.names.length).map some) := by
      refine hsplit.entries.trans (List.Perm.map some ?_)
      have hrange : List.range later.names.length = List.range labels.names.length ++
          List.range' labels.names.length (later.names.length - labels.names.length) := by
        have hle := hsplit.length_le
        rw [List.range_eq_range', List.range_eq_range']
        have happend := List.range'_append_1 (s := 0) (m := labels.names.length)
          (n := later.names.length - labels.names.length)
        rw [Nat.zero_add] at happend
        rw [happend]
        congr 1
        omega
      rw [hrange]
      exact h.labels.append_right _
    have hbound : ∀ {id : LabelId}, some id ∈ bodies.map Partition.entry? ↔
        id < later.names.length := by
      intro id
      rw [hentries.mem_iff]
      simp
    refine ⟨⟨?_, ?_, ?_, ?_⟩, ?_⟩
    · simpa using hne
    · intro block hblock
      obtain ⟨body, hbody, rfl⟩ := List.mem_map.mp hblock
      obtain ⟨label, hshaped⟩ := hsplit.shaped body hbody
      exact ⟨label, hbound.mp (List.mem_map.mpr ⟨body, hbody, hshaped.entryLabel?⟩), hshaped⟩
    · rw [hmap]
      exact hentries.nodup_iff.mpr (List.nodup_range.map fun _ _ => Option.some.inj)
    · intro id hid
      rw [hmap, hbound]
      obtain ⟨block, hblock, hid⟩ := List.mem_flatMap.mp hid
      obtain ⟨body, hbody, rfl⟩ := List.mem_map.mp hblock
      rcases hsplit.targets body hbody id hid with ⟨b, hb, -⟩ | hid | hid
      · cases hb
      · exact Nat.lt_of_lt_of_le (h.targets id hid) hsplit.length_le
      · exact hbound.mp hid
    · intro block hblock
      obtain ⟨body, hbody, rfl⟩ := List.mem_map.mp hblock
      exact hsplit.kinds body hbody

end Decompiler
