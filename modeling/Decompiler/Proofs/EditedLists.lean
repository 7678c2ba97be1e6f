import Mathlib.Data.List.Nodup
import Decompiler.Proofs.QuietSweeps
import Decompiler.Proofs.WellFormedLists

/-!
# Edited lists

`Edit.apply` says in one go what becomes of each block of a list.  The other way to carry out an edit is
to change the list step by step where it lies (`Edit.applyInPlace`): everything is checked first, then
blocks are exchanged, the inserted ones are put in behind the head, and the deleted positions are taken
out from the back to the front.  Positions behind the head move when blocks are inserted, and the head
moves when blocks before it are deleted, so that both have to be corrected on the way.

The two ways agree on every edit and every position (`Edit.applyInPlace_eq`), and a list that an edit
fails on is left as it was.  Where the labels of a list are distinct, what an edit leaves can be said by
labels alone (`Edit.exchange`), and it is carried out exactly when it names other blocks than the head,
those that it deletes once (`Edit.NamesOthers`).
-/

namespace Decompiler

/-! ### Positions of a list -/

section Positions

variable {α : Type}

/-- The elements of a list at the positions that are kept. -/
def keptAt (removed : List Nat) (start : Nat) (l : List α) : List α :=
  (l.zipIdx start).flatMap fun p => if p.2 ∈ removed then [] else [p.1]

/-- Deletes positions of a list from the back to the front, so that those that are still to be deleted
do not move. -/
def deleteAll (positions : List Nat) (l : List α) : List α :=
  (ascending positions).foldr (fun i l => l.eraseIdx i) l

/-- Puts elements into a list at positions. -/
def putAll (replaced : List (Nat × α)) (l : List α) : List α :=
  replaced.foldl (fun l p => l.set p.1 p.2) l

/-- Puts elements into a list behind a position. -/
def insertAfter (pos : Nat) (new l : List α) : List α :=
  l.take (pos + 1) ++ new ++ l.drop (pos + 1)

/-- What is kept of two lists in a row. -/
lemma keptAt_append (removed : List Nat) (start : Nat) (a b : List α) :
    keptAt removed start (a ++ b) = keptAt removed start a ++ keptAt removed (start + a.length) b := by
  rw [keptAt, List.zipIdx_append, List.flatMap_append, keptAt, keptAt]

/-- What is kept depends on the positions of the list alone. -/
lemma keptAt_congr {removed removed' : List Nat} {start start' : Nat} (l : List α)
    (h : ∀ k < l.length, start + k ∈ removed ↔ start' + k ∈ removed') :
    keptAt removed start l = keptAt removed' start' l := by
  induction l generalizing start start' with
  | nil => rfl
  | cons a l ih =>
    have hfirst : start ∈ removed ↔ start' ∈ removed' := h 0 (by simp)
    have hrest : keptAt removed (start + 1) l = keptAt removed' (start' + 1) l := by
      refine ih fun k hk => ?_
      rw [Nat.add_right_comm, Nat.add_right_comm start' 1, Nat.add_assoc, Nat.add_assoc start']
      exact h (k + 1) (by simpa using hk)
    simp only [keptAt, List.zipIdx_cons, List.flatMap_cons, hfirst] at hrest ⊢
    rw [hrest]

/-- Where nothing is deleted, everything is kept. -/
lemma keptAt_of_notMem {removed : List Nat} {start : Nat} (l : List α)
    (h : ∀ k < l.length, start + k ∉ removed) : keptAt removed start l = l := by
  have hnone : keptAt removed start l = keptAt [] start l :=
    keptAt_congr l fun k hk => by simp [h k hk]
  rw [hnone, keptAt]
  simp only [List.not_mem_nil, if_false]
  rw [← List.map_eq_flatMap, List.zipIdx_map_fst]

/-- What is kept of a list that has a position. -/
lemma keptAt_of_getElem? {removed : List Nat} {l : List α} {i : Nat} {a : α} (h : l[i]? = some a) :
    keptAt removed 0 l = keptAt removed 0 (l.take i) ++ (if i ∈ removed then [] else [a]) ++
      keptAt removed (i + 1) (l.drop (i + 1)) := by
  obtain ⟨hlt, rfl⟩ := List.getElem?_eq_some_iff.mp h
  have hsplit : l = l.take i ++ l[i] :: l.drop (i + 1) := by
    rw [List.getElem_cons_drop, List.take_append_drop]
  have htake : (l.take i).length = i := List.length_take_of_le (Nat.le_of_lt hlt)
  conv_lhs => rw [hsplit, keptAt_append, htake, Nat.zero_add]
  simp only [keptAt, List.zipIdx_cons, List.flatMap_cons, List.append_assoc]

/-- Deleting ascending positions from the back to the front keeps the elements at the others. -/
lemma foldr_eraseIdx_eq_keptAt (l : List α) {positions : List Nat}
    (hsorted : positions.Pairwise (· < ·)) :
    positions.foldr (fun i l => l.eraseIdx i) l = keptAt positions 0 l := by
  induction positions with
  | nil => exact (keptAt_of_notMem l (by simp)).symm
  | cons i rest ih =>
    have hless : ∀ j ∈ rest, i < j := fun j hj => List.rel_of_pairwise_cons hsorted hj
    have hle : ∀ j ∈ i :: rest, i ≤ j :=
      List.forall_mem_cons.mpr ⟨Nat.le_refl i, fun j hj => Nat.le_of_lt (hless j hj)⟩
    -- The other positions lie behind the first one, so that it has not moved when it is deleted.
    have hfront : ∀ removed ⊆ i :: rest, keptAt removed 0 (l.take i) = l.take i := by
      refine fun removed hsub => keptAt_of_notMem _ fun k hk hmem => ?_
      have hik := hle _ (hsub hmem)
      rw [List.length_take] at hk
      omega
    rw [List.foldr_cons, ih hsorted.of_cons]
    cases hi : l[i]? with
    | none =>
      have hlen : l.length ≤ i := List.getElem?_eq_none_iff.mp hi
      rw [List.take_of_length_le hlen] at hfront
      rw [hfront rest (List.subset_cons_self i rest), hfront (i :: rest) (List.Subset.refl _),
        List.eraseIdx_of_length_le hlen]
    | some a =>
      have hlt : i < l.length := (List.getElem?_eq_some_iff.mp hi).1
      have hnot : i ∉ rest := fun hmem => Nat.lt_irrefl i (hless i hmem)
      have hbehind : keptAt rest (i + 1) (l.drop (i + 1)) =
          keptAt (i :: rest) (i + 1) (l.drop (i + 1)) := by
        refine keptAt_congr _ fun k _ => ?_
        rw [List.mem_cons, or_iff_right (by omega)]
      have htake : (l.take i).length = i := List.length_take_of_le (Nat.le_of_lt hlt)
      rw [keptAt_of_getElem? hi, keptAt_of_getElem? hi, hfront rest (List.subset_cons_self i rest),
        hfront (i :: rest) (List.Subset.refl _), if_neg hnot, if_pos List.mem_cons_self, hbehind,
        List.append_assoc, List.eraseIdx_append_of_length_le (Nat.le_of_eq htake), htake,
        Nat.sub_self, List.append_nil]
      rfl

/-- Distinct positions are deleted, and no others. -/
lemma deleteAll_eq_keptAt {positions : List Nat} (hnodup : positions.Nodup) (l : List α) :
    deleteAll positions l = keptAt positions 0 l := by
  have hperm : (ascending positions).Perm positions := perm_stableSort _ positions
  have hsorted : (ascending positions).Pairwise (· < ·) := by
    refine ((pairwise_ascending positions).and (hperm.nodup_iff.mpr hnodup)).imp ?_
    exact fun h => Nat.lt_of_le_of_ne h.1 h.2
  rw [deleteAll, foldr_eraseIdx_eq_keptAt l hsorted]
  exact keptAt_congr l fun k _ => hperm.mem_iff

/-- What is put at a position is the last of the elements for it. -/
lemma getElem?_putAll (replaced : List (Nat × α)) (l : List α) (i : Nat) :
    (putAll replaced l)[i]? = l[i]?.map fun a => (replaced.reverse.lookup i).getD a := by
  rw [putAll, ← List.foldr_reverse]
  induction replaced.reverse with
  | nil => simp
  | cons p later ih =>
    obtain ⟨j, a⟩ := p
    rw [List.foldr_cons, List.lookup_cons]
    by_cases hij : i = j
    · subst hij
      rw [beq_self_eq_true, List.getElem?_set_self', ih]
      cases l[i]? <;> rfl
    · rw [beq_eq_false_iff_ne.mpr hij, List.getElem?_set_ne (Ne.symm hij), ih]

/-- Elements are put in their places all at once. -/
lemma putAll_eq_map (replaced : List (Nat × α)) (l : List α) :
    putAll replaced l = l.zipIdx.map fun p => (replaced.reverse.lookup p.2).getD p.1 := by
  refine List.ext_getElem? fun i => ?_
  rw [getElem?_putAll, List.getElem?_map, List.getElem?_zipIdx, Option.map_map, Nat.zero_add]
  rfl

/-- A list in which elements are inserted behind a position. -/
lemma insertAfter_append {pos : Nat} {front : List α} (hfront : front.length = pos) (a : α)
    (new back : List α) :
    insertAfter pos new (front ++ a :: back) = front ++ a :: (new ++ back) := by
  have htake : (front ++ [a]).length = pos + 1 := by simp [hfront]
  rw [insertAfter, List.append_cons, List.take_left' htake, List.drop_left' htake]
  simp

/-- What is kept of the images of the elements of a list. -/
lemma keptAt_map_zipIdx (removed : List Nat) (start : Nat) (f : α × Nat → α) (l : List α) :
    keptAt removed start ((l.zipIdx start).map f) =
      (l.zipIdx start).flatMap fun p => if p.2 ∈ removed then [] else [f p] := by
  induction l generalizing start with
  | nil => rfl
  | cons a l ih =>
    rw [List.zipIdx_cons, List.map_cons, List.flatMap_cons, ← ih, keptAt, List.zipIdx_cons,
      List.flatMap_cons, keptAt]

end Positions

/-! ### Edits in place -/

namespace Edit

variable {edit : Edit} {blocks after : List BasicBlock} {pos resume : Nat}
  {replaced : List (Nat × BasicBlock)} {removed : List Nat}

/-- Where a position lies once blocks are inserted behind the head. -/
def shift (edit : Edit) (pos i : Nat) : Nat :=
  if pos < i then i + edit.insert.length else i

/-- The positions of the blocks to delete once blocks are inserted, with the head if it goes. -/
def deletions (edit : Edit) (pos : Nat) (removed : List Nat) : List Nat :=
  (match edit.head with
    | some _ => removed
    | none => removed ++ [pos]).map (edit.shift pos)

/-- Changes a list in place at positions that have been checked, and gives the position at which to go
on. -/
def changeInPlace (edit : Edit) (pos : Nat) (replaced : List (Nat × BasicBlock))
    (removed : List Nat) : StateM (List BasicBlock) Nat := do
  modify (putAll replaced)
  modify fun blocks => match edit.head with
    | some head => blocks.set pos head
    | none => blocks
  modify (insertAfter pos edit.insert)
  let deleted := edit.deletions pos removed
  modify (deleteAll deleted)
  let headAt := pos - deleted.countP (· < pos)
  return if pos ∈ deleted then headAt else headAt + 1

/-- The positions that an edit replaces and deletes. -/
def checked (edit : Edit) (blocks : List BasicBlock) (pos : Nat) :
    Except Error (List (Nat × BasicBlock) × List Nat) := do
  let replaced ← edit.replace.mapM (replacement blocks pos)
  let removed ← edit.remove.foldlM (removal blocks pos (replaced.map Prod.fst)) []
  return (replaced, removed)

/-- Carries out an edit on a list where it lies.  Nothing is changed before everything is checked. -/
def applyInPlace (edit : Edit) (pos : Nat) : StateM (List BasicBlock) (Except Error Nat) := do
  match edit.checked (← get) pos with
  | .error error => return .error error
  | .ok (replaced, removed) => return .ok (← edit.changeInPlace pos replaced removed)

/-- An edit is carried out when the positions it changes are found. -/
lemma apply_eq_checked (edit : Edit) (blocks : List BasicBlock) (pos : Nat) :
    edit.apply blocks pos = (edit.checked blocks pos).map fun (replaced, removed) =>
      (edit.placeAll pos replaced removed blocks 0,
        pos - removed.countP (· < pos) + edit.head.toList.length) := by
  have hresume : ∀ removed : List Nat,
      (if edit.head.isSome then pos - removed.countP (· < pos) + 1
        else pos - removed.countP (· < pos)) =
      pos - removed.countP (· < pos) + edit.head.toList.length := by
    cases edit.head <;> simp
  simp only [apply, checked, hresume, bind, Except.bind, pure, Except.pure]
  cases edit.replace.mapM (replacement blocks pos) with
  | error error => rfl
  | ok replaced =>
    simp only
    cases edit.remove.foldlM (removal blocks pos (replaced.map Prod.fst)) [] with
    | error error => rfl
    | ok removed => rfl

/-- Different positions stay different when blocks are inserted. -/
lemma shift_injective (edit : Edit) (pos : Nat) : Function.Injective (edit.shift pos) := by
  intro i j h
  unfold shift at h
  split at h <;> split at h <;> omega

/-- The positions that are deleted, before blocks are inserted. -/
lemma mem_deletions (edit : Edit) (pos : Nat) (removed : List Nat) (i : Nat) :
    edit.shift pos i ∈ edit.deletions pos removed ↔ i ∈ removed ∨ edit.head = none ∧ i = pos := by
  unfold deletions
  rw [List.mem_map_of_injective (edit.shift_injective pos)]
  cases edit.head <;> simp

/-- Before the head positions stay where they are. -/
lemma mem_deletions_of_lt {i : Nat} (hi : i < pos) :
    i ∈ edit.deletions pos removed ↔ i ∈ removed := by
  have hmem := mem_deletions edit pos removed i
  rwa [shift, if_neg (by omega), or_iff_left (by omega)] at hmem

/-- Behind the head positions move on by what is inserted. -/
lemma mem_deletions_of_gt {i : Nat} (hi : pos < i) :
    i + edit.insert.length ∈ edit.deletions pos removed ↔ i ∈ removed := by
  have hmem := mem_deletions edit pos removed i
  rwa [shift, if_pos hi, or_iff_left (by omega)] at hmem

/-- The head is deleted when nothing is to take its place. -/
lemma pos_mem_deletions (edit : Edit) (hkept : pos ∉ removed) :
    pos ∈ edit.deletions pos removed ↔ edit.head = none := by
  have hmem := mem_deletions edit pos removed pos
  simpa [shift, hkept] using hmem

/-- The inserted blocks are not deleted. -/
lemma notMem_deletions {k : Nat} (hk : k < edit.insert.length) :
    pos + 1 + k ∉ edit.deletions pos removed := by
  intro hmem
  obtain ⟨i, -, hi⟩ := List.mem_map.mp hmem
  unfold shift at hi
  split at hi <;> omega

/-- No position is deleted twice. -/
lemma nodup_deletions (hkept : pos ∉ removed) (hnodup : removed.Nodup) :
    (edit.deletions pos removed).Nodup := by
  refine List.Nodup.map (edit.shift_injective pos) ?_
  cases edit.head with
  | some head => exact hnodup
  | none => exact hnodup.append (List.nodup_singleton pos) (by simpa using hkept)

/-- What is deleted before the head does not depend on what happens to the head and behind it. -/
lemma countP_deletions (edit : Edit) (pos : Nat) (removed : List Nat) :
    (edit.deletions pos removed).countP (· < pos) = removed.countP (· < pos) := by
  have hshift : ∀ i, (decide (edit.shift pos i < pos)) = decide (i < pos) := by
    intro i
    unfold shift
    split
    · simp only [decide_eq_decide]
      omega
    · rfl
  unfold deletions
  rw [List.countP_map]
  cases edit.head <;> simp [Function.comp_def, hshift]

/-- What is put in the place of a block. -/
def put (replaced : List (Nat × BasicBlock)) (p : BasicBlock × Nat) : BasicBlock :=
  (replaced.reverse.lookup p.2).getD p.1

/-- A part of the list without the head: the blocks that are put in and not deleted are what becomes of
its blocks. -/
lemma keptAt_put {deleted : List Nat} {start start' : Nat} (part : List BasicBlock)
    (hplaces : ∀ k < part.length, start' + k ∈ deleted ↔ start + k ∈ removed)
    (hpos : ∀ k < part.length, start + k ≠ pos) :
    keptAt deleted start' ((part.zipIdx start).map (put replaced)) =
      edit.placeAll pos replaced removed part start := by
  have hcongr : ∀ k < ((part.zipIdx start).map (put replaced)).length,
      start' + k ∈ deleted ↔ start + k ∈ removed := by
    simpa using hplaces
  rw [keptAt_congr _ hcongr, keptAt_map_zipIdx, placeAll]
  refine List.flatMap_congr fun p hp => ?_
  obtain ⟨hle, hlt, -⟩ := List.mem_zipIdx hp
  have hne : p.2 ≠ pos := by
    have hk := hpos (p.2 - start) (by omega)
    rwa [Nat.add_sub_cancel' hle] at hk
  simp only [place, put, List.contains_iff_mem, if_neg hne]

/-- The list around the head once all blocks are exchanged. -/
lemma putAll_around (replaced : List (Nat × BasicBlock)) (head? : Option BasicBlock)
    (hpos : pos < blocks.length) :
    (match head? with
      | some head => (putAll replaced blocks).set pos head
      | none => putAll replaced blocks) =
      ((blocks.take pos).zipIdx 0).map (put replaced) ++ head?.getD (put replaced (blocks[pos], pos)) ::
        ((blocks.drop (pos + 1)).zipIdx (pos + 1)).map (put replaced) := by
  have hsplit : blocks = blocks.take pos ++ blocks[pos] :: blocks.drop (pos + 1) := by
    rw [List.getElem_cons_drop, List.take_append_drop]
  have htake : (blocks.take pos).length = pos := List.length_take_of_le (Nat.le_of_lt hpos)
  have hfront : (((blocks.take pos).zipIdx 0).map (put replaced)).length = pos := by simp [htake]
  have hput : putAll replaced blocks = ((blocks.take pos).zipIdx 0).map (put replaced) ++
      put replaced (blocks[pos], pos) ::
        ((blocks.drop (pos + 1)).zipIdx (pos + 1)).map (put replaced) := by
    calc putAll replaced blocks = blocks.zipIdx.map (put replaced) := putAll_eq_map _ _
      _ = _ := by
        conv_lhs => rw [hsplit, List.zipIdx_append, List.zipIdx_cons, htake, Nat.zero_add]
        rw [List.map_append, List.map_cons]
  rw [hput]
  cases head? with
  | none => rfl
  | some head =>
    simp only [List.set_append_right _ _ (Nat.le_of_eq hfront), hfront, Nat.sub_self,
      List.set_cons_zero, Option.getD_some]

/-- Blocks that are put in, inserted and deleted one after the other come to what becomes of each
block. -/
lemma deleteAll_insertAfter (hpos : pos < blocks.length) (hkept : pos ∉ removed)
    (hnodup : removed.Nodup) :
    deleteAll (edit.deletions pos removed) (insertAfter pos edit.insert
      (match edit.head with
        | some head => (putAll replaced blocks).set pos head
        | none => putAll replaced blocks)) =
      edit.placeAll pos replaced removed blocks 0 := by
  have htake : (blocks.take pos).length = pos := List.length_take_of_le (Nat.le_of_lt hpos)
  have hfront : (((blocks.take pos).zipIdx 0).map (put replaced)).length = pos := by simp [htake]
  have hbefore : keptAt (edit.deletions pos removed) 0
      (((blocks.take pos).zipIdx 0).map (put replaced)) =
      edit.placeAll pos replaced removed (blocks.take pos) 0 := by
    refine keptAt_put _ (fun k hk => mem_deletions_of_lt ?_) fun k hk => ?_
    · omega
    · omega
  have hnew : keptAt (edit.deletions pos removed) pos
      [edit.head.getD (put replaced (blocks[pos], pos))] = edit.head.toList := by
    have hdeleted := pos_mem_deletions edit hkept
    cases hnone : edit.head <;> simp [keptAt, hdeleted, hnone]
  have hinsert : keptAt (edit.deletions pos removed) (pos + 1) edit.insert = edit.insert :=
    keptAt_of_notMem _ fun k hk => notMem_deletions hk
  have hbehind : keptAt (edit.deletions pos removed) (pos + 1 + edit.insert.length)
      (((blocks.drop (pos + 1)).zipIdx (pos + 1)).map (put replaced)) =
      edit.placeAll pos replaced removed (blocks.drop (pos + 1)) (pos + 1) := by
    refine keptAt_put _ (fun k _ => ?_) fun k _ => by omega
    rw [Nat.add_right_comm]
    exact mem_deletions_of_gt (by omega)
  rw [putAll_around replaced edit.head hpos, insertAfter_append hfront,
    deleteAll_eq_keptAt (nodup_deletions hkept hnodup), keptAt_append, hfront, Nat.zero_add,
    ← List.singleton_append, keptAt_append, List.length_singleton, keptAt_append, hbefore, hnew,
    hinsert, hbehind, placeAll_around edit pos replaced hpos hkept]
  simp only [List.append_assoc]

/-- What the steps in place come to, and the position at which they go on. -/
lemma run_changeInPlace (hpos : pos < blocks.length) (hkept : pos ∉ removed)
    (hnodup : removed.Nodup) :
    (edit.changeInPlace pos replaced removed).run blocks =
      (pos - removed.countP (· < pos) + edit.head.toList.length,
        edit.placeAll pos replaced removed blocks 0) := by
  have hhead : pos ∈ edit.deletions pos removed ↔ edit.head = none := pos_mem_deletions edit hkept
  refine Prod.ext ?_ (deleteAll_insertAfter hpos hkept hnodup)
  change (if pos ∈ edit.deletions pos removed then
    pos - (edit.deletions pos removed).countP (· < pos)
    else pos - (edit.deletions pos removed).countP (· < pos) + 1) = _
  rw [countP_deletions]
  cases hnone : edit.head with
  | none => exact if_pos (hhead.mpr hnone)
  | some head => exact if_neg (mt hhead.mp (by simp [hnone]))

/-- Carrying out an edit where the list lies is carrying it out at once. -/
theorem applyInPlace_eq (edit : Edit) (hpos : pos < blocks.length) :
    (edit.applyInPlace pos).run blocks =
      match edit.apply blocks pos with
      | .ok (after, resume) => (.ok resume, after)
      | .error error => (.error error, blocks) := by
  rw [apply_eq_checked]
  cases hchecked : edit.checked blocks pos with
  | error error =>
    simp only [applyInPlace, hchecked, Except.map, StateT.run_bind, StateT.run_get, pure_bind]
    rfl
  | ok changes =>
    obtain ⟨replaced, removed⟩ := changes
    have hrun := hchecked
    obtain ⟨_, hreplaced, hrun⟩ := Except.bind_eq_ok_iff.mp hrun
    obtain ⟨_, hremoved, hrun⟩ := Except.bind_eq_ok_iff.mp hrun
    cases hrun
    have hkept : pos ∉ removed := (foldlM_removal_eq_ok hremoved).2.2 (by simp)
    have hnodup : removed.Nodup := nodup_foldlM_removal List.nodup_nil hremoved
    simp only [applyInPlace, hchecked, Except.map, StateT.run_bind, StateT.run_get, pure_bind]
    rw [run_changeInPlace hpos hkept hnodup]
    rfl

/-! ### Edits by labels -/

/-- What an edit makes of a block other than the head, by the label of the block. -/
def exchange (edit : Edit) (block : BasicBlock) : List BasicBlock :=
  if (edit.remove.map some).contains block.entryLabel? then []
  else [(edit.replace.find? fun new => new.entryLabel? == block.entryLabel?).getD block]

/-- The replacement that is put in the place of a block is the one with its label. -/
lemma Applied.lookup_eq_find? (happ : edit.Applied blocks pos replaced removed after)
    (hreplace : (edit.replace.map BasicBlockOf.entryLabel?).Nodup) {block : BasicBlock} {i : Nat}
    (hblock : blocks[i]? = some block) :
    replaced.reverse.lookup i =
      edit.replace.find? fun new => new.entryLabel? == block.entryLabel? := by
  have hlabel : ∀ new, (i, new) ∈ replaced → new ∈ edit.replace ∧
      new.entryLabel? = block.entryLabel? := by
    intro new hnew
    obtain ⟨-, hmem, label, hlabel, hlocate⟩ := happ.replaced_spec _ hnew
    obtain ⟨⟨old, hold, holdLabel⟩, -⟩ := locate_eq_ok hlocate
    rw [hblock, Option.some.injEq] at hold
    exact ⟨hmem, hlabel.trans (hold ▸ holdLabel.symm)⟩
  cases hlookup : replaced.reverse.lookup i with
  | none =>
    rw [List.lookup_eq_none_iff] at hlookup
    symm
    rw [List.find?_eq_none]
    intro new hnew hsame
    obtain ⟨j, hj⟩ := happ.replaces new hnew
    obtain ⟨-, -, label, hnewLabel, hlocate⟩ := happ.replaced_spec _ hj
    have hblockLabel : block.entryLabel? = some label := (beq_iff_eq.mp hsame).symm.trans hnewLabel
    obtain rfl := (locate_eq_ok hlocate).2 i block hblock hblockLabel
    have hne := hlookup _ (List.mem_reverse.mpr hj)
    simp at hne
  | some new =>
    obtain ⟨before, later, heq, -⟩ := List.lookup_eq_some_iff.mp hlookup
    have hmem : (i, new) ∈ replaced := by
      rw [← List.mem_reverse, heq]
      simp
    obtain ⟨hnew, hsame⟩ := hlabel new hmem
    cases hfind : edit.replace.find? fun new => new.entryLabel? == block.entryLabel? with
    | none => exact absurd hsame (by simpa using List.find?_eq_none.mp hfind new hnew)
    | some other =>
      have hother : other.entryLabel? = block.entryLabel? := by
        simpa using List.find?_some hfind
      rw [List.inj_on_of_nodup_map hreplace hnew (List.mem_of_find?_eq_some hfind)
        (hsame.trans hother.symm)]

/-- What becomes of a block other than the head is said by its label. -/
lemma Applied.place_eq_exchange (happ : edit.Applied blocks pos replaced removed after)
    (hreplace : (edit.replace.map BasicBlockOf.entryLabel?).Nodup) {block : BasicBlock} {i : Nat}
    (hblock : blocks[i]? = some block) (hne : i ≠ pos) :
    edit.place pos replaced removed block i = edit.exchange block := by
  have hremoved : i ∈ removed ↔ block.entryLabel? ∈ edit.remove.map some := by
    rw [List.mem_map]
    constructor
    · intro hi
      obtain ⟨label, hlabel, hlocate⟩ := (happ.removed_spec i).mp hi
      obtain ⟨⟨old, hold, holdLabel⟩, -⟩ := locate_eq_ok hlocate
      rw [hblock, Option.some.injEq] at hold
      exact ⟨label, hlabel, hold ▸ holdLabel.symm⟩
    · rintro ⟨label, hlabel, hblockLabel⟩
      exact happ.mem_removed hblock hblockLabel.symm hlabel
  rw [place, exchange, if_neg hne, happ.lookup_eq_find? hreplace hblock]
  simp only [List.contains_iff_mem, hremoved]

/-- What becomes of a part of the list without the head. -/
lemma Applied.placeAll_eq_exchange (happ : edit.Applied blocks pos replaced removed after)
    (hreplace : (edit.replace.map BasicBlockOf.entryLabel?).Nodup) {part : List BasicBlock}
    {start : Nat} (hpart : ∀ k < part.length, blocks[start + k]? = part[k]? ∧ start + k ≠ pos) :
    edit.placeAll pos replaced removed part start = part.flatMap edit.exchange := by
  have hplace : ∀ p ∈ part.zipIdx start,
      edit.place pos replaced removed p.1 p.2 = edit.exchange p.1 := by
    intro p hp
    obtain ⟨hle, hlt, hget⟩ := List.mem_zipIdx hp
    obtain ⟨hsame, hne⟩ := hpart (p.2 - start) (by omega)
    rw [Nat.add_sub_cancel' hle] at hsame hne
    refine happ.place_eq_exchange hreplace (hsame.trans ?_) hne
    rw [hget, List.getElem?_eq_getElem]
  calc edit.placeAll pos replaced removed part start
      = (part.zipIdx start).flatMap fun p => edit.exchange p.1 := List.flatMap_congr hplace
    _ = part.flatMap edit.exchange := by
        conv_rhs => rw [← List.zipIdx_map_fst start part, List.flatMap_map]

/-- A label stands at a block other than the head. -/
def IsOther (blocks : List BasicBlock) (pos : Nat) (label : LabelId) : Prop :=
  ∃ i block, i ≠ pos ∧ blocks[i]? = some block ∧ block.entryLabel? = some label

/-- What an edit has to name so that it is carried out on a list with distinct labels: the labels of
other blocks than the head, those that are deleted once, and none of them replaced. -/
structure NamesOthers (edit : Edit) (blocks : List BasicBlock) (pos : Nat) : Prop where
  replaces : ∀ new ∈ edit.replace, ∃ label, new.entryLabel? = some label ∧ label ∉ edit.remove ∧
    IsOther blocks pos label
  removes : ∀ label ∈ edit.remove, IsOther blocks pos label
  once : edit.remove.Nodup

/-- Where labels are distinct, every label is located. -/
lemma locate_of_distinct (hdistinct : (blocks.filterMap BasicBlockOf.entryLabel?).Nodup)
    {block : BasicBlock} {label : LabelId} {i : Nat} (hblock : blocks[i]? = some block)
    (hlabel : block.entryLabel? = some label) : locate blocks label = .ok i := by
  have hne : ∀ {j k : Nat} {a b : BasicBlock}, blocks[j]? = some a → blocks[k]? = some b →
      a.entryLabel? = some label → b.entryLabel? = some label → ¬ j < k := by
    intro j k a b ha hb haLabel hbLabel hlt
    rw [List.Nodup, List.pairwise_filterMap, List.pairwise_iff_getElem] at hdistinct
    obtain ⟨hj, rfl⟩ := List.getElem?_eq_some_iff.mp ha
    obtain ⟨hk, rfl⟩ := List.getElem?_eq_some_iff.mp hb
    exact hdistinct j k hj hk hlt label haLabel label hbLabel rfl
  refine locate_of_unique hblock hlabel fun j other hother hotherLabel => ?_
  have hji := hne hother hblock hotherLabel hlabel
  have hij := hne hblock hother hlabel hotherLabel
  omega

/-- Where labels are distinct, the labels of other blocks are located at other positions. -/
lemma locatesOther_iff (hdistinct : (blocks.filterMap BasicBlockOf.entryLabel?).Nodup)
    {label : LabelId} : LocatesOther blocks pos label ↔ IsOther blocks pos label := by
  constructor
  · rintro ⟨i, hlocate, hne⟩
    obtain ⟨⟨block, hblock, hlabel⟩, -⟩ := locate_eq_ok hlocate
    exact ⟨i, block, hne, hblock, hlabel⟩
  · rintro ⟨i, block, hne, hblock, hlabel⟩
    exact ⟨i, locate_of_distinct hdistinct hblock hlabel, hne⟩

/-- Where labels are distinct, an edit is carried out when it names other blocks. -/
lemma carriable_iff (edit : Edit) (pos : Nat)
    (hdistinct : (blocks.filterMap BasicBlockOf.entryLabel?).Nodup) :
    edit.Carriable blocks pos ↔ edit.NamesOthers blocks pos := by
  constructor
  · rintro ⟨hreplaces, hremoves, honce⟩
    simp only [locatesOther_iff hdistinct] at hreplaces hremoves
    exact ⟨hreplaces, hremoves, honce⟩
  · rintro ⟨hreplaces, hremoves, honce⟩
    simp only [← locatesOther_iff hdistinct] at hreplaces hremoves
    exact ⟨hreplaces, hremoves, honce⟩

/-- What an edit leaves, by the labels of the blocks. -/
lemma apply_eq_ok_exchange (hpos : pos < blocks.length)
    (hreplace : (edit.replace.map BasicBlockOf.entryLabel?).Nodup)
    (h : edit.apply blocks pos = .ok (after, resume)) :
    after = (blocks.take pos).flatMap edit.exchange ++ edit.head.toList ++ edit.insert ++
        (blocks.drop (pos + 1)).flatMap edit.exchange ∧
      resume = ((blocks.take pos).flatMap edit.exchange ++ edit.head.toList).length := by
  obtain ⟨replaced, removed, happ, hresume⟩ := apply_eq_ok_resume hpos h
  have htake : (blocks.take pos).length = pos := List.length_take_of_le (Nat.le_of_lt hpos)
  have hbefore : edit.placeAll pos replaced removed (blocks.take pos) 0 =
      (blocks.take pos).flatMap edit.exchange := by
    refine happ.placeAll_eq_exchange hreplace fun k hk => ⟨?_, ?_⟩
    · rw [Nat.zero_add, List.getElem?_take_of_lt (by omega)]
    · omega
  have hbehind : edit.placeAll pos replaced removed (blocks.drop (pos + 1)) (pos + 1) =
      (blocks.drop (pos + 1)).flatMap edit.exchange := by
    refine happ.placeAll_eq_exchange hreplace fun k _ => ⟨?_, ?_⟩
    · rw [List.getElem?_drop]
    · omega
  have hafter := happ.after_eq.trans (placeAll_around edit pos replaced hpos happ.pos_kept)
  rw [hbefore, hbehind] at hafter
  rw [hbefore, ← List.length_append] at hresume
  exact ⟨by simpa only [List.append_assoc] using hafter, hresume⟩

/-- An edit of a list with distinct labels either names something that is not there or names it twice,
and then the list stays as it is; or each block is exchanged for its replacement or deleted where it
stands, the head is exchanged or deleted, and what is inserted comes right behind it. -/
theorem applyInPlace_exchanges (edit : Edit) (hpos : pos < blocks.length)
    (hdistinct : (blocks.filterMap BasicBlockOf.entryLabel?).Nodup) :
    (¬ edit.NamesOthers blocks pos ∧ ∃ error, edit.apply blocks pos = .error error ∧
      (edit.applyInPlace pos).run blocks = (.error error, blocks)) ∨
    (edit.NamesOthers blocks pos ∧ ∃ after resume, edit.apply blocks pos = .ok (after, resume) ∧
      (edit.applyInPlace pos).run blocks = (.ok resume, after) ∧
      ((edit.replace.map BasicBlockOf.entryLabel?).Nodup →
        after = (blocks.take pos).flatMap edit.exchange ++ edit.head.toList ++ edit.insert ++
          (blocks.drop (pos + 1)).flatMap edit.exchange ∧
        resume = ((blocks.take pos).flatMap edit.exchange ++ edit.head.toList).length)) := by
  have hrun := applyInPlace_eq edit hpos
  have hcarried := exists_apply_iff.trans (carriable_iff edit pos hdistinct)
  cases happly : edit.apply blocks pos with
  | error error =>
    rw [happly] at hrun hcarried
    exact .inl ⟨fun hnames => (hcarried.mpr hnames).elim nofun, error, rfl, hrun⟩
  | ok result =>
    obtain ⟨after, resume⟩ := result
    rw [happly] at hrun hcarried
    exact .inr ⟨hcarried.mp ⟨_, rfl⟩, after, resume, rfl, hrun, fun hreplace =>
      apply_eq_ok_exchange hpos hreplace happly⟩

/-- A block that goes on to another. -/
def hop (label target : LabelId) : BasicBlock :=
  { body := [.label label, .goto target] }

/-- Blocks that go on to one another in a ring. -/
def hops : List BasicBlock :=
  [hop 0 1, hop 1 2, hop 2 3, hop 3 4, hop 4 5, hop 5 0]

/-- Deletes the head and a block on each side of it, and leads around them. -/
def detour : Edit where
  replace := [hop 3 5, hop 1 9]
  remove := [4, 0]
  insert := [hop 9 3]

/-- What is inserted comes to lie where the deleted head was, with one block less before it. -/
theorem detour_exchanges :
    2 < hops.length ∧ (hops.filterMap BasicBlockOf.entryLabel?).Nodup ∧
      detour.NamesOthers hops 2 ∧
      (detour.applyInPlace 2).run hops = (.ok 1, [hop 1 9, hop 9 3, hop 3 5, hop 5 0]) := by
  have hpos : 2 < hops.length := by decide
  have hdistinct : (hops.filterMap BasicBlockOf.entryLabel?).Nodup := by decide
  refine ⟨hpos, hdistinct, ?_⟩
  obtain ⟨-, error, happly, -⟩ | ⟨hnames, after, resume, -, hrun, hexchange⟩ :=
    applyInPlace_exchanges detour hpos hdistinct
  · exact absurd happly nofun
  · obtain ⟨rfl, rfl⟩ := hexchange (by decide)
    exact ⟨hnames, hrun⟩

end Edit

end Decompiler
