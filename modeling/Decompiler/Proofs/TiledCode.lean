import Mathlib.Algebra.BigOperators.Group.List.Basic
import Mathlib.Algebra.Ring.Nat
import Decompiler.Proofs.DecodedCode

/-!
# The layout of decoded code

Decoding reads words from the left to the right: each instruction takes its operation word and the words
of its operand, and the next one starts behind them.  A branch is recorded at the label of its target on
the way, and behind the last word an `exit` of no size is put at each label that lies there.

`Code.IsLaidOut` says where the instructions of decoded code stand, which labels there are and what they
know of the branches to them.  `LabelTable.Records` is the part about labels for some instructions of a
unit, so that it can be carried along the words; `decode_isLaidOut` puts it all together.
-/

namespace Decompiler.Bytecode

/-! ### Numbers in the order of their first occurrence -/

/-- The first numbers are all different. -/
lemma eraseDups_range (n : Nat) : (List.range n).eraseDups = List.range n := by
  induction n with
  | zero => rfl
  | succ n ih =>
    have hnew : [n].removeAll (List.range n) = [n] := by simp [List.removeAll]
    rw [List.range_succ, List.eraseDups_append, ih, hnew]
    rfl

/-- Numbers that are met after others extend what has been met so far. -/
lemma eraseDups_append_range {met later : List Nat} {n : Nat} (h : met.eraseDups = List.range n) :
    (met ++ later).eraseDups = (List.range n ++ later).eraseDups := by
  have hmet : later.removeAll met = later.removeAll (List.range n) := by
    refine List.filter_congr fun x _ => ?_
    rw [Bool.eq_iff_iff]
    simp [← h]
  rw [List.eraseDups_append, List.eraseDups_append, h, eraseDups_range, hmet]

/-! ### Branches in a label table -/

namespace LabelTable

/-- The branches that go to a label; a number outside the table has none. -/
def callersOf (table : LabelTable) (id : LabelId) : List Nat :=
  ((table.get? id).map Label.callers).getD []

/-- The table `later` is `table` with some instructions recorded: it has kept its labels, new ones are
numbered in the order in which the instructions first name them, and the branches stand at their labels
behind those that stood there before. -/
structure Records (table : LabelTable) (instructions : List Instruction) (later : LabelTable) :
    Prop where
  offsets : table.offsets <+: later.offsets
  numbered : (List.range table.labels.length ++ instructions.filterMap Instruction.target?).eraseDups =
    List.range later.labels.length
  callers : ∀ id, later.callersOf id = table.callersOf id ++
    (instructions.filter (·.target? == some id)).map Instruction.offset

variable {table : LabelTable}

/-- An instruction that goes nowhere leaves the table as it is. -/
lemma records_of_none {i : Instruction} (h : i.target? = none) : table.Records [i] table where
  offsets := List.prefix_rfl
  numbered := by simp [h, eraseDups_range]
  callers id := by simp [h]

/-- No instructions leave the table as it is. -/
lemma Records.nil (table : LabelTable) : table.Records [] table where
  offsets := List.prefix_rfl
  numbered := by simp [eraseDups_range]
  callers id := by simp

/-- Some instructions after others. -/
lemma Records.append {is js : List Instruction} {middle later : LabelTable}
    (h : table.Records is middle) (h' : middle.Records js later) :
    table.Records (is ++ js) later where
  offsets := h.offsets.trans h'.offsets
  numbered := by
    rw [List.filterMap_append, ← List.append_assoc, eraseDups_append_range h.numbered, h'.numbered]
  callers id := by
    rw [h'.callers, h.callers, List.filter_append, List.map_append, List.append_assoc]

/-- Where a label that is made or found at an offset stands, and what is known of all labels after a
branch to it has been recorded. -/
lemma addCaller_eq (table : LabelTable) (offset source : Nat) :
    ∃ id, (table.addCaller offset source).1 = id ∧
      ((table.offsets[id]? = some offset ∧ (table.addCaller offset source).2.offsets = table.offsets) ∨
        (id = table.labels.length ∧
          (table.addCaller offset source).2.offsets = table.offsets ++ [offset])) ∧
      ∀ j, (table.addCaller offset source).2.callersOf j =
        table.callersOf j ++ if id = j then [source] else [] := by
  -- The label is in the table by the time the branch is added to it.
  have hcallers : ∀ (labels : List Label) (id j : LabelId), id < labels.length →
      callersOf ⟨labels.modify id fun label => { label with callers := label.callers ++ [source] }⟩ j =
        callersOf ⟨labels⟩ j ++ if id = j then [source] else [] := by
    intro labels id j hlt
    simp only [callersOf, get?, List.getElem?_modify]
    by_cases hid : id = j
    · subst hid
      simp [List.getElem?_eq_getElem hlt]
    · simp [hid]
  unfold addCaller getOrCreate
  cases hat : table.at? offset with
  | some id =>
    have hget := at?_eq_some hat
    obtain ⟨hlt, -⟩ := List.getElem?_eq_some_iff.mp hget
    refine ⟨id, rfl, .inl ⟨hget, ?_⟩, fun j => ?_⟩
    · simp only [offsets, map_offset_modify]
    · exact hcallers table.labels id j (by simpa [offsets] using hlt)
  | none =>
    refine ⟨table.labels.length, rfl, .inr ⟨rfl, ?_⟩, fun j => ?_⟩
    · simp only [offsets, map_offset_modify, List.map_append, List.map_cons, List.map_nil]
    · have hnew : callersOf ⟨table.labels ++ [{ offset := offset }]⟩ j = table.callersOf j := by
        simp only [callersOf, get?, List.getElem?_append]
        split
        · rfl
        · rename_i hge
          rw [List.getElem?_eq_none (Nat.le_of_not_lt hge)]
          cases hj : j - table.labels.length with
          | zero => simp
          | succ n => simp
      rw [hcallers _ _ j (by simp), hnew]

/-- A branch is recorded at the label of its target. -/
lemma records_addCaller {i : Instruction} {target : Nat}
    (h : i.target? = some (table.addCaller target i.offset).1) :
    table.Records [i] (table.addCaller target i.offset).2 ∧
      (table.addCaller target i.offset).2.offsets[(table.addCaller target i.offset).1]? =
        some target := by
  obtain ⟨id, hid, hoffsets, hcallers⟩ := table.addCaller_eq target i.offset
  rw [hid] at h ⊢
  have hlength : ∀ t : LabelTable, t.offsets.length = t.labels.length := fun t => List.length_map _
  have hrecorded : ∀ j, (table.addCaller target i.offset).2.callersOf j = table.callersOf j ++
      ([i].filter (·.target? == some j)).map Instruction.offset := by
    intro j
    rw [hcallers]
    by_cases hj : id = j <;> simp [h, hj]
  rcases hoffsets with ⟨hget, hsame⟩ | ⟨hnew, hadded⟩
  · obtain ⟨hlt, -⟩ := List.getElem?_eq_some_iff.mp hget
    rw [hlength] at hlt
    have hlabels := congrArg List.length hsame
    rw [hlength, hlength] at hlabels
    have hknown : [id].removeAll (List.range table.labels.length) = [] := by simp [List.removeAll, hlt]
    refine ⟨⟨hsame ▸ List.prefix_rfl, ?_, hrecorded⟩, by rw [hsame, hget]⟩
    simp only [List.filterMap_cons, List.filterMap_nil, h]
    rw [List.eraseDups_append, hknown, eraseDups_range, hlabels, List.eraseDups_nil, List.append_nil]
  · have hlabels := congrArg List.length hadded
    rw [hlength, List.length_append, hlength, List.length_singleton] at hlabels
    refine ⟨⟨by rw [hadded]; exact List.prefix_append _ _, ?_, hrecorded⟩, ?_⟩
    · simp only [List.filterMap_cons, List.filterMap_nil, h]
      rw [hnew, ← List.range_succ, eraseDups_range, hlabels]
    · rw [hadded, hnew, ← hlength, List.getElem?_concat_length]

/-- A label keeps its offset. -/
lemma Records.getElem?_offsets {is : List Instruction} {later : LabelTable} {id : LabelId}
    {offset : Nat} (h : table.Records is later) (hget : table.offsets[id]? = some offset) :
    later.offsets[id]? = some offset := by
  obtain ⟨hlt, -⟩ := List.getElem?_eq_some_iff.mp hget
  rw [List.prefix_iff_getElem?.mp h.offsets id hlt, ← List.getElem?_eq_getElem hlt, hget]

end LabelTable

/-! ### One instruction -/

namespace Instruction

/-- What the operation word of an instruction says about it: its top byte names the operation, and its
low 24 bits are the signed distance to the label of a branch.  One word has the operation of a branch and
no target. -/
structure Obeys (instruction : Instruction) (word : Nat) (labels : LabelTable) : Prop where
  op : Opcode.ofByte? (word / Nat.pow 2 24) = some instruction.op
  branch : instruction.op.isBranch = true → word ≠ 0xBCF00000 →
    ∃ id target : Nat, instruction.target? = some id ∧ labels.offsets[id]? = some target ∧
      (target : Int) = instruction.offset + (BitVec.ofNat 24 word).toInt
  other : instruction.op.isBranch = false ∨ word = 0xBCF00000 → instruction.target? = none

/-- Recording more instructions keeps the labels of a branch. -/
lemma Obeys.records {instruction : Instruction} {word : Nat} {labels later : LabelTable}
    {is : List Instruction} (h : instruction.Obeys word labels) (hrecords : labels.Records is later) :
    instruction.Obeys word later where
  op := h.op
  branch hbranch hword := by
    obtain ⟨id, target, htarget, hget, hdistance⟩ := h.branch hbranch hword
    exact ⟨id, target, htarget, hrecords.getElem?_offsets hget, hdistance⟩
  other := h.other

/-- The distance in a branch word is its low 24 bits with their sign. -/
lemma branchDistance_eq_toInt (word : Nat) : branchDistance word = (BitVec.ofNat 24 word).toInt := by
  rw [branchDistance, BitVec.toInt_eq_toNat_cond, BitVec.toNat_ofNat]
  have hlow : (2 : Nat).pow 24 = 2 ^ 24 := rfl
  have hhalf : (2 : Nat).pow 23 = 2 ^ 23 := rfl
  have hfull : (Int.pow 2 24) = ((2 ^ 24 : Nat) : Int) := rfl
  simp only [hlow, hhalf, hfull]
  split <;> split <;> omega

/-- The operand word lies in the code. -/
lemma operandWord_eq_ok {offset word : Nat} {rest : List Nat}
    (h : operandWord offset rest = .ok word) : 1 ≤ rest.length := by
  cases rest with
  | nil => cases h
  | cons => simp

/-- Both operand words lie in the code. -/
lemma operandPair_eq_ok {offset bits : Nat} {rest : List Nat}
    (h : operandPair offset rest = .ok bits) : 2 ≤ rest.length := by
  unfold operandPair at h
  split at h
  · simp
  · cases h

/-- The operand word of a variable lies in the code. -/
lemma variableAt_eq_ok {names : Names} {offset : Nat} {extra : UInt16} {rest : List Nat} {ref : VarRef}
    (h : variableAt names offset extra rest = .ok ref) : 1 ≤ rest.length := by
  obtain ⟨word, hword, -⟩ := Except.bind_eq_ok_iff.mp h
  exact operandWord_eq_ok hword

/-- The operand of a `push` lies in the code. -/
lemma pushOperand_size_le {names : Names} {offset nibble : Nat} {extra : UInt16} {rest : List Nat}
    {operand : Operand} {size : Nat}
    (h : pushOperand names offset nibble extra rest = .ok (operand, size)) : size ≤ rest.length := by
  unfold pushOperand at h
  split at h
  · cases h
  · cases h
  · obtain ⟨bits, hbits, h⟩ := Except.bind_eq_ok_iff.mp h
    cases h
    exact operandPair_eq_ok hbits
  · obtain ⟨bits, hbits, h⟩ := Except.bind_eq_ok_iff.mp h
    cases h
    exact operandPair_eq_ok hbits
  · obtain ⟨bits, hbits, h⟩ := Except.bind_eq_ok_iff.mp h
    cases h
    exact operandWord_eq_ok hbits
  · obtain ⟨bits, hbits, h⟩ := Except.bind_eq_ok_iff.mp h
    cases h
    exact operandWord_eq_ok hbits
  · obtain ⟨bits, hbits, h⟩ := Except.bind_eq_ok_iff.mp h
    cases h
    exact operandWord_eq_ok hbits
  · obtain ⟨word, hword, h⟩ := Except.bind_eq_ok_iff.mp h
    obtain ⟨value, -, h⟩ := Except.bind_eq_ok_iff.mp h
    cases h
    exact operandWord_eq_ok hword
  · obtain ⟨ref, href, h⟩ := Except.bind_eq_ok_iff.mp h
    cases h
    exact variableAt_eq_ok href
  · cases h
    exact Nat.zero_le _

/-- The operand of an operation lies in the code.  It is a label, and then the branch is recorded, or it
is none and the labels stay as they are. -/
lemma decodeOperand_cases {names : Names} {labels : LabelTable} {offset word : Nat} {op : Opcode}
    {rest : List Nat} {decoded : Decoded} (hop : Opcode.ofByte? (word / Nat.pow 2 24) = some op)
    (h : decodeOperand names labels offset word op rest = .ok decoded) :
    decoded.operandWords ≤ rest.length ∧
      ((op.isBranch = true ∧ word ≠ 0xBCF00000 ∧
          ∃ target : Nat, (target : Int) = offset + branchDistance word ∧
            decoded.operand = .label (labels.addCaller target offset).1 ∧
            decoded.labels = (labels.addCaller target offset).2) ∨
        ((op.isBranch = false ∨ word = 0xBCF00000) ∧ (∀ id, decoded.operand ≠ .label id) ∧
          decoded.labels = labels)) := by
  unfold decodeOperand at h
  dsimp only at h
  split at h
  · obtain ⟨⟨operand, size⟩, hoperand, h⟩ := Except.bind_eq_ok_iff.mp h
    cases h
    exact ⟨pushOperand_size_le hoperand, .inr ⟨.inl rfl, (takes_pushOperand hoperand).2, rfl⟩⟩
  · obtain ⟨ref, href, h⟩ := Except.bind_eq_ok_iff.mp h
    cases h
    exact ⟨variableAt_eq_ok href, .inr ⟨.inl rfl, by simp, rfl⟩⟩
  · obtain ⟨index, hindex, h⟩ := Except.bind_eq_ok_iff.mp h
    obtain ⟨name, -, h⟩ := Except.bind_eq_ok_iff.mp h
    cases h
    exact ⟨operandWord_eq_ok hindex, .inr ⟨.inl rfl, by simp, rfl⟩⟩
  · cases h
    exact ⟨Nat.zero_le _, .inr ⟨.inl rfl, by simp, rfl⟩⟩
  · split at h
    · rename_i hbranch
      rw [Bool.and_eq_true, bne_iff_ne] at hbranch
      split at h
      · rename_i target htarget
        cases h
        exact ⟨Nat.zero_le _, .inl ⟨hbranch.1, hbranch.2, target, htarget.symm, rfl, rfl⟩⟩
      · cases h
    · rename_i hbranch
      cases h
      refine ⟨Nat.zero_le _, .inr ⟨?_, by simp, rfl⟩⟩
      rw [Bool.and_eq_true, bne_iff_ne, not_and_or, not_not, Bool.not_eq_true] at hbranch
      exact hbranch

/-- The label that an instruction goes to is its operand. -/
lemma target?_eq_some_iff {instruction : Instruction} {id : LabelId} :
    instruction.target? = some id ↔ instruction.operand = .label id := by
  unfold target?
  split <;> simp_all

/-- An instruction whose operand is no label goes nowhere. -/
lemma target?_eq_none_iff {instruction : Instruction} :
    instruction.target? = none ↔ ∀ id, instruction.operand ≠ .label id := by
  simp only [Option.eq_none_iff_forall_ne_some, ne_eq, target?_eq_some_iff]

/-- What an instruction that has been read is, where it stands, and what it has left in the table. -/
lemma decode_obeys {names : Names} {labels later : LabelTable} {offset word : Nat} {rest : List Nat}
    {instruction : Instruction}
    (h : decode names labels offset word rest = .ok (instruction, later)) :
    instruction.offset = offset ∧ instruction.size ≤ (word :: rest).length ∧
      instruction.Obeys word later ∧ labels.Records [instruction] later := by
  unfold decode at h
  dsimp only at h
  split at h
  swap
  · cases h
  rename_i op hop
  obtain ⟨decoded, hdecoded, h⟩ := Except.bind_eq_ok_iff.mp h
  obtain ⟨hinstruction, rfl⟩ := Prod.mk.inj (Except.ok.inj h)
  have hoffset : instruction.offset = offset := by rw [← hinstruction]
  have hsame : instruction.op = op := by rw [← hinstruction]
  have hoperand : instruction.operand = decoded.operand := by rw [← hinstruction]
  have hwords : instruction.size = decoded.operandWords + 1 := by rw [← hinstruction]
  subst hoffset hsame
  obtain ⟨hsize, hcases⟩ := decodeOperand_cases hop hdecoded
  refine ⟨rfl, hwords ▸ Nat.succ_le_succ hsize, ?_⟩
  rw [← hoperand] at hcases
  rcases hcases with ⟨hbranch, hword, target, htarget, hlabel, hlabels⟩ | ⟨hother, hne, hlabels⟩
  · have hid := target?_eq_some_iff.mpr hlabel
    obtain ⟨hrecords, hget⟩ := LabelTable.records_addCaller hid
    rw [branchDistance_eq_toInt] at htarget
    rw [hlabels]
    refine ⟨⟨hop, fun _ _ => ⟨_, target, hid, hget, htarget⟩, ?_⟩, hrecords⟩
    rintro (hnone | hbreak)
    · exact absurd hbranch (by simp [hnone])
    · exact absurd hbreak hword
  · have hnone := target?_eq_none_iff.mpr hne
    rw [hlabels]
    refine ⟨⟨hop, fun hbranch hword => ?_, fun _ => hnone⟩, LabelTable.records_of_none hnone⟩
    rcases hother with hother | hbreak
    · exact absurd hbranch (by simp [hother])
    · exact absurd hbreak hword

end Instruction

/-! ### The words of a unit -/

/-- Instructions that take the words from `start` on up to `stop`, one behind the other and without a
gap. -/
def Tiles : Nat → List Instruction → Nat → Prop
  | start, [], stop => start = stop
  | start, i :: rest, stop => i.offset = start ∧ 0 < i.size ∧ Tiles (start + i.size) rest stop

/-- The sizes of instructions without a gap add up to the words that they take. -/
lemma Tiles.add_sum {start stop : Nat} {instructions : List Instruction}
    (h : Tiles start instructions stop) :
    start + (instructions.map Instruction.size).sum = stop := by
  induction instructions generalizing start with
  | nil => exact h
  | cons i rest ih =>
    rw [List.map_cons, List.sum_cons, ← Nat.add_assoc]
    exact ih h.2.2

/-- Instructions that take words have a size. -/
lemma Tiles.size_pos {start stop : Nat} {instructions : List Instruction}
    (h : Tiles start instructions stop) : ∀ i ∈ instructions, 0 < i.size := by
  induction instructions generalizing start with
  | nil => simp
  | cons i rest ih => exact List.forall_mem_cons.mpr ⟨h.2.1, ih h.2.2⟩

/-- Instructions that have been read from some words at `start`, with the labels before and after. -/
structure IsReadFrom (labels : LabelTable) (start : Nat) (words : List Nat) (code : Code) : Prop where
  tiles : Tiles start code.instructions (start + words.length)
  obeys : ∀ i ∈ code.instructions, ∃ k word, i.offset = start + k ∧ words[k]? = some word ∧
    i.Obeys word code.labels
  records : labels.Records code.instructions code.labels

/-- Reading takes all words and records all branches. -/
lemma isReadFrom_decodeWords {names : Names} {labels : LabelTable} {start : Nat} {words : List Nat}
    {code : Code} (h : decodeWords names labels start words = .ok code) :
    IsReadFrom labels start words code := by
  induction hlen : words.length using Nat.strongRecOn generalizing labels start words code with
  | ind n ih =>
    subst hlen
    cases words with
    | nil =>
      rw [decodeWords] at h
      cases h
      exact ⟨rfl, by simp, .nil labels⟩
    | cons word rest =>
      rw [decodeWords] at h
      obtain ⟨⟨instruction, later⟩, hone, h⟩ := Except.bind_eq_ok_iff.mp h
      obtain ⟨tail, htail, h⟩ := Except.bind_eq_ok_iff.mp h
      cases h
      obtain ⟨hoffset, hle, hobeys, hrecords⟩ := Instruction.decode_obeys hone
      obtain ⟨-, hpos, -⟩ := Instruction.decode_eq_ok hone
      -- The words behind the instruction, read as the end of all words.
      have hdrop : rest.drop (instruction.size - 1) = (word :: rest).drop instruction.size := by
        obtain ⟨k, hk⟩ := Nat.exists_eq_succ_of_ne_zero (Nat.ne_of_gt hpos)
        rw [hk, List.drop_succ_cons, Nat.succ_sub_one]
      have hlength : (rest.drop (instruction.size - 1)).length =
          (word :: rest).length - instruction.size := by
        rw [hdrop, List.length_drop]
      have htail := ih _ (by rw [hlength, List.length_cons]; omega) htail rfl
      refine ⟨⟨hoffset, hpos, ?_⟩, ?_, ?_⟩
      · have hstop : start + instruction.size + (rest.drop (instruction.size - 1)).length =
            start + (word :: rest).length := by omega
        rw [← hstop]
        exact htail.tiles
      · refine List.forall_mem_cons.mpr ⟨⟨0, word, hoffset, rfl, hobeys.records htail.records⟩, ?_⟩
        intro i hi
        obtain ⟨k, w, hk, hword, hw⟩ := htail.obeys i hi
        refine ⟨instruction.size + k, w, by omega, ?_, hw⟩
        rw [← hword, hdrop, List.getElem?_drop]
      · exact hrecords.append htail.records

/-! ### The unit -/

/-- Where the instructions of a unit of code stand, and what its labels are.  `words` are the words of the
unit. -/
structure Code.IsLaidOut (code : Code) (words : List Nat) : Prop where
  ascending : (code.instructions.map Instruction.offset).Pairwise (· < ·)
  /-- The instructions that take words take each of them once. -/
  tiles : Tiles 0 (code.instructions.filter (0 < ·.size)) words.length
  sizes : (code.instructions.map Instruction.size).sum = words.length
  /-- All others stand for the end of the unit, one at each label that is not before it. -/
  fillers : ∀ i ∈ code.instructions, i.size = 0 → i = .filler i.offset
  filled : ∀ offset, (∃ i ∈ code.instructions, i.size = 0 ∧ i.offset = offset) ↔
    words.length ≤ offset ∧ offset ∈ code.labels.offsets
  /-- The labels are numbered in the order in which the instructions first name them. -/
  numbered : (code.instructions.filterMap Instruction.target?).eraseDups =
    List.range code.labels.labels.length
  distinct : code.labels.offsets.Nodup
  anchored : ∀ id label, code.labels.get? id = some label →
    ∃ i ∈ code.instructions, i.offset = label.offset ∧ code.instructionAt? id = some i
  obeys : ∀ i ∈ code.instructions, 0 < i.size →
    ∃ word, words[i.offset]? = some word ∧ i.Obeys word code.labels
  callers : ∀ id label, code.labels.get? id = some label →
    label.callers = (code.instructions.filter (·.target? == some id)).map Instruction.offset

/-- Fillers are all alike but for their offsets. -/
lemma eq_filler_of_mem {labels : LabelTable} {stop : Nat} {i : Instruction}
    (h : i ∈ fillers labels stop) : i = .filler i.offset := by
  obtain ⟨offset, -, rfl⟩ := List.mem_map.mp h
  rfl

/-- The fillers stand at the labels at or past the end, each at one of them. -/
lemma mem_offsets_fillers {labels : LabelTable} {stop offset : Nat} :
    offset ∈ (fillers labels stop).map Instruction.offset ↔
      stop ≤ offset ∧ offset ∈ labels.offsets := by
  rw [(offsets_fillers labels stop).mem_iff, List.mem_filter, decide_eq_true_eq, And.comm]

/-- The fillers stand in the order of their offsets. -/
lemma ascending_fillers {labels : LabelTable} (h : labels.offsets.Nodup) (stop : Nat) :
    ((fillers labels stop).map Instruction.offset).Pairwise (· < ·) := by
  have hle : ((fillers labels stop).map Instruction.offset).Pairwise (· ≤ ·) := by
    rw [fillers, List.map_map]
    exact (List.map_id _).symm ▸ pairwise_ascending _
  have hne := (offsets_fillers labels stop).nodup_iff.mpr (h.filter _)
  exact (hle.and hne).imp fun h => Nat.lt_of_le_of_ne h.1 h.2

/-- Code that has been read from the first word on is laid out once the fillers stand behind it, if an
instruction stands at every label then. -/
lemma IsReadFrom.isLaidOut {words : List Nat} {read : Code} (h : IsReadFrom {} 0 words read)
    (hdistinct : read.labels.offsets.Nodup)
    (hascending : (read.instructions.map Instruction.offset).Pairwise (· < ·))
    (hlt : ∀ i ∈ read.instructions, i.offset < words.length)
    (hplaced : ∀ offset ∈ read.labels.offsets, offset ∈
      (read.instructions ++ fillers read.labels words.length).map Instruction.offset) :
    Code.IsLaidOut
      { read with instructions := read.instructions ++ fillers read.labels words.length } words := by
  have htiles : Tiles 0 read.instructions words.length := by simpa using h.tiles
  have hsize : ∀ i ∈ fillers read.labels words.length, i.size = 0 := fun i hi =>
    congrArg Instruction.size (eq_filler_of_mem hi)
  have htarget : ∀ i ∈ fillers read.labels words.length, i.target? = none := fun i hi =>
    congrArg Instruction.target? (eq_filler_of_mem hi)
  -- An instruction without a size is a filler.
  have hfiller : ∀ i ∈ read.instructions ++ fillers read.labels words.length, i.size = 0 →
      i ∈ fillers read.labels words.length := by
    intro i hi hzero
    rcases List.mem_append.mp hi with hi | hi
    · exact absurd hzero (Nat.ne_of_gt (htiles.size_pos i hi))
    · exact hi
  refine
    { ascending := ?_, tiles := ?_, sizes := ?_, fillers := ?_, filled := ?_, numbered := ?_
      distinct := hdistinct, anchored := ?_, obeys := ?_, callers := ?_ }
  · rw [List.map_append, List.pairwise_append]
    refine ⟨hascending, ascending_fillers hdistinct _, fun a ha b hb => ?_⟩
    obtain ⟨i, hi, rfl⟩ := List.mem_map.mp ha
    exact Nat.lt_of_lt_of_le (hlt i hi) (mem_offsets_fillers.mp hb).1
  · have hall : read.instructions.filter (0 < ·.size) = read.instructions :=
      List.filter_eq_self.mpr fun i hi => decide_eq_true (htiles.size_pos i hi)
    have hnone : (fillers read.labels words.length).filter (0 < ·.size) = [] :=
      List.filter_eq_nil_iff.mpr fun i hi => by simp [hsize i hi]
    rw [List.filter_append, hall, hnone, List.append_nil]
    exact htiles
  · have hzero : ((fillers read.labels words.length).map Instruction.size).sum = 0 :=
      List.sum_eq_zero fun n hn => by
        obtain ⟨i, hi, rfl⟩ := List.mem_map.mp hn
        exact hsize i hi
    have hsum := htiles.add_sum
    rw [List.map_append, List.sum_append, hzero]
    omega
  · exact fun i hi hzero => eq_filler_of_mem (hfiller i hi hzero)
  · intro offset
    rw [← mem_offsets_fillers, List.mem_map]
    constructor
    · rintro ⟨i, hi, hzero, hoffset⟩
      exact ⟨i, hfiller i hi hzero, hoffset⟩
    · rintro ⟨i, hi, hoffset⟩
      exact ⟨i, List.mem_append_right _ hi, hsize i hi, hoffset⟩
  · have hnone : (fillers read.labels words.length).filterMap Instruction.target? = [] :=
      List.filterMap_eq_nil_iff.mpr htarget
    rw [List.filterMap_append, hnone, List.append_nil]
    exact h.records.numbered
  · intro id label hlabel
    have hmem : label.offset ∈ read.labels.offsets :=
      List.mem_map_of_mem (List.mem_of_getElem? hlabel)
    obtain ⟨i, hi, hoffset⟩ := List.mem_map.mp (hplaced _ hmem)
    have hsome : ((read.instructions ++ fillers read.labels words.length).find?
        (·.offset == label.offset)).isSome = true :=
      List.find?_isSome.mpr ⟨i, hi, by simp [hoffset]⟩
    obtain ⟨j, hj⟩ := Option.isSome_iff_exists.mp hsome
    refine ⟨j, List.mem_of_find?_eq_some hj, by simpa using List.find?_some hj, ?_⟩
    rw [Code.instructionAt?, hlabel]
    exact hj
  · intro i hi hpos
    rcases List.mem_append.mp hi with hi | hi
    · obtain ⟨k, word, hk, hword, hobeys⟩ := h.obeys i hi
      rw [Nat.zero_add] at hk
      exact ⟨word, hk ▸ hword, hobeys⟩
    · exact absurd (hsize i hi) (Nat.ne_of_gt hpos)
  · intro id label hlabel
    have hnone : (fillers read.labels words.length).filter (·.target? == some id) = [] :=
      List.filter_eq_nil_iff.mpr fun i hi => by simp [htarget i hi]
    have hcallers := h.records.callers id
    rw [LabelTable.callersOf, hlabel, Option.map_some, Option.getD_some] at hcallers
    rw [List.filter_append, hnone, List.append_nil]
    exact hcallers

/-- Decoded code is laid out along its words. -/
theorem decode_isLaidOut {names : Names} {bytes : List UInt8} {code : Code}
    (h : decode names bytes = .ok code) :
    (wordsOfBytes bytes).length = bytes.length / 4 ∧ code.IsLaidOut (wordsOfBytes bytes) := by
  have hlength := length_wordsOfBytes bytes
  have hproper := decode_isProper h
  unfold decode at h
  dsimp only at h
  split at h
  · cases h
  obtain ⟨read, hread, h⟩ := Except.bind_eq_ok_iff.mp h
  split at h
  · cases h
  cases h
  have hold := decodeWords_eq_ok hread
  rw [← hlength] at hproper ⊢
  rw [Nat.zero_add] at hold
  exact ⟨rfl, (isReadFrom_decodeWords hread).isLaidOut hproper.labels_nodup hold.ascending hold.lt_stop
    hproper.placed⟩

/-- A constant of two words, a branch past the end, the break out of a scope, and branches to the start,
to the end and to the start again. -/
def crossingBranches : List UInt8 :=
  [0x00, 0x00, 0x02, 0xC0, 0x05, 0x00, 0x00, 0x00, 0x07, 0x00, 0x00, 0xB8, 0x00, 0x00, 0xF0, 0xBC,
    0xFC, 0xFF, 0xFF, 0xB9, 0x02, 0x00, 0x00, 0xB7, 0xFA, 0xFF, 0xFF, 0xB7]

/-- Two fillers stand behind the code, and the labels are not in the order of their offsets. -/
theorem crossingBranches_isLaidOut :
    ∃ code, decode {} crossingBranches = .ok code ∧
      code.instructions.map Instruction.offset = [0, 2, 3, 4, 5, 6, 7, 9] ∧
      code.labels.offsets = [9, 0, 7] ∧
      (wordsOfBytes crossingBranches).length = crossingBranches.length / 4 ∧
      code.IsLaidOut (wordsOfBytes crossingBranches) := by
  have hdecode : ∃ code, decode {} crossingBranches = .ok code ∧
      code.instructions.map Instruction.offset = [0, 2, 3, 4, 5, 6, 7, 9] ∧
      code.labels.offsets = [9, 0, 7] := by
    rw [decode_eq_decodeBounded]
    exact ⟨_, rfl, rfl, rfl⟩
  obtain ⟨code, hcode, hoffsets, hlabels⟩ := hdecode
  exact ⟨code, hcode, hoffsets, hlabels, decode_isLaidOut hcode⟩

end Decompiler.Bytecode
