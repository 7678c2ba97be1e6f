import Mathlib.Data.List.Nodup
import Decompiler.Proofs.BlockLists
import Decompiler.Stack.Lowering

/-!
# Decoded code

What `decode` promises about the code it gives (`Code.IsProper`): every operand is one that its
operation takes, every branch goes to a label of the table, instructions have offsets of their own and
labels have offsets of their own, and an instruction stands at every label.

Lowering then finds no operand out of place, and the statements that it gives define each label of the
table once and name no other (`lower_eq_ok`).
-/

namespace Decompiler

namespace Bytecode

/-! ### Labels -/

namespace LabelTable

/-- The offsets of the labels. -/
def offsets (table : LabelTable) : List Nat :=
  table.labels.map Label.offset

/-- A table that has come out of another one: no label is lost, and no offset gets a second label. -/
structure Grows (table later : LabelTable) : Prop where
  length_le : table.labels.length ≤ later.labels.length
  nodup : table.offsets.Nodup → later.offsets.Nodup

lemma Grows.refl (table : LabelTable) : table.Grows table := ⟨Nat.le_refl _, id⟩

lemma Grows.trans {a b c : LabelTable} (h : a.Grows b) (h' : b.Grows c) : a.Grows c :=
  ⟨Nat.le_trans h.length_le h'.length_le, fun hnodup => h'.nodup (h.nodup hnodup)⟩

/-- The label at an offset has that offset. -/
lemma at?_eq_some {table : LabelTable} {offset : Nat} {id : LabelId}
    (h : table.at? offset = some id) : table.offsets[id]? = some offset := by
  obtain ⟨hlt, hoffset, -⟩ := List.findIdx?_eq_some_iff_getElem.mp h
  rw [offsets, List.getElem?_map, List.getElem?_eq_getElem hlt]
  simpa using hoffset

/-- An offset without a label is none of the table's. -/
lemma at?_eq_none {table : LabelTable} {offset : Nat} (h : table.at? offset = none) :
    offset ∉ table.offsets := by
  intro hmem
  obtain ⟨label, hlabel, hoffset⟩ := List.mem_map.mp hmem
  have hne := List.findIdx?_eq_none_iff.mp h label hlabel
  simp [hoffset] at hne

/-- Each label is found at its offset. -/
lemma at?_of_nodup {table : LabelTable} (hnodup : table.offsets.Nodup) {offset : Nat} {id : LabelId}
    (h : table.offsets[id]? = some offset) : table.at? offset = some id := by
  cases hat : table.at? offset with
  | none => exact absurd (List.mem_of_getElem? h) (at?_eq_none hat)
  | some other =>
    have hother := at?_eq_some hat
    obtain ⟨hlt, -⟩ := List.getElem?_eq_some_iff.mp hother
    rw [(List.getElem?_inj hlt hnodup).mp (hother.trans h.symm)]

/-- Recording a branch at a label keeps the offsets of all labels. -/
lemma map_offset_modify (labels : List Label) (id : LabelId) (source : Nat) :
    (labels.modify id fun label => { label with callers := label.callers ++ [source] }).map
      Label.offset = labels.map Label.offset := by
  refine List.ext_getElem? fun i => ?_
  rw [List.getElem?_map, List.getElem?_map, List.getElem?_modify]
  cases labels[i]? with
  | none => rfl
  | some label =>
    simp only [Option.map_some]
    split <;> rfl

/-- Adding a caller gives a label of the new table. -/
lemma addCaller_spec (table : LabelTable) (offset source : Nat) :
    (table.addCaller offset source).1 < (table.addCaller offset source).2.labels.length ∧
      table.Grows (table.addCaller offset source).2 := by
  unfold addCaller getOrCreate
  cases hat : table.at? offset with
  | some id =>
    obtain ⟨hlt, -⟩ := List.getElem?_eq_some_iff.mp (at?_eq_some hat)
    have hlt : id < table.labels.length := by simpa [offsets] using hlt
    refine ⟨by simpa using hlt, by simp, ?_⟩
    simp only [offsets, map_offset_modify, imp_self]
  | none =>
    refine ⟨by simp, by simp, ?_⟩
    simp only [offsets, map_offset_modify, List.map_append, List.map_cons, List.map_nil]
    intro hnodup
    refine List.nodup_append.mpr ⟨hnodup, List.nodup_singleton _, ?_⟩
    intro a ha b hb heq
    rw [List.mem_singleton.mp hb] at heq
    exact at?_eq_none hat (heq ▸ ha)

end LabelTable

/-! ### Instructions -/

/-- Whether an operation takes an operand of this kind. -/
def Opcode.takes : Opcode → Operand → Bool
  | .push, .constant _ | .push, .var _ | .pop, .var _ | .call, .call _ _ => true
  | .push, _ | .pop, _ | .call, _ => false
  | .b, .label _ | .bt, .label _ | .bf, .label _ | .pushEnv, .label _ | .popEnv, .label _ => true
  | .popEnv, .none => true
  | .b, _ | .bt, _ | .bf, _ | .pushEnv, _ | .popEnv, _ => false
  | _, _ => true

/-- The operand of a `push` is a constant or a variable. -/
lemma Instruction.takes_pushOperand {names : Names} {offset nibble : Nat} {extra : UInt16}
    {rest : List Nat} {operand : Operand} {size : Nat}
    (h : pushOperand names offset nibble extra rest = .ok (operand, size)) :
    Opcode.push.takes operand = true ∧ ∀ id, operand ≠ .label id := by
  unfold pushOperand at h
  split at h
  · cases h
  · cases h
  all_goals first
    | obtain ⟨a, -, h⟩ := Except.bind_eq_ok_iff.mp h
      first
        | cases h
          exact ⟨rfl, by simp⟩
        | obtain ⟨b, -, h⟩ := Except.bind_eq_ok_iff.mp h
          cases h
          exact ⟨rfl, by simp⟩
    | cases h
      exact ⟨rfl, by simp⟩

/-- The label that an operand is, if it is one, belongs to the table. -/
def Operand.IsIn (operand : Operand) (table : LabelTable) : Prop :=
  ∀ id, operand = .label id → id < table.labels.length

namespace Instruction

/-- An operand that is no label belongs to every table. -/
lemma isIn_of_ne {operand : Operand} (h : ∀ id, operand ≠ .label id) (table : LabelTable) :
    operand.IsIn table :=
  fun id hid => absurd hid (h id)

/-- An operation gets an operand that it takes.  Only the `popenv` that breaks out of a scope is a
branch without a label. -/
lemma decodeOperand_eq_ok {names : Names} {labels : LabelTable} {offset word : Nat} {op : Opcode}
    {rest : List Nat} {decoded : Decoded} (hop : Opcode.ofByte? (word / Nat.pow 2 24) = some op)
    (h : decodeOperand names labels offset word op rest = .ok decoded) :
    op.takes decoded.operand = true ∧ decoded.operand.IsIn decoded.labels ∧
      labels.Grows decoded.labels := by
  unfold decodeOperand at h
  dsimp only at h
  split at h
  · obtain ⟨⟨operand, size⟩, hoperand, h⟩ := Except.bind_eq_ok_iff.mp h
    cases h
    obtain ⟨htakes, hne⟩ := takes_pushOperand hoperand
    exact ⟨htakes, isIn_of_ne hne _, .refl _⟩
  · obtain ⟨ref, -, h⟩ := Except.bind_eq_ok_iff.mp h
    cases h
    exact ⟨rfl, isIn_of_ne (by simp) _, .refl _⟩
  · obtain ⟨index, -, h⟩ := Except.bind_eq_ok_iff.mp h
    obtain ⟨name, -, h⟩ := Except.bind_eq_ok_iff.mp h
    cases h
    exact ⟨rfl, isIn_of_ne (by simp) _, .refl _⟩
  · cases h
    exact ⟨rfl, isIn_of_ne (by simp) _, .refl _⟩
  · rename_i hpush hpop hcall hdup
    split at h
    · rename_i hbranch
      split at h
      · rename_i target _
        cases h
        obtain ⟨hlt, hgrows⟩ := labels.addCaller_spec target offset
        refine ⟨?_, ?_, hgrows⟩
        · cases op with
          | push | pop | call | dup => contradiction
          | _ => rfl
        · intro id hid
          cases hid
          exact hlt
      · cases h
    · rename_i hbranch
      cases h
      refine ⟨?_, isIn_of_ne (by simp) _, .refl _⟩
      by_cases hword : word = scopeBreakWord
      · rw [hword] at hop
        have hpopEnv : Opcode.ofByte? (scopeBreakWord / Nat.pow 2 24) = some .popEnv := by decide
        rw [hpopEnv] at hop
        cases hop
        rfl
      · simp only [Bool.and_eq_true, bne_iff_ne, not_and, not_not] at hbranch
        cases op with
        | push | pop | call | dup => contradiction
        | b | bt | bf | pushEnv | popEnv => exact absurd (hbranch rfl) hword
        | _ => rfl

/-- What is known of an instruction that has been read. -/
lemma decode_eq_ok {names : Names} {labels later : LabelTable} {offset word : Nat} {rest : List Nat}
    {instruction : Instruction}
    (h : decode names labels offset word rest = .ok (instruction, later)) :
    instruction.offset = offset ∧ 0 < instruction.size ∧
      instruction.op.takes instruction.operand = true ∧ instruction.operand.IsIn later ∧
      labels.Grows later := by
  unfold decode at h
  dsimp only at h
  split at h
  · rename_i op hop
    obtain ⟨decoded, hdecoded, h⟩ := Except.bind_eq_ok_iff.mp h
    cases h
    obtain ⟨htakes, hin, hgrows⟩ := decodeOperand_eq_ok hop hdecoded
    exact ⟨rfl, Nat.succ_pos _, htakes, hin, hgrows⟩
  · cases h

end Instruction

/-! ### Code -/

/-- Code that has been read from the words at `start` on, up to `stop`. -/
structure Code.IsRead (code : Code) (labels : LabelTable) (start stop : Nat) : Prop where
  grows : labels.Grows code.labels
  takes : ∀ i ∈ code.instructions, i.op.takes i.operand = true
  isIn : ∀ i ∈ code.instructions, i.operand.IsIn code.labels
  start_le : ∀ i ∈ code.instructions, start ≤ i.offset
  lt_stop : ∀ i ∈ code.instructions, i.offset < stop
  ascending : (code.instructions.map Instruction.offset).Pairwise (· < ·)

/-- Code is read from where it starts to where the words end. -/
lemma decodeWords_eq_ok {names : Names} {labels : LabelTable} {offset : Nat} {words : List Nat}
    {code : Code} (h : decodeWords names labels offset words = .ok code) :
    code.IsRead labels offset (offset + words.length) := by
  induction hlen : words.length using Nat.strongRecOn
    generalizing labels offset words code with
  | ind n ih =>
    subst hlen
    cases words with
    | nil =>
      rw [decodeWords] at h
      cases h
      exact ⟨.refl _, by simp, by simp, by simp, by simp, List.Pairwise.nil⟩
    | cons word rest =>
      rw [decodeWords] at h
      obtain ⟨⟨instruction, later⟩, hone, h⟩ := Except.bind_eq_ok_iff.mp h
      obtain ⟨tail, htail, h⟩ := Except.bind_eq_ok_iff.mp h
      cases h
      obtain ⟨hoffset, hsize, htakes, hin, hgrows⟩ := Instruction.decode_eq_ok hone
      have hdrop : (rest.drop (instruction.size - 1)).length < (word :: rest).length := by
        simp only [List.length_drop, List.length_cons]
        omega
      have htail := ih _ hdrop htail rfl
      have hbefore : ∀ i ∈ tail.instructions, offset < i.offset := by
        intro i hi
        have := htail.start_le i hi
        omega
      refine ⟨hgrows.trans htail.grows, ?_, ?_, ?_, ?_, ?_⟩
      · exact List.forall_mem_cons.mpr ⟨htakes, htail.takes⟩
      · refine List.forall_mem_cons.mpr ⟨?_, htail.isIn⟩
        intro id hid
        exact Nat.lt_of_lt_of_le (hin id hid) htail.grows.length_le
      · refine List.forall_mem_cons.mpr ⟨Nat.le_of_eq hoffset.symm, ?_⟩
        exact fun i hi => Nat.le_of_lt (hbefore i hi)
      · refine List.forall_mem_cons.mpr ⟨?_, ?_⟩
        · rw [hoffset, List.length_cons]
          omega
        · intro i hi
          have hle := htail.start_le i hi
          have hlt := htail.lt_stop i hi
          simp only [List.length_drop, List.length_cons] at hlt ⊢
          omega
      · refine List.pairwise_cons.mpr ⟨?_, htail.ascending⟩
        intro offset' hoffset'
        obtain ⟨i, hi, rfl⟩ := List.mem_map.mp hoffset'
        rw [hoffset]
        exact hbefore i hi

/-- Four bytes make a word. -/
lemma length_wordsOfBytes (bytes : List UInt8) : (wordsOfBytes bytes).length = bytes.length / 4 := by
  induction bytes using wordsOfBytes.induct with
  | case1 a b c d rest ih =>
    rw [wordsOfBytes, List.length_cons, ih]
    simp only [List.length_cons]
    omega
  | case2 bytes hshort =>
    rw [wordsOfBytes]
    · match bytes, hshort with
      | [], _ | [_], _ | [_, _], _ | [_, _, _], _ => simp
      | a :: b :: c :: d :: rest, hshort => exact absurd rfl (hshort a b c d rest)
    · exact hshort

/-- `decodeWords` by recursion on a number that is at least that of the words, so that it can be
evaluated. -/
def decodeUpTo (names : Names) : Nat → LabelTable → Nat → List Nat → Except DecodeError Code
  | 0, labels, _, _ => .ok ⟨[], labels⟩
  | _ + 1, labels, _, [] => .ok ⟨[], labels⟩
  | fuel + 1, labels, offset, word :: rest => do
    let (instruction, labels) ← Instruction.decode names labels offset word rest
    let code ← decodeUpTo names fuel labels (offset + instruction.size)
      (rest.drop (instruction.size - 1))
    return { code with instructions := instruction :: code.instructions }

lemma decodeWords_eq_decodeUpTo {names : Names} {fuel : Nat} {words : List Nat}
    (h : words.length ≤ fuel) (labels : LabelTable) (offset : Nat) :
    decodeWords names labels offset words = decodeUpTo names fuel labels offset words := by
  induction fuel generalizing labels offset words with
  | zero =>
    obtain rfl := List.length_eq_zero_iff.mp (Nat.le_zero.mp h)
    rw [decodeWords, decodeUpTo]
  | succ fuel ih =>
    cases words with
    | nil => rw [decodeWords, decodeUpTo]
    | cons word rest =>
      rw [decodeWords, decodeUpTo]
      refine congrArg (bind _) (funext fun found => ?_)
      obtain ⟨instruction, labels⟩ := found
      have hlength : (rest.drop (instruction.size - 1)).length ≤ fuel := by
        simp only [List.length_drop, List.length_cons] at h ⊢
        omega
      dsimp only
      rw [ih hlength]

/-- `decode` in a form that can be evaluated. -/
def decodeBounded (names : Names) (bytes : List UInt8) : Except DecodeError Code := do
  if bytes.length % 4 ≠ 0 then throw (.misaligned bytes.length)
  let code ← decodeUpTo names bytes.length {} 0 (wordsOfBytes bytes)
  let code :=
    { code with instructions := code.instructions ++ fillers code.labels (bytes.length / 4) }
  match strayLabel? code with
  | some label => throw (.branchTarget (label.callers.headD 0) label.offset)
  | none => return code

lemma decode_eq_decodeBounded (names : Names) (bytes : List UInt8) :
    decode names bytes = decodeBounded names bytes := by
  have hlength : (wordsOfBytes bytes).length ≤ bytes.length := by
    rw [length_wordsOfBytes]
    omega
  unfold decode
  rw [decodeWords_eq_decodeUpTo hlength]
  rfl

/-- Code whose operands fit their operations, in which instructions have offsets of their own, labels
have offsets of their own, and an instruction stands at every label. -/
structure Code.IsProper (code : Code) : Prop where
  takes : ∀ i ∈ code.instructions, i.op.takes i.operand = true
  isIn : ∀ i ∈ code.instructions, i.operand.IsIn code.labels
  offsets_nodup : (code.instructions.map Instruction.offset).Nodup
  labels_nodup : code.labels.offsets.Nodup
  placed : ∀ offset ∈ code.labels.offsets, offset ∈ code.instructions.map Instruction.offset

/-- The fillers stand at the labels at or past the end of the code. -/
lemma offsets_fillers (labels : LabelTable) (stop : Nat) :
    ((fillers labels stop).map Instruction.offset).Perm (labels.offsets.filter (stop ≤ ·)) := by
  have hoffsets : (fillers labels stop).map Instruction.offset =
      ascending (labels.offsets.filter (stop ≤ ·)) := by
    rw [fillers, List.map_map]
    exact List.map_id _
  rw [hoffsets]
  exact perm_stableSort _ _

/-- Decoded code is proper. -/
theorem decode_isProper {names : Names} {bytes : List UInt8} {code : Code}
    (h : decode names bytes = .ok code) : code.IsProper := by
  unfold decode at h
  dsimp only at h
  split at h
  · cases h
  obtain ⟨read, hread, h⟩ := Except.bind_eq_ok_iff.mp h
  split at h
  · cases h
  rename_i hstray
  cases h
  have hread := decodeWords_eq_ok hread
  rw [length_wordsOfBytes, Nat.zero_add] at hread
  have hnodup : read.labels.offsets.Nodup := hread.grows.nodup List.nodup_nil
  have hfillers := offsets_fillers read.labels (bytes.length / 4)
  refine ⟨?_, ?_, ?_, hnodup, ?_⟩
  · intro i hi
    rcases List.mem_append.mp hi with hi | hi
    · exact hread.takes i hi
    · obtain ⟨offset, -, rfl⟩ := List.mem_map.mp hi
      rfl
  · intro i hi
    rcases List.mem_append.mp hi with hi | hi
    · exact hread.isIn i hi
    · obtain ⟨offset, -, rfl⟩ := List.mem_map.mp hi
      exact Instruction.isIn_of_ne (by simp [Instruction.filler]) _
  · -- The fillers stand behind everything that was read.
    rw [List.map_append, List.nodup_append]
    refine ⟨hread.ascending.imp Nat.ne_of_lt, hfillers.nodup_iff.mpr (hnodup.filter _), ?_⟩
    intro a ha b hb heq
    obtain ⟨i, hi, rfl⟩ := List.mem_map.mp ha
    have hlt := hread.lt_stop i hi
    have hle := (List.mem_filter.mp (hfillers.mem_iff.mp hb)).2
    rw [decide_eq_true_eq, ← heq] at hle
    omega
  · intro offset hoffset
    obtain ⟨label, hlabel, rfl⟩ := List.mem_map.mp hoffset
    have hfound := List.find?_eq_none.mp hstray label hlabel
    simp only [Bool.not_eq_true, Bool.not_eq_false', List.any_eq_true, beq_iff_eq] at hfound
    obtain ⟨i, hi, hsame⟩ := hfound
    exact List.mem_map.mpr ⟨i, hi, hsame⟩

end Bytecode

open Bytecode

/-! ### Statements of code -/

/-- Whether the statement is one that an instruction leaves: a stack operation, a jump or an exit. -/
def Stmt.isLowered : Stmt → Bool
  | .raw _ _ | .goto _ | .exit => true
  | _ => false

/-- Statements that define each label below `bound` once and name no other, and are otherwise what
instructions leave. -/
structure Stmt.IsFlat (bound : Nat) (stmts : List Stmt) : Prop where
  kinds : ∀ s ∈ stmts, (∃ id, s = .label id) ∨ s.isLowered = true
  labels : (labelsOfList stmts).Perm (List.range bound)
  targets : ∀ id ∈ targetsOfList stmts, id < bound

namespace Lowering

variable {table : LabelTable}

/-- A statement that an instruction leaves, and that names only labels of the table. -/
structure IsOf (table : LabelTable) (s : Stmt) : Prop where
  kind : s.isLowered = true
  labels : s.labels = []
  targets : ∀ id ∈ s.targets, id < table.labels.length

/-- A stack operation that goes nowhere. -/
lemma isOf_raw {op : StackOp} (offset : Nat) (h : op.targets = []) : IsOf table (.raw offset op) :=
  ⟨rfl, rfl, by simp [Stmt.targets, Stmt.branchTargets, h]⟩

/-- A stack operation that goes to one label. -/
lemma isOf_branch {op : StackOp} {id : LabelId} (offset : Nat) (h : op.targets = [id])
    (hid : id < table.labels.length) : IsOf table (.raw offset op) :=
  ⟨rfl, rfl, by simpa [Stmt.targets, Stmt.branchTargets, h] using hid⟩

/-- An instruction with a fitting operand leaves at most one statement. -/
lemma stmt?_eq_ok {instruction : Instruction}
    (htakes : instruction.op.takes instruction.operand = true)
    (hin : instruction.operand.IsIn table) :
    ∃ s, stmt? instruction = .ok s ∧ ∀ t ∈ s, IsOf table t := by
  have hone : ∀ {t : Stmt}, IsOf table t → ∀ u ∈ some t, IsOf table u := by
    intro t ht u hu
    cases hu
    exact ht
  obtain ⟨offset, op, firstType, secondType, extra, operand, size⟩ := instruction
  dsimp only at htakes hin
  cases op with
  | badOp | conv | trap => exact ⟨none, rfl, by simp⟩
  | exit => exact ⟨_, rfl, hone ⟨rfl, rfl, by simp [Stmt.targets, Stmt.branchTargets]⟩⟩
  | b =>
    cases operand with
    | label id =>
      exact ⟨_, rfl, hone ⟨rfl, rfl, by simpa [Stmt.targets, Stmt.branchTargets] using hin id rfl⟩⟩
    | _ => cases htakes
  | bt | bf | pushEnv =>
    cases operand with
    | label id => exact ⟨_, rfl, hone (isOf_branch offset rfl (hin id rfl))⟩
    | _ => cases htakes
  | popEnv =>
    cases operand with
    | label id => exact ⟨_, rfl, hone (isOf_branch offset rfl (hin id rfl))⟩
    | none => exact ⟨none, rfl, by simp⟩
    | _ => cases htakes
  | push | pop | call =>
    cases operand with
    | constant _ | var _ | call _ _ =>
      first
        | exact ⟨_, rfl, hone (isOf_raw offset rfl)⟩
        | cases htakes
    | _ => cases htakes
  | _ => exact ⟨_, rfl, hone (isOf_raw offset rfl)⟩

/-- The label of an instruction, if it has one, and its statement, if it leaves one. -/
lemma stmts_eq_ok {instruction : Instruction}
    (htakes : instruction.op.takes instruction.operand = true)
    (hin : instruction.operand.IsIn table) :
    ∃ list, stmts table instruction = .ok list ∧
      (∀ s ∈ list, (∃ id, s = .label id) ∨ s.isLowered = true) ∧
      Stmt.labelsOfList list = (table.at? instruction.offset).toList ∧
      ∀ id ∈ Stmt.targetsOfList list, id < table.labels.length := by
  obtain ⟨s, hs, hof⟩ := stmt?_eq_ok htakes hin
  refine ⟨_, Except.bind_eq_ok_iff.mpr ⟨s, hs, rfl⟩, ?_, ?_, ?_⟩
  · intro t ht
    rcases List.mem_append.mp ht with ht | ht
    · obtain ⟨id, -, rfl⟩ := Option.map_eq_some_iff.mp (Option.mem_toList.mp ht)
      exact .inl ⟨id, rfl⟩
    · exact .inr (hof t (Option.mem_toList.mp ht)).kind
  · have hlabels : Stmt.labelsOfList s.toList = [] := by
      cases s with
      | none => rfl
      | some t => simp [Stmt.labelsOfList, (hof t rfl).labels]
    rw [Stmt.labelsOfList_append, hlabels, List.append_nil]
    cases table.at? instruction.offset <;> rfl
  · intro id hid
    obtain ⟨t, ht, hid⟩ := Stmt.mem_targetsOfList.mp hid
    rcases List.mem_append.mp ht with ht | ht
    · obtain ⟨l, -, rfl⟩ := Option.map_eq_some_iff.mp (Option.mem_toList.mp ht)
      cases hid
    · exact (hof t (Option.mem_toList.mp ht)).targets id hid

/-- Lowering some instructions of a unit one after the other. -/
lemma mapM_stmts_eq_ok {instructions : List Instruction}
    (htakes : ∀ i ∈ instructions, i.op.takes i.operand = true)
    (hin : ∀ i ∈ instructions, i.operand.IsIn table) :
    ∃ lists, instructions.mapM (stmts table) = .ok lists ∧
      (∀ s ∈ lists.flatten, (∃ id, s = .label id) ∨ s.isLowered = true) ∧
      Stmt.labelsOfList lists.flatten = instructions.filterMap (table.at? ·.offset) ∧
      ∀ id ∈ Stmt.targetsOfList lists.flatten, id < table.labels.length := by
  induction instructions with
  | nil => exact ⟨[], rfl, by simp, rfl, by simp [Stmt.targetsOfList]⟩
  | cons i rest ih =>
    rw [List.forall_mem_cons] at htakes hin
    obtain ⟨list, hlist, hkinds, hlabels, htargets⟩ := stmts_eq_ok htakes.1 hin.1
    obtain ⟨lists, hlists, hkinds', hlabels', htargets'⟩ := ih htakes.2 hin.2
    refine ⟨list :: lists, ?_, ?_, ?_, ?_⟩
    · rw [List.mapM_cons]
      exact Except.bind_eq_ok_iff.mpr ⟨_, hlist, Except.bind_eq_ok_iff.mpr ⟨_, hlists, rfl⟩⟩
    · rw [List.flatten_cons, List.forall_mem_append]
      exact ⟨hkinds, hkinds'⟩
    · rw [List.flatten_cons, Stmt.labelsOfList_append, hlabels, hlabels', List.filterMap_cons]
      cases table.at? i.offset <;> rfl
    · rw [List.flatten_cons, Stmt.targetsOfList_append, List.forall_mem_append]
      exact ⟨htargets, htargets'⟩

end Lowering

/-- Proper code is lowered to statements that define each of its labels once. -/
theorem lower_eq_ok {code : Code} (h : code.IsProper) :
    ∃ stmts, lower code = .ok stmts ∧ Stmt.IsFlat code.labels.labels.length stmts := by
  obtain ⟨lists, hlists, hkinds, hlabels, htargets⟩ := Lowering.mapM_stmts_eq_ok h.takes h.isIn
  refine ⟨lists.flatten, by rw [lower, hlists]; rfl, hkinds, ?_, htargets⟩
  rw [hlabels]
  refine (List.perm_ext_iff_of_nodup ?_ List.nodup_range).mpr ?_
  · -- A label has one offset, and an offset has one instruction.
    have hpairs := List.pairwise_map.mp h.offsets_nodup
    refine List.pairwise_filterMap.mpr (hpairs.imp ?_)
    intro a b hne x hx y hy hxy
    rw [hxy] at hx
    have hx := LabelTable.at?_eq_some hx
    rw [LabelTable.at?_eq_some hy, Option.some.injEq] at hx
    exact hne hx.symm
  · intro id
    rw [List.mem_filterMap, List.mem_range]
    constructor
    · rintro ⟨i, -, hid⟩
      obtain ⟨hlt, -⟩ := List.getElem?_eq_some_iff.mp (LabelTable.at?_eq_some hid)
      simpa [LabelTable.offsets] using hlt
    · intro hlt
      have hlt : id < code.labels.offsets.length := by simpa [LabelTable.offsets] using hlt
      have hget := List.getElem?_eq_getElem hlt
      obtain ⟨i, hi, hoffset⟩ := List.mem_map.mp (h.placed _ (List.mem_of_getElem? hget))
      refine ⟨i, hi, ?_⟩
      rw [hoffset]
      exact LabelTable.at?_of_nodup h.labels_nodup hget

end Decompiler
