import Decompiler.Bytecode.Assembler
import Decompiler.Proofs.TiledCode

/-!
# Code that has been assembled

Decoding undoes assembling: each step but a label becomes one instruction, at the place where the step
stood, with the operation and the operand that the step names.

The two sides meet at the words.  `Assembler.finish` writes the distance of a branch into its word once
all names have their places; `finalWords` are the words of a step with this done, and the finished words
are those of the steps one after the other (`Assembler.finish_eq`).  Each step's own words decode to its
instruction, whatever stands behind them (`AssemblyStep.decode_finalWords`), and so the whole unit does
(`decode_finish`).
-/

namespace Decompiler.Bytecode

/-! ### Words and bytes -/

/-- The four bytes of a word stand for the word. -/
lemma wordOfBytes_bytesOfWord {word : Nat} (h : word < 2 ^ 32) :
    wordOfBytes (UInt8.ofNat word) (UInt8.ofNat (word / Nat.pow 2 8))
      (UInt8.ofNat (word / Nat.pow 2 16)) (UInt8.ofNat (word / Nat.pow 2 24)) = word := by
  simp only [wordOfBytes, UInt8.toNat_ofNat', Nat.pow_eq]
  omega

/-- Words are read back from their bytes. -/
lemma wordsOfBytes_flatMap {words : List Nat} (h : ∀ word ∈ words, word < 2 ^ 32) :
    wordsOfBytes (words.flatMap bytesOfWord) = words := by
  induction words with
  | nil => rfl
  | cons word rest ih =>
    rw [List.forall_mem_cons] at h
    rw [List.flatMap_cons, bytesOfWord, List.cons_append, List.cons_append, List.cons_append,
      List.cons_append, List.nil_append, wordsOfBytes, wordOfBytes_bytesOfWord h.1, ih h.2]

/-- A word has four bytes. -/
lemma length_flatMap_bytesOfWord (words : List Nat) :
    (words.flatMap bytesOfWord).length = 4 * words.length := by
  induction words with
  | nil => rfl
  | cons word rest ih =>
    rw [List.flatMap_cons, List.length_append, ih, List.length_cons, bytesOfWord]
    simp only [List.length_cons, List.length_nil]
    omega

/-! ### Fields of an instruction word -/

lemma Opcode.byte_lt (op : Opcode) : op.byte < 256 := by
  cases op <;> decide

lemma ValueType.nibble_lt (type : ValueType) : type.nibble < 16 := by
  cases type <;> decide

section

variable (op : Opcode) (first second : ValueType) (extra : UInt16)

lemma encodeWord_lt : encodeWord op first second extra < 2 ^ 32 := by
  have hop := op.byte_lt
  have hfirst := first.nibble_lt
  have hsecond := second.nibble_lt
  have hextra := extra.toNat_lt
  simp only [encodeWord, Nat.pow_eq]
  omega

/-- The top byte is that of the operation. -/
lemma encodeWord_div : encodeWord op first second extra / Nat.pow 2 24 = op.byte := by
  have hfirst := first.nibble_lt
  have hsecond := second.nibble_lt
  have hextra := extra.toNat_lt
  simp only [encodeWord, Nat.pow_eq]
  omega

/-- The first type stands in its nibble. -/
lemma encodeWord_firstType :
    encodeWord op first second extra / Nat.pow 2 16 % 16 = first.nibble := by
  have hfirst := first.nibble_lt
  have hextra := extra.toNat_lt
  simp only [encodeWord, Nat.pow_eq]
  omega

/-- The second type stands in its nibble. -/
lemma encodeWord_secondType :
    encodeWord op first second extra / Nat.pow 2 20 % 16 = second.nibble := by
  have hfirst := first.nibble_lt
  have hsecond := second.nibble_lt
  have hextra := extra.toNat_lt
  simp only [encodeWord, Nat.pow_eq]
  omega

/-- The low 16 bits are the extra ones. -/
lemma ofNat_encodeWord : UInt16.ofNat (encodeWord op first second extra) = extra := by
  have hextra := extra.toNat_lt
  rw [← UInt16.toNat_inj, UInt16.toNat_ofNat']
  simp only [encodeWord, Nat.pow_eq]
  omega

end

/-- The word of an operation alone has no types and no extra bits. -/
lemma encodeWord_double (op : Opcode) :
    op.byte * Nat.pow 2 24 = encodeWord op .double .double 0 := by
  simp [encodeWord, ValueType.nibble]

/-! ### Places of steps -/

namespace Assembler

/-- The code that some steps build. -/
def build (steps : List AssemblyStep) : Assembler :=
  steps.foldl step {}

/-- The steps that follow `code`, each with the place of its first word. -/
def placed (code : Assembler) : List AssemblyStep → List (Nat × AssemblyStep)
  | [] => []
  | s :: rest => (code.pc, s) :: (code.step s).placed rest

end Assembler

namespace AssemblyStep

/-- The name that a step binds. -/
def bound? : AssemblyStep → Option String
  | .label name => some name
  | _ => none

/-- The name that a step branches to. -/
def target? : AssemblyStep → Option String
  | .branch _ name => some name
  | _ => none

/-- Whether a step makes an instruction. -/
def makesInstruction : AssemblyStep → Bool
  | .label _ => false
  | _ => true

end AssemblyStep

/-- The place that a name stands for among some steps: that of its last binding, or else the end. -/
def lastPlace (steps : List AssemblyStep) (name : String) : Nat :=
  (((Assembler.placed {} steps).filter (·.2.bound? == some name)).getLast?.map Prod.fst).getD
    (Assembler.build steps).pc

namespace Assembler

variable {code : Assembler} {steps : List AssemblyStep}

lemma step_words (code : Assembler) (s : AssemblyStep) :
    (code.step s).words = code.words ++ s.emits := by
  cases s <;> simp [step, AssemblyStep.emits]

lemma step_pc (code : Assembler) (s : AssemblyStep) : (code.step s).pc = code.pc + s.emits.length := by
  rw [pc, step_words, List.length_append, pc]

lemma step_bound (code : Assembler) (s : AssemblyStep) :
    (code.step s).bound = (s.bound?.map (·, code.pc)).toList ++ code.bound := by
  cases s <;> rfl

lemma step_branches (code : Assembler) (s : AssemblyStep) :
    (code.step s).branches = code.branches ++ (s.target?.map (code.pc, ·)).toList := by
  cases s <;> simp [step, AssemblyStep.target?]

/-- The words of some steps stand one behind the other. -/
lemma words_foldl (code : Assembler) (steps : List AssemblyStep) :
    (steps.foldl step code).words = code.words ++ steps.flatMap AssemblyStep.emits := by
  induction steps generalizing code with
  | nil => simp
  | cons s rest ih => rw [List.foldl_cons, ih, step_words, List.flatMap_cons, List.append_assoc]

/-- The branches of some steps, in their order. -/
lemma branches_foldl (code : Assembler) (steps : List AssemblyStep) :
    (steps.foldl step code).branches =
      code.branches ++ (code.placed steps).filterMap fun p => p.2.target?.map (p.1, ·) := by
  induction steps generalizing code with
  | nil => simp [placed]
  | cons s rest ih =>
    rw [List.foldl_cons, ih, step_branches, placed, List.append_assoc, List.filterMap_cons]
    cases s.target? <;> rfl

/-- Looking up a name finds its last binding among some steps, or else one before them. -/
lemma lookup_foldl (code : Assembler) (steps : List AssemblyStep) (name : String) :
    (steps.foldl step code).bound.lookup name =
      (((code.placed steps).filter (·.2.bound? == some name)).getLast?.map Prod.fst).or
        (code.bound.lookup name) := by
  induction steps generalizing code with
  | nil => simp [placed]
  | cons s rest ih =>
    rw [List.foldl_cons, ih, step_bound, placed, List.filter_cons]
    by_cases hs : s.bound? = some name
    · simp only [hs, Option.map_some, Option.toList_some, List.singleton_append, List.lookup_cons,
        BEq.rfl, if_true, List.getLast?_cons]
      cases (((code.step s).placed rest).filter (·.2.bound? == some name)).getLast? <;> rfl
    · have hlookup : ((s.bound?.map (·, code.pc)).toList ++ code.bound).lookup name =
          code.bound.lookup name := by
        cases hbound : s.bound? with
        | none => rfl
        | some other =>
          have hne : (name == other) = false := by
            rw [beq_eq_false_iff_ne]
            rintro rfl
            exact hs hbound
          rw [Option.map_some, Option.toList_some, List.singleton_append, List.lookup_cons, hne]
      rw [hlookup]
      simp [hs]

/-- A name stands for the place of its last binding. -/
lemma place_build (steps : List AssemblyStep) : (build steps).place = lastPlace steps := by
  funext name
  rw [place, build, lookup_foldl, lastPlace, build]
  simp

/-- A placed step is one of the steps. -/
lemma mem_of_mem_placed {p : Nat × AssemblyStep} (h : p ∈ code.placed steps) : p.2 ∈ steps := by
  induction steps generalizing code with
  | nil => cases h
  | cons s rest ih =>
    rcases List.mem_cons.mp h with rfl | h
    · exact List.mem_cons_self
    · exact List.mem_cons_of_mem _ (ih h)

/-- The places of steps lie between the first one and the end. -/
lemma placed_bounds {p : Nat × AssemblyStep} (h : p ∈ code.placed steps) :
    code.pc ≤ p.1 ∧ p.1 ≤ (steps.foldl step code).pc := by
  induction steps generalizing code with
  | nil => cases h
  | cons s rest ih =>
    have hpc := step_pc code s
    have hend : (code.step s).pc ≤ (rest.foldl step (code.step s)).pc := by
      rw [pc, pc, words_foldl, List.length_append]
      exact Nat.le_add_right _ _
    rw [List.foldl_cons]
    rcases List.mem_cons.mp h with rfl | h
    · exact ⟨Nat.le_refl _, by omega⟩
    · have := ih h
      omega

/-- A step that makes an instruction stands at the place of each step, or the place is the end. -/
lemma exists_instruction_of_placed {p : Nat × AssemblyStep} (h : p ∈ code.placed steps) :
    p.1 = (steps.foldl step code).pc ∨
      ∃ q ∈ (code.placed steps).filter (·.2.makesInstruction), q.1 = p.1 := by
  -- The steps from the first one on, as the case that the places behind it come down to.
  have hfirst : ∀ (steps : List AssemblyStep) (code : Assembler),
      code.pc = (steps.foldl step code).pc ∨
        ∃ q ∈ (code.placed steps).filter (·.2.makesInstruction), q.1 = code.pc := by
    intro steps
    induction steps with
    | nil => exact fun code => .inl rfl
    | cons s rest ih =>
      intro code
      cases s with
      | label name =>
        have hsame : (code.step (.label name)).pc = code.pc := rfl
        simpa [placed, AssemblyStep.makesInstruction, hsame] using ih (code.step (.label name))
      | _ => exact .inr ⟨_, List.mem_filter.mpr ⟨List.mem_cons_self, rfl⟩, rfl⟩
  induction steps generalizing code with
  | nil => cases h
  | cons s rest ih =>
    rcases List.mem_cons.mp h with rfl | hrest
    · exact hfirst (s :: rest) code
    · refine (ih hrest).imp_right fun ⟨q, hq, hplace⟩ => ⟨q, ?_, hplace⟩
      have hq := List.mem_filter.mp hq
      exact List.mem_filter.mpr ⟨List.mem_cons_of_mem _ hq.1, hq.2⟩

end Assembler

/-- A name stands for the place of a step or for the end. -/
lemma lastPlace_cases (steps : List AssemblyStep) (name : String) :
    lastPlace steps name = (Assembler.build steps).pc ∨
      ∃ q ∈ (Assembler.placed {} steps).filter (·.2.makesInstruction), q.1 = lastPlace steps name := by
  rw [lastPlace]
  cases hlast : ((Assembler.placed {} steps).filter (·.2.bound? == some name)).getLast? with
  | none => exact .inl rfl
  | some p =>
    have hmem := (List.mem_filter.mp (List.mem_of_getLast? hlast)).1
    exact Assembler.exists_instruction_of_placed hmem

/-- No name stands for a place behind the end. -/
lemma lastPlace_le (steps : List AssemblyStep) (name : String) :
    lastPlace steps name ≤ (Assembler.build steps).pc := by
  rcases lastPlace_cases steps name with h | ⟨q, hq, h⟩
  · exact Nat.le_of_eq h
  · exact h ▸ (Assembler.placed_bounds (List.mem_filter.mp hq).1).2

/-! ### Finished words -/

/-- The words of a placed step once each name has its place. -/
def finalWords (place : String → Nat) : Nat × AssemblyStep → List Nat
  | (pc, .branch op name) =>
    [op.byte * Nat.pow 2 24 ||| (((place name : Int) - pc) % Int.pow 2 24).toNat]
  | (_, s) => s.emits

lemma length_finalWords (place : String → Nat) (pc : Nat) (s : AssemblyStep) :
    (finalWords place (pc, s)).length = s.emits.length := by
  cases s <;> simp only [finalWords, AssemblyStep.emits, List.length_singleton]

namespace Assembler

/-- Writing the distances of some steps behind `done` gives their finished words behind it. -/
lemma foldl_resolve (final : Assembler) (code : Assembler) (steps : List AssemblyStep)
    (done : List Nat) (hdone : done.length = code.pc) :
    ((code.placed steps).filterMap fun p => p.2.target?.map (p.1, ·)).foldl final.resolve
        (done ++ steps.flatMap AssemblyStep.emits) =
      done ++ (code.placed steps).flatMap (finalWords final.place) := by
  induction steps generalizing code done with
  | nil => rfl
  | cons s rest ih =>
    have hnext : (done ++ finalWords final.place (code.pc, s)).length = (code.step s).pc := by
      rw [List.length_append, length_finalWords, step_pc, hdone]
    have ih := ih (code.step s) (done ++ finalWords final.place (code.pc, s)) hnext
    rw [List.append_assoc, List.append_assoc] at ih
    rw [placed, List.filterMap_cons, List.flatMap_cons, List.flatMap_cons, ← ih]
    cases s with
    | branch op name =>
      have hmodify : final.resolve (done ++ (op.byte * Nat.pow 2 24 :: rest.flatMap AssemblyStep.emits))
          (code.pc, name) =
            done ++ (finalWords final.place (code.pc, .branch op name) ++
              rest.flatMap AssemblyStep.emits) := by
        rw [resolve, ← hdone, List.modify_eq_take_drop]
        simp [finalWords, hdone]
      rw [AssemblyStep.target?, Option.map_some, List.foldl_cons, AssemblyStep.emits,
        List.singleton_append, hmodify]
    | _ => rfl

/-- The finished bytes are those of the steps' words, one step behind the other. -/
lemma finish_eq (steps : List AssemblyStep) :
    (build steps).finish =
      ((placed {} steps).flatMap (finalWords (lastPlace steps))).flatMap bytesOfWord := by
  have hwords : (build steps).words = steps.flatMap AssemblyStep.emits := by
    rw [build, words_foldl, List.nil_append]
  have hbranches : (build steps).branches =
      (placed {} steps).filterMap fun p => p.2.target?.map (p.1, ·) := by
    rw [build, branches_foldl, List.nil_append]
  rw [finish, hwords, hbranches, ← place_build]
  exact congrArg (List.flatMap bytesOfWord) (foldl_resolve (build steps) {} steps [] rfl)

/-- The finished words take the places of the steps. -/
lemma length_flatMap_finalWords (place : String → Nat) (code : Assembler) (steps : List AssemblyStep) :
    code.pc + ((code.placed steps).flatMap (finalWords place)).length =
      (steps.foldl step code).pc := by
  induction steps generalizing code with
  | nil => rfl
  | cons s rest ih =>
    rw [List.foldl_cons, ← ih, step_pc, placed, List.flatMap_cons, List.length_append,
      length_finalWords, Nat.add_assoc]

end Assembler

/-! ### Reading the words of a step -/

/-- A branch is recorded at a label of its target. -/
lemma LabelTable.getElem?_offsets_addCaller (table : LabelTable) (target source : Nat) :
    (table.addCaller target source).2.offsets[(table.addCaller target source).1]? = some target := by
  let i : Instruction :=
    { offset := source, op := .b, operand := .label (table.addCaller target source).1, size := 1 }
  have hi : i.target? = some (table.addCaller target i.offset).1 := rfl
  exact (records_addCaller hi).2

/-- Whether an instruction of the operation is one word without a distance. -/
def Opcode.isSingle : Opcode → Bool
  | .push | .pop | .call => false
  | op => !op.isBranch

/-- The operand of an instruction of one word. -/
def Opcode.singleOperand (op : Opcode) (extra : UInt16) : Operand :=
  if op = .dup then .dup extra else .none

lemma Opcode.singleOperand_ne_label (op : Opcode) (extra : UInt16) (id : LabelId) :
    op.singleOperand extra ≠ .label id := by
  unfold singleOperand
  split <;> simp

namespace AssemblyStep

/-- The steps that build instructions as the machine has them: no loose words, only branches have
targets, and each index is one of the string table. -/
def IsPermitted (names : Names) : AssemblyStep → Prop
  | .word _ | .encoded _ _ _ _ => False
  | .plain op | .typed op _ _ | .binary op => op.isSingle = true
  | .branch op _ => op.isBranch = true
  | .pushString index | .pushVar _ index _ | .popVar _ index _ | .popVarSwapped _ index _
  | .call index _ => index < 2 ^ 21 ∧ index < names.strings.length
  | .label _ | .pushInt _ | .pushShort _ | .pushDouble _ | .dup _ | .scopeBreak => True

/-- The instruction that a step names, where `place` has the places of the names that are branched to. -/
def Makes (names : Names) (labels : LabelTable) (place : String → Nat) (i : Instruction) :
    AssemblyStep → Prop
  | .label _ | .word _ | .encoded _ _ _ _ => False
  | .plain op => i.op = op ∧ i.size = 1 ∧ i.operand = op.singleOperand 0
  | .typed op first second =>
    i.op = op ∧ i.size = 1 ∧ i.operand = op.singleOperand 0 ∧ i.firstType = first.nibble ∧
      i.secondType = second.nibble
  | .pushInt value => i.op = .push ∧ i.size = 2 ∧ i.operand = .constant (.int value)
  | .pushShort value => i.op = .push ∧ i.size = 1 ∧ i.operand = .constant (.short value)
  | .pushDouble bits => i.op = .push ∧ i.size = 3 ∧ i.operand = .constant (.double bits)
  | .pushString index => i.op = .push ∧ i.size = 2 ∧
      ∃ value, names.strings[index]? = some value ∧ i.operand = .constant (.string value)
  | .pushVar owner index array => i.op = .push ∧ i.size = 2 ∧
      ∃ name, names.strings[index]? = some name ∧ i.operand = .var { name, owner, array }
  | .popVar owner index array => i.op = .pop ∧ i.size = 2 ∧
      i.firstType = ValueType.var.nibble ∧
      ∃ name, names.strings[index]? = some name ∧ i.operand = .var { name, owner, array }
  | .popVarSwapped owner index array => i.op = .pop ∧ i.size = 2 ∧
      i.firstType = ValueType.int.nibble ∧
      ∃ name, names.strings[index]? = some name ∧ i.operand = .var { name, owner, array }
  | .binary op => i.op = op ∧ i.size = 1 ∧ i.operand = op.singleOperand 0
  | .dup flag => i.op = .dup ∧ i.size = 1 ∧ i.operand = .dup flag
  | .call index argc => i.op = .call ∧ i.size = 2 ∧
      ∃ name, names.strings[index]? = some name ∧ i.operand = .call name argc
  | .branch op name => i.op = op ∧ i.size = 1 ∧
      ∃ id, i.operand = .label id ∧ labels.offsets[id]? = some (place name)
  | .scopeBreak => i.op = .popEnv ∧ i.size = 1 ∧ i.operand = .none

/-- Recording more instructions keeps the label of a branch. -/
lemma Makes.records {names : Names} {labels later : LabelTable} {place : String → Nat}
    {i : Instruction} {is : List Instruction} {s : AssemblyStep} (h : s.Makes names labels place i)
    (hrecords : labels.Records is later) : s.Makes names later place i := by
  cases s with
  | branch op name =>
    obtain ⟨hop, hsize, id, hoperand, hget⟩ := h
    exact ⟨hop, hsize, id, hoperand, hrecords.getElem?_offsets hget⟩
  | _ => exact h

/-- An instruction that goes to a label is made by a branch to a name at the label. -/
lemma Makes.offset_of_target {names : Names} {labels : LabelTable} {place : String → Nat}
    {i : Instruction} {s : AssemblyStep} {id : LabelId} (h : s.Makes names labels place i)
    (hid : i.target? = some id) : ∃ name, labels.offsets[id]? = some (place name) := by
  rw [Instruction.target?_eq_some_iff] at hid
  cases s with
  | branch op name =>
    obtain ⟨-, -, other, hoperand, hget⟩ := h
    rw [hid, Operand.label.injEq] at hoperand
    exact ⟨name, hoperand ▸ hget⟩
  | label | word | encoded => exact h.elim
  | plain op | binary op => exact absurd (h.2.2.symm.trans hid) (op.singleOperand_ne_label 0 id)
  | typed op _ _ => exact absurd (h.2.2.1.symm.trans hid) (op.singleOperand_ne_label 0 id)
  | _ => simp [Makes, hid] at h

end AssemblyStep

namespace Instruction

variable {names : Names} {labels : LabelTable} {offset : Nat} {rest : List Nat}

/-- An instruction is read from its operation and its operand. -/
lemma decode_of_operand {word : Nat} {op : Opcode} {decoded : Decoded}
    (hop : word / Nat.pow 2 24 = op.byte)
    (h : decodeOperand names labels offset word op rest = .ok decoded) :
    decode names labels offset word rest =
      .ok ({ offset, op
             firstType := word / Nat.pow 2 16 % 16
             secondType := word / Nat.pow 2 20 % 16
             extra := UInt16.ofNat word
             operand := decoded.operand
             size := decoded.operandWords + 1 }, decoded.labels) := by
  unfold decode
  dsimp only
  rw [hop, Opcode.ofByte?_byte]
  dsimp only
  rw [h]
  rfl

/-- The same for a word whose fields are known. -/
lemma decode_encodeWord {op : Opcode} {first second : ValueType} {extra : UInt16} {decoded : Decoded}
    (h : decodeOperand names labels offset (encodeWord op first second extra) op rest = .ok decoded) :
    decode names labels offset (encodeWord op first second extra) rest =
      .ok ({ offset, op, firstType := first.nibble, secondType := second.nibble, extra
             operand := decoded.operand
             size := decoded.operandWords + 1 }, decoded.labels) := by
  rw [decode_of_operand (encodeWord_div op first second extra) h, encodeWord_firstType,
    encodeWord_secondType, ofNat_encodeWord]

/-- The operand of an instruction of one word. -/
lemma decodeOperand_single {op : Opcode} (h : op.isSingle = true) {first second : ValueType}
    {extra : UInt16} :
    decodeOperand names labels offset (encodeWord op first second extra) op rest =
      .ok { operand := op.singleOperand extra, labels } := by
  unfold decodeOperand
  rw [ofNat_encodeWord]
  cases op with
  | push | pop | call | b | bt | bf | pushEnv | popEnv => cases h
  | _ => rfl

/-- The operand of a `push` is read with the type and the extra bits of its word. -/
lemma decodeOperand_push {type second : ValueType} {extra : UInt16} {operand : Operand} {size : Nat}
    (h : pushOperand names offset type.nibble extra rest = .ok (operand, size)) :
    decodeOperand names labels offset (encodeWord .push type second extra) .push rest =
      .ok { operand, operandWords := size, labels } := by
  unfold decodeOperand
  dsimp only
  rw [encodeWord_firstType, ofNat_encodeWord, h]
  rfl

/-- An index of the string table is read back. -/
lemma nameAt_of_lt {index : Nat} (h : index < 2 ^ 21 ∧ index < names.strings.length) :
    nameAt names offset index = .ok names.strings[index] := by
  have hindex : indexOf index = index := Nat.mod_eq_of_lt h.1
  rw [nameAt, hindex, Names.string?, List.getElem?_eq_getElem h.2]

/-- The fields of a variable operand. -/
lemma variableWord_fields {index : Nat} (h : index < 2 ^ 21) (array : Bool) :
    variableWord index array < 2 ^ 32 ∧ indexOf (variableWord index array) = index ∧
      decide (variableWord index array < Nat.pow 2 31) = array := by
  have hor : 0xA0000000 ||| index = 0xA0000000 + index := by
    exact (Nat.two_pow_add_eq_or_of_lt h 0x500).symm
  cases array with
  | true =>
    simp only [variableWord, indexOf, if_true, Nat.pow_eq, decide_eq_true_eq]
    omega
  | false =>
    simp only [variableWord, indexOf, hor, Nat.pow_eq, decide_eq_false_iff_not, Bool.false_eq_true,
      if_false]
    omega

/-- A variable is read back. -/
lemma variableAt_variableWord {index : Nat} (h : index < 2 ^ 21 ∧ index < names.strings.length)
    (owner : Int16) (array : Bool) :
    variableAt names offset owner.toUInt16 (variableWord index array :: rest) =
      .ok { name := names.strings[index], owner, array } := by
  obtain ⟨-, hindex, harray⟩ := variableWord_fields h.1 array
  have hname : nameAt names offset (variableWord index array) = .ok names.strings[index] := by
    rw [nameAt, hindex, Names.string?, List.getElem?_eq_getElem h.2]
  simp only [variableAt, operandWord, hname, harray, bind, Except.bind, pure, Except.pure]
  rfl

/-- The operand of a `push` of an integer. -/
lemma pushOperand_int (value : Int32) {extra : UInt16} :
    pushOperand names offset ValueType.int.nibble extra (value.toUInt32.toNat :: rest) =
      .ok (.constant (.int value), 1) := by
  have hvalue : (UInt32.ofNat value.toUInt32.toNat).toInt32 = value := by simp
  refine Eq.trans ?_ (congrArg (fun v => Except.ok (Operand.constant (.int v), 1)) hvalue)
  rfl

/-- The operand of a `push` of a floating number is its bits, in two words. -/
lemma pushOperand_double (bits : UInt64) {extra : UInt16} :
    pushOperand names offset ValueType.double.nibble extra
        (bits.toNat % Nat.pow 2 32 :: bits.toNat / Nat.pow 2 32 :: rest) =
      .ok (.constant (.double bits), 2) := by
  have hbits : UInt64.ofNat (bits.toNat % Nat.pow 2 32 + Nat.pow 2 32 * (bits.toNat / Nat.pow 2 32)) =
      bits := by rw [Nat.mod_add_div, UInt64.ofNat_toNat]
  refine Eq.trans ?_ (congrArg (fun b => Except.ok (Operand.constant (.double b), 2)) hbits)
  rfl

/-- The operand of a `push` of a string of the table. -/
lemma pushOperand_string {index : Nat} (h : index < 2 ^ 21 ∧ index < names.strings.length)
    {extra : UInt16} :
    pushOperand names offset ValueType.string.nibble extra (index :: rest) =
      .ok (.constant (.string names.strings[index]), 1) := by
  have hname : nameAt names offset index = .ok names.strings[index] := nameAt_of_lt h
  have htype : ValueType.ofNibble? ValueType.string.nibble = some .string := rfl
  simp only [pushOperand, htype, operandWord, hname, bind, Except.bind, pure, Except.pure]

/-- The operand of a `push` of a variable. -/
lemma pushOperand_variable {index : Nat} (h : index < 2 ^ 21 ∧ index < names.strings.length)
    (owner : Int16) (array : Bool) :
    pushOperand names offset ValueType.var.nibble owner.toUInt16 (variableWord index array :: rest) =
      .ok (.var { name := names.strings[index], owner, array }, 1) := by
  have hvariable : variableAt names offset owner.toUInt16 (variableWord index array :: rest) =
      .ok { name := names.strings[index], owner, array } := variableAt_variableWord h owner array
  have htype : ValueType.ofNibble? ValueType.var.nibble = some .var := rfl
  simp only [pushOperand, htype, hvariable, bind, Except.bind, pure, Except.pure]

/-- A `pop` stores into the variable that its operand word names. -/
lemma decodeOperand_pop {first second : ValueType} {index : Nat}
    (h : index < 2 ^ 21 ∧ index < names.strings.length) (owner : Int16) (array : Bool) :
    decodeOperand names labels offset (encodeWord .pop first second owner.toUInt16) .pop
        (variableWord index array :: rest) =
      .ok { operand := .var { name := names.strings[index], owner, array }, operandWords := 1
            labels } := by
  unfold decodeOperand
  dsimp only
  rw [ofNat_encodeWord, variableAt_variableWord h]
  rfl

/-- A call names a function of the string table. -/
lemma decodeOperand_call {first second : ValueType} {index : Nat}
    (h : index < 2 ^ 21 ∧ index < names.strings.length) (argc : UInt16) :
    decodeOperand names labels offset (encodeWord .call first second argc) .call (index :: rest) =
      .ok { operand := .call names.strings[index] argc, operandWords := 1, labels } := by
  unfold decodeOperand
  dsimp only
  rw [ofNat_encodeWord, operandWord]
  simp only [bind, Except.bind, nameAt_of_lt h]
  rfl

/-- A distance that is written into the word of a branch is read back, if it is short.  The break out of
a scope has a longer one. -/
lemma branchWord_fields (op : Opcode) (distance : Int) (hlow : -2 ^ 20 < distance)
    (hhigh : distance < 2 ^ 20) :
    let word := op.byte * Nat.pow 2 24 ||| (distance % Int.pow 2 24).toNat
    word < 2 ^ 32 ∧ word / Nat.pow 2 24 = op.byte ∧ branchDistance word = distance ∧
      word ≠ scopeBreakWord := by
  have hfull : Int.pow 2 24 = 2 ^ 24 := rfl
  have hbits : (distance % Int.pow 2 24).toNat < 2 ^ 24 := by
    rw [hfull]
    omega
  have hor : op.byte * Nat.pow 2 24 ||| (distance % Int.pow 2 24).toNat =
      2 ^ 24 * op.byte + (distance % Int.pow 2 24).toNat := by
    rw [Nat.two_pow_add_eq_or_of_lt hbits, Nat.mul_comm]
  have hop := op.byte_lt
  intro word
  simp only [word, hor, branchDistance, scopeBreakWord, Nat.pow_eq, hfull] at hbits ⊢
  split <;> omega

/-- A branch goes to the label at its distance. -/
lemma decodeOperand_branch {op : Opcode} {word target : Nat} (hop : op.isBranch = true)
    (hword : word ≠ scopeBreakWord) (h : (offset : Int) + branchDistance word = target) :
    decodeOperand names labels offset word op rest =
      .ok { operand := .label (labels.addCaller target offset).1
            labels := (labels.addCaller target offset).2 } := by
  have hbranch : (op.isBranch && word != scopeBreakWord) = true := by simp [hop, hword]
  have h : (offset : Int) + branchDistance word = .ofNat target := h
  cases op with
  | b | bt | bf | pushEnv | popEnv =>
    unfold decodeOperand
    dsimp only
    rw [if_pos hbranch, h]
  | _ => cases hop

end Instruction

namespace AssemblyStep

variable {names : Names} {place : String → Nat} {pc : Nat} {s : AssemblyStep}

/-- The finished words of a step have 32 bits. -/
lemma finalWords_lt (hs : s.IsPermitted names) (hpc : pc < 2 ^ 20)
    (hplace : ∀ name, place name < 2 ^ 20) : ∀ word ∈ finalWords place (pc, s), word < 2 ^ 32 := by
  have hvariable : ∀ {index : Nat} {array : Bool}, index < 2 ^ 21 →
      variableWord index array < 2 ^ 32 :=
    fun h => (Instruction.variableWord_fields h _).1
  cases s with
  | label => simp [finalWords, emits]
  | word | encoded => exact hs.elim
  | plain op =>
    refine List.forall_mem_singleton.mpr ?_
    rw [encodeWord_double]
    exact encodeWord_lt op _ _ _
  | typed op _ _ | binary op => exact List.forall_mem_singleton.mpr (encodeWord_lt op _ _ _)
  | pushShort _ | dup _ => exact List.forall_mem_singleton.mpr (encodeWord_lt _ _ _ _)
  | pushInt value =>
    simp only [finalWords, emits, List.forall_mem_cons, encodeWord_lt, true_and]
    exact ⟨value.toUInt32.toNat_lt, by simp⟩
  | pushDouble bits =>
    have hbits := bits.toNat_lt
    simp only [finalWords, emits, List.forall_mem_cons, encodeWord_lt, true_and, Nat.pow_eq]
    exact ⟨by omega, by omega, by simp⟩
  | pushString index | call index _ =>
    have hindex : index < 2 ^ 32 := Nat.lt_trans hs.1 (by decide)
    simpa only [finalWords, emits, List.forall_mem_cons, encodeWord_lt, true_and] using
      ⟨hindex, by simp⟩
  | pushVar _ index _ | popVar _ index _ | popVarSwapped _ index _ =>
    simpa only [finalWords, emits, List.forall_mem_cons, encodeWord_lt, true_and] using
      ⟨hvariable hs.1, by simp⟩
  | branch op name =>
    have hname := hplace name
    have hfields := Instruction.branchWord_fields op ((place name : Int) - pc) (by omega) (by omega)
    exact List.forall_mem_singleton.mpr hfields.1
  | scopeBreak => exact List.forall_mem_singleton.mpr (by decide)

/-- The instruction of a step whose first word has known fields, once its operand is known. -/
lemma exists_of_encodeWord {labels : LabelTable} {rest operands : List Nat} {op : Opcode}
    {first second : ValueType} {extra : UInt16} {decoded : Instruction.Decoded}
    (hwords : finalWords place (pc, s) = encodeWord op first second extra :: operands)
    (hoperand : Instruction.decodeOperand names labels pc (encodeWord op first second extra) op
      (operands ++ rest) = .ok decoded)
    (hsize : decoded.operandWords = operands.length)
    (hmakes : s.Makes names decoded.labels place
      { offset := pc, op, firstType := first.nibble, secondType := second.nibble, extra
        operand := decoded.operand
        size := decoded.operandWords + 1 }) :
    ∃ word operands i later, finalWords place (pc, s) = word :: operands ∧
      Instruction.decode names labels pc word (operands ++ rest) = .ok (i, later) ∧
      i.size = operands.length + 1 ∧ s.Makes names later place i :=
  ⟨_, _, _, _, hwords, Instruction.decode_encodeWord hoperand, congrArg (· + 1) hsize, hmakes⟩

/-- The words of a step are read as the instruction that it names, whatever stands behind them. -/
lemma decode_finalWords (hs : s.IsPermitted names) (hmakes : s.makesInstruction = true)
    (hpc : pc < 2 ^ 20) (hplace : ∀ name, place name < 2 ^ 20) (labels : LabelTable)
    (rest : List Nat) :
    ∃ word operands i later, finalWords place (pc, s) = word :: operands ∧
      Instruction.decode names labels pc word (operands ++ rest) = .ok (i, later) ∧
      i.size = operands.length + 1 ∧ s.Makes names later place i := by
  cases s with
  | label => cases hmakes
  | word | encoded => exact hs.elim
  | plain op =>
    exact exists_of_encodeWord (congrArg ([·]) (encodeWord_double op))
      (Instruction.decodeOperand_single hs) rfl ⟨rfl, rfl, rfl⟩
  | typed op first second =>
    exact exists_of_encodeWord rfl (Instruction.decodeOperand_single hs) rfl ⟨rfl, rfl, rfl, rfl, rfl⟩
  | binary op =>
    exact exists_of_encodeWord rfl (Instruction.decodeOperand_single hs) rfl ⟨rfl, rfl, rfl⟩
  | dup flag =>
    exact exists_of_encodeWord rfl (Instruction.decodeOperand_single rfl) rfl ⟨rfl, rfl, rfl⟩
  | pushShort value =>
    exact exists_of_encodeWord rfl (Instruction.decodeOperand_push rfl) rfl ⟨rfl, rfl, rfl⟩
  | pushInt value =>
    exact exists_of_encodeWord rfl (Instruction.decodeOperand_push (Instruction.pushOperand_int value))
      rfl ⟨rfl, rfl, rfl⟩
  | pushDouble bits =>
    exact exists_of_encodeWord rfl
      (Instruction.decodeOperand_push (Instruction.pushOperand_double bits)) rfl ⟨rfl, rfl, rfl⟩
  | pushString index =>
    exact exists_of_encodeWord rfl (Instruction.decodeOperand_push (Instruction.pushOperand_string hs))
      rfl ⟨rfl, rfl, _, List.getElem?_eq_getElem hs.2, rfl⟩
  | pushVar owner index array =>
    exact exists_of_encodeWord rfl
      (Instruction.decodeOperand_push (Instruction.pushOperand_variable hs owner array)) rfl
      ⟨rfl, rfl, _, List.getElem?_eq_getElem hs.2, rfl⟩
  | popVar owner index array | popVarSwapped owner index array =>
    exact exists_of_encodeWord rfl (Instruction.decodeOperand_pop hs owner array) rfl
      ⟨rfl, rfl, rfl, _, List.getElem?_eq_getElem hs.2, rfl⟩
  | call index argc =>
    exact exists_of_encodeWord rfl (Instruction.decodeOperand_call hs argc) rfl
      ⟨rfl, rfl, _, List.getElem?_eq_getElem hs.2, rfl⟩
  | branch op name =>
    have hname := hplace name
    obtain ⟨-, hop, hdistance, hne⟩ := Instruction.branchWord_fields op ((place name : Int) - pc)
      (by omega) (by omega)
    have htarget : (pc : Int) + branchDistance
        (op.byte * Nat.pow 2 24 ||| (((place name : Int) - pc) % Int.pow 2 24).toNat) =
          place name := by
      rw [hdistance]
      omega
    exact ⟨_, [], _, _, rfl,
      Instruction.decode_of_operand hop (Instruction.decodeOperand_branch hs hne htarget), rfl, rfl,
      rfl, _, rfl, labels.getElem?_offsets_addCaller _ _⟩
  | scopeBreak => exact ⟨_, [], _, _, rfl, rfl, rfl, rfl, rfl, rfl⟩

end AssemblyStep

/-! ### The unit -/

section

variable {names : Names} {steps : List AssemblyStep} {place : String → Nat}

/-- The words of some steps are read as the instructions that the steps name, one for each step but the
labels. -/
lemma decodeWords_finalWords (hs : ∀ s ∈ steps, s.IsPermitted names)
    (hplace : ∀ name, place name < 2 ^ 20) (code : Assembler)
    (hend : (steps.foldl Assembler.step code).pc < 2 ^ 20) (labels : LabelTable) :
    ∃ read, decodeWords names labels code.pc ((code.placed steps).flatMap (finalWords place)) =
        .ok read ∧
      List.Forall₂ (fun p i => i.offset = p.1 ∧ p.2.Makes names read.labels place i)
        ((code.placed steps).filter (·.2.makesInstruction)) read.instructions := by
  induction steps generalizing code labels with
  | nil => exact ⟨⟨[], labels⟩, by rw [Assembler.placed, List.flatMap_nil, decodeWords], .nil⟩
  | cons s rest ih =>
    rw [List.forall_mem_cons] at hs
    rw [List.foldl_cons] at hend
    have hpc : code.pc < 2 ^ 20 := by
      have hfirst : (code.pc, s) ∈ code.placed (s :: rest) := List.mem_cons_self
      have := (Assembler.placed_bounds hfirst).2
      rw [List.foldl_cons] at this
      exact Nat.lt_of_le_of_lt this hend
    rw [Assembler.placed, List.flatMap_cons, List.filter_cons]
    cases hmakes : s.makesInstruction with
    | false =>
      obtain ⟨name, rfl⟩ : ∃ name, s = .label name := by
        cases s with
        | label name => exact ⟨name, rfl⟩
        | _ => cases hmakes
      exact ih hs.2 (code.step (.label name)) hend labels
    | true =>
      obtain ⟨word, operands, i, later, hwords, hdecode, hsize, hi⟩ := AssemblyStep.decode_finalWords
        hs.1 hmakes hpc hplace labels (((code.step s).placed rest).flatMap (finalWords place))
      obtain ⟨hoffset, -, -, -⟩ := Instruction.decode_obeys hdecode
      have hnext : (code.step s).pc = code.pc + i.size := by
        rw [Assembler.step_pc, ← length_finalWords place code.pc, hwords, hsize, List.length_cons]
      obtain ⟨read, hread, hmade⟩ := ih hs.2 (code.step s) hend later
      have hrecords := (isReadFrom_decodeWords hread).records
      rw [hnext] at hread
      refine ⟨{ read with instructions := i :: read.instructions }, ?_, ?_⟩
      · rw [hwords, List.cons_append, decodeWords, hdecode]
        have hdrop : (operands ++ ((code.step s).placed rest).flatMap (finalWords place)).drop
            (i.size - 1) = ((code.step s).placed rest).flatMap (finalWords place) := by
          rw [hsize, Nat.add_sub_cancel, List.drop_left]
        simp only [bind, Except.bind, hdrop, hread]
        rfl
      · exact .cons ⟨hoffset, hi.records hrecords⟩ hmade

/-- The places of labels are those of branch targets. -/
lemma exists_place_of_mem_offsets {read : Code} {words : List Nat}
    {placed : List (Nat × AssemblyStep)} (hread : IsReadFrom {} 0 words read)
    (hmade : List.Forall₂ (fun p i => i.offset = p.1 ∧ p.2.Makes names read.labels place i) placed
      read.instructions) :
    ∀ offset ∈ read.labels.offsets, ∃ name, offset = place name := by
  intro offset hoffset
  obtain ⟨id, hlt, hget⟩ := List.getElem_of_mem hoffset
  -- Labels are numbered by the branches that name them, so a branch goes to this one.
  have hnumbered := hread.records.numbered
  rw [LabelTable.offsets, List.length_map] at hlt
  have hid : id ∈ (read.instructions.filterMap Instruction.target?).eraseDups := by
    have hempty : (List.range (LabelTable.labels {}).length : List Nat) = [] := rfl
    rw [hempty, List.nil_append] at hnumbered
    rw [hnumbered]
    exact List.mem_range.mpr hlt
  obtain ⟨i, hi, htarget⟩ := List.mem_filterMap.mp (List.mem_eraseDups.mp hid)
  obtain ⟨k, hk, rfl⟩ := List.getElem_of_mem hi
  obtain ⟨-, hmakes⟩ := hmade.get (hmade.length_eq ▸ hk) hk
  obtain ⟨name, hname⟩ := hmakes.offset_of_target htarget
  refine ⟨name, ?_⟩
  rw [List.getElem?_eq_getElem (by simpa [LabelTable.offsets] using hlt), hget] at hname
  exact Option.some.inj hname

/-- The bytes of the finished code are those of its final words. -/
lemma wordsOfBytes_finish (hs : ∀ s ∈ steps, s.IsPermitted names)
    (hshort : (Assembler.build steps).pc < 2 ^ 20) :
    wordsOfBytes (Assembler.build steps).finish =
      (Assembler.placed {} steps).flatMap (finalWords (lastPlace steps)) := by
  rw [Assembler.finish_eq]
  refine wordsOfBytes_flatMap fun word hword => ?_
  obtain ⟨⟨pc, s⟩, hp, hword⟩ := List.mem_flatMap.mp hword
  exact AssemblyStep.finalWords_lt (hs s (Assembler.mem_of_mem_placed hp))
    (Nat.lt_of_le_of_lt (Assembler.placed_bounds hp).2 hshort)
    (fun name => Nat.lt_of_le_of_lt (lastPlace_le steps name) hshort) word hword

lemma length_finish (steps : List AssemblyStep) :
    (Assembler.build steps).finish.length = 4 * (Assembler.build steps).pc := by
  have hlength := Assembler.length_flatMap_finalWords (lastPlace steps) {} steps
  rw [show Assembler.pc {} = 0 from rfl, Nat.zero_add] at hlength
  rw [Assembler.finish_eq, length_flatMap_bytesOfWord, hlength]
  rfl

/-- Each label stands at an instruction that has been read or at the end, where a filler stands. -/
lemma mem_offsets_append_fillers {read : Code} {words : List Nat}
    (hread : IsReadFrom {} 0 words read)
    (hmade : List.Forall₂
      (fun p i => i.offset = p.1 ∧ p.2.Makes names read.labels (lastPlace steps) i)
      ((Assembler.placed {} steps).filter (·.2.makesInstruction)) read.instructions) :
    ∀ offset ∈ read.labels.offsets, offset ∈ (read.instructions ++
      fillers read.labels (Assembler.build steps).pc).map Instruction.offset := by
  intro offset hoffset
  rw [List.map_append, List.mem_append, mem_offsets_fillers]
  obtain ⟨name, rfl⟩ := exists_place_of_mem_offsets hread hmade offset hoffset
  rcases lastPlace_cases steps name with hend | ⟨q, hq, hplaceq⟩
  · exact .inr ⟨Nat.le_of_eq hend.symm, hoffset⟩
  · obtain ⟨k, hk, rfl⟩ := List.getElem_of_mem hq
    have hk' := hmade.length_eq ▸ hk
    refine .inl (List.mem_map.mpr ⟨_, List.getElem_mem hk', ?_⟩)
    rw [← hplaceq]
    exact (hmade.get hk hk').1

lemma strayLabel?_eq_none {code : Code}
    (h : ∀ offset ∈ code.labels.offsets, offset ∈ code.instructions.map Instruction.offset) :
    strayLabel? code = none := by
  refine List.find?_eq_none.mpr fun label hlabel => ?_
  obtain ⟨i, hi, hoffset⟩ := List.mem_map.mp (h _ (List.mem_map_of_mem hlabel))
  have hany : code.instructions.any (·.offset == label.offset) = true :=
    List.any_eq_true.mpr ⟨i, hi, beq_iff_eq.mpr hoffset⟩
  rw [hany]
  decide

/-- The fillers are the instructions that take no word. -/
lemma filter_append_fillers {read : Code} {words : List Nat} (hread : IsReadFrom {} 0 words read)
    (wordCount : Nat) :
    (read.instructions ++ fillers read.labels wordCount).filter (0 < ·.size) =
      read.instructions := by
  have hall : read.instructions.filter (0 < ·.size) = read.instructions :=
    List.filter_eq_self.mpr fun i hi => decide_eq_true (hread.tiles.size_pos i hi)
  have hnone : (fillers read.labels wordCount).filter (0 < ·.size) = [] :=
    List.filter_eq_nil_iff.mpr fun i hi => by
      have hsize : i.size = 0 := congrArg Instruction.size (eq_filler_of_mem hi)
      simp [hsize]
  rw [List.filter_append, hall, hnone, List.append_nil]

/-- Decoding undoes assembling.  The code that is built from permitted steps is decoded, and the
instructions that take words are those that the steps name, one for each step but the labels, at the
places of the steps.  Branches go to the last places of their targets. -/
theorem decode_finish (hs : ∀ s ∈ steps, s.IsPermitted names)
    (hshort : (Assembler.build steps).pc < 2 ^ 20) :
    ∃ code, decode names (Assembler.build steps).finish = .ok code ∧
      List.Forall₂
        (fun p i => i.offset = p.1 ∧ p.2.Makes names code.labels (lastPlace steps) i)
        ((Assembler.placed {} steps).filter (·.2.makesInstruction))
        (code.instructions.filter (0 < ·.size)) := by
  have hplace : ∀ name, lastPlace steps name < 2 ^ 20 := fun name =>
    Nat.lt_of_le_of_lt (lastPlace_le steps name) hshort
  obtain ⟨read, hread, hmade⟩ := decodeWords_finalWords hs hplace {} hshort {}
  rw [show Assembler.pc {} = 0 from rfl] at hread
  have hisRead := isReadFrom_decodeWords hread
  have hbytes := length_finish steps
  have hdiv : (Assembler.build steps).finish.length / 4 = (Assembler.build steps).pc := by
    rw [hbytes, Nat.mul_div_cancel_left _ (by decide)]
  have hstray : strayLabel? { read with
      instructions := read.instructions ++ fillers read.labels (Assembler.build steps).pc } = none :=
    strayLabel?_eq_none (mem_offsets_append_fillers hisRead hmade)
  refine ⟨{ read with
      instructions := read.instructions ++ fillers read.labels (Assembler.build steps).pc }, ?_, ?_⟩
  · unfold decode
    dsimp only
    rw [wordsOfBytes_finish hs hshort, hread, hdiv, if_neg (by rw [hbytes]; omega)]
    simp only [bind, Except.bind, pure, Except.pure, hstray]
  · rw [filter_append_fillers hisRead]
    exact hmade

end

/-- A branch to a name that is never bound and one to a name that is bound twice, among instructions of
one, two and three words. -/
def reboundSteps : List AssemblyStep :=
  [.label "again", .pushInt 7, .branch .bf "out", .pushDouble 4611686018427387904, .label "again",
    .pushVar (-1) 0 false, .popVarSwapped 0 0 true, .dup 1, .typed .conv .int .var, .scopeBreak,
    .branch .b "again"]

/-- The unbound name stands for the end, where there is a filler, and the other one for its second
place. -/
theorem reboundSteps_decode_finish :
    ∃ code, decode { strings := ["x"] } (Assembler.build reboundSteps).finish = .ok code ∧
      code.instructions.map Instruction.offset = [0, 2, 3, 6, 8, 10, 11, 12, 13, 14] ∧
      code.labels.offsets = [14, 6] ∧
      List.Forall₂
        (fun p i => i.offset = p.1 ∧
          p.2.Makes { strings := ["x"] } code.labels (lastPlace reboundSteps) i)
        ((Assembler.placed {} reboundSteps).filter (·.2.makesInstruction))
        (code.instructions.filter (0 < ·.size)) := by
  have hpermitted : ∀ s ∈ reboundSteps, s.IsPermitted { strings := ["x"] } := by
    simp [reboundSteps, AssemblyStep.IsPermitted, Opcode.isBranch, Opcode.isSingle]
  obtain ⟨code, hcode, hmade⟩ := decode_finish hpermitted (by decide)
  have hdecode : ∃ found, decode { strings := ["x"] } (Assembler.build reboundSteps).finish =
        .ok found ∧
      found.instructions.map Instruction.offset = [0, 2, 3, 6, 8, 10, 11, 12, 13, 14] ∧
      found.labels.offsets = [14, 6] := by
    rw [decode_eq_decodeBounded]
    exact ⟨_, rfl, rfl, rfl⟩
  obtain ⟨found, hfound, hoffsets, hlabels⟩ := hdecode
  obtain rfl := Except.ok.inj (hcode.symm.trans hfound)
  exact ⟨code, hcode, hoffsets, hlabels, hmade⟩

end Decompiler.Bytecode
