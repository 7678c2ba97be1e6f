import Decompiler.Bytecode.Instruction
import Decompiler.Order
import Decompiler.Text

/-!
# Decoding

`decode` reads a byte string as a sequence of instructions.  The size of an instruction depends on
its operation and operand type, so the first fault ends the reading.  A branch target becomes a
label; a label at or past the end of the code gets an `exit` of no size, and a label inside an
instruction is a fault.
-/

namespace Decompiler.Bytecode

/-- Why a byte string is not code. -/
inductive DecodeError where
  | misaligned (length : Nat)
  | outOfRange (start stop length : Nat)
  | truncated (offset : Nat)
  | unknownOpcode (offset byte : Nat)
  | unsupportedType (offset : Nat) (op : Opcode) (nibble : Nat)
  | stringIndex (offset index : Nat)
  | branchTarget (offset : Nat) (target : Int)
deriving DecidableEq, Repr

/-- A byte in base sixteen with two digits. -/
def hexByte (byte : Nat) : String :=
  String.ofList [(byte / 16).digitChar, (byte % 16).digitChar]

/-- The text of a decoding fault. -/
def DecodeError.message : DecodeError → String
  | .misaligned length => "code length " ++ toString length ++ " is not a multiple of 4"
  | .outOfRange start stop length =>
    "byte range " ++ toString start ++ ".." ++ toString stop ++ " is outside a " ++ toString length
      ++ "-byte buffer"
  | .truncated offset => "truncated instruction at offset " ++ toString offset
  | .unknownOpcode offset byte =>
    "unknown opcode 0x" ++ hexByte byte ++ " at offset " ++ toString offset
  | .unsupportedType offset op nibble =>
    "unsupported operand type " ++ toString nibble ++ " for `" ++ op.mnemonic ++ "` at offset "
      ++ toString offset
  | .stringIndex offset index =>
    "string index " ++ toString index ++ " out of range at offset " ++ toString offset
  | .branchTarget offset target =>
    "branch at offset " ++ toString offset ++ " targets " ++ toString target
      ++ ", which is not an instruction boundary"

/-- Decoded code: the instructions in the order of their offsets, and the labels of the branches. -/
structure Code where
  instructions : List Instruction
  labels : LabelTable
deriving DecidableEq, Repr

/-- The bits of a string or variable operand that are an index. -/
def indexOf (word : Nat) : Nat :=
  word % Nat.pow 2 21

/-- The word of the `popenv` that breaks out of a scope; it has no target. -/
def scopeBreakWord : Nat := 0xBCF00000

/-- The number that four bytes stand for, the least significant byte first. -/
def wordOfBytes (a b c d : UInt8) : Nat :=
  a.toNat + Nat.pow 2 8 * b.toNat + Nat.pow 2 16 * c.toNat + Nat.pow 2 24 * d.toNat

/-- The words of a byte string; up to three bytes at its end are dropped. -/
def wordsOfBytes : List UInt8 → List Nat
  | a :: b :: c :: d :: rest => wordOfBytes a b c d :: wordsOfBytes rest
  | _ => []

/-- The signed distance in the low 24 bits of a branch word. -/
def branchDistance (word : Nat) : Int :=
  let raw : Nat := word % Nat.pow 2 24
  if raw < Nat.pow 2 23 then (raw : Int) else (raw : Int) - Int.pow 2 24

namespace Instruction

/-- What stands after an operation word: the operand, its size in words, and the labels with those
of this instruction. -/
structure Decoded where
  operand : Operand
  operandWords : Nat := 0
  labels : LabelTable

/-- A name of the string table. -/
def nameAt (names : Names) (offset word : Nat) : Except DecodeError String :=
  match names.string? (indexOf word) with
  | some name => .ok name
  | none => .error (.stringIndex offset (indexOf word))

/-- The first operand word. -/
def operandWord (offset : Nat) : List Nat → Except DecodeError Nat
  | word :: _ => .ok word
  | [] => .error (.truncated offset)

/-- The first two operand words as one number of 64 bits. -/
def operandPair (offset : Nat) : List Nat → Except DecodeError Nat
  | low :: high :: _ => .ok (low + Nat.pow 2 32 * high)
  | _ => .error (.truncated offset)

/-- The variable that an operand word names.  The top bit is clear when an array index is on the
stack. -/
def variableAt (names : Names) (offset : Nat) (extra : UInt16) (rest : List Nat) :
    Except DecodeError VarRef := do
  let word ← operandWord offset rest
  let name ← nameAt names offset word
  return { name, owner := extra.toInt16, array := word < Nat.pow 2 31 }

/-- The operand of a `push` and its size in words. -/
def pushOperand (names : Names) (offset nibble : Nat) (extra : UInt16) (rest : List Nat) :
    Except DecodeError (Operand × Nat) :=
  match ValueType.ofNibble? nibble with
  | none | some .inst => .error (.unsupportedType offset .push nibble)
  | some .double => do
    let bits ← operandPair offset rest
    return (.constant (.double (UInt64.ofNat bits)), 2)
  | some .long => do
    let bits ← operandPair offset rest
    return (.constant (.long (UInt64.ofNat bits).toInt64), 2)
  | some .float => do
    let bits ← operandWord offset rest
    return (.constant (.float (UInt32.ofNat bits)), 1)
  | some .int => do
    let bits ← operandWord offset rest
    return (.constant (.int (UInt32.ofNat bits).toInt32), 1)
  | some .bool => do
    let bits ← operandWord offset rest
    return (.constant (.bool (bits != 0)), 1)
  | some .string => do
    let word ← operandWord offset rest
    let value ← nameAt names offset word
    return (.constant (.string value), 1)
  | some .var => do
    let ref ← variableAt names offset extra rest
    return (.var ref, 1)
  | some .short => .ok (.constant (.short extra.toInt16), 0)

/-- The operand of the operation `op` in the word at `offset`, read from the words after it. -/
def decodeOperand (names : Names) (labels : LabelTable) (offset word : Nat) (op : Opcode)
    (rest : List Nat) : Except DecodeError Decoded :=
  let extra := UInt16.ofNat word
  match op with
  | .push => do
    let (operand, operandWords) ← pushOperand names offset (word / Nat.pow 2 16 % 16) extra rest
    return { operand, operandWords, labels }
  | .pop => do
    let ref ← variableAt names offset extra rest
    return { operand := .var ref, operandWords := 1, labels }
  | .call => do
    let index ← operandWord offset rest
    let name ← nameAt names offset index
    return { operand := .call name extra, operandWords := 1, labels }
  | .dup => .ok { operand := .dup extra, labels }
  | op =>
    if op.isBranch && word != scopeBreakWord then
      match offset + branchDistance word with
      | .ofNat target =>
        let (id, labels) := labels.addCaller target offset
        .ok { operand := .label id, labels }
      | target => .error (.branchTarget offset target)
    else .ok { operand := .none, labels }

/-- Reads the instruction whose operation word is `word`, with `rest` the words after it. -/
def decode (names : Names) (labels : LabelTable) (offset word : Nat) (rest : List Nat) :
    Except DecodeError (Instruction × LabelTable) := do
  let byte := word / Nat.pow 2 24
  let some op := Opcode.ofByte? byte | .error (.unknownOpcode offset byte)
  let decoded ← decodeOperand names labels offset word op rest
  return ({ offset, op
            firstType := word / Nat.pow 2 16 % 16
            secondType := word / Nat.pow 2 20 % 16
            extra := UInt16.ofNat word
            operand := decoded.operand
            size := decoded.operandWords + 1 }, decoded.labels)

end Instruction

/-- Reads instructions from the words at `offset` on until none are left. -/
def decodeWords (names : Names) (labels : LabelTable) (offset : Nat) (words : List Nat) :
    Except DecodeError Code :=
  match words with
  | [] => .ok ⟨[], labels⟩
  | word :: rest => do
    let (instruction, labels) ← Instruction.decode names labels offset word rest
    let code ← decodeWords names labels (offset + instruction.size)
      (rest.drop (instruction.size - 1))
    return { code with instructions := instruction :: code.instructions }
termination_by words.length
decreasing_by simp only [List.length_drop, List.length_cons]; omega

/-- One `exit` of no size at each label at or past the end of the code. -/
def fillers (labels : LabelTable) (stop : Nat) : List Instruction :=
  (ascending ((labels.labels.map Label.offset).filter (stop ≤ ·))).map Instruction.filler

/-- The first label that lies inside an instruction. -/
def strayLabel? (code : Code) : Option Label :=
  code.labels.labels.find? fun label => !code.instructions.any (·.offset == label.offset)

/-- Decodes a unit of code. -/
def decode (names : Names) (bytes : List UInt8) : Except DecodeError Code := do
  if bytes.length % 4 ≠ 0 then throw (.misaligned bytes.length)
  let code ← decodeWords names {} 0 (wordsOfBytes bytes)
  let code :=
    { code with instructions := code.instructions ++ fillers code.labels (bytes.length / 4) }
  match strayLabel? code with
  | some label => throw (.branchTarget (label.callers.headD 0) label.offset)
  | none => return code

/-- Decodes the bytes `start ≤ i < stop` of a larger buffer. -/
def decodeRange (names : Names) (bytes : List UInt8) (start stop : Nat) :
    Except DecodeError Code :=
  if start ≤ stop ∧ stop ≤ bytes.length then decode names ((bytes.take stop).drop start)
  else .error (.outOfRange start stop bytes.length)

namespace Code

/-- The instruction that a label stands at. -/
def instructionAt? (code : Code) (id : LabelId) : Option Instruction := do
  let label ← code.labels.get? id
  code.instructions.find? (·.offset == label.offset)

/-- The lines of one instruction in a listing: its label, if it has one, and the instruction. -/
def instructionLines (code : Code) (names : Names) (instruction : Instruction) : String :=
  let header :=
    match code.labels.at? instruction.offset with
    | some id => Instruction.labelName code.labels id ++ ":\n"
    | none => ""
  header ++ Text.alignRight 6 (toString instruction.offset) ++ "  "
    ++ instruction.text code.labels names ++ "\n"

/-- The listing of the code. -/
def listing (code : Code) (names : Names) : String :=
  String.join (code.instructions.map (code.instructionLines names))

end Code

end Decompiler.Bytecode
