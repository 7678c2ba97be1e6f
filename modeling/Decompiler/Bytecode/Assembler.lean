import Decompiler.Bytecode.Decode

/-!
# Assembling

Builds code word by word.  A branch names its target; a name that is never bound stands for the end
of the code, and a name that is bound twice keeps the later place.
-/

namespace Decompiler.Bytecode

/-- Code under construction. -/
structure Assembler where
  words : List Nat := []
  /-- Places of the names, the latest binding first. -/
  bound : List (String × Nat) := []
  /-- Branch words whose distance is still open, with the name they go to. -/
  branches : List (Nat × String) := []

/-- One step of building code. -/
inductive AssemblyStep where
  | label (name : String)
  | word (value : Nat)
  | plain (op : Opcode)
  | typed (op : Opcode) (first second : ValueType)
  | encoded (op : Opcode) (first second : ValueType) (extra : UInt16)
  | pushInt (value : Int32)
  | pushShort (value : Int16)
  | pushDouble (bits : UInt64)
  | pushString (index : Nat)
  | pushVar (owner : Int16) (name : Nat) (array : Bool)
  /-- Stores a value that lies below the index and the instance. -/
  | popVar (owner : Int16) (name : Nat) (array : Bool)
  /-- Stores a value that lies above the index and the instance. -/
  | popVarSwapped (owner : Int16) (name : Nat) (array : Bool)
  | binary (op : Opcode)
  | dup (flag : UInt16)
  | call (name : Nat) (argc : UInt16)
  | branch (op : Opcode) (target : String)
  | scopeBreak

/-- An instruction word. -/
def encodeWord (op : Opcode) (first second : ValueType) (extra : UInt16) : Nat :=
  op.byte * Nat.pow 2 24 + second.nibble * Nat.pow 2 20 + first.nibble * Nat.pow 2 16 + extra.toNat

/-- The operand word of a variable. -/
def variableWord (name : Nat) (array : Bool) : Nat :=
  if array then name else 0xA0000000 ||| name

/-- The four bytes of a word, the least significant byte first. -/
def bytesOfWord (word : Nat) : List UInt8 :=
  [UInt8.ofNat word, UInt8.ofNat (word / Nat.pow 2 8), UInt8.ofNat (word / Nat.pow 2 16),
    UInt8.ofNat (word / Nat.pow 2 24)]

namespace AssemblyStep

/-- The words that a step adds. -/
def emits : AssemblyStep → List Nat
  | .label _ => []
  | .word value => [value]
  | .plain op => [op.byte * Nat.pow 2 24]
  | .typed op first second => [encodeWord op first second 0]
  | .encoded op first second extra => [encodeWord op first second extra]
  | .pushInt value => [encodeWord .push .int .double 0, value.toUInt32.toNat]
  | .pushShort value => [encodeWord .push .short .double value.toUInt16]
  | .pushDouble bits =>
    [encodeWord .push .double .double 0, bits.toNat % Nat.pow 2 32, bits.toNat / Nat.pow 2 32]
  | .pushString index => [encodeWord .push .string .double 0, index]
  | .pushVar owner name array =>
    [encodeWord .push .var .double owner.toUInt16, variableWord name array]
  | .popVar owner name array => [encodeWord .pop .var .var owner.toUInt16, variableWord name array]
  | .popVarSwapped owner name array =>
    [encodeWord .pop .int .var owner.toUInt16, variableWord name array]
  | .binary op => [encodeWord op .var .var 0]
  | .dup flag => [encodeWord .dup .var .double flag]
  | .call name argc => [encodeWord .call .int .double argc, name]
  | .branch op _ => [op.byte * Nat.pow 2 24]
  | .scopeBreak => [scopeBreakWord]

end AssemblyStep

namespace Assembler

/-- The offset of the next word. -/
def pc (code : Assembler) : Nat :=
  code.words.length

/-- Adds one step to the code. -/
def step (code : Assembler) (step : AssemblyStep) : Assembler :=
  let words := code.words ++ step.emits
  match step with
  | .label name => { code with bound := (name, code.pc) :: code.bound }
  | .branch _ target => { code with words, branches := code.branches ++ [(code.pc, target)] }
  | _ => { code with words }

/-- The place a name stands for. -/
def place (code : Assembler) (name : String) : Nat :=
  (code.bound.lookup name).getD code.pc

/-- Writes the distance of a branch into its word. -/
def resolve (code : Assembler) (words : List Nat) (branch : Nat × String) : List Nat :=
  let distance : Int := code.place branch.2 - branch.1
  words.modify branch.1 fun word => word ||| (distance % Int.pow 2 24).toNat

/-- The finished bytes. -/
def finish (code : Assembler) : List UInt8 :=
  (code.branches.foldl code.resolve code.words).flatMap bytesOfWord

end Assembler

end Decompiler.Bytecode
