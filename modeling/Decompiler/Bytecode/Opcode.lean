/-!
# Operation codes

The top byte of an instruction word names its operation.  `Opcode` lists the operations of the
machine with their bytes and mnemonics, `ValueType` the operand types that the two type nibbles of a
word name.
-/

namespace Decompiler.Bytecode

/-- The operations of the stack machine. -/
inductive Opcode where
  /-- A filler word without effect. -/
  | badOp
  /-- Converts the top of the stack between types; expressions do not show it. -/
  | conv
  | mul
  | div
  /-- Integer division. -/
  | rem
  | mod
  | add
  | sub
  | and
  | or
  | xor
  | neg
  | not
  | shl
  | shr
  | slt
  | sle
  | seq
  | sne
  | sge
  | sgt
  /-- Stores the top of the stack into a variable. -/
  | pop
  /-- Copies the top value, or the top two values. -/
  | dup
  /-- Returns the top of the stack. -/
  | ret
  /-- Leaves the script without a value. -/
  | exit
  /-- Drops the top of the stack. -/
  | popz
  /-- Jumps. -/
  | b
  /-- Jumps when the popped value is true. -/
  | bt
  /-- Jumps when the popped value is false. -/
  | bf
  /-- Enters the instances of the popped value, or jumps when there are none. -/
  | pushEnv
  /-- Jumps back for the next instance, or leaves the scope. -/
  | popEnv
  /-- Pushes a constant or a variable. -/
  | push
  /-- Calls a function on the topmost values. -/
  | call
  /-- A debugger trap. -/
  | trap
deriving DecidableEq, Repr

namespace Opcode

/-- Every operation, in the order of the operation bytes. -/
def all : List Opcode :=
  [.badOp, .conv, .mul, .div, .rem, .mod, .add, .sub, .and, .or, .xor, .neg, .not, .shl, .shr, .slt,
    .sle, .seq, .sne, .sge, .sgt, .pop, .dup, .ret, .exit, .popz, .b, .bt, .bf, .pushEnv, .popEnv,
    .push, .call, .trap]

/-- The byte of an operation. -/
def byte : Opcode → Nat
  | .badOp => 0x00
  | .conv => 0x03
  | .mul => 0x04
  | .div => 0x05
  | .rem => 0x06
  | .mod => 0x07
  | .add => 0x08
  | .sub => 0x09
  | .and => 0x0a
  | .or => 0x0b
  | .xor => 0x0c
  | .neg => 0x0d
  | .not => 0x0e
  | .shl => 0x0f
  | .shr => 0x10
  | .slt => 0x11
  | .sle => 0x12
  | .seq => 0x13
  | .sne => 0x14
  | .sge => 0x15
  | .sgt => 0x16
  | .pop => 0x41
  | .dup => 0x82
  | .ret => 0x9d
  | .exit => 0x9e
  | .popz => 0x9f
  | .b => 0xb7
  | .bt => 0xb8
  | .bf => 0xb9
  | .pushEnv => 0xbb
  | .popEnv => 0xbc
  | .push => 0xc0
  | .call => 0xda
  | .trap => 0xff

/-- The operation of a byte, if there is one. -/
def ofByte? (byte : Nat) : Option Opcode :=
  all.find? (·.byte == byte)

/-- Whether the low 24 bits of the word are a branch distance. -/
def isBranch : Opcode → Bool
  | .b | .bt | .bf | .pushEnv | .popEnv => true
  | _ => false

/-- The word that names an operation in a listing. -/
def mnemonic : Opcode → String
  | .badOp => "badop"
  | .conv => "conv"
  | .mul => "mul"
  | .div => "div"
  | .rem => "rem"
  | .mod => "mod"
  | .add => "add"
  | .sub => "sub"
  | .and => "and"
  | .or => "or"
  | .xor => "xor"
  | .neg => "neg"
  | .not => "not"
  | .shl => "shl"
  | .shr => "shr"
  | .slt => "slt"
  | .sle => "sle"
  | .seq => "seq"
  | .sne => "sne"
  | .sge => "sge"
  | .sgt => "sgt"
  | .pop => "pop"
  | .dup => "dup"
  | .ret => "ret"
  | .exit => "exit"
  | .popz => "popz"
  | .b => "b"
  | .bt => "bt"
  | .bf => "bf"
  | .pushEnv => "pushenv"
  | .popEnv => "popenv"
  | .push => "push"
  | .call => "call"
  | .trap => "break"

/-- The name of an operation in messages about it. -/
def title : Opcode → String
  | .badOp => "BadOp"
  | .conv => "Conv"
  | .mul => "Mul"
  | .div => "Div"
  | .rem => "Rem"
  | .mod => "Mod"
  | .add => "Add"
  | .sub => "Sub"
  | .and => "And"
  | .or => "Or"
  | .xor => "Xor"
  | .neg => "Neg"
  | .not => "Not"
  | .shl => "Shl"
  | .shr => "Shr"
  | .slt => "Slt"
  | .sle => "Sle"
  | .seq => "Seq"
  | .sne => "Sne"
  | .sge => "Sge"
  | .sgt => "Sgt"
  | .pop => "Pop"
  | .dup => "Dup"
  | .ret => "Ret"
  | .exit => "Exit"
  | .popz => "Popz"
  | .b => "B"
  | .bt => "Bt"
  | .bf => "Bf"
  | .pushEnv => "PushEnv"
  | .popEnv => "PopEnv"
  | .push => "Push"
  | .call => "Call"
  | .trap => "Break"

/-- No two operations share a byte, so reading a byte finds the operation written with it. -/
theorem ofByte?_byte (op : Opcode) : ofByte? op.byte = some op := by
  cases op <;> rfl

end Opcode

/-- The operand types that a type nibble can name. -/
inductive ValueType where
  | double
  | float
  | int
  | long
  | bool
  | var
  | string
  | inst
  | short
deriving DecidableEq, Repr

namespace ValueType

/-- Every operand type, in the order of the nibbles. -/
def all : List ValueType :=
  [.double, .float, .int, .long, .bool, .var, .string, .inst, .short]

/-- The nibble of a type. -/
def nibble : ValueType → Nat
  | .double => 0
  | .float => 1
  | .int => 2
  | .long => 3
  | .bool => 4
  | .var => 5
  | .string => 6
  | .inst => 7
  | .short => 15

/-- The type of a nibble, if there is one. -/
def ofNibble? (nibble : Nat) : Option ValueType :=
  all.find? (·.nibble == nibble)

/-- The letter after the point of a mnemonic, as in `push.i` or `pop.v.v`. -/
def suffix : ValueType → Char
  | .double => 'd'
  | .float => 'f'
  | .int => 'i'
  | .long => 'l'
  | .bool => 'b'
  | .var => 'v'
  | .string => 's'
  | .inst => 'n'
  | .short => 'e'

/-- The name of a type in tables. -/
def title : ValueType → String
  | .double => "Double"
  | .float => "Float"
  | .int => "Int"
  | .long => "Long"
  | .bool => "Bool"
  | .var => "Var"
  | .string => "String"
  | .inst => "Instance"
  | .short => "Short"

/-- No two types share a nibble. -/
theorem ofNibble?_nibble (type : ValueType) : ofNibble? type.nibble = some type := by
  cases type <;> rfl

end ValueType

end Decompiler.Bytecode
