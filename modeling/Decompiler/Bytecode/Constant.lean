import Decompiler.Bytecode.Opcode
import Decompiler.Decimal.Text

/-!
# Constants

The literals of the machine and what the rest of the library asks of them: equality as the machine's
numbers have it (`Constant.same`), integral value (`Constant.integer?`), the order in which the
cases of a switch are listed (`Constant.caseOrder`) and the text in a program or listing
(`Constant.text`).
-/

namespace Decompiler.Bytecode

open Decompiler.Decimal

/-- A literal operand.  Floating literals are bit patterns. -/
inductive Constant where
  | double (bits : UInt64)
  | float (bits : UInt32)
  | int (value : Int32)
  | long (value : Int64)
  /-- A 16-bit literal inside the instruction word. -/
  | short (value : Int16)
  | bool (value : Bool)
  | string (value : String)
deriving DecidableEq, Repr

/-- A character of a double-quoted literal. -/
def escapedChar : Char → List Char
  | '"' => ['\\', '"']
  | '\\' => ['\\', '\\']
  | '\n' => ['\\', 'n']
  | '\r' => ['\\', 'r']
  | '\t' => ['\\', 't']
  | c => [c]

/-- The inside of a double-quoted literal. -/
def escaped (s : String) : String :=
  String.ofList (s.toList.flatMap escapedChar)

namespace Constant

/-- The operand type a constant is pushed with. -/
def type : Constant → ValueType
  | .double _ => .double
  | .float _ => .float
  | .int _ => .int
  | .long _ => .long
  | .short _ => .short
  | .bool _ => .bool
  | .string _ => .string

/-- The exact number of a numeric or Boolean constant.  A 64-bit integer is first rounded to the
nearest 64-bit floating number, which is how the machine compares it. -/
def number? : Constant → Option BinaryValue
  | .double bits => some (binary64.value bits.toNat)
  | .float bits => some (binary32.value bits.toNat)
  | .int value => some (.finite (nearestBinary64 value.toInt))
  | .long value => some (.finite (nearestBinary64 value.toInt))
  | .short value => some (.finite (nearestBinary64 value.toInt))
  | .bool value => some (.finite (nearestBinary64 (if value then 1 else 0)))
  | .string _ => none

/-- An integer moved to the nearer end of the 64-bit range if it lies outside. -/
def clampToLong (n : Int) : Int :=
  max (-(Int.pow 2 63)) (min n (Int.pow 2 63 - 1))

/-- The integral value of a floating number, if it is finite and has no fraction. -/
def integralValue? : BinaryValue → Option Int
  | .finite x => if x.isIntegral then some (clampToLong x.truncate) else none
  | _ => none

/-- Integral value of a numeric or Boolean constant. -/
def integer? : Constant → Option Int
  | .double bits => integralValue? (binary64.value bits.toNat)
  | .float bits => integralValue? (binary32.value bits.toNat)
  | .int value => some value.toInt
  | .long value => some value.toInt
  | .short value => some value.toInt
  | .bool value => some (if value then 1 else 0)
  | .string _ => none

/-- Whether two bit patterns stand for equal numbers: the two zeros are equal, and a pattern that is
no number differs from itself. -/
def sameNumber (f : BinaryFormat) (a b : Nat) : Bool :=
  (f.value a).compare? (f.value b) == some .eq

/-- Equality of constants of one type; constants of different types differ. -/
def same : Constant → Constant → Bool
  | .double a, .double b => sameNumber binary64 a.toNat b.toNat
  | .float a, .float b => sameNumber binary32 a.toNat b.toNat
  | .int a, .int b => a == b
  | .long a, .long b => a == b
  | .short a, .short b => a == b
  | .bool a, .bool b => a == b
  | .string a, .string b => a == b
  | _, _ => false

/-- The order of switch cases: numbers ascending, then strings by code points.  A pattern that is no
number is level with every number. -/
def caseOrder (a b : Constant) : Ordering :=
  match a.number?, b.number? with
  | some x, some y => (x.compare? y).getD .eq
  | some _, none => .lt
  | none, some _ => .gt
  | none, none =>
    match a, b with
    | .string s, .string t => compare s t
    | _, _ => .eq

/-- The text of a literal. -/
def text : Constant → String
  | .double bits => binary64.text bits.toNat
  | .float bits => binary32.text bits.toNat
  | .int value => toString value.toInt
  | .long value => toString value.toInt
  | .short value => toString value.toInt
  | .bool value => if value then "true" else "false"
  | .string value => "\"" ++ escaped value ++ "\""

end Constant

end Decompiler.Bytecode
