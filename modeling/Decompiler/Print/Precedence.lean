import Decompiler.Options
import Decompiler.Syntax.Expr

/-!
# Precedence

How tightly the operators bind in the two output languages, and how they are written.  All infix
operators lean to the left, and prefix operators bind tighter than any of them.
-/

namespace Decompiler.Print

/-- The level of prefix operators. -/
def unaryLevel : Nat := 12

/-- The level of member access and indexing. -/
def postfixLevel : Nat := 15

/-- The level of what never needs parentheses. -/
def atomLevel : Nat := 20

/-- The level of an infix operator; higher levels bind tighter.  C-like output has equality below
the other comparisons and both above the bitwise operators; Lua has one level for all comparisons,
below them. -/
def binaryLevel (dialect : Dialect) : BinaryOp → Nat
  | .or => 1
  | .and => 2
  | .eq | .ne =>
    match dialect with
    | .c => 7
    | .lua => 3
  | .lt | .le | .ge | .gt =>
    match dialect with
    | .c => 8
    | .lua => 3
  | .bitOr => 4
  | .bitXor => 5
  | .bitAnd => 6
  | .shl | .shr => 9
  | .add | .sub => 10
  | .mul | .div | .rem | .mod => 11

/-- Whether the text of a constant starts with a minus sign. -/
def isSigned (value : Bytecode.Constant) : Bool :=
  value.text.toList.head? == some '-'

/-- The level of an expression.  A constant that is written with a minus sign counts as a prefix
operator. -/
def level (dialect : Dialect) : Expr → Nat
  | .binary op _ _ => binaryLevel dialect op
  | .unary _ _ => unaryLevel
  | .const value => if isSigned value then unaryLevel else atomLevel
  | _ => atomLevel

/-- How an infix operator is written. -/
def binaryText (dialect : Dialect) : BinaryOp → String
  | .mul => "*"
  | .div => "/"
  | .rem =>
    match dialect with
    | .c => "div"
    | .lua => "//"
  | .mod => "%"
  | .add => "+"
  | .sub => "-"
  | .bitAnd => "&"
  | .bitOr => "|"
  | .bitXor =>
    match dialect with
    | .c => "^"
    | .lua => "~"
  | .shl => "<<"
  | .shr => ">>"
  | .lt => "<"
  | .le => "<="
  | .eq => "=="
  | .ne =>
    match dialect with
    | .c => "!="
    | .lua => "~="
  | .ge => ">="
  | .gt => ">"
  | .and =>
    match dialect with
    | .c => "&&"
    | .lua => "and"
  | .or =>
    match dialect with
    | .c => "||"
    | .lua => "or"

/-- How a prefix operator is written. -/
def unaryText (dialect : Dialect) : UnaryOp → String
  | .not =>
    match dialect with
    | .c => "!"
    | .lua => "not "
  | .neg => "-"

end Decompiler.Print
