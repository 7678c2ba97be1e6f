import Decompiler.Bytecode.Constant
import Decompiler.Syntax.Operator

/-!
# Expressions

Expression trees built from stack code.  An expression may mention the values that lie on the stack
when its block is entered (`Expr.incoming`); joining two blocks substitutes them.

The module has the equality of expressions, substitution of incoming values, folding of negations
(`Expr.negate`, `Expr.simplifyNot`) and the left-leaning form of logical chains
(`Expr.leftAssociate`).
-/

namespace Decompiler

open Bytecode

/-- Which instance a variable belongs to. -/
inductive OwnerOf (ε : Type) where
  /-- A temporary that the decompiler made. -/
  | temporary
  /-- An instance known by name. -/
  | named (name : String)
  /-- An instance computed while the program runs. -/
  | computed (value : ε)
deriving DecidableEq, Repr

/-- A variable, with an index if it is an array element. -/
structure VariableOf (ε : Type) where
  name : String
  owner : OwnerOf ε
  index : Option ε
deriving DecidableEq, Repr

/-- An expression tree. -/
inductive Expr where
  | const (value : Constant)
  | var (v : VariableOf Expr)
  /-- A call with its arguments in source order. -/
  | call (name : String) (args : List Expr)
  | unary (op : UnaryOp) (operand : Expr)
  | binary (op : BinaryOp) (left right : Expr)
  /-- A value that lies on the stack when the block is entered; number zero is the lowest one. -/
  | incoming (position : Nat)
deriving Repr

/-- The owner of a variable of an expression. -/
abbrev Owner := OwnerOf Expr

/-- A variable of an expression. -/
abbrev Variable := VariableOf Expr

/-- A temporary of the decompiler. -/
def Variable.temporary (name : String) : Variable :=
  { name, owner := .temporary, index := none }

namespace OwnerOf

/-- The expressions an owner holds. -/
def children {ε : Type} : OwnerOf ε → List ε
  | .computed value => [value]
  | _ => []

end OwnerOf

/-- The expressions a variable holds: its computed owner, then its index. -/
def VariableOf.children {ε : Type} (v : VariableOf ε) : List ε :=
  v.owner.children ++ v.index.toList

namespace Expr

/-- A 32-bit integer literal. -/
def int (value : Int32) : Expr :=
  .const (.int value)

/-- Logical negation. -/
def not (operand : Expr) : Expr :=
  .unary .not operand

/-- The expressions directly inside an expression, from left to right. -/
def children : Expr → List Expr
  | .const _ | .incoming _ => []
  | .var v => v.children
  | .call _ args => args
  | .unary _ operand => [operand]
  | .binary _ left right => [left, right]

/-- Whether the expression is a literal of the given integral value. -/
def isLiteral (e : Expr) (value : Int) : Bool :=
  match e with
  | .const c => c.integer? == some value
  | _ => false

/-- The constant that the expression is, if it is one. -/
def constant? : Expr → Option Constant
  | .const c => some c
  | _ => none

/-! ### Equality -/

mutual

/-- Equality of trees, with the equality of numbers at the constants. -/
def same : Expr → Expr → Bool
  | .const a, .const b => a.same b
  | .var a, .var b => sameVariable a b
  | .call f as, .call g bs => f == g && sameList as bs
  | .unary f a, .unary g b => f == g && same a b
  | .binary f a a', .binary g b b' => f == g && same a b && same a' b'
  | .incoming i, .incoming j => i == j
  | _, _ => false
termination_by structural e => e

/-- Equality of variables. -/
def sameVariable : Variable → Variable → Bool
  | ⟨a, o, i⟩, ⟨b, p, j⟩ => a == b && sameOwner o p && sameOption i j
termination_by structural v => v

/-- Equality of owners. -/
def sameOwner : Owner → Owner → Bool
  | .temporary, .temporary => true
  | .named a, .named b => a == b
  | .computed a, .computed b => same a b
  | _, _ => false
termination_by structural o => o

/-- Equality of optional expressions. -/
def sameOption : Option Expr → Option Expr → Bool
  | none, none => true
  | some a, some b => same a b
  | _, _ => false
termination_by structural e => e

/-- Equality of lists of expressions. -/
def sameList : List Expr → List Expr → Bool
  | [], [] => true
  | a :: as, b :: bs => same a b && sameList as bs
  | _, _ => false
termination_by structural l => l

end

/-! ### Incoming values -/

mutual

/-- Whether an incoming value occurs in the expression. -/
def usesIncoming : Expr → Bool
  | .const _ => false
  | .var v => variableUsesIncoming v
  | .call _ args => anyUsesIncoming args
  | .unary _ operand => operand.usesIncoming
  | .binary _ left right => left.usesIncoming || right.usesIncoming
  | .incoming _ => true

/-- Whether an incoming value occurs in the variable. -/
def variableUsesIncoming : Variable → Bool
  | ⟨_, owner, index⟩ => ownerUsesIncoming owner || optionUsesIncoming index

/-- Whether an incoming value occurs in the owner. -/
def ownerUsesIncoming : Owner → Bool
  | .computed value => value.usesIncoming
  | .temporary | .named _ => false

/-- Whether an incoming value occurs in the optional expression. -/
def optionUsesIncoming : Option Expr → Bool
  | some e => e.usesIncoming
  | none => false

/-- Whether an incoming value occurs in one of the expressions. -/
def anyUsesIncoming : List Expr → Bool
  | [] => false
  | e :: rest => e.usesIncoming || anyUsesIncoming rest

end

mutual

/-- Puts `values[i]` for the incoming value `i`; incoming values past the end of the list stay. -/
def substitute (values : List Expr) : Expr → Expr
  | .const c => .const c
  | .var v => .var (substituteVariable values v)
  | .call name args => .call name (substituteList values args)
  | .unary op operand => .unary op (operand.substitute values)
  | .binary op left right => .binary op (left.substitute values) (right.substitute values)
  | .incoming i => (values[i]?).getD (.incoming i)

/-- Substitution in a variable. -/
def substituteVariable (values : List Expr) : Variable → Variable
  | ⟨name, owner, index⟩ => ⟨name, substituteOwner values owner, substituteOption values index⟩

/-- Substitution in an owner. -/
def substituteOwner (values : List Expr) : Owner → Owner
  | .temporary => .temporary
  | .named name => .named name
  | .computed value => .computed (value.substitute values)

/-- Substitution in an optional expression. -/
def substituteOption (values : List Expr) : Option Expr → Option Expr
  | none => none
  | some e => some (e.substitute values)

/-- Substitution in a list of expressions. -/
def substituteList (values : List Expr) : List Expr → List Expr
  | [] => []
  | e :: rest => e.substitute values :: substituteList values rest

end

/-! ### Negation -/

/-- Logical negation, with comparisons inverted and a double negation dropped. -/
def negate : Expr → Expr
  | .binary op left right =>
    match op.inverse? with
    | some inverse => .binary inverse left right
    | none => .not (.binary op left right)
  | .unary .not operand => operand
  | e => .not e

/-- The negation of an operand in which nothing is left to fold, if folding changes it. -/
def foldedNot? : Expr → Option Expr
  | .unary .not operand => some operand
  | .binary op left right => op.inverse?.map fun inverse => .binary inverse left right
  | _ => none

mutual

/-- Drops double negations and inverts negated comparisons everywhere, from the leaves up.  The flag
says whether anything was folded. -/
def simplifyNot : Expr → Expr × Bool
  | .const c => (.const c, false)
  | .var v =>
    let (v, changed) := simplifyNotVariable v
    (.var v, changed)
  | .call name args =>
    let (args, changed) := simplifyNotList args
    (.call name args, changed)
  | .unary op operand =>
    let (operand, changed) := operand.simplifyNot
    match op with
    | .neg => (.unary .neg operand, changed)
    | .not =>
      match foldedNot? operand with
      | some folded => (folded, true)
      | none => (.unary .not operand, changed)
  | .binary op left right =>
    let (left, changedLeft) := left.simplifyNot
    let (right, changedRight) := right.simplifyNot
    (.binary op left right, changedLeft || changedRight)
  | .incoming i => (.incoming i, false)

/-- Folding in a variable. -/
def simplifyNotVariable : Variable → Variable × Bool
  | ⟨name, owner, index⟩ =>
    let (owner, changedOwner) := simplifyNotOwner owner
    let (index, changedIndex) := simplifyNotOption index
    (⟨name, owner, index⟩, changedOwner || changedIndex)

/-- Folding in an owner. -/
def simplifyNotOwner : Owner → Owner × Bool
  | .temporary => (.temporary, false)
  | .named name => (.named name, false)
  | .computed value =>
    let (value, changed) := value.simplifyNot
    (.computed value, changed)

/-- Folding in an optional expression. -/
def simplifyNotOption : Option Expr → Option Expr × Bool
  | none => (none, false)
  | some e =>
    let (e, changed) := e.simplifyNot
    (some e, changed)

/-- Folding in a list of expressions. -/
def simplifyNotList : List Expr → List Expr × Bool
  | [] => ([], false)
  | e :: rest =>
    let (e, changedHead) := e.simplifyNot
    let (rest, changedRest) := simplifyNotList rest
    (e :: rest, changedHead || changedRest)

end

/-! ### Logical chains -/

/-- `left op right`, with a right operand that is a chain of the same operator appended link by
link. -/
def joinLeft (op : BinaryOp) (left : Expr) : Expr → Expr
  | .binary inner a b =>
    if inner = op then joinLeft op (joinLeft op left a) b
    else .binary op left (.binary inner a b)
  | right => .binary op left right

/-- Rebuilds chains of `&&` and of `||` so that they lean to the left: `a && (b && c)` becomes
`(a && b) && c`. -/
def leftAssociate : Expr → Expr
  | .binary op left right =>
    if op.isLogical then joinLeft op left.leftAssociate right.leftAssociate
    else .binary op left right
  | e => e

end Expr

end Decompiler
