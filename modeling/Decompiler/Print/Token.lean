import Decompiler.Print.Precedence

/-!
# Expressions as tokens

An expression is printed in two steps: as a list of tokens, with parentheses where the grammar needs
them, and then as the text of the tokens.
-/

namespace Decompiler.Print

open Bytecode

/-- A token of an expression. -/
inductive Token where
  /-- A name. -/
  | word (name : String)
  | literal (value : Constant)
  | unary (op : UnaryOp)
  | binary (op : BinaryOp)
  | dot
  | comma
  | openParen
  | closeParen
  | openBracket
  | closeBracket
deriving DecidableEq, Repr

/-- The text of a token.  Infix operators stand between blanks. -/
def Token.text (dialect : Dialect) : Token → String
  | .word name => name
  | .literal value => value.text
  | .unary op => unaryText dialect op
  | .binary op => " " ++ binaryText dialect op ++ " "
  | .dot => "."
  | .comma => ", "
  | .openParen => "("
  | .closeParen => ")"
  | .openBracket => "["
  | .closeBracket => "]"

/-- The text of a list of tokens. -/
def tokensText (dialect : Dialect) (tokens : List Token) : String :=
  String.join (tokens.map (Token.text dialect))

/-- Tokens with parentheses around them, if they need them. -/
def enclose (needed : Bool) (tokens : List Token) : List Token :=
  if needed then .openParen :: tokens ++ [.closeParen] else tokens

/-- Whether variables of an instance are written without its name. -/
def isImplicit (name : String) : Bool :=
  name == "self" || name == "local"

/-- Whether a computed owner needs parentheses.  A number would read as one with a fraction. -/
def ownerNeedsParens (dialect : Dialect) : Expr → Bool
  | .const _ => true
  | e => level dialect e < postfixLevel

mutual

/-- The tokens of an expression.  An operand of a prefix operator that is itself written with one
has parentheses, since two minus signs would start a comment; a right operand of the same level has
them, since infix operators lean to the left. -/
def exprTokens (dialect : Dialect) : Expr → List Token
  | .const value => [.literal value]
  | .var v => variableTokens dialect v
  | .call name args => .word name :: .openParen :: argTokens dialect args ++ [.closeParen]
  | .unary op operand =>
    .unary op :: enclose (level dialect operand ≤ unaryLevel) (exprTokens dialect operand)
  | .binary op left right =>
    enclose (level dialect left < binaryLevel dialect op) (exprTokens dialect left) ++
      .binary op ::
        enclose (level dialect right ≤ binaryLevel dialect op) (exprTokens dialect right)
  | .incoming position => [.word ("stack_" ++ toString position)]

/-- The tokens of a variable. -/
def variableTokens (dialect : Dialect) : Variable → List Token
  | ⟨name, owner, index⟩ =>
    ownerTokens dialect owner ++ .word name :: indexTokens dialect index

/-- The tokens of an owner and the dot after it. -/
def ownerTokens (dialect : Dialect) : Owner → List Token
  | .temporary => []
  | .named name => if isImplicit name then [] else [.word name, .dot]
  | .computed value =>
    enclose (ownerNeedsParens dialect value) (exprTokens dialect value) ++ [.dot]

/-- The tokens of an index. -/
def indexTokens (dialect : Dialect) : Option Expr → List Token
  | none => []
  | some index => .openBracket :: exprTokens dialect index ++ [.closeBracket]

/-- The tokens of the arguments of a call, with commas between them. -/
def argTokens (dialect : Dialect) : List Expr → List Token
  | [] => []
  | [arg] => exprTokens dialect arg
  | arg :: rest => exprTokens dialect arg ++ .comma :: argTokens dialect rest

end

/-- The text of an expression. -/
def exprText (dialect : Dialect) (e : Expr) : String :=
  tokensText dialect (exprTokens dialect e)

/-- The text of an expression, with parentheses around it unless it is an atom. -/
def atomText (dialect : Dialect) (e : Expr) : String :=
  tokensText dialect (enclose (level dialect e < atomLevel) (exprTokens dialect e))

/-- The text of a variable. -/
def variableText (dialect : Dialect) (v : Variable) : String :=
  tokensText dialect (variableTokens dialect v)

/-- The text of a call. -/
def callText (dialect : Dialect) (name : String) (args : List Expr) : String :=
  exprText dialect (.call name args)

end Decompiler.Print
