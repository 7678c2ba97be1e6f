import Decompiler.Print.Line
import Decompiler.Print.Token
import Decompiler.Syntax.Labels
import Decompiler.Syntax.Stmt

/-!
# C-like output

Prints a finished tree.  An update of a variable from its own value is written with a compound
operator, and a condition alone in an `else` branch as `else if`.
-/

namespace Decompiler.Print.CLike

/-- Operators that have a compound form. -/
def isCompound : BinaryOp → Bool
  | .add | .sub | .mul | .div | .mod | .bitAnd | .bitOr | .bitXor => true
  | _ => false

/-- The update `v op= rhs` that an assignment to `v` is, if it is one. -/
def update? (target : Variable) : Expr → Option (BinaryOp × Expr)
  | .binary op (.var v) rhs =>
    if isCompound op && Expr.sameVariable v target then some (op, rhs) else none
  | _ => none

/-- The text of an expression. -/
def text (e : Expr) : String :=
  exprText .c e

/-- The text of an assignment. -/
def assignText (target : Variable) (value : Expr) : String :=
  let name := variableText .c target
  match update? target value with
  | some (op, rhs) =>
    if op = .add ∧ rhs.isLiteral 1 then name ++ "++;"
    else if op = .sub ∧ rhs.isLiteral 1 then name ++ "--;"
    else name ++ " " ++ binaryText .c op ++ "= " ++ text rhs ++ ";"
  | none => name ++ " = " ++ text value ++ ";"

/-- The lines of a dispatch. -/
def dispatchLines (labels : Labels) (depth : Nat) (value : Expr) (cases : List (Expr × LabelId))
    (default : LabelId) : List Line :=
  ⟨depth, "switch (" ++ text value ++ ") \x7b"⟩ ::
    cases.map (fun (value, target) =>
      ⟨depth + 1, "case " ++ text value ++ ": goto " ++ labels.name target ++ ";"⟩) ++
    [⟨depth + 1, "default: goto " ++ labels.name default ++ ";"⟩, ⟨depth, "\x7d"⟩]

/-- The lines in front of the body of a case. -/
def caseHeads (depth : Nat) (c : SwitchCase) : List Line :=
  c.values.map (fun value => ⟨depth, "case " ++ text value ++ ":"⟩) ++
    if c.isDefault then [⟨depth, "default:"⟩] else []

mutual

/-- The lines of a statement. -/
def stmtLines (labels : Labels) (depth : Nat) : Stmt → List Line
  | .label id => [⟨depth, labels.name id ++ ":"⟩]
  | .raw _ op => [⟨depth, "// " ++ op.text⟩]
  | .push value => [⟨depth, "push(" ++ text value ++ ");"⟩]
  | .assign target value => [⟨depth, assignText target value⟩]
  | .call name args => [⟨depth, callText .c name args ++ ";"⟩]
  | .discard value => [⟨depth, text value ++ ";"⟩]
  | .goto target => [⟨depth, "goto " ++ labels.name target ++ ";"⟩]
  | .condGoto test target =>
    [⟨depth, "if (" ++ text test ++ ") goto " ++ labels.name target ++ ";"⟩]
  | .pushEnv env skip =>
    [⟨depth, "if (!with_begin(" ++ text env ++ ")) goto " ++ labels.name skip ++ ";"⟩]
  | .popEnv back => [⟨depth, "if (with_next()) goto " ++ labels.name back ++ ";"⟩]
  | .dispatch value cases default => dispatchLines labels depth value cases default
  | .ret value => [⟨depth, "return " ++ text value ++ ";"⟩]
  | .exit => [⟨depth, "exit;"⟩]
  | .breakOut => [⟨depth, "break;"⟩]
  | .continueLoop => [⟨depth, "continue;"⟩]
  | .basic block => listLines labels depth block.body
  | .seq block => listLines labels depth block.body
  | .cond test thenBlock elseBlock =>
    ⟨depth, "if (" ++ text test ++ ") \x7b"⟩ :: listLines labels (depth + 1) thenBlock.body ++
      elseLines labels depth elseBlock.body
  | .loop test body =>
    let head := match test with
      | some test => text test
      | none => "true"
    ⟨depth, "while (" ++ head ++ ") \x7b"⟩ :: listLines labels (depth + 1) body.body ++
      [⟨depth, "\x7d"⟩]
  | .switch value cases =>
    ⟨depth, "switch (" ++ text value ++ ") \x7b"⟩ :: caseLines labels (depth + 1) cases ++
      [⟨depth, "\x7d"⟩]
  | .scope env body _ =>
    ⟨depth, "with (" ++ text env ++ ") \x7b"⟩ :: listLines labels (depth + 1) body.body ++
      [⟨depth, "\x7d"⟩]

/-- The lines of a list of statements. -/
def listLines (labels : Labels) (depth : Nat) : List Stmt → List Line
  | [] => []
  | s :: rest => stmtLines labels depth s ++ listLines labels depth rest

/-- The lines of an `else` branch, and the brace that closes the condition. -/
def elseLines (labels : Labels) (depth : Nat) : List Stmt → List Line
  | [] => [⟨depth, "\x7d"⟩]
  | [.cond test thenBlock elseBlock] =>
    ⟨depth, "\x7d else if (" ++ text test ++ ") \x7b"⟩ ::
      listLines labels (depth + 1) thenBlock.body ++ elseLines labels depth elseBlock.body
  | s :: rest =>
    ⟨depth, "\x7d else \x7b"⟩ ::
      (stmtLines labels (depth + 1) s ++ listLines labels (depth + 1) rest) ++ [⟨depth, "\x7d"⟩]

/-- The lines of the cases of a switch. -/
def caseLines (labels : Labels) (depth : Nat) : List SwitchCase → List Line
  | [] => []
  | c :: rest =>
    caseHeads depth c ++ listLines labels (depth + 1) c.body.body ++ caseLines labels depth rest

end

end Decompiler.Print.CLike
