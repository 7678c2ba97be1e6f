import Decompiler.Print.Line
import Decompiler.Print.Token
import Decompiler.Syntax.Labels
import Decompiler.Syntax.Stmt
import Decompiler.Text

/-!
# Outlines

An indented outline of statements at any stage.  It shows every kind of statement, the stack
operations and basic blocks included.
-/

namespace Decompiler.Print.Outline

/-- The text of an expression. -/
def text (e : Expr) : String :=
  exprText .c e

/-- The head of a block, with the label at which it is entered. -/
def blockHead (labels : Labels) (head : String) (entry : Option LabelId) : String :=
  match entry with
  | some label => head ++ " (entry " ++ labels.name label ++ ")"
  | none => head

/-- The head of a case. -/
def caseHead (c : SwitchCase) : String :=
  let values := if c.values.isEmpty then "" else " " ++ Text.joinWith ", " (c.values.map text)
  "case" ++ values ++ if c.isDefault then " default" else ""

/-- The head of a loop. -/
def loopHead : Option Expr → String
  | some test => "while " ++ text test
  | none => "while true"

/-- The head of a scope. -/
def scopeHead (labels : Labels) (env : Expr) (stop : Option LabelId) : String :=
  match stop with
  | some label => "with " ++ text env ++ " (end " ++ labels.name label ++ ")"
  | none => "with " ++ text env

/-- The lines of a dispatch. -/
def dispatchLines (labels : Labels) (depth : Nat) (value : Expr) (cases : List (Expr × LabelId))
    (default : LabelId) : List Line :=
  ⟨depth, "dispatch " ++ text value⟩ ::
    cases.map (fun (value, target) =>
      ⟨depth + 1, "case " ++ text value ++ " -> " ++ labels.name target⟩) ++
    [⟨depth + 1, "default -> " ++ labels.name default⟩]

mutual

/-- The lines of a statement. -/
def stmtLines (labels : Labels) (depth : Nat) : Stmt → List Line
  | .label id => [⟨depth, "label " ++ labels.name id⟩]
  | .raw offset op =>
    [⟨depth, "raw " ++ Text.alignRight 5 (toString offset) ++ "  " ++ op.text⟩]
  | .push value => [⟨depth, "push " ++ text value⟩]
  | .assign target value => [⟨depth, "assign " ++ variableText .c target ++ " = " ++ text value⟩]
  | .call name args => [⟨depth, "call " ++ callText .c name args⟩]
  | .discard value => [⟨depth, "discard " ++ text value⟩]
  | .goto target => [⟨depth, "goto " ++ labels.name target⟩]
  | .condGoto test target => [⟨depth, "if " ++ text test ++ " goto " ++ labels.name target⟩]
  | .pushEnv env skip => [⟨depth, "pushenv " ++ text env ++ " else " ++ labels.name skip⟩]
  | .popEnv back => [⟨depth, "popenv back " ++ labels.name back⟩]
  | .dispatch value cases default => dispatchLines labels depth value cases default
  | .ret value => [⟨depth, "return " ++ text value⟩]
  | .exit => [⟨depth, "exit"⟩]
  | .breakOut => [⟨depth, "break"⟩]
  | .continueLoop => [⟨depth, "continue"⟩]
  | .basic block =>
    ⟨depth, "basic block (depth " ++ toString block.entryDepth ++ ")"⟩ ::
      listLines labels (depth + 1) block.body
  | .seq block =>
    ⟨depth, blockHead labels "block" block.entry⟩ :: listLines labels (depth + 1) block.body
  | .cond test thenBlock elseBlock =>
    ⟨depth, "condition " ++ text test⟩ ::
      ⟨depth + 1, blockHead labels "then" thenBlock.entry⟩ ::
        listLines labels (depth + 2) thenBlock.body ++
      ⟨depth + 1, blockHead labels "else" elseBlock.entry⟩ ::
        listLines labels (depth + 2) elseBlock.body
  | .loop test body =>
    ⟨depth, blockHead labels (loopHead test) body.entry⟩ :: listLines labels (depth + 1) body.body
  | .switch value cases => ⟨depth, "switch " ++ text value⟩ :: caseLines labels (depth + 1) cases
  | .scope env body stop =>
    ⟨depth, blockHead labels (scopeHead labels env stop) body.entry⟩ ::
      listLines labels (depth + 1) body.body

/-- The lines of a list of statements. -/
def listLines (labels : Labels) (depth : Nat) : List Stmt → List Line
  | [] => []
  | s :: rest => stmtLines labels depth s ++ listLines labels depth rest

/-- The lines of the cases of a switch. -/
def caseLines (labels : Labels) (depth : Nat) : List SwitchCase → List Line
  | [] => []
  | c :: rest =>
    ⟨depth, blockHead labels (caseHead c) c.body.entry⟩ ::
      listLines labels (depth + 1) c.body.body ++ caseLines labels depth rest

end

end Decompiler.Print.Outline
