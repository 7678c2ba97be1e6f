import Decompiler.Print.Line
import Decompiler.Print.Token
import Decompiler.Syntax.Labels
import Decompiler.Syntax.Stmt
import Decompiler.Text

/-!
# Lua output

Lua has no `continue`, and so a loop that needs one gets a label as its last statement, numbered in
the order in which the loops are printed.  A switch becomes a chain of `if` and `elseif` inside
`repeat ... until true`, so that its `break`s keep working.  A `return` may only stand at the end of
a block; elsewhere it is wrapped in `do ... end`.
-/

namespace Decompiler.Print.Lua

/-- The text of an expression. -/
def text (e : Expr) : String :=
  exprText .lua e

/-- Whether a case is printed as a test. -/
def isTested (c : SwitchCase) : Bool :=
  !c.isDefault && !c.values.isEmpty

mutual

/-- Whether a `continue` in a statement belongs to the loop around it. -/
def continuesHere : Stmt → Bool
  | .continueLoop => true
  | .basic block => anyContinuesHere block.body
  | .seq block => anyContinuesHere block.body
  | .cond _ thenBlock elseBlock =>
    anyContinuesHere thenBlock.body || anyContinuesHere elseBlock.body
  | .switch _ cases => casesContinueHere cases
  | _ => false

/-- Whether a `continue` in a list of statements belongs to the loop around it. -/
def anyContinuesHere : List Stmt → Bool
  | [] => false
  | s :: rest => continuesHere s || anyContinuesHere rest

/-- Whether a `continue` in the cases of a switch belongs to the loop around it. -/
def casesContinueHere : List SwitchCase → Bool
  | [] => false
  | c :: rest => anyContinuesHere c.body.body || casesContinueHere rest

end

mutual

/-- Whether a `continue` for the loop around a statement is printed.  Cases without values are not
printed, and of several default cases only the first. -/
def printsContinue : Stmt → Bool
  | .continueLoop => true
  | .basic block => listPrintsContinue block.body
  | .seq block => listPrintsContinue block.body
  | .cond _ thenBlock elseBlock =>
    listPrintsContinue thenBlock.body || listPrintsContinue elseBlock.body
  | .switch _ cases => testsPrintContinue cases || defaultPrintsContinue cases
  | _ => false

/-- Whether a `continue` for the loop around a list of statements is printed. -/
def listPrintsContinue : List Stmt → Bool
  | [] => false
  | s :: rest => printsContinue s || listPrintsContinue rest

/-- Whether a `continue` is printed in the tested cases of a switch. -/
def testsPrintContinue : List SwitchCase → Bool
  | [] => false
  | c :: rest => isTested c && listPrintsContinue c.body.body || testsPrintContinue rest

/-- Whether a `continue` is printed in the default case of a switch. -/
def defaultPrintsContinue : List SwitchCase → Bool
  | [] => false
  | c :: rest =>
    if c.isDefault then listPrintsContinue c.body.body else defaultPrintsContinue rest

end

mutual

/-- The number of loops that are printed for a statement. -/
def loopCount : Stmt → Nat
  | .basic block => listLoopCount block.body
  | .seq block => listLoopCount block.body
  | .cond _ thenBlock elseBlock => listLoopCount thenBlock.body + listLoopCount elseBlock.body
  | .loop _ body => listLoopCount body.body + 1
  | .scope _ body _ => listLoopCount body.body + 1
  | .switch _ cases => testsLoopCount cases + defaultLoopCount cases
  | _ => 0

/-- The number of loops that are printed for a list of statements. -/
def listLoopCount : List Stmt → Nat
  | [] => 0
  | s :: rest => loopCount s + listLoopCount rest

/-- The number of loops that are printed for the tested cases of a switch. -/
def testsLoopCount : List SwitchCase → Nat
  | [] => 0
  | c :: rest => (if isTested c then listLoopCount c.body.body else 0) + testsLoopCount rest

/-- The number of loops that are printed for the default case of a switch. -/
def defaultLoopCount : List SwitchCase → Nat
  | [] => 0
  | c :: rest => if c.isDefault then listLoopCount c.body.body else defaultLoopCount rest

end

/-- The label at the end of loop number `k`. -/
def continueLabel (k : Nat) : String :=
  "continue_" ++ toString k

/-- The jump that stands for a `continue` in loop number `k`. -/
def continueText : Option Nat → String
  | some k => "goto " ++ continueLabel k
  | none => "goto continue"

/-- The test of a case. -/
def caseTest (values : List Expr) : String :=
  Text.joinWith " or " (values.map fun value => "switch_value == " ++ atomText .lua value)

/-- The lines of a dispatch. -/
def dispatchLines (labels : Labels) (depth : Nat) (value : Expr) (cases : List (Expr × LabelId))
    (default : LabelId) : List Line :=
  cases.map (fun (v, target) =>
    ⟨depth, "if " ++ atomText .lua value ++ " == " ++ atomText .lua v ++ " then goto "
      ++ labels.name target ++ " end"⟩) ++
    [⟨depth, "goto " ++ labels.name default⟩]

/-- The head of a loop. -/
def loopHead : Option Expr → String
  | some test => "while " ++ text test ++ " do"
  | none => "while true do"

/-- Where a statement is printed: the depth of indentation, the number of the loop around it, the
number that the next loop gets, and whether the statement ends its block. -/
structure Place where
  depth : Nat
  loop : Option Nat
  next : Nat
  tail : Bool

namespace Place

/-- The place one level deeper, at the end of a new block. -/
def inside (place : Place) : Place :=
  { place with depth := place.depth + 1, tail := true }

/-- The place after some more loops. -/
def skip (place : Place) (loops : Nat) : Place :=
  { place with next := place.next + loops }

end Place

/-- The body of the loop that is printed next. -/
def Place.loopBody (place : Place) (body : List Stmt) : Place :=
  { depth := place.depth + 1, loop := some place.next, next := place.next + 1,
    tail := !anyContinuesHere body }

/-- The label at the end of the loop that is printed next, if its body needs it. -/
def continueLines (place : Place) (body : List Stmt) : List Line :=
  if listPrintsContinue body then
    [⟨place.depth + 1, "::" ++ continueLabel place.next ++ "::"⟩]
  else []

mutual

/-- The lines of a statement. -/
def stmtLines (labels : Labels) (place : Place) : Stmt → List Line
  | .label id => [⟨place.depth, "::" ++ labels.name id ++ "::"⟩]
  | .raw _ op => [⟨place.depth, "-- " ++ op.text⟩]
  | .push value => [⟨place.depth, "push(" ++ text value ++ ")"⟩]
  | .assign target value => [⟨place.depth, variableText .lua target ++ " = " ++ text value⟩]
  | .call name args => [⟨place.depth, callText .lua name args⟩]
  | .discard value => [⟨place.depth, "local _ = " ++ text value⟩]
  | .goto target => [⟨place.depth, "goto " ++ labels.name target⟩]
  | .condGoto test target =>
    [⟨place.depth, "if " ++ text test ++ " then goto " ++ labels.name target ++ " end"⟩]
  | .pushEnv env skip =>
    [⟨place.depth,
      "if not with_begin(" ++ text env ++ ") then goto " ++ labels.name skip ++ " end"⟩]
  | .popEnv back => [⟨place.depth, "if with_next() then goto " ++ labels.name back ++ " end"⟩]
  | .dispatch value cases default => dispatchLines labels place.depth value cases default
  | .ret value =>
    if place.tail then [⟨place.depth, "return " ++ text value⟩]
    else [⟨place.depth, "do return " ++ text value ++ " end"⟩]
  | .exit => [⟨place.depth, if place.tail then "return" else "do return end"⟩]
  | .breakOut => [⟨place.depth, "break"⟩]
  | .continueLoop => [⟨place.depth, continueText place.loop⟩]
  | .basic block => listLines labels place block.body
  | .seq block => listLines labels place block.body
  | .cond test thenBlock elseBlock =>
    ⟨place.depth, "if " ++ text test ++ " then"⟩ ::
      listLines labels place.inside thenBlock.body ++
      elseLines labels (place.skip (listLoopCount thenBlock.body)) elseBlock.body
  | .loop test body =>
    ⟨place.depth, loopHead test⟩ :: listLines labels (place.loopBody body.body) body.body ++
      continueLines place body.body ++ [⟨place.depth, "end"⟩]
  | .scope env body _ =>
    ⟨place.depth, "for _, self in with_instances(" ++ text env ++ ") do"⟩ ::
      listLines labels (place.loopBody body.body) body.body ++
      continueLines place body.body ++ [⟨place.depth, "end"⟩]
  | .switch value cases =>
    let inner := place.inside
    let after := inner.skip (testsLoopCount cases)
    let default :=
      if cases.any isTested then
        elseDefaultLines labels after cases ++ [⟨inner.depth, "end"⟩]
      else bareDefaultLines labels after cases
    ⟨place.depth, "repeat"⟩ :: ⟨inner.depth, "local switch_value = " ++ text value⟩ ::
      testLines labels inner true cases ++ default ++ [⟨place.depth, "until true"⟩]

/-- The lines of a list of statements. -/
def listLines (labels : Labels) (place : Place) : List Stmt → List Line
  | [] => []
  | s :: rest =>
    stmtLines labels { place with tail := place.tail && rest.isEmpty } s ++
      listLines labels (place.skip (loopCount s)) rest

/-- The lines of an `else` branch, and the `end` of the condition. -/
def elseLines (labels : Labels) (place : Place) : List Stmt → List Line
  | [] => [⟨place.depth, "end"⟩]
  | [.cond test thenBlock elseBlock] =>
    ⟨place.depth, "elseif " ++ text test ++ " then"⟩ ::
      listLines labels place.inside thenBlock.body ++
      elseLines labels (place.skip (listLoopCount thenBlock.body)) elseBlock.body
  | s :: rest =>
    ⟨place.depth, "else"⟩ ::
      (stmtLines labels { place.inside with tail := rest.isEmpty } s ++
        listLines labels (place.inside.skip (loopCount s)) rest) ++
      [⟨place.depth, "end"⟩]

/-- The lines of the tested cases of a switch. -/
def testLines (labels : Labels) (place : Place) (first : Bool) : List SwitchCase → List Line
  | [] => []
  | c :: rest =>
    if isTested c then
      ⟨place.depth, (if first then "if " else "elseif ") ++ caseTest c.values ++ " then"⟩ ::
        listLines labels place.inside c.body.body ++
        testLines labels (place.skip (listLoopCount c.body.body)) false rest
    else testLines labels place first rest

/-- The lines of the default case after tested cases. -/
def elseDefaultLines (labels : Labels) (place : Place) : List SwitchCase → List Line
  | [] => []
  | c :: rest =>
    if c.isDefault then ⟨place.depth, "else"⟩ :: listLines labels place.inside c.body.body
    else elseDefaultLines labels place rest

/-- The lines of a default case that stands alone. -/
def bareDefaultLines (labels : Labels) (place : Place) : List SwitchCase → List Line
  | [] => []
  | c :: rest =>
    if c.isDefault then listLines labels place c.body.body
    else bareDefaultLines labels place rest

end

end Decompiler.Print.Lua
