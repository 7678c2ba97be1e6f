import Decompiler.Syntax.Stmt

/-!
# Mapping the expressions of statements

Maps that reach every expression of a statement and of the blocks nested in it.  A basic block that
is nested in a statement is a unit of its own, and the maps leave it alone.
-/

namespace Decompiler

/-- What a map does to expressions and to the variables that are assigned to. -/
structure ExprMap where
  onExpr : Expr → Expr
  onVariable : Variable → Variable

namespace Stmt

mutual

/-- Maps the expressions of a statement. -/
def mapExprs (f : ExprMap) : Stmt → Stmt
  | .push value => .push (f.onExpr value)
  | .assign target value => .assign (f.onVariable target) (f.onExpr value)
  | .call name args => .call name (args.map f.onExpr)
  | .discard value => .discard (f.onExpr value)
  | .condGoto test target => .condGoto (f.onExpr test) target
  | .pushEnv env skip => .pushEnv (f.onExpr env) skip
  | .dispatch value cases default =>
    .dispatch (f.onExpr value) (cases.map fun (value, target) => (f.onExpr value, target)) default
  | .ret value => .ret (f.onExpr value)
  | .seq block => .seq ⟨block.entry, mapExprsList f block.body⟩
  | .cond test thenBlock elseBlock =>
    .cond (f.onExpr test) ⟨thenBlock.entry, mapExprsList f thenBlock.body⟩
      ⟨elseBlock.entry, mapExprsList f elseBlock.body⟩
  | .loop test body => .loop (test.map f.onExpr) ⟨body.entry, mapExprsList f body.body⟩
  | .switch value cases => .switch (f.onExpr value) (mapExprsCases f cases)
  | .scope env body stop => .scope (f.onExpr env) ⟨body.entry, mapExprsList f body.body⟩ stop
  | s => s

/-- Maps the expressions of a list of statements. -/
def mapExprsList (f : ExprMap) : List Stmt → List Stmt
  | [] => []
  | s :: rest => s.mapExprs f :: mapExprsList f rest

/-- Maps the expressions of the cases of a switch. -/
def mapExprsCases (f : ExprMap) : List SwitchCase → List SwitchCase
  | [] => []
  | c :: rest =>
    ⟨c.values.map f.onExpr, c.isDefault, ⟨c.body.entry, mapExprsList f c.body.body⟩⟩
      :: mapExprsCases f rest

end

mutual

/-- Whether an expression that `mapExprs` reaches passes a test. -/
def anyExpr (test : Expr → Bool) : Stmt → Bool
  | .seq block => anyExprList test block.body
  | .cond e thenBlock elseBlock =>
    test e || anyExprList test thenBlock.body || anyExprList test elseBlock.body
  | .loop e body => e.toList.any test || anyExprList test body.body
  | .switch value cases => test value || anyExprCases test cases
  | .scope env body _ => test env || anyExprList test body.body
  | s => s.exprs.any test

/-- Whether an expression of a list of statements passes a test. -/
def anyExprList (test : Expr → Bool) : List Stmt → Bool
  | [] => false
  | s :: rest => s.anyExpr test || anyExprList test rest

/-- Whether an expression of the cases of a switch passes a test. -/
def anyExprCases (test : Expr → Bool) : List SwitchCase → Bool
  | [] => false
  | c :: rest => c.values.any test || anyExprList test c.body.body || anyExprCases test rest

end

/-- Puts values for the incoming values in a statement. -/
def substitute (values : List Expr) (s : Stmt) : Stmt :=
  s.mapExprs ⟨Expr.substitute values, Expr.substituteVariable values⟩

/-- Folds the negations in a list of statements. -/
def simplifyNotList (body : List Stmt) : List Stmt :=
  mapExprsList ⟨fun e => e.simplifyNot.1, fun v => (Expr.simplifyNotVariable v).1⟩ body

/-- Whether folding the negations in a list of statements changes anything. -/
def hasFoldableNot (body : List Stmt) : Bool :=
  anyExprList (fun e => e.simplifyNot.2) body

/-- Whether the statement drops the value of a call. -/
def isDroppedCall : Stmt → Bool
  | .discard (.call _ _) => true
  | _ => false

mutual

/-- Turns a dropped call into a call statement. -/
def promoteCalls : Stmt → Stmt
  | .discard (.call name args) => .call name args
  | .seq block => .seq ⟨block.entry, promoteCallsList block.body⟩
  | .cond test thenBlock elseBlock =>
    .cond test ⟨thenBlock.entry, promoteCallsList thenBlock.body⟩
      ⟨elseBlock.entry, promoteCallsList elseBlock.body⟩
  | .loop test body => .loop test ⟨body.entry, promoteCallsList body.body⟩
  | .switch value cases => .switch value (promoteCallsCases cases)
  | .scope env body stop => .scope env ⟨body.entry, promoteCallsList body.body⟩ stop
  | s => s

/-- Turns the dropped calls of a list of statements into call statements. -/
def promoteCallsList : List Stmt → List Stmt
  | [] => []
  | s :: rest => s.promoteCalls :: promoteCallsList rest

/-- Turns the dropped calls of the cases of a switch into call statements. -/
def promoteCallsCases : List SwitchCase → List SwitchCase
  | [] => []
  | c :: rest =>
    ⟨c.values, c.isDefault, ⟨c.body.entry, promoteCallsList c.body.body⟩⟩ :: promoteCallsCases rest

end

end Stmt

end Decompiler
