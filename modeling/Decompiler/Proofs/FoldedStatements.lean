import Mathlib.Algebra.Ring.Nat
import Decompiler.Flow.Conditions
import Decompiler.Proofs.StatementKinds

/-!
# What folding and call statements leave

Folding the negations of a list of statements leaves fewer of them when there was any to fold
(`notsOfList_simplifyNotList_lt`).  Making call statements leaves as many negations and no dropped call
(`countList_isDroppedCall_promoteCallsList`), with one exception: a basic block inside a statement is
counted but not searched for calls.  Decoded code and simulated blocks have no such block
(`holdsNoBasic_simulate`), and the rules for simulated blocks bring none.
-/

namespace Decompiler

open Bytecode

/-! ### Negations -/

namespace Expr

/-- Two flags together count no more than each of them. -/
lemma toNat_or_le (a b : Bool) : (a || b).toNat ≤ a.toNat + b.toNat := by
  cases a <;> simp

mutual

/-- The number of negations in an expression. -/
def nots : Expr → Nat
  | .const _ => 0
  | .var v => variableNots v
  | .call _ args => listNots args
  | .unary .neg operand => operand.nots
  | .unary .not operand => operand.nots + 1
  | .binary _ left right => left.nots + right.nots
  | .incoming _ => 0

/-- The number of negations in a variable. -/
def variableNots : Variable → Nat
  | ⟨_, owner, index⟩ => ownerNots owner + optionNots index

/-- The number of negations in an owner. -/
def ownerNots : Owner → Nat
  | .computed value => value.nots
  | .temporary | .named _ => 0

/-- The number of negations in an optional expression. -/
def optionNots : Option Expr → Nat
  | some e => e.nots
  | none => 0

/-- The number of negations in a list of expressions. -/
def listNots : List Expr → Nat
  | [] => 0
  | e :: rest => e.nots + listNots rest

end

/-- The negations of a list, one expression after the other. -/
lemma listNots_eq_sum (l : List Expr) : listNots l = (l.map nots).sum := by
  induction l with
  | nil => rfl
  | cons e rest ih => rw [listNots, ih, List.map_cons, List.sum_cons]

/-- The negations of a variable are those of the expressions it holds. -/
lemma variableNots_eq_sum (v : Variable) : variableNots v = (v.children.map nots).sum := by
  obtain ⟨name, owner, index⟩ := v
  cases owner <;> cases index <;> simp [variableNots, ownerNots, optionNots, VariableOf.children,
    OwnerOf.children]

/-- Something is folded in a list where it is in one of its expressions. -/
lemma simplifyNotList_snd_eq_any (l : List Expr) :
    (simplifyNotList l).2 = l.any fun e => e.simplifyNot.2 := by
  induction l with
  | nil => rfl
  | cons e rest ih => rw [simplifyNotList, List.any_cons, ← ih]

/-- Something is folded in a variable where it is in something that it holds. -/
lemma simplifyNotVariable_snd_eq_any (v : Variable) :
    (simplifyNotVariable v).2 = v.children.any fun e => e.simplifyNot.2 := by
  obtain ⟨name, owner, index⟩ := v
  cases owner <;> cases index <;> simp [VariableOf.children, OwnerOf.children, simplifyNotVariable,
    simplifyNotOwner, simplifyNotOption]

/-- A folded negation has one negation less. -/
lemma nots_of_foldedNot? {operand folded : Expr} (h : foldedNot? operand = some folded) :
    folded.nots ≤ operand.nots := by
  unfold foldedNot? at h
  split at h
  · cases h
    exact Nat.le_succ _
  · obtain ⟨inverse, -, rfl⟩ := Option.map_eq_some_iff.mp h
    exact Nat.le_refl _
  · cases h

mutual

/-- Folding leaves fewer negations when it changes anything. -/
lemma nots_simplifyNot : (e : Expr) → e.simplifyNot.1.nots + e.simplifyNot.2.toNat ≤ e.nots
  | .const _ => Nat.le_refl _
  | .var v => variableNots_simplifyNot v
  | .call _ args => listNots_simplifyNot args
  | .unary .neg operand => nots_simplifyNot operand
  | .unary .not operand => by
    have ih := nots_simplifyNot operand
    simp only [simplifyNot]
    cases hfold : foldedNot? operand.simplifyNot.1 with
    | none =>
      simp only [nots]
      omega
    | some folded =>
      have hle := nots_of_foldedNot? hfold
      simp only [nots, Bool.toNat_true]
      omega
  | .binary _ left right => by
    have hleft := nots_simplifyNot left
    have hright := nots_simplifyNot right
    have hor := toNat_or_le left.simplifyNot.2 right.simplifyNot.2
    simp only [simplifyNot, nots]
    omega
  | .incoming _ => Nat.le_refl _

/-- Folding leaves fewer negations in a variable when it changes anything. -/
lemma variableNots_simplifyNot : (v : Variable) →
    variableNots (simplifyNotVariable v).1 + (simplifyNotVariable v).2.toNat ≤ variableNots v
  | ⟨_, owner, index⟩ => by
    have howner := ownerNots_simplifyNot owner
    have hindex := optionNots_simplifyNot index
    have hor := toNat_or_le (simplifyNotOwner owner).2 (simplifyNotOption index).2
    simp only [simplifyNotVariable, variableNots]
    omega

/-- Folding leaves fewer negations in an owner when it changes anything. -/
lemma ownerNots_simplifyNot : (o : Owner) →
    ownerNots (simplifyNotOwner o).1 + (simplifyNotOwner o).2.toNat ≤ ownerNots o
  | .temporary | .named _ => Nat.le_refl _
  | .computed value => nots_simplifyNot value

/-- Folding leaves fewer negations in an optional expression when it changes anything. -/
lemma optionNots_simplifyNot : (e : Option Expr) →
    optionNots (simplifyNotOption e).1 + (simplifyNotOption e).2.toNat ≤ optionNots e
  | none => Nat.le_refl _
  | some e => nots_simplifyNot e

/-- Folding leaves fewer negations in a list of expressions when it changes anything. -/
lemma listNots_simplifyNot : (l : List Expr) →
    listNots (simplifyNotList l).1 + (simplifyNotList l).2.toNat ≤ listNots l
  | [] => Nat.le_refl _
  | e :: rest => by
    have hhead := nots_simplifyNot e
    have hrest := listNots_simplifyNot rest
    have hor := toNat_or_le e.simplifyNot.2 (simplifyNotList rest).2
    simp only [simplifyNotList, listNots]
    omega

end

end Expr

/-- A map that leaves fewer negations wherever it changes anything. -/
structure ExprMap.LeavesFewerNots (f : ExprMap) (changes : Expr → Bool) : Prop where
  onExpr : ∀ e, (f.onExpr e).nots + (changes e).toNat ≤ e.nots
  onVariable : ∀ v, Expr.listNots (f.onVariable v).children + (v.children.any changes).toNat ≤
    Expr.listNots v.children

/-- Folding negations leaves fewer of them. -/
lemma Expr.leavesFewerNots_simplifyNot :
    ExprMap.LeavesFewerNots ⟨fun e => e.simplifyNot.1, fun v => (simplifyNotVariable v).1⟩
      fun e => e.simplifyNot.2 where
  onExpr := nots_simplifyNot
  onVariable v := by
    rw [← simplifyNotVariable_snd_eq_any]
    simp only [listNots_eq_sum, ← variableNots_eq_sum]
    exact variableNots_simplifyNot v

namespace Stmt

mutual

/-- The number of negations that `mapExprs` reaches in a statement. -/
def nots : Stmt → Nat
  | .seq block => notsOfList block.body
  | .cond e thenBlock elseBlock => e.nots + notsOfList thenBlock.body + notsOfList elseBlock.body
  | .loop e body => Expr.listNots e.toList + notsOfList body.body
  | .switch value cases => value.nots + notsOfCases cases
  | .scope env body _ => env.nots + notsOfList body.body
  | s => Expr.listNots s.exprs

/-- The number of negations in a list of statements. -/
def notsOfList : List Stmt → Nat
  | [] => 0
  | s :: rest => s.nots + notsOfList rest

/-- The number of negations in the cases of a switch. -/
def notsOfCases : List SwitchCase → Nat
  | [] => 0
  | c :: rest => Expr.listNots c.values + notsOfList c.body.body + notsOfCases rest

end

section MapExprs

variable {f : ExprMap} {changes : Expr → Bool}

/-- Mapping a list of expressions leaves fewer negations when it changes anything. -/
lemma listNots_map (h : f.LeavesFewerNots changes) (l : List Expr) :
    Expr.listNots (l.map f.onExpr) + (l.any changes).toNat ≤ Expr.listNots l := by
  induction l with
  | nil => exact Nat.le_refl _
  | cons e rest ih =>
    have hhead := h.onExpr e
    have hor := Expr.toNat_or_le (changes e) (rest.any changes)
    simp only [List.map_cons, List.any_cons, Expr.listNots]
    omega

mutual

/-- Mapping the expressions of a statement leaves fewer negations when it changes anything. -/
lemma nots_mapExprs (h : f.LeavesFewerNots changes) :
    (s : Stmt) → (s.mapExprs f).nots + (s.anyExpr changes).toNat ≤ s.nots
  | .assign target value => by
    have htarget := h.onVariable target
    have hvalue := h.onExpr value
    have hor := Expr.toNat_or_le (target.children.any changes) (changes value)
    simp only [Expr.listNots_eq_sum] at htarget
    simp only [mapExprs, anyExpr, nots, exprs, Expr.listNots_eq_sum, List.map_append,
      List.sum_append, List.any_append, List.any_cons, List.any_nil, List.map_cons, List.map_nil,
      List.sum_cons, List.sum_nil, Bool.or_false]
    omega
  | .dispatch value cases default => by
    have hlist := listNots_map h (value :: cases.map Prod.fst)
    simpa only [mapExprs, anyExpr, nots, exprs, List.map_cons, List.map_map, Function.comp_def]
      using hlist
  | .call _ args => listNots_map h args
  | .push value | .discard value | .ret value => listNots_map h [value]
  | .condGoto test _ | .pushEnv test _ => listNots_map h [test]
  | .seq block => notsOfList_mapExprsList h block.body
  | .cond e thenBlock elseBlock => by
    have he := h.onExpr e
    have hthen := notsOfList_mapExprsList h thenBlock.body
    have helse := notsOfList_mapExprsList h elseBlock.body
    have hor := Expr.toNat_or_le (changes e) (anyExprList changes thenBlock.body)
    have hor' := Expr.toNat_or_le (changes e || anyExprList changes thenBlock.body)
      (anyExprList changes elseBlock.body)
    simp only [mapExprs, anyExpr, nots]
    omega
  | .loop e body => by
    have he := listNots_map h e.toList
    have hbody := notsOfList_mapExprsList h body.body
    have hor := Expr.toNat_or_le (e.toList.any changes) (anyExprList changes body.body)
    have hmap : (e.map f.onExpr).toList = e.toList.map f.onExpr := by cases e <;> rfl
    simp only [mapExprs, anyExpr, nots, hmap]
    omega
  | .switch value cases => by
    have hvalue := h.onExpr value
    have hcases := notsOfCases_mapExprsCases h cases
    have hor := Expr.toNat_or_le (changes value) (anyExprCases changes cases)
    simp only [mapExprs, anyExpr, nots]
    omega
  | .scope env body _ => by
    have henv := h.onExpr env
    have hbody := notsOfList_mapExprsList h body.body
    have hor := Expr.toNat_or_le (changes env) (anyExprList changes body.body)
    simp only [mapExprs, anyExpr, nots]
    omega
  | .label _ | .raw _ _ | .goto _ | .popEnv _ | .exit | .breakOut | .continueLoop | .basic _ =>
    Nat.le_refl _

/-- Mapping the expressions of a list of statements leaves fewer negations when it changes anything.
-/
lemma notsOfList_mapExprsList (h : f.LeavesFewerNots changes) : (list : List Stmt) →
    notsOfList (mapExprsList f list) + (anyExprList changes list).toNat ≤ notsOfList list
  | [] => Nat.le_refl _
  | s :: rest => by
    have hhead := nots_mapExprs h s
    have hrest := notsOfList_mapExprsList h rest
    have hor := Expr.toNat_or_le (s.anyExpr changes) (anyExprList changes rest)
    simp only [mapExprsList, anyExprList, notsOfList]
    omega

/-- Mapping the expressions of the cases of a switch leaves fewer negations when it changes anything.
-/
lemma notsOfCases_mapExprsCases (h : f.LeavesFewerNots changes) : (cases : List SwitchCase) →
    notsOfCases (mapExprsCases f cases) + (anyExprCases changes cases).toNat ≤ notsOfCases cases
  | [] => Nat.le_refl _
  | c :: rest => by
    have hvalues := listNots_map h c.values
    have hbody := notsOfList_mapExprsList h c.body.body
    have hrest := notsOfCases_mapExprsCases h rest
    have hor := Expr.toNat_or_le (c.values.any changes) (anyExprList changes c.body.body)
    have hor' := Expr.toNat_or_le (c.values.any changes || anyExprList changes c.body.body)
      (anyExprCases changes rest)
    simp only [mapExprsCases, anyExprCases, notsOfCases]
    omega

end

end MapExprs

/-- Folding the negations of a list that has any to fold leaves fewer of them. -/
lemma notsOfList_simplifyNotList_lt {list : List Stmt} (h : hasFoldableNot list = true) :
    notsOfList (simplifyNotList list) < notsOfList list := by
  have hle := notsOfList_mapExprsList Expr.leavesFewerNots_simplifyNot list
  rw [hasFoldableNot] at h
  rw [h, Bool.toNat_true] at hle
  exact hle

/-! ### Nested basic blocks and dropped calls -/

open Conditions (isBasic)

/-- A list counts nothing when none of its statements does. -/
lemma countList_eq_zero_iff {test : Stmt → Bool} {list : List Stmt} :
    countList test list = 0 ↔ ∀ s ∈ list, s.count test = 0 := by
  induction list with
  | nil => simp [countList]
  | cons s rest ih => simp [countList, ih]

mutual

/-- Basic blocks are as many whatever the expressions are. -/
lemma count_isBasic_mapExprs (f : ExprMap) :
    (s : Stmt) → (s.mapExprs f).count isBasic = s.count isBasic
  | .seq block => by
    simp only [mapExprs, count, isBasic, Bool.false_eq_true, if_false,
      countList_isBasic_mapExprsList f block.body]
  | .cond _ thenBlock elseBlock => by
    simp only [mapExprs, count, isBasic, Bool.false_eq_true, if_false,
      countList_isBasic_mapExprsList f thenBlock.body,
      countList_isBasic_mapExprsList f elseBlock.body]
  | .loop _ body => by
    simp only [mapExprs, count, isBasic, Bool.false_eq_true, if_false,
      countList_isBasic_mapExprsList f body.body]
  | .switch _ cases => by
    simp only [mapExprs, count, isBasic, Bool.false_eq_true, if_false,
      countCases_isBasic_mapExprsCases f cases]
  | .scope _ body _ => by
    simp only [mapExprs, count, isBasic, Bool.false_eq_true, if_false,
      countList_isBasic_mapExprsList f body.body]
  | .label _ | .raw _ _ | .push _ | .assign _ _ | .call _ _ | .discard _ | .goto _ | .condGoto _ _
  | .pushEnv _ _ | .popEnv _ | .dispatch _ _ _ | .ret _ | .exit | .breakOut | .continueLoop
  | .basic _ => rfl

/-- Basic blocks in a list are as many whatever the expressions are. -/
lemma countList_isBasic_mapExprsList (f : ExprMap) :
    (list : List Stmt) → countList isBasic (mapExprsList f list) = countList isBasic list
  | [] => rfl
  | s :: rest => by
    simp only [mapExprsList, countList, count_isBasic_mapExprs f s,
      countList_isBasic_mapExprsList f rest]

/-- Basic blocks in the cases of a switch are as many whatever the expressions are. -/
lemma countCases_isBasic_mapExprsCases (f : ExprMap) :
    (cases : List SwitchCase) → countCases isBasic (mapExprsCases f cases) = countCases isBasic cases
  | [] => rfl
  | c :: rest => by
    simp only [mapExprsCases, countCases, countList_isBasic_mapExprsList f c.body.body,
      countCases_isBasic_mapExprsCases f rest]

end

/-- Dropping the value of a call and calling hold no basic block. -/
lemma count_isBasic_promoteCalls_discard (value : Expr) :
    (promoteCalls (.discard value)).count isBasic = 0 := by
  cases value <;> rfl

mutual

/-- Making call statements leaves as many basic blocks. -/
lemma count_isBasic_promoteCalls : (s : Stmt) → s.promoteCalls.count isBasic = s.count isBasic
  | .seq block => by
    simp only [promoteCalls, count, isBasic, Bool.false_eq_true, if_false,
      countList_isBasic_promoteCallsList block.body]
  | .cond _ thenBlock elseBlock => by
    simp only [promoteCalls, count, isBasic, Bool.false_eq_true, if_false,
      countList_isBasic_promoteCallsList thenBlock.body,
      countList_isBasic_promoteCallsList elseBlock.body]
  | .loop _ body => by
    simp only [promoteCalls, count, isBasic, Bool.false_eq_true, if_false,
      countList_isBasic_promoteCallsList body.body]
  | .switch _ cases => by
    simp only [promoteCalls, count, isBasic, Bool.false_eq_true, if_false,
      countCases_isBasic_promoteCallsCases cases]
  | .scope _ body _ => by
    simp only [promoteCalls, count, isBasic, Bool.false_eq_true, if_false,
      countList_isBasic_promoteCallsList body.body]
  | .discard value => count_isBasic_promoteCalls_discard value
  | .label _ | .raw _ _ | .push _ | .assign _ _ | .call _ _ | .goto _ | .condGoto _ _
  | .pushEnv _ _ | .popEnv _ | .dispatch _ _ _ | .ret _ | .exit | .breakOut | .continueLoop
  | .basic _ => rfl

/-- Making the call statements of a list leaves as many basic blocks. -/
lemma countList_isBasic_promoteCallsList :
    (list : List Stmt) → countList isBasic (promoteCallsList list) = countList isBasic list
  | [] => rfl
  | s :: rest => by
    simp only [promoteCallsList, countList, count_isBasic_promoteCalls s,
      countList_isBasic_promoteCallsList rest]

/-- Making the call statements of the cases of a switch leaves as many basic blocks. -/
lemma countCases_isBasic_promoteCallsCases :
    (cases : List SwitchCase) → countCases isBasic (promoteCallsCases cases) = countCases isBasic cases
  | [] => rfl
  | c :: rest => by
    simp only [promoteCallsCases, countCases, countList_isBasic_promoteCallsList c.body.body,
      countCases_isBasic_promoteCallsCases rest]

end

/-- A call whose value is dropped becomes a call, and any other value stays. -/
lemma promoteCalls_discard (value : Expr) :
    (promoteCalls (.discard value)).count isDroppedCall = 0 ∧
      (promoteCalls (.discard value)).nots = nots (.discard value) := by
  cases value with
  | call name args => simp [promoteCalls, count, isDroppedCall, nots, exprs, Expr.listNots, Expr.nots]
  | _ => exact ⟨rfl, rfl⟩

mutual

/-- Making call statements leaves no dropped call, unless one is in a nested basic block. -/
lemma count_isDroppedCall_promoteCalls :
    (s : Stmt) → s.count isBasic = 0 → s.promoteCalls.count isDroppedCall = 0
  | .seq block, h => by
    simp only [count, isBasic, Bool.false_eq_true, if_false] at h
    simp only [promoteCalls, count, isDroppedCall, Bool.false_eq_true, if_false]
    have hblock := countList_isDroppedCall_promoteCallsList block.body (by omega)
    omega
  | .cond _ thenBlock elseBlock, h => by
    simp only [count, isBasic, Bool.false_eq_true, if_false] at h
    simp only [promoteCalls, count, isDroppedCall, Bool.false_eq_true, if_false]
    have hthen := countList_isDroppedCall_promoteCallsList thenBlock.body (by omega)
    have helse := countList_isDroppedCall_promoteCallsList elseBlock.body (by omega)
    omega
  | .loop _ body, h => by
    simp only [count, isBasic, Bool.false_eq_true, if_false] at h
    simp only [promoteCalls, count, isDroppedCall, Bool.false_eq_true, if_false]
    have hbody := countList_isDroppedCall_promoteCallsList body.body (by omega)
    omega
  | .switch _ cases, h => by
    simp only [count, isBasic, Bool.false_eq_true, if_false] at h
    simp only [promoteCalls, count, isDroppedCall, Bool.false_eq_true, if_false]
    have hcases := countCases_isDroppedCall_promoteCallsCases cases (by omega)
    omega
  | .scope _ body _, h => by
    simp only [count, isBasic, Bool.false_eq_true, if_false] at h
    simp only [promoteCalls, count, isDroppedCall, Bool.false_eq_true, if_false]
    have hbody := countList_isDroppedCall_promoteCallsList body.body (by omega)
    omega
  | .basic _, h => by simp [count, isBasic] at h
  | .discard value, _ => (promoteCalls_discard value).1
  | .label _, _ | .raw _ _, _ | .push _, _ | .assign _ _, _ | .call _ _, _ | .goto _, _
  | .condGoto _ _, _ | .pushEnv _ _, _ | .popEnv _, _ | .dispatch _ _ _, _ | .ret _, _ | .exit, _
  | .breakOut, _ | .continueLoop, _ => rfl

/-- Making the call statements of a list leaves no dropped call. -/
lemma countList_isDroppedCall_promoteCallsList : (list : List Stmt) → countList isBasic list = 0 →
    countList isDroppedCall (promoteCallsList list) = 0
  | [], _ => rfl
  | s :: rest, h => by
    simp only [countList] at h
    have hhead := count_isDroppedCall_promoteCalls s (by omega)
    have hrest := countList_isDroppedCall_promoteCallsList rest (by omega)
    simp only [promoteCallsList, countList, hhead, hrest]

/-- Making the call statements of the cases of a switch leaves no dropped call. -/
lemma countCases_isDroppedCall_promoteCallsCases : (cases : List SwitchCase) →
    countCases isBasic cases = 0 → countCases isDroppedCall (promoteCallsCases cases) = 0
  | [], _ => rfl
  | c :: rest, h => by
    simp only [countCases] at h
    have hbody := countList_isDroppedCall_promoteCallsList c.body.body (by omega)
    have hrest := countCases_isDroppedCall_promoteCallsCases rest (by omega)
    simp only [promoteCallsCases, countCases, hbody, hrest]

end

mutual

/-- Making call statements leaves as many negations. -/
lemma nots_promoteCalls : (s : Stmt) → s.promoteCalls.nots = s.nots
  | .seq block => notsOfList_promoteCallsList block.body
  | .cond _ thenBlock elseBlock => by
    simp only [promoteCalls, nots, notsOfList_promoteCallsList thenBlock.body,
      notsOfList_promoteCallsList elseBlock.body]
  | .loop _ body => by simp only [promoteCalls, nots, notsOfList_promoteCallsList body.body]
  | .switch _ cases => by simp only [promoteCalls, nots, notsOfCases_promoteCallsCases cases]
  | .scope _ body _ => by simp only [promoteCalls, nots, notsOfList_promoteCallsList body.body]
  | .discard value => (promoteCalls_discard value).2
  | .label _ | .raw _ _ | .push _ | .assign _ _ | .call _ _ | .goto _ | .condGoto _ _
  | .pushEnv _ _ | .popEnv _ | .dispatch _ _ _ | .ret _ | .exit | .breakOut | .continueLoop
  | .basic _ => rfl

/-- Making the call statements of a list leaves as many negations. -/
lemma notsOfList_promoteCallsList :
    (list : List Stmt) → notsOfList (promoteCallsList list) = notsOfList list
  | [] => rfl
  | s :: rest => by
    simp only [promoteCallsList, notsOfList, nots_promoteCalls s, notsOfList_promoteCallsList rest]

/-- Making the call statements of the cases of a switch leaves as many negations. -/
lemma notsOfCases_promoteCallsCases :
    (cases : List SwitchCase) → notsOfCases (promoteCallsCases cases) = notsOfCases cases
  | [] => rfl
  | c :: rest => by
    simp only [promoteCallsCases, notsOfCases, notsOfList_promoteCallsList c.body.body,
      notsOfCases_promoteCallsCases rest]

end

end Stmt

/-- No block of a list holds another basic block inside. -/
abbrev HoldsNoBasic (blocks : List BasicBlock) : Prop :=
  AllStmts (fun s => s.count Conditions.isBasic = 0) blocks

/-- The rules for simulated blocks bring no nested basic blocks. -/
lemma Stmt.isKept_holdsNoBasic : IsKept fun s => s.count Conditions.isBasic = 0 where
  mapExprs f s h := (count_isBasic_mapExprs f s).trans h
  promoteCalls s h := (count_isBasic_promoteCalls s).trans h
  push _ := rfl
  goto _ := rfl
  condGoto _ _ := rfl
  scope env stmts h _ := by
    simp only [count, Conditions.isBasic, Bool.false_eq_true, if_false, Nat.zero_add]
    exact countList_eq_zero_iff.mpr h

/-- Simple statements hold no basic block. -/
lemma Stmt.count_isBasic_of_isSimple {s : Stmt} (h : s.isSimple = true) :
    s.count Conditions.isBasic = 0 := by
  refine count_eq_zero_of_isSimple (fun s hs => ?_) h
  cases s with
  | basic _ => cases hs
  | _ => rfl

/-- Decoded code holds no nested basic blocks, and simulation brings none. -/
theorem holdsNoBasic_simulate {names : Names} {labels : Labels} {bound : Nat}
    {sources results : List BasicBlock} (hwf : WellFormed bound sources)
    (hcode : AllStmts Stmt.IsOfCode sources) (h : simulate names labels sources = .ok results) :
    HoldsNoBasic sources ∧ HoldsNoBasic results := by
  refine ⟨fun block hblock s hs => ?_, fun block hblock s hs => ?_⟩
  · by_cases hop : s.stackOp? = none
    · exact Stmt.count_isBasic_of_isSimple ((hcode block hblock s hs).isSimple hop)
    · cases s with
      | raw _ _ => rfl
      | _ => exact absurd rfl hop
  · exact Stmt.count_isBasic_of_isSimple (isSimple_simulate hwf hcode h block hblock s hs)

end Decompiler
