import Mathlib.Tactic.Lemma
import Decompiler.Syntax.Expr

/-!
# Folded negations and the polarity of tests

`Expr.isFolded` is the normal form that `Expr.simplifyNot` computes: no negation stands directly over
a negation or over a comparison.  One pass reaches it (`isFolded_simplifyNot`) and a second one
changes nothing (`simplifyNot_of_isFolded`).

A test and its negation ask the same question.  `Expr.polarity` writes a test as a positive form and
a flag that says whether the test asks for the opposite, and `polarity_simplifyNot_negate` says that
negating a test turns nothing but the flag.
-/

namespace Decompiler.Expr

/-! ### Expressions in which nothing is left to fold -/

mutual

/-- Whether no negation in the expression stands over a negation or a comparison. -/
def isFolded : Expr → Bool
  | .const _ => true
  | .var v => variableIsFolded v
  | .call _ args => allFolded args
  | .unary .neg operand => operand.isFolded
  | .unary .not operand => operand.isFolded && (foldedNot? operand).isNone
  | .binary _ left right => left.isFolded && right.isFolded
  | .incoming _ => true

/-- Whether nothing is left to fold in the variable. -/
def variableIsFolded : Variable → Bool
  | ⟨_, owner, index⟩ => ownerIsFolded owner && optionIsFolded index

/-- Whether nothing is left to fold in the owner. -/
def ownerIsFolded : Owner → Bool
  | .computed value => value.isFolded
  | .temporary | .named _ => true

/-- Whether nothing is left to fold in the optional expression. -/
def optionIsFolded : Option Expr → Bool
  | some e => e.isFolded
  | none => true

/-- Whether nothing is left to fold in the expressions. -/
def allFolded : List Expr → Bool
  | [] => true
  | e :: rest => e.isFolded && allFolded rest

end

/-- Folding the negation of a folded operand leaves nothing to fold. -/
lemma isFolded_of_foldedNot? {operand folded : Expr} (h : operand.isFolded = true)
    (hfold : foldedNot? operand = some folded) : folded.isFolded = true := by
  unfold foldedNot? at hfold
  split at hfold
  · rw [Option.some.injEq] at hfold
    subst hfold
    simp only [isFolded, Bool.and_eq_true] at h
    exact h.1
  · obtain ⟨inverse, -, rfl⟩ := Option.map_eq_some_iff.mp hfold
    simpa only [isFolded] using h
  · cases hfold

/-- A negation with a folded operand, folded itself. -/
lemma simplifyNot_not (operand : Expr) :
    (Expr.not operand).simplifyNot.1 =
      (foldedNot? operand.simplifyNot.1).getD (.not operand.simplifyNot.1) := by
  simp only [Expr.not, simplifyNot]
  cases foldedNot? operand.simplifyNot.1 <;> rfl

mutual

/-- One pass of folding leaves nothing to fold. -/
theorem isFolded_simplifyNot : (e : Expr) → e.simplifyNot.1.isFolded = true
  | .const _ => rfl
  | .var v => by
    simp only [simplifyNot, isFolded]
    exact variableIsFolded_simplifyNot v
  | .call _ args => by
    simp only [simplifyNot, isFolded]
    exact allFolded_simplifyNot args
  | .unary .neg operand => by
    simp only [simplifyNot, isFolded]
    exact isFolded_simplifyNot operand
  | .unary .not operand => by
    have ih := isFolded_simplifyNot operand
    simp only [simplifyNot]
    cases hfold : foldedNot? operand.simplifyNot.1 with
    | none => simp [isFolded, ih, hfold]
    | some folded => exact isFolded_of_foldedNot? ih hfold
  | .binary _ left right => by
    simp only [simplifyNot, isFolded, isFolded_simplifyNot left, isFolded_simplifyNot right,
      Bool.and_self]
  | .incoming _ => rfl

/-- One pass of folding leaves nothing to fold in a variable. -/
theorem variableIsFolded_simplifyNot :
    (v : Variable) → variableIsFolded (simplifyNotVariable v).1 = true
  | ⟨_, owner, index⟩ => by
    simp only [simplifyNotVariable, variableIsFolded, ownerIsFolded_simplifyNot owner,
      optionIsFolded_simplifyNot index, Bool.and_self]

/-- One pass of folding leaves nothing to fold in an owner. -/
theorem ownerIsFolded_simplifyNot : (o : Owner) → ownerIsFolded (simplifyNotOwner o).1 = true
  | .temporary => rfl
  | .named _ => rfl
  | .computed value => by
    simp only [simplifyNotOwner, ownerIsFolded]
    exact isFolded_simplifyNot value

/-- One pass of folding leaves nothing to fold in an optional expression. -/
theorem optionIsFolded_simplifyNot :
    (e : Option Expr) → optionIsFolded (simplifyNotOption e).1 = true
  | none => rfl
  | some e => by
    simp only [simplifyNotOption, optionIsFolded]
    exact isFolded_simplifyNot e

/-- One pass of folding leaves nothing to fold in a list of expressions. -/
theorem allFolded_simplifyNot : (l : List Expr) → allFolded (simplifyNotList l).1 = true
  | [] => rfl
  | e :: rest => by
    simp only [simplifyNotList, allFolded, isFolded_simplifyNot e, allFolded_simplifyNot rest,
      Bool.and_self]

end

mutual

/-- Folding changes nothing where nothing is left to fold. -/
theorem simplifyNot_of_isFolded : (e : Expr) → e.isFolded = true → e.simplifyNot = (e, false)
  | .const _, _ => rfl
  | .var v, h => by
    simp only [isFolded] at h
    simp only [simplifyNot, simplifyNotVariable_of_isFolded v h]
  | .call _ args, h => by
    simp only [isFolded] at h
    simp only [simplifyNot, simplifyNotList_of_allFolded args h]
  | .unary .neg operand, h => by
    simp only [isFolded] at h
    simp only [simplifyNot, simplifyNot_of_isFolded operand h]
  | .unary .not operand, h => by
    simp only [isFolded, Bool.and_eq_true, Option.isNone_iff_eq_none] at h
    simp only [simplifyNot, simplifyNot_of_isFolded operand h.1, h.2]
  | .binary _ left right, h => by
    simp only [isFolded, Bool.and_eq_true] at h
    simp only [simplifyNot, simplifyNot_of_isFolded left h.1, simplifyNot_of_isFolded right h.2,
      Bool.or_self]
  | .incoming _, _ => rfl

/-- Folding changes nothing in a variable where nothing is left to fold. -/
theorem simplifyNotVariable_of_isFolded :
    (v : Variable) → variableIsFolded v = true → simplifyNotVariable v = (v, false)
  | ⟨_, owner, index⟩, h => by
    simp only [variableIsFolded, Bool.and_eq_true] at h
    simp only [simplifyNotVariable, simplifyNotOwner_of_isFolded owner h.1,
      simplifyNotOption_of_isFolded index h.2, Bool.or_self]

/-- Folding changes nothing in an owner where nothing is left to fold. -/
theorem simplifyNotOwner_of_isFolded :
    (o : Owner) → ownerIsFolded o = true → simplifyNotOwner o = (o, false)
  | .temporary, _ => rfl
  | .named _, _ => rfl
  | .computed value, h => by
    simp only [ownerIsFolded] at h
    simp only [simplifyNotOwner, simplifyNot_of_isFolded value h]

/-- Folding changes nothing in an optional expression where nothing is left to fold. -/
theorem simplifyNotOption_of_isFolded :
    (e : Option Expr) → optionIsFolded e = true → simplifyNotOption e = (e, false)
  | none, _ => rfl
  | some e, h => by
    simp only [optionIsFolded] at h
    simp only [simplifyNotOption, simplifyNot_of_isFolded e h]

/-- Folding changes nothing in a list of expressions where nothing is left to fold. -/
theorem simplifyNotList_of_allFolded :
    (l : List Expr) → allFolded l = true → simplifyNotList l = (l, false)
  | [], _ => rfl
  | e :: rest, h => by
    simp only [allFolded, Bool.and_eq_true] at h
    simp only [simplifyNotList, simplifyNot_of_isFolded e h.1, simplifyNotList_of_allFolded rest h.2,
      Bool.or_self]

end

/-- Folding twice is folding once. -/
lemma simplifyNot_simplifyNot (e : Expr) : e.simplifyNot.1.simplifyNot.1 = e.simplifyNot.1 := by
  rw [simplifyNot_of_isFolded _ (isFolded_simplifyNot e)]

/-- Folding a negation twice gives back what was negated. -/
lemma foldedNot?_of_isFolded {e : Expr} (h : e.isFolded = true) :
    (foldedNot? ((foldedNot? e).getD (.not e))).getD (.not ((foldedNot? e).getD (.not e))) = e := by
  cases hfold : foldedNot? e with
  | none => rfl
  | some folded =>
    unfold foldedNot? at hfold
    split at hfold
    · cases hfold
      simp only [isFolded, Bool.and_eq_true, Option.isNone_iff_eq_none] at h
      rw [Option.getD_some, h.2]
      rfl
    · obtain ⟨inverse, hinv, rfl⟩ := Option.map_eq_some_iff.mp hfold
      simp only [Option.getD_some, foldedNot?, BinaryOp.inverse?_inverse? hinv, Option.map_some]
    · cases hfold

/-- The negation of a test that is built with inverted comparisons is folded like the plain one. -/
lemma simplifyNot_negate (e : Expr) : e.negate.simplifyNot.1 = (Expr.not e).simplifyNot.1 := by
  unfold negate
  split
  · rename_i op left right
    cases hinv : op.inverse? with
    | none => rfl
    | some inverse =>
      rw [simplifyNot_not]
      simp only [simplifyNot, foldedNot?, hinv, Option.map_some, Option.getD_some]
  · rename_i operand
    have hinner := simplifyNot_not operand
    rw [Expr.not] at hinner
    rw [simplifyNot_not, hinner, foldedNot?_of_isFolded (isFolded_simplifyNot operand)]
  · rfl

/-! ### Polarity -/

/-- The positive form of a test, and whether the test asks for its opposite.  Of two comparisons that
are each other's inverses one counts as positive. -/
def polarity : Expr → Expr × Bool
  | .unary .not operand => (operand.polarity.1, !operand.polarity.2)
  | .binary .ne left right => (.binary .eq left right, true)
  | .binary .ge left right => (.binary .lt left right, true)
  | .binary .gt left right => (.binary .le left right, true)
  | e => (e, false)

/-- Inverting a comparison turns its polarity. -/
lemma polarity_inverse {op inverse : BinaryOp} (h : op.inverse? = some inverse)
    (left right : Expr) :
    (Expr.binary inverse left right).polarity =
      ((Expr.binary op left right).polarity.1, !(Expr.binary op left right).polarity.2) := by
  cases op <;> simp only [BinaryOp.inverse?, Option.some.injEq, reduceCtorEq] at h <;> subst h <;>
    rfl

/-- Folding a negation keeps its polarity. -/
lemma polarity_of_foldedNot? {operand folded : Expr} (h : foldedNot? operand = some folded) :
    folded.polarity = (operand.polarity.1, !operand.polarity.2) := by
  unfold foldedNot? at h
  split at h
  · rw [Option.some.injEq] at h
    subst h
    simp only [polarity, Bool.not_not]
  · obtain ⟨inverse, hinv, rfl⟩ := Option.map_eq_some_iff.mp h
    exact polarity_inverse hinv _ _
  · cases h

/-- The folded negation of a test has the polarity of the test turned. -/
lemma polarity_simplifyNot_not (e : Expr) :
    (Expr.not e).simplifyNot.1.polarity =
      (e.simplifyNot.1.polarity.1, !e.simplifyNot.1.polarity.2) := by
  rw [simplifyNot_not]
  cases hfold : foldedNot? e.simplifyNot.1 with
  | none => rfl
  | some folded => exact polarity_of_foldedNot? hfold

/-- Negating a test and folding turns nothing but its polarity. -/
theorem polarity_simplifyNot_negate (e : Expr) :
    e.negate.simplifyNot.1.polarity =
      (e.simplifyNot.1.polarity.1, !e.simplifyNot.1.polarity.2) := by
  unfold negate
  split
  · rename_i op left right
    cases hinv : op.inverse? with
    | none => exact polarity_simplifyNot_not _
    | some inverse =>
      simp only [simplifyNot]
      exact polarity_inverse hinv _ _
  · rename_i operand
    have h := polarity_simplifyNot_not operand
    rw [Expr.not] at h
    rw [h, Bool.not_not]
  · exact polarity_simplifyNot_not _

end Decompiler.Expr
