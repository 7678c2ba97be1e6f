import Mathlib.Logic.Relation
import Decompiler.Proofs.ExprTrees
import Decompiler.Proofs.FoldedStatements
import Decompiler.Proofs.Negation

/-!
# Values of folded expressions

`Expr.simplifyNot` goes over an expression once, from the leaves up.  What is left is folded in every
part, however deep (`Occurs.isFolded`), and the flag says whether the tree is another one
(`simplifyNot_snd_iff`): a fold takes a negation away and none is ever added, so a tree in which
something was folded cannot come out as it went in.

That nothing is said by the new tree which was not said by the old one is stated over every
`Interpretation`, in which the value of an expression is made of the values inside it.  All that is asked
of `!` is what the folds themselves assume, `Interpretation.Inverts`.  The two facts together, with those
on `Expr.negate`, are `simplifyNot_settles`.
-/

namespace Decompiler

open Bytecode

/-! ### Interpretations -/

/-- What expressions mean: a value for each kind of expression, from the values inside it. -/
structure Interpretation (V : Type) where
  const : Constant → V
  var : VariableOf V → V
  call : String → List V → V
  unary : UnaryOp → V → V
  binary : BinaryOp → V → V → V
  incoming : Nat → V

namespace Interpretation

variable {V : Type} (I : Interpretation V)

mutual

/-- The value of an expression. -/
def eval : Expr → V
  | .const c => I.const c
  | .var v => I.var (evalVariable v)
  | .call name args => I.call name (evalList args)
  | .unary op operand => I.unary op (eval operand)
  | .binary op left right => I.binary op (eval left) (eval right)
  | .incoming i => I.incoming i

/-- A variable with the values that it holds. -/
def evalVariable : Variable → VariableOf V
  | ⟨name, owner, index⟩ => ⟨name, evalOwner owner, evalOption index⟩

/-- An owner with the value that it holds. -/
def evalOwner : Owner → OwnerOf V
  | .temporary => .temporary
  | .named name => .named name
  | .computed value => .computed (eval value)

/-- The value of an optional expression. -/
def evalOption : Option Expr → Option V
  | some e => some (eval e)
  | none => none

/-- The values of a list of expressions. -/
def evalList : List Expr → List V
  | [] => []
  | e :: rest => eval e :: evalList rest

end

/-- The values of a variable are those of the expressions it holds. -/
lemma evalVariable_eq_map (v : Variable) : I.evalVariable v = v.map I.eval := by
  obtain ⟨name, owner, index⟩ := v
  cases owner <;> cases index <;> rfl

/-- The values of a list, one expression after the other. -/
lemma evalList_eq_map (l : List Expr) : I.evalList l = l.map I.eval := by
  induction l with
  | nil => rfl
  | cons e rest ih => rw [evalList, ih, List.map_cons]

/-- Negating twice is doing nothing, and the negation of a comparison is its inverse. -/
structure Inverts : Prop where
  not_not : ∀ e, I.eval (.not (.not e)) = I.eval e
  not_comparison : ∀ {op inverse : BinaryOp}, op.inverse? = some inverse → ∀ left right,
    I.eval (.not (.binary op left right)) = I.eval (.binary inverse left right)

variable {I}

/-- A folded negation has the value of the negation. -/
lemma Inverts.eval_foldedNot? (h : I.Inverts) {operand folded : Expr}
    (hfold : Expr.foldedNot? operand = some folded) : I.eval folded = I.eval (.not operand) := by
  unfold Expr.foldedNot? at hfold
  split at hfold
  · cases hfold
    exact (h.not_not _).symm
  · obtain ⟨inverse, hinverse, rfl⟩ := Option.map_eq_some_iff.mp hfold
    exact (h.not_comparison hinverse _ _).symm
  · cases hfold

/-- Negating an expression gives its negation's value. -/
lemma Inverts.eval_negate (h : I.Inverts) (e : Expr) : I.eval e.negate = I.eval (.not e) := by
  unfold Expr.negate
  split
  · rename_i op left right
    cases hinverse : op.inverse? with
    | none => rfl
    | some inverse => exact (h.not_comparison hinverse left right).symm
  · exact (h.not_not _).symm
  · rfl

/-- Folding keeps the value of an expression. -/
theorem Inverts.eval_simplifyNot (h : I.Inverts) (e : Expr) : I.eval e.simplifyNot.1 = I.eval e := by
  induction e using Expr.tree_induction with
  | const c => rfl
  | incoming i => rfl
  | var v ih =>
    simp only [Expr.simplifyNot, eval, evalVariable_eq_map, Expr.simplifyNotVariable_eq_map,
      VariableOf.map_map]
    rw [VariableOf.map_congr ih]
  | call name args ih =>
    have hargs : (args.map fun e => e.simplifyNot.1).map I.eval = args.map I.eval := by
      rw [List.map_map]
      exact List.map_congr_left ih
    simp only [Expr.simplifyNot, eval, evalList_eq_map, Expr.simplifyNotList_eq_map, hargs]
  | unary op operand ih =>
    cases op with
    | neg => simp only [Expr.simplifyNot, eval, ih]
    | not =>
      have hnot : I.eval (.not operand.simplifyNot.1) = I.eval (.not operand) := by
        simp only [Expr.not, eval, ih]
      change I.eval (Expr.not operand).simplifyNot.1 = I.eval (.not operand)
      rw [Expr.simplifyNot_not]
      cases hfold : Expr.foldedNot? operand.simplifyNot.1 with
      | none => exact hnot
      | some folded => exact (h.eval_foldedNot? hfold).trans hnot
  | binary op left right ihLeft ihRight => simp only [Expr.simplifyNot, eval, ihLeft, ihRight]

end Interpretation

/-! ### Parts of an expression -/

namespace Expr

/-- The first expression is the second one or stands somewhere in it. -/
def Occurs : Expr → Expr → Prop :=
  Relation.ReflTransGen fun part e => part ∈ e.children

/-- A variable is folded where all that it holds is. -/
lemma variableIsFolded_eq_all (v : Variable) : variableIsFolded v = v.children.all isFolded := by
  obtain ⟨name, owner, index⟩ := v
  cases owner <;> cases index <;>
    simp [variableIsFolded, ownerIsFolded, optionIsFolded, VariableOf.children, OwnerOf.children]

/-- A list is folded where all of its expressions are. -/
lemma allFolded_eq_all (l : List Expr) : allFolded l = l.all isFolded := by
  induction l with
  | nil => rfl
  | cons e rest ih => rw [allFolded, ih, List.all_cons]

/-- What is directly inside a folded expression is folded. -/
lemma isFolded_of_mem_children {part e : Expr} (h : e.isFolded = true) (hpart : part ∈ e.children) :
    part.isFolded = true := by
  cases e with
  | const c => cases hpart
  | incoming i => cases hpart
  | var v =>
    rw [isFolded, variableIsFolded_eq_all] at h
    exact List.all_eq_true.mp h part hpart
  | call name args =>
    rw [isFolded, allFolded_eq_all] at h
    exact List.all_eq_true.mp h part hpart
  | unary op operand =>
    rw [List.mem_singleton.mp hpart]
    cases op with
    | neg => exact h
    | not =>
      rw [isFolded, Bool.and_eq_true] at h
      exact h.1
  | binary op left right =>
    rw [isFolded, Bool.and_eq_true] at h
    rcases List.mem_cons.mp hpart with rfl | hpart
    · exact h.1
    · rw [List.mem_singleton.mp hpart]
      exact h.2

/-- Every part of a folded expression is folded. -/
lemma Occurs.isFolded {part e : Expr} (hpart : Occurs part e) (h : e.isFolded = true) :
    part.isFolded = true := by
  induction hpart using Relation.ReflTransGen.head_induction_on with
  | refl => exact h
  | head hstep _ ih => exact isFolded_of_mem_children ih hstep

/-- Where the flag is not raised the tree is left as it is. -/
lemma simplifyNot_of_snd {e : Expr} (h : e.simplifyNot.2 = false) : e.simplifyNot.1 = e := by
  induction e using tree_induction with
  | const c => rfl
  | incoming i => rfl
  | var v ih =>
    have hflag : (v.children.any fun e => e.simplifyNot.2) = false :=
      (simplifyNotVariable_snd_eq_any v).symm.trans h
    have hsame : ∀ e ∈ v.children, e.simplifyNot.1 = id e := fun e he =>
      ih e he ((Bool.not_eq_true _).mp (List.any_eq_false.mp hflag e he))
    simp only [simplifyNot, simplifyNotVariable_eq_map]
    rw [VariableOf.map_congr hsame, VariableOf.map_id]
  | call name args ih =>
    have hflag : (args.any fun e => e.simplifyNot.2) = false :=
      (simplifyNotList_snd_eq_any args).symm.trans h
    have hsame : ∀ e ∈ args, e.simplifyNot.1 = id e := fun e he =>
      ih e he ((Bool.not_eq_true _).mp (List.any_eq_false.mp hflag e he))
    simp only [simplifyNot, simplifyNotList_eq_map]
    rw [List.map_congr_left hsame, List.map_id]
  | unary op operand ih =>
    cases op with
    | neg => exact congrArg (Expr.unary .neg) (ih h)
    | not =>
      simp only [simplifyNot] at h ⊢
      cases hfold : foldedNot? operand.simplifyNot.1 with
      | none =>
        rw [hfold] at h
        exact congrArg Expr.not (ih h)
      | some folded =>
        rw [hfold] at h
        cases h
  | binary op left right ihLeft ihRight =>
    obtain ⟨hleft, hright⟩ := Bool.or_eq_false_iff.mp h
    exact congrArg₂ (Expr.binary op) (ihLeft hleft) (ihRight hright)

/-- The flag of a fold says whether the tree has changed. -/
lemma simplifyNot_snd_iff (e : Expr) : e.simplifyNot.2 = true ↔ e.simplifyNot.1 ≠ e := by
  constructor
  · intro hflag heq
    have hle := nots_simplifyNot e
    rw [hflag, heq, Bool.toNat_true] at hle
    omega
  · -- A tree that has changed was not folded, and what is not folded is what the flag is raised for.
    intro hne
    by_contra hflag
    exact hne (simplifyNot_of_snd ((Bool.not_eq_true _).mp hflag))

/-- One pass of folding leaves no negation of a negation or of a comparison in any part of an expression,
and a second pass has nothing to do.  The flag says whether the tree has changed.  Where `!` undoes itself
and inverts comparisons, folding keeps the value of the expression, and `negate` gives the value of its
negation. -/
theorem simplifyNot_settles (e : Expr) :
    (∀ part, Occurs part e.simplifyNot.1 →
      (∀ operand, part ≠ .not (.not operand)) ∧
        ∀ op left right, op.isComparison = true → part ≠ .not (.binary op left right)) ∧
    (e.simplifyNot.2 = true ↔ e.simplifyNot.1 ≠ e) ∧
    e.simplifyNot.1.simplifyNot.2 = false ∧
    ∀ (V : Type) (I : Interpretation V), I.Inverts →
      I.eval e.simplifyNot.1 = I.eval e ∧ I.eval e.negate = I.eval (.not e) := by
  refine ⟨fun part hpart => ⟨?_, ?_⟩, simplifyNot_snd_iff e, ?_, ?_⟩
  · rintro operand rfl
    have hfolded := hpart.isFolded (isFolded_simplifyNot e)
    simp [Expr.not, isFolded, foldedNot?] at hfolded
  · rintro op left right hop rfl
    have hfolded := hpart.isFolded (isFolded_simplifyNot e)
    obtain ⟨inverse, hinverse⟩ := Option.isSome_iff_exists.mp hop
    simp [Expr.not, isFolded, foldedNot?, hinverse] at hfolded
  · rw [simplifyNot_of_isFolded _ (isFolded_simplifyNot e)]
  · exact fun V I h => ⟨h.eval_simplifyNot e, h.eval_negate e⟩

/-- Truth values, ordered with the false one below. -/
def truths : Interpretation Bool where
  const c := c.integer? != some 0
  var v := v.index.getD false
  call _ args := args.all id
  unary
    | .not, a => !a
    | .neg, a => a
  binary
    | .lt, a, b | .sub, a, b => b && !a
    | .gt, a, b => a && !b
    | .le, a, b => b || !a
    | .ge, a, b => a || !b
    | .eq, a, b => a == b
    | .ne, a, b => a != b
    | .or, a, b | .add, a, b => a || b
    | _, a, b => a && b
  incoming i := i == 0

/-- Negations in the owner and in the index of a variable and in the argument of a call. -/
def nestedTests : Expr :=
  .call "f"
    [.not (.not (.incoming 0)),
      .var
        { name := "x"
          owner := .computed (.not (.binary .eq (.incoming 0) (.int 1)))
          index := some (.not (.binary .lt (.incoming 1) (.not (.not (.incoming 0))))) }]

/-- All of them are folded, and the value of the call is the same. -/
theorem nestedTests_settled :
    truths.Inverts ∧
    nestedTests.simplifyNot =
      (.call "f"
        [.incoming 0,
          .var
            { name := "x"
              owner := .computed (.binary .ne (.incoming 0) (.int 1))
              index := some (.binary .ge (.incoming 1) (.incoming 0)) }], true) ∧
    nestedTests.simplifyNot.1 ≠ nestedTests ∧
    truths.eval nestedTests.simplifyNot.1 = truths.eval nestedTests ∧
    truths.eval nestedTests.negate = !truths.eval nestedTests := by
  have hinverts : truths.Inverts := by
    refine ⟨fun e => Bool.not_not _, ?_⟩
    intro op inverse hinverse left right
    have hcompare : ∀ a b : Bool, (!truths.binary op a b) = truths.binary inverse a b := by
      cases op <;> simp only [BinaryOp.inverse?, Option.some.injEq, reduceCtorEq] at hinverse <;>
        subst hinverse <;> decide
    exact hcompare _ _
  obtain ⟨-, hflag, -, hvalues⟩ := simplifyNot_settles nestedTests
  obtain ⟨hsame, hnegate⟩ := hvalues Bool truths hinverts
  exact ⟨hinverts, rfl, hflag.mp rfl, hsame, hnegate⟩

end Expr

end Decompiler
