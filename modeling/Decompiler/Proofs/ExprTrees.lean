import Mathlib.Tactic.Lemma
import Decompiler.Proofs.StackSimulation

/-!
# Trees of expressions

Expressions are nested in variables, in their owners and indices, and in the arguments of calls.
`Expr.tree_induction` is the induction over all of them that has one case for each kind of expression,
with the claim for everything directly inside it.  What the recursive functions on expressions do to
variables and to lists is said by `VariableOf.map` and by the functions on lists.
-/

namespace Decompiler

namespace OwnerOf

variable {α β γ : Type}

/-- Maps the value that an owner holds. -/
def map (f : α → β) : OwnerOf α → OwnerOf β
  | .temporary => .temporary
  | .named name => .named name
  | .computed value => .computed (f value)

end OwnerOf

namespace VariableOf

variable {α β γ : Type}

/-- Maps the values that a variable holds. -/
def map (f : α → β) (v : VariableOf α) : VariableOf β :=
  ⟨v.name, v.owner.map f, v.index.map f⟩

/-- What is mapped depends on the values that the variable holds. -/
lemma map_congr {f g : α → β} {v : VariableOf α} (h : ∀ e ∈ v.children, f e = g e) :
    v.map f = v.map g := by
  obtain ⟨name, owner, index⟩ := v
  cases owner <;> cases index <;> simp_all [map, OwnerOf.map, children, OwnerOf.children]

/-- Mapping nothing. -/
lemma map_id (v : VariableOf α) : v.map id = v := by
  obtain ⟨name, owner, index⟩ := v
  cases owner <;> cases index <;> rfl

/-- Mapping twice is mapping once. -/
lemma map_map (f : α → β) (g : β → γ) (v : VariableOf α) :
    (v.map f).map g = v.map fun e => g (f e) := by
  obtain ⟨name, owner, index⟩ := v
  cases owner <;> cases index <;> rfl

end VariableOf

namespace Expr

/-- Induction over the expressions directly inside an expression. -/
@[elab_as_elim]
theorem tree_induction {P : Expr → Prop} (const : ∀ c, P (.const c))
    (var : ∀ v : Variable, (∀ e ∈ v.children, P e) → P (.var v))
    (call : ∀ name args, (∀ e ∈ args, P e) → P (.call name args))
    (unary : ∀ op operand, P operand → P (.unary op operand))
    (binary : ∀ op left right, P left → P right → P (.binary op left right))
    (incoming : ∀ i, P (.incoming i)) (e : Expr) : P e := by
  refine @Expr.rec P (fun v => ∀ e ∈ v.children, P e) (fun l => ∀ e ∈ l, P e)
    (fun o => ∀ e ∈ o.children, P e) (fun o => ∀ e ∈ o.toList, P e) const var call unary binary
    incoming ?held ?nil ?cons ?temporary ?named ?computed ?none ?some e
  case held =>
    intro _ _ _ howner hindex
    exact List.forall_mem_append.mpr ⟨howner, hindex⟩
  case nil => exact List.forall_mem_nil P
  case cons => exact fun _ _ he hrest => List.forall_mem_cons.mpr ⟨he, hrest⟩
  case temporary => exact List.forall_mem_nil P
  case named => exact fun _ => List.forall_mem_nil P
  case computed => exact fun _ he => List.forall_mem_singleton.mpr he
  case none => exact List.forall_mem_nil P
  case some => exact fun _ he => List.forall_mem_singleton.mpr he

/-! ### Mentioned expressions -/

open StackMachine in
/-- What is mentioned in a list is mentioned in one of its expressions. -/
lemma anyMentions_eq_any (test : Expr → Bool) (l : List Expr) :
    anyMentions test l = l.any (mentions test) := by
  induction l with
  | nil => rfl
  | cons e rest ih => rw [anyMentions, ih, List.any_cons]

open StackMachine in
/-- What is mentioned in a variable is mentioned in something that it holds. -/
lemma variableMentions_eq_any (test : Expr → Bool) (v : Variable) :
    variableMentions test v = v.children.any (mentions test) := by
  obtain ⟨name, owner, index⟩ := v
  cases owner <;> cases index <;>
    simp [variableMentions, ownerMentions, optionMentions, VariableOf.children, OwnerOf.children]

open StackMachine in
/-- What is mentioned directly inside an expression is mentioned in the expression. -/
lemma mentions_of_mem_children {test : Expr → Bool} {e child : Expr} (hchild : child ∈ e.children)
    (h : mentions test child = true) : mentions test e = true := by
  cases e with
  | const c => cases hchild
  | var v =>
    have hany : v.children.any (mentions test) = true := List.any_eq_true.mpr ⟨child, hchild, h⟩
    rw [mentions, variableMentions_eq_any, hany, Bool.or_true]
  | call name args =>
    have hany : args.any (mentions test) = true := List.any_eq_true.mpr ⟨child, hchild, h⟩
    rw [mentions, anyMentions_eq_any, hany, Bool.or_true]
  | unary op operand =>
    rw [List.mem_singleton.mp hchild] at h
    rw [mentions, h, Bool.or_true]
  | binary op left right =>
    obtain rfl | hchild := List.mem_cons.mp hchild
    · rw [mentions, h, Bool.true_or, Bool.or_true]
    · rw [List.mem_singleton.mp hchild] at h
      rw [mentions, h, Bool.or_true, Bool.or_true]
  | incoming i => cases hchild

/-! ### Incoming values -/

/-- A variable mentions incoming values where something that it holds does. -/
lemma variableUsesIncoming_eq_any (v : Variable) :
    variableUsesIncoming v = v.children.any usesIncoming := by
  obtain ⟨name, owner, index⟩ := v
  cases owner <;> cases index <;>
    simp [variableUsesIncoming, ownerUsesIncoming, optionUsesIncoming, VariableOf.children,
      OwnerOf.children]

/-- A list mentions incoming values where one of its expressions does. -/
lemma anyUsesIncoming_eq_any (l : List Expr) : anyUsesIncoming l = l.any usesIncoming := by
  induction l with
  | nil => rfl
  | cons e rest ih => rw [anyUsesIncoming, ih, List.any_cons]

section Substitute

variable (values : List Expr)

/-- Substitution in a variable reaches what it holds. -/
lemma substituteVariable_eq_map (v : Variable) :
    substituteVariable values v = v.map (substitute values) := by
  obtain ⟨name, owner, index⟩ := v
  cases owner <;> cases index <;> rfl

/-- Substitution in a list reaches each expression of it. -/
lemma substituteList_eq_map (l : List Expr) : substituteList values l = l.map (substitute values) := by
  induction l with
  | nil => rfl
  | cons e rest ih => rw [substituteList, ih, List.map_cons]

end Substitute

/-! ### Folded negations -/

/-- Folding in a variable reaches what it holds. -/
lemma simplifyNotVariable_eq_map (v : Variable) :
    (simplifyNotVariable v).1 = v.map fun e => e.simplifyNot.1 := by
  obtain ⟨name, owner, index⟩ := v
  cases owner <;> cases index <;> rfl

/-- Folding in a list reaches each expression of it. -/
lemma simplifyNotList_eq_map (l : List Expr) :
    (simplifyNotList l).1 = l.map fun e => e.simplifyNot.1 := by
  induction l with
  | nil => rfl
  | cons e rest ih => rw [simplifyNotList, List.map_cons, ← ih]

end Expr

end Decompiler
