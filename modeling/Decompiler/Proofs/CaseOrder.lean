import Mathlib.Algebra.Field.Rat
import Mathlib.Algebra.Order.Field.Basic
import Mathlib.Algebra.Order.Field.Power
import Mathlib.Algebra.Order.Ring.Rat
import Mathlib.Data.String.Basic
import Mathlib.Data.Sum.Order
import Mathlib.Order.WithBot
import Mathlib.Tactic.Lemma
import Decompiler.Flow.Conditions

/-!
# The order of case constants

Constants are compared as exact numbers, and texts come behind all numbers.  As long as no constant is a
NaN this is the order of a key (`Constant.key`): a rational number or an infinity, or else the text.

A list that is sorted by such an order is in the order of the keys, and elements with the same key stay as
they were (`pairwise_stableSort`).
-/

namespace Decompiler

/-! ### Exact numbers -/

namespace Decimal

/-- The number as a fraction. -/
def SignedBinary.toRat (x : SignedBinary) : ℚ :=
  x.signedSignificand * 2 ^ x.exponent

/-- A number with its last bits moved in front of a smaller exponent. -/
lemma SignedBinary.toRat_eq (x : SignedBinary) {low : Int} (hlow : low ≤ x.exponent) :
    x.toRat = ((x.signedSignificand * Int.pow 2 (x.exponent - low).toNat : Int) : ℚ) * 2 ^ low := by
  have hpow : (2 : ℚ) ^ x.exponent = 2 ^ (x.exponent - low).toNat * 2 ^ low := by
    rw [← zpow_natCast, ← zpow_add₀ two_ne_zero, Int.toNat_of_nonneg (by omega)]
    congr 1
    omega
  have hint : ((Int.pow 2 (x.exponent - low).toNat : Int) : ℚ) = 2 ^ (x.exponent - low).toNat :=
    by exact_mod_cast rfl
  rw [toRat, hpow, Int.cast_mul, hint, mul_assoc]

/-- The order of numbers is that of the fractions. -/
lemma SignedBinary.compare_eq_lt_iff (x y : SignedBinary) :
    x.compare y = .lt ↔ x.toRat < y.toRat := by
  have hpos : (0 : ℚ) < 2 ^ min x.exponent y.exponent := zpow_pos two_pos _
  rw [SignedBinary.compare, x.toRat_eq (min_le_left _ y.exponent),
    y.toRat_eq (min_le_right x.exponent _), mul_lt_mul_iff_of_pos_right hpos, Int.cast_lt]
  exact compare_lt_iff_lt

/-- The place of a value among the numbers and the infinities.  What is no number has none. -/
def BinaryValue.key : BinaryValue → WithBot (WithTop ℚ)
  | .nan | .infinite true => ⊥
  | .infinite false => ((⊤ : WithTop ℚ) : WithBot (WithTop ℚ))
  | .finite x => ((x.toRat : WithTop ℚ) : WithBot (WithTop ℚ))

/-- The order of values that are numbers is that of their keys. -/
lemma BinaryValue.compare?_eq_lt_iff {x y : BinaryValue} (hx : x ≠ .nan) (hy : y ≠ .nan) :
    (x.compare? y).getD .eq = .lt ↔ x.key < y.key := by
  cases x with
  | nan => exact absurd rfl hx
  | infinite a =>
    cases y with
    | nan => exact absurd rfl hy
    | infinite b => cases a <;> cases b <;> simp [compare?, key]
    | finite y => cases a <;> simp [compare?, key]
  | finite x =>
    cases y with
    | nan => exact absurd rfl hy
    | infinite b =>
      cases b with
      | false =>
        have hlt := WithBot.coe_lt_coe.mpr (WithTop.coe_lt_top x.toRat)
        simpa [compare?, key] using hlt
      | true => simp [compare?, key]
    | finite y => simpa [compare?, key] using x.compare_eq_lt_iff y

end Decimal

namespace Bytecode.Constant

/-- A constant that is no NaN. -/
def IsOrdered (c : Constant) : Prop :=
  c.number? ≠ some .nan

/-- The place of a constant: that of its number, or else that of its text behind all numbers. -/
def key (c : Constant) : WithBot (WithTop ℚ) ⊕ₗ String :=
  match c.number?, c with
  | some x, _ => toLex (.inl x.key)
  | none, .string s => toLex (.inr s)
  | none, _ => toLex (.inl ⊥)

/-- A constant without a number is a text. -/
lemma exists_text {c : Constant} (h : c.number? = none) : ∃ s, c = .string s := by
  cases c with
  | string s => exact ⟨s, rfl⟩
  | _ => cases h

/-- The order of constants that are no NaN is that of their keys. -/
lemma caseOrder_eq_lt_iff {a b : Constant} (ha : a.IsOrdered) (hb : b.IsOrdered) :
    a.caseOrder b = .lt ↔ a.key < b.key := by
  unfold IsOrdered at ha hb
  cases hx : a.number? with
  | none =>
    obtain ⟨s, rfl⟩ := exists_text hx
    cases hy : b.number? with
    | none =>
      obtain ⟨t, rfl⟩ := exists_text hy
      simp only [caseOrder, key, number?, Sum.Lex.toLex_lt_toLex, Sum.lex_inr_inr]
      exact compare_lt_iff_lt
    | some y => simp [caseOrder, key, hx, hy]
  | some x =>
    cases hy : b.number? with
    | none =>
      obtain ⟨t, rfl⟩ := exists_text hy
      simp [caseOrder, key, hx, hy]
    | some y =>
      rw [hx, Ne, Option.some.injEq] at ha
      rw [hy, Ne, Option.some.injEq] at hb
      simpa [caseOrder, key, hx, hy] using Decimal.BinaryValue.compare?_eq_lt_iff ha hb

end Bytecode.Constant

namespace Conditions

open Bytecode

/-- A case value that has a place in the order: a constant that is no NaN. -/
def IsOrdered (value : Expr) : Prop :=
  ∃ c, value.constant? = some c ∧ c.IsOrdered

/-- The place of a case value. -/
def valueKey (value : Expr) : WithBot (WithTop ℚ) ⊕ₗ String :=
  match value.constant? with
  | some c => c.key
  | none => toLex (.inl ⊥)

/-- The order of case values is that of their keys. -/
lemma valueBefore_iff {a b : Expr} (ha : IsOrdered a) (hb : IsOrdered b) :
    valueBefore a b = true ↔ valueKey a < valueKey b := by
  obtain ⟨c, hc, hcOrdered⟩ := ha
  obtain ⟨d, hd, hdOrdered⟩ := hb
  rw [valueBefore, valueKey, valueKey, hc, hd, ← Constant.caseOrder_eq_lt_iff hcOrdered hdOrdered]
  simp

end Conditions

/-! ### Sorting by keys -/

section Sorting

variable {α κ : Type} [LinearOrder κ] {less : α → α → Bool} {key : α → κ}

/-- Putting an element into a list that is in descending order, with the later ones of the same key in
front. -/
lemma pairwise_insertDescending_key {before : α → α → Prop} {x : α} {sorted : List α}
    (hless : ∀ y ∈ sorted, less x y = true ↔ key x < key y) (hbefore : ∀ y ∈ sorted, before y x)
    (h : sorted.Pairwise fun a b => key b < key a ∨ key b = key a ∧ before b a) :
    (insertDescending less x sorted).Pairwise fun a b => key b < key a ∨ key b = key a ∧ before b a := by
  induction sorted with
  | nil => exact List.pairwise_singleton _ x
  | cons y rest ih =>
    obtain ⟨hy, hrest⟩ := List.pairwise_cons.mp h
    obtain ⟨hlessY, hlessRest⟩ := List.forall_mem_cons.mp hless
    obtain ⟨hbeforeY, hbeforeRest⟩ := List.forall_mem_cons.mp hbefore
    rw [insertDescending]
    split
    · rename_i hxy
      refine List.pairwise_cons.mpr ⟨fun z hz => ?_, ih hlessRest hbeforeRest hrest⟩
      rcases List.mem_cons.mp ((perm_insertDescending less x rest).mem_iff.mp hz) with rfl | hz
      · exact .inl (hlessY.mp hxy)
      · exact hy z hz
    · rename_i hxy
      have hyx : key y ≤ key x := not_lt.mp fun hlt => hxy (hlessY.mpr hlt)
      have hle : ∀ z ∈ y :: rest, key z ≤ key x := by
        refine List.forall_mem_cons.mpr ⟨hyx, fun z hz => ?_⟩
        rcases hy z hz with hlt | ⟨heq, -⟩
        · exact hlt.le.trans hyx
        · exact heq.le.trans hyx
      refine List.pairwise_cons.mpr ⟨fun z hz => ?_, h⟩
      exact (hle z hz).lt_or_eq.imp_right fun heq => ⟨heq, hbefore z hz⟩

/-- A sorted list is in the order of the keys, and elements with the same key are in the order in which
they were. -/
theorem pairwise_stableSort {before : α → α → Prop} {list : List α}
    (hless : ∀ a ∈ list, ∀ b ∈ list, less a b = true ↔ key a < key b) (hbefore : list.Pairwise before) :
    (stableSort less list).Pairwise fun a b => key a < key b ∨ key a = key b ∧ before a b := by
  -- The elements that have been put in are a part of the list, and stand before those that have not.
  have hfold : ∀ (rest sorted : List α), (∀ a ∈ rest, ∀ b ∈ sorted ++ rest, less a b = true ↔ key a < key b) →
      rest.Pairwise before → (∀ a ∈ sorted, ∀ b ∈ rest, before a b) →
      (sorted.Pairwise fun a b => key b < key a ∨ key b = key a ∧ before b a) →
      (rest.foldl (fun sorted x => insertDescending less x sorted) sorted).Pairwise
        fun a b => key b < key a ∨ key b = key a ∧ before b a := by
    intro rest
    induction rest with
    | nil => exact fun sorted _ _ _ h => h
    | cons x rest ih =>
      intro sorted hless hrest hsorted h
      obtain ⟨hx, hrest⟩ := List.pairwise_cons.mp hrest
      have hperm := perm_insertDescending less x sorted
      have hmem : ∀ b, b ∈ insertDescending less x sorted ++ rest → b ∈ sorted ++ x :: rest := by
        intro b hb
        simp only [List.mem_append, hperm.mem_iff, List.mem_cons] at hb ⊢
        tauto
      rw [List.foldl_cons]
      refine ih _ ?_ hrest ?_ ?_
      · exact fun a ha b hb => hless a (List.mem_cons_of_mem _ ha) b (hmem b hb)
      · intro a ha b hb
        rcases List.mem_cons.mp (hperm.mem_iff.mp ha) with rfl | ha
        · exact hx b hb
        · exact hsorted a ha b (List.mem_cons_of_mem _ hb)
      · refine pairwise_insertDescending_key ?_ (fun y hy => hsorted y hy x List.mem_cons_self) h
        exact fun y hy => hless x List.mem_cons_self y (List.mem_append_left _ hy)
  exact List.pairwise_reverse.mpr (hfold list [] hless hbefore (by simp) .nil)

end Sorting

end Decompiler
