/-!
# Finite sets of numbers

Sets of small numbers as bit masks: a number is a member when its bit is set.  Membership is the
view; `mem_insert`, `mem_erase`, `mem_filter` and `mem_toList` say what the operations do to it.
-/

namespace Decompiler

/-- A finite set of numbers. -/
structure NodeSet where
  mask : Nat := 0
deriving DecidableEq, Repr

namespace NodeSet

/-- Whether a number is in the set. -/
def mem (s : NodeSet) (n : Nat) : Bool :=
  s.mask.testBit n

/-- The set without members. -/
def empty : NodeSet := {}

/-- Whether the set has no members. -/
def isEmpty (s : NodeSet) : Bool :=
  s.mask == 0

/-- The set with one more member. -/
def insert (s : NodeSet) (n : Nat) : NodeSet :=
  ⟨s.mask ||| 1 <<< n⟩

/-- The set without one of its members. -/
def erase (s : NodeSet) (n : Nat) : NodeSet :=
  if s.mem n then ⟨s.mask ^^^ 1 <<< n⟩ else s

/-- The set of the members of a list. -/
def ofList (list : List Nat) : NodeSet :=
  list.foldl insert empty

/-- The members in ascending order. -/
def toList (s : NodeSet) : List Nat :=
  (List.range (s.mask.log2 + 1)).filter s.mem

/-- The members that pass a test. -/
def filter (test : Nat → Bool) (s : NodeSet) : NodeSet :=
  ofList (s.toList.filter test)

/-- The members of one set and of another. -/
def union (s t : NodeSet) : NodeSet :=
  ⟨s.mask ||| t.mask⟩

@[simp] theorem mem_empty (n : Nat) : empty.mem n = false := by
  simp [mem, empty]

@[simp] theorem mem_insert (s : NodeSet) (m n : Nat) :
    (s.insert m).mem n = (s.mem n || decide (m = n)) := by
  simp [mem, insert, Nat.testBit_or, Nat.one_shiftLeft, Nat.testBit_two_pow]

@[simp] theorem mem_union (s t : NodeSet) (n : Nat) : (s.union t).mem n = (s.mem n || t.mem n) := by
  simp [mem, union, Nat.testBit_or]

@[simp] theorem mem_erase (s : NodeSet) (m n : Nat) :
    (s.erase m).mem n = (s.mem n && decide (m ≠ n)) := by
  unfold erase
  split
  · rename_i h
    by_cases hmn : m = n
    · subst hmn
      simp only [mem] at h
      simp [mem, Nat.testBit_xor, Nat.one_shiftLeft, h]
    · simp [mem, Nat.testBit_xor, Nat.one_shiftLeft, hmn]
  · rename_i h
    by_cases hmn : m = n
    · subst hmn
      simpa using h
    · simp [hmn]

/-- A member of a set lies below the length of its mask. -/
theorem lt_of_mem {s : NodeSet} {n : Nat} (h : s.mem n = true) : n < s.mask.log2 + 1 := by
  have hle : 2 ^ n ≤ s.mask := Nat.ge_two_pow_of_testBit h
  have hne : s.mask ≠ 0 := by
    intro h0
    rw [h0] at hle
    exact absurd (Nat.two_pow_pos n) (by omega)
  exact Nat.lt_succ_of_le ((Nat.le_log2 hne).2 hle)

@[simp] theorem mem_toList (s : NodeSet) (n : Nat) : n ∈ s.toList ↔ s.mem n = true := by
  simp only [toList, List.mem_filter, List.mem_range]
  exact ⟨fun h => h.2, fun h => ⟨lt_of_mem h, h⟩⟩

/-- A set lists each of its members once. -/
theorem nodup_toList (s : NodeSet) : s.toList.Nodup :=
  List.nodup_range.filter _

@[simp] theorem mem_ofList (list : List Nat) (n : Nat) :
    (ofList list).mem n = list.contains n := by
  have hfold : ∀ s : NodeSet, (list.foldl insert s).mem n = (s.mem n || list.contains n) := by
    induction list with
    | nil => simp
    | cons m rest ih =>
      intro s
      rw [List.foldl_cons, ih, mem_insert, List.contains_cons, Bool.or_assoc]
      by_cases h : m = n
      · simp [h]
      · have hne : (n == m) = false := beq_false_of_ne (Ne.symm h)
        simp [h, hne]
  simp [ofList, hfold]

@[simp] theorem mem_filter (test : Nat → Bool) (s : NodeSet) (n : Nat) :
    (s.filter test).mem n = (s.mem n && test n) := by
  rw [Bool.eq_iff_iff]
  simp [filter]

end NodeSet

end Decompiler
