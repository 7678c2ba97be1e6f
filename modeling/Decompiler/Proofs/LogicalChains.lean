import Decompiler.Proofs.FusedConditions

/-!
# Chains of logical operators

`Expr.leftAssociate` rebuilds the tree of logical operators at the root of an expression so that no
operator stands to the right of one of its kind (`leansLeft_leftAssociate`).  Both halves of a chain are
rebuilt before they are joined, and joining takes the right half apart again link by link; the induction
follows `Expr.joinLeft`, and what it needs of the right half is only that it leans to the left itself.

The rest is kept: the operands of the tree and their order (`operands_leftAssociate`), which operands
each operator groups (`chain_leftAssociate`), and what is asked, in which order and with what answer,
where the operators stop at the first operand that decides (`question_leftAssociate`).
-/

namespace Decompiler.Expr

/-! ### Operands -/

/-- The operands of the tree of logical operators at the root of an expression, from left to right. -/
def operands : Expr → List Expr
  | .binary op left right =>
    if op.isLogical then left.operands ++ right.operands else [.binary op left right]
  | e => [e]

/-- The operands of the chain of one operator at the root of an expression, from left to right. -/
def chain (op : BinaryOp) : Expr → List Expr
  | .binary inner left right =>
    if inner = op then chain op left ++ chain op right else [.binary inner left right]
  | e => [e]

/-- The first expression is reached from the root of the second one through logical operators. -/
inductive InTree (part : Expr) : Expr → Prop
  | root : InTree part part
  | left {op : BinaryOp} {left right : Expr} :
    op.isLogical = true → InTree part left → InTree part (.binary op left right)
  | right {op : BinaryOp} {left right : Expr} :
    op.isLogical = true → InTree part right → InTree part (.binary op left right)

/-- Whether an operator stands at the root of an expression. -/
def isJoinedBy (op : BinaryOp) : Expr → Bool
  | .binary inner _ _ => inner == op
  | _ => false

/-- Whether no logical operator in the tree at the root stands to the right of one of its kind. -/
def leansLeft : Expr → Bool
  | .binary op left right =>
    !op.isLogical || left.leansLeft && right.leansLeft && !right.isJoinedBy op
  | _ => true

/-- A logical operator leans to the left where its operands do and the right one is no link of the same
chain. -/
lemma leansLeft_binary {op : BinaryOp} (h : op.isLogical = true) (left right : Expr) :
    (binary op left right).leansLeft = true ↔
      left.leansLeft = true ∧ right.leansLeft = true ∧ right.isJoinedBy op = false := by
  simp [leansLeft, h, and_assoc]

/-- In a tree that leans to the left no operator stands to the right of one of its kind. -/
lemma InTree.ne_binary {op : BinaryOp} {left right e : Expr} (h : InTree (.binary op left right) e)
    (hop : op.isLogical = true) (he : e.leansLeft = true) (a b : Expr) : right ≠ .binary op a b := by
  induction h with
  | root =>
    rintro rfl
    simp [leansLeft_binary hop, isJoinedBy] at he
  | left hlogical _ ih => exact ih ((leansLeft_binary hlogical _ _).mp he).1
  | right hlogical _ ih => exact ih ((leansLeft_binary hlogical _ _).mp he).2.1

section Join

variable {op : BinaryOp} (h : op.isLogical = true) (left right : Expr)
include h

/-- Joining puts the operands of the right half behind those of the left half. -/
lemma operands_joinLeft : (joinLeft op left right).operands = left.operands ++ right.operands := by
  induction left, right using joinLeft.induct op with
  | case1 left a b ihInner ihOuter =>
    rw [joinLeft, if_pos rfl, ihOuter, ihInner, operands.eq_def (.binary op a b)]
    simp only [h, if_true, List.append_assoc]
  | case2 left inner a b hne =>
    rw [joinLeft, if_neg hne]
    simp only [operands, h, if_true]
  | case3 left right hne =>
    rw [joinLeft]
    · simp only [operands, h, if_true]
    · exact hne

omit h in
/-- What is joined is joined by the operator. -/
lemma joinLeft_eq_binary : ∃ left' right', joinLeft op left right = .binary op left' right' := by
  induction left, right using joinLeft.induct op with
  | case1 left a b ihInner ihOuter =>
    rw [joinLeft, if_pos rfl]
    exact ihOuter
  | case2 left inner a b hne =>
    rw [joinLeft, if_neg hne]
    exact ⟨_, _, rfl⟩
  | case3 left right hne =>
    rw [joinLeft]
    · exact ⟨_, _, rfl⟩
    · exact hne

omit h in
/-- Joining makes one chain of two. -/
lemma chain_joinLeft : chain op (joinLeft op left right) = chain op left ++ chain op right := by
  induction left, right using joinLeft.induct op with
  | case1 left a b ihInner ihOuter =>
    rw [joinLeft, if_pos rfl, ihOuter, ihInner, chain.eq_def op (.binary op a b)]
    simp only [if_true, List.append_assoc]
  | case2 left inner a b hne =>
    rw [joinLeft, if_neg hne]
    simp only [chain, if_true]
  | case3 left right hne =>
    rw [joinLeft]
    · simp only [chain, if_true]
    · exact hne

/-- Joining what leans to the left gives what leans to the left. -/
lemma leansLeft_joinLeft (hleft : left.leansLeft = true) (hright : right.leansLeft = true) :
    (joinLeft op left right).leansLeft = true := by
  induction left, right using joinLeft.induct op with
  | case1 left a b ihInner ihOuter =>
    obtain ⟨ha, hb, -⟩ := (leansLeft_binary h a b).mp hright
    rw [joinLeft, if_pos rfl]
    exact ihOuter (ihInner hleft ha) hb
  | case2 left inner a b hne =>
    rw [joinLeft, if_neg hne]
    exact (leansLeft_binary h _ _).mpr ⟨hleft, hright, beq_false_of_ne hne⟩
  | case3 left right hne =>
    rw [joinLeft]
    · refine (leansLeft_binary h _ _).mpr ⟨hleft, hright, ?_⟩
      cases right with
      | binary inner a b => exact absurd rfl (hne inner a b)
      | _ => rfl
    · exact hne

omit h in
/-- A right half that is no link of the chain is joined as it is. -/
lemma joinLeft_of_isJoinedBy (hright : right.isJoinedBy op = false) :
    joinLeft op left right = .binary op left right := by
  cases right with
  | binary inner a b => rw [joinLeft, if_neg (ne_of_beq_false hright)]
  | _ => rfl

end Join

/-- A logical expression stays one of its operator. -/
lemma leftAssociate_eq_binary {op : BinaryOp} (h : op.isLogical = true) (left right : Expr) :
    ∃ left' right', leftAssociate (.binary op left right) = .binary op left' right' := by
  rw [leftAssociate, if_pos h]
  exact joinLeft_eq_binary _ _

variable (e : Expr)

/-- Rebuilding keeps the operands and their order. -/
lemma operands_leftAssociate : e.leftAssociate.operands = e.operands := by
  induction e using leftAssociate.induct with
  | case1 op left right h ihLeft ihRight =>
    rw [leftAssociate, if_pos h, operands_joinLeft h, ihLeft, ihRight]
    simp only [operands, h, if_true]
  | case2 op left right h => rw [leftAssociate, if_neg h]
  | case3 e h => rw [leftAssociate]; exact h

/-- Rebuilding groups the same operands under each operator, each of them rebuilt. -/
lemma chain_leftAssociate {op : BinaryOp} (hop : op.isLogical = true) :
    chain op e.leftAssociate = (chain op e).map leftAssociate := by
  induction e using leftAssociate.induct with
  | case1 inner left right h ihLeft ihRight =>
    by_cases hinner : inner = op
    · subst hinner
      rw [leftAssociate, if_pos h, chain_joinLeft, ihLeft, ihRight]
      simp only [chain, if_true, List.map_append]
    · have hchain : chain op (.binary inner left right) = [.binary inner left right] := by
        rw [chain, if_neg hinner]
      obtain ⟨left', right', hroot⟩ := leftAssociate_eq_binary h left right
      rw [hchain, List.map_singleton, hroot, chain, if_neg hinner]
  | case2 inner left right h =>
    have hne : inner ≠ op := by
      rintro rfl
      exact h hop
    simp only [leftAssociate, chain, if_neg h, if_neg hne, List.map_singleton]
  | case3 e h =>
    cases e with
    | binary inner a b => exact absurd rfl (h inner a b)
    | _ => rfl

/-- What is rebuilt leans to the left. -/
lemma leansLeft_leftAssociate : e.leftAssociate.leansLeft = true := by
  induction e using leftAssociate.induct with
  | case1 op left right h ihLeft ihRight =>
    rw [leftAssociate, if_pos h]
    exact leansLeft_joinLeft h _ _ ihLeft ihRight
  | case2 op left right h => simp [leftAssociate, leansLeft, h]
  | case3 e h =>
    cases e with
    | binary inner a b => exact absurd rfl (h inner a b)
    | _ => rfl

/-- What leans to the left is left as it is. -/
lemma leftAssociate_of_leansLeft {e : Expr} (he : e.leansLeft = true) : e.leftAssociate = e := by
  induction e using leftAssociate.induct with
  | case1 op left right h ihLeft ihRight =>
    obtain ⟨hleft, hright, hroot⟩ := (leansLeft_binary h left right).mp he
    rw [leftAssociate, if_pos h, ihLeft hleft, ihRight hright, joinLeft_of_isJoinedBy _ _ hroot]
  | case2 op left right h => rw [leftAssociate, if_neg h]
  | case3 e h => rw [leftAssociate]; exact h

/-- An expression that is its own only operand is left as it is. -/
lemma leftAssociate_of_operands {e : Expr} (he : e.operands = [e]) : e.leftAssociate = e := by
  have hpos : ∀ e : Expr, 0 < e.operands.length := by
    intro e
    induction e using operands.induct with
    | case1 op left right h ihLeft ihRight =>
      rw [operands, if_pos h, List.length_append]
      omega
    | case2 op left right h => simp [operands, h]
    | case3 e h => simp [operands]
  cases e with
  | binary op left right =>
    by_cases h : op.isLogical = true
    · have hlength := congrArg List.length he
      rw [operands, if_pos h, List.length_append, List.length_singleton] at hlength
      have hleft := hpos left
      have hright := hpos right
      omega
    · rw [leftAssociate, if_neg h]
  | _ => rfl

/-! ### Evaluation -/

/-- The logical operators ask their right operand only where the left one does not decide. -/
structure ShortCircuits {m : Type → Type} [Monad m] (question : Expr → m Bool) : Prop where
  and_eq : ∀ left right, question (.binary .and left right) = do
    if ← question left then question right else pure false
  or_eq : ∀ left right, question (.binary .or left right) = do
    if ← question left then pure true else question right

/-- Both operators ask in the same way, up to the answer at which they stop. -/
lemma ShortCircuits.logical_eq {m : Type → Type} [Monad m] [LawfulMonad m] {question : Expr → m Bool}
    (h : ShortCircuits question) (op : BinaryOp) (left right : Expr) (hop : op.isLogical = true) :
    question (.binary op left right) = joined (op == .or) (question left) (question right) := by
  cases op with
  | and =>
    rw [h.and_eq]
    refine bind_congr fun answer => ?_
    cases answer <;> rfl
  | or =>
    rw [h.or_eq]
    refine bind_congr fun answer => ?_
    cases answer <;> rfl
  | _ => cases hop

/-- Rebuilding keeps the operands of the logical tree at the root, each as it stands, and the operands of
each chain in it, up to the rebuilding of chains of the other operator.  Nothing in the tree stands to the
right of an operator of its kind, an expression without logical operators at its root is left alone, and a
second rebuilding changes nothing.  Where the operators stop at the first operand that decides, the same
operands are asked in the same order and give the same answer: `m` may record them. -/
theorem leftAssociate_regroups (e : Expr) :
    e.leftAssociate.operands = e.operands ∧
    (∀ op, op.isLogical = true → chain op e.leftAssociate = (chain op e).map leftAssociate) ∧
    (∀ op left right, InTree (.binary op left right) e.leftAssociate → op.isLogical = true →
      ∀ a b, right ≠ .binary op a b) ∧
    (e.operands = [e] → e.leftAssociate = e) ∧
    e.leftAssociate.leftAssociate = e.leftAssociate ∧
    ∀ (m : Type → Type) [Monad m] [LawfulMonad m] (question : Expr → m Bool),
      ShortCircuits question → question e.leftAssociate = question e := by
  refine ⟨operands_leftAssociate e, fun op hop => chain_leftAssociate e hop, ?_,
    leftAssociate_of_operands, ?_, ?_⟩
  · intro op left right htree hop a b
    exact htree.ne_binary hop (leansLeft_leftAssociate e) a b
  · exact leftAssociate_of_leansLeft (leansLeft_leftAssociate e)
  · intro m _ _ question hquestion
    exact question_leftAssociate hquestion.logical_eq e

/-- Asks the operands of a condition with given answers, and records them. -/
def asking (answer : Expr → Bool) : Expr → StateM (List Expr) Bool
  | .binary .and left right => do
    if ← asking answer left then asking answer right else pure false
  | .binary .or left right => do
    if ← asking answer left then pure true else asking answer right
  | e => do
    modify (· ++ [e])
    return answer e

/-- A chain of `&&` to the right, with a chain of `||` to the right for its second operand. -/
def rightChain : Expr :=
  .binary .and (.incoming 0)
    (.binary .and (.binary .or (.incoming 1) (.binary .or (.incoming 2) (.incoming 3)))
      (.incoming 4))

/-- Both chains are rebuilt, and the third operand, which holds, is the last one of its chain that is
asked. -/
theorem rightChain_regrouped :
    rightChain.leftAssociate =
      .binary .and
        (.binary .and (.incoming 0)
          (.binary .or (.binary .or (.incoming 1) (.incoming 2)) (.incoming 3)))
        (.incoming 4) ∧
    rightChain.leftAssociate.operands = [.incoming 0, .incoming 1, .incoming 2, .incoming 3, .incoming 4] ∧
    (asking (fun e => !same e (.incoming 1)) rightChain.leftAssociate).run [] =
      (true, [.incoming 0, .incoming 1, .incoming 2, .incoming 4]) ∧
    Expr.leftAssociate (.incoming 0) = .incoming 0 ∧
    ∀ a b, Expr.incoming 4 ≠ .binary .and a b := by
  obtain ⟨hoperands, -, hright, -, -, hasked⟩ := leftAssociate_regroups rightChain
  obtain ⟨-, -, -, halone, -⟩ := leftAssociate_regroups (.incoming 0)
  have hshort : ShortCircuits (asking fun e => !same e (.incoming 1)) := ⟨fun _ _ => rfl, fun _ _ => rfl⟩
  refine ⟨rfl, hoperands.trans rfl, ?_, halone rfl, ?_⟩
  · rw [hasked _ _ hshort]
    rfl
  · exact hright .and _ _ .root rfl

end Decompiler.Expr
