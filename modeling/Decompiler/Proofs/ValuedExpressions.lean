import Decompiler.Proofs.EntryDepths
import Decompiler.Proofs.ExprTrees
import Decompiler.Proofs.LogicalChains

/-!
# Valued expressions

The values of expressions while a program runs.  The store is part of the run, calls may change it, and
what is asked of the program around, which are the variables that are read and the calls that are made,
is recorded in its order (`Progress`).  `&&` and `||` are the short-circuit operators on zero and one,
and like `!` they have no other values (`Valuation.eval`).

Incoming values are taken by a computation that is a parameter.  A substituted expression is the
expression whose incoming values are taken by evaluating what is put for them
(`Valuation.eval_substitute`): what was evaluated once and carried is then evaluated wherever it is
taken.  The two come to the same for an expression that takes the value once and before anything else
(`Expr.takesFirst`, `Valuation.eval_of_takesFirst`), and have the same value where calls leave the store
as it is (`Valuation.Similarity.atStore`).

The value that the rule for conditional values makes of a branch with two arms is the value of the arm
that is reached, as zero or one (`Valuation.eval_fold`).
-/

namespace Decompiler

open Bytecode

/-! ### Valuations -/

/-- What a run asks of the program around it: the value of a variable, or of a call. -/
inductive Operand (Value : Type) where
  | read (v : VariableOf Value)
  | call (name : String) (args : List Value)
deriving DecidableEq

/-- How far a run has come: the store, and what was asked for so far. -/
structure Progress (Value Store : Type) where
  store : Store
  operands : List (Operand Value) := []
deriving DecidableEq

/-- What expressions and statements mean while a program runs. -/
structure Valuation where
  Value : Type
  Store : Type
  /-- The value in place of one that was not carried in. -/
  undefined : Value
  /-- Zero or one. -/
  bit : Bool → Value
  truthy : Value → Bool
  constant : Constant → Value
  unary : UnaryOp → Value → Value
  binary : BinaryOp → Value → Value → Value
  read : VariableOf Value → Store → Value
  call : String → List Value → Store → Value × Store
  /-- What a statement does in a block that was entered with some values.  It is neither a value for the
  next block, nor a jump, nor a branch on a condition. -/
  perform : (s : Stmt) → List Value →
    StateM (Progress Value Store) { control : Control // control.Among s.targets }

namespace Valuation

/-- What is asked of a valuation: zero and one are what the literals denote and what tells truth, and
negation turns truth round. -/
structure Lawful (I : Valuation) : Prop where
  truthy_bit : ∀ b, I.truthy (I.bit b) = b
  constant_eq_bit : ∀ c b, c.integer? = some (if b then 1 else 0) → I.constant c = I.bit b
  unary_not : ∀ v, I.unary .not v = I.bit !I.truthy v
  truthy_inverse : ∀ op inverse a b, op.inverse? = some inverse →
    I.truthy (I.binary inverse a b) = !I.truthy (I.binary op a b)

variable (I : Valuation)

/-- A computation in the course of a run. -/
abbrev Action (α : Type) := StateM (Progress I.Value I.Store) α

/-- The values that were carried into a block. -/
def carried (entry : List I.Value) (i : Nat) : I.Action I.Value :=
  pure ((entry[i]?).getD I.undefined)

/-- Reads a variable. -/
def ask (v : VariableOf I.Value) : I.Action I.Value := fun r =>
  (I.read v r.store, { r with operands := r.operands ++ [.read v] })

/-- Makes a call. -/
def request (name : String) (args : List I.Value) : I.Action I.Value := fun r =>
  ((I.call name args r.store).1, ⟨(I.call name args r.store).2, r.operands ++ [.call name args]⟩)

/-- An operator on the values of both operands. -/
def combine (op : BinaryOp) (a b : I.Value) : I.Value :=
  if op.isLogical then I.bit (I.truthy b) else I.binary op a b

section Eval

variable (take : Nat → I.Action I.Value)

mutual

/-- The value of an expression whose incoming values are taken by `take`.  The operators `&&` and `||`
do without their right operand if the left one decides. -/
def eval : Expr → I.Action I.Value
  | .const c => pure (I.constant c)
  | .var v => do I.ask (← evalVariable v)
  | .call name args => do I.request name (← evalList args)
  | .unary op operand => do return I.unary op (← eval operand)
  | .binary op left right => do
    let a ← eval left
    if op.isLogical ∧ I.truthy a = (op == .or) then return I.bit (op == .or)
    else return I.combine op a (← eval right)
  | .incoming i => take i

/-- The values of a variable; the owner comes before the index. -/
def evalVariable : Variable → I.Action (VariableOf I.Value)
  | ⟨name, owner, index⟩ => do
    let owner ← evalOwner owner
    let index ← evalOption index
    return ⟨name, owner, index⟩

/-- The value of an owner. -/
def evalOwner : Owner → I.Action (OwnerOf I.Value)
  | .temporary => pure .temporary
  | .named name => pure (.named name)
  | .computed value => do return .computed (← eval value)

/-- The value of an optional expression. -/
def evalOption : Option Expr → I.Action (Option I.Value)
  | none => pure none
  | some e => do return some (← eval e)

/-- The values of the arguments of a call; the last one comes first. -/
def evalList : List Expr → I.Action (List I.Value)
  | [] => pure []
  | e :: rest => do
    let values ← evalList rest
    return (← eval e) :: values

end

/-- Whether an expression holds. -/
def truth (e : Expr) : I.Action Bool := I.truthy <$> I.eval take e

end Eval

/-! ### Values that are taken in different ways -/

/-- A relation of computations that lets one put one computation for another inside a third. -/
structure Similarity where
  rel : {α : Type} → I.Action α → I.Action α → Prop
  pure_rel : ∀ {α : Type} (a : α), rel (pure a) (pure a)
  bind_rel : ∀ {α β : Type} {x y : I.Action α} {f g : α → I.Action β}, rel x y →
    (∀ a, rel (f a) (g a)) → rel (x >>= f) (y >>= g)
  ask_rel : ∀ v, rel (I.ask v) (I.ask v)
  request_rel : ∀ name args, rel (I.request name args) (I.request name args)

variable {I} {take take' : Nat → I.Action I.Value}

section Lists

variable (R : I.Similarity)

/-- The values of a list are taken like those of its members. -/
lemma Similarity.evalList_rel {l : List Expr} (h : ∀ e ∈ l, R.rel (I.eval take e) (I.eval take' e)) :
    R.rel (I.evalList take l) (I.evalList take' l) := by
  induction l with
  | nil => exact R.pure_rel _
  | cons e rest ih =>
    rw [List.forall_mem_cons] at h
    simp only [evalList]
    exact R.bind_rel (ih h.2) fun values => R.bind_rel h.1 fun v => R.pure_rel _

/-- The values of a variable are taken like what it holds. -/
lemma Similarity.evalVariable_rel {v : Variable}
    (h : ∀ e ∈ v.children, R.rel (I.eval take e) (I.eval take' e)) :
    R.rel (I.evalVariable take v) (I.evalVariable take' v) := by
  obtain ⟨name, owner, index⟩ := v
  have howner : R.rel (I.evalOwner take owner) (I.evalOwner take' owner) := by
    cases owner with
    | temporary => exact R.pure_rel _
    | named name => exact R.pure_rel _
    | computed value =>
      simp only [evalOwner]
      exact R.bind_rel (h value List.mem_cons_self) fun v => R.pure_rel _
  have hindex : R.rel (I.evalOption take index) (I.evalOption take' index) := by
    cases index with
    | none => exact R.pure_rel _
    | some e =>
      simp only [evalOption]
      refine R.bind_rel (h e (List.mem_append_right _ ?_)) fun v => R.pure_rel _
      exact List.mem_singleton_self e
  simp only [evalVariable]
  exact R.bind_rel howner fun o => R.bind_rel hindex fun i => R.pure_rel _

/-- An expression is evaluated alike when the incoming values that it mentions are taken alike. -/
theorem Similarity.eval_rel {e : Expr} (h : ∀ i, StackMachine.mentions (Expr.isIncoming i) e = true →
    R.rel (take i) (take' i)) : R.rel (I.eval take e) (I.eval take' e) := by
  induction e using Expr.tree_induction with
  | const c => exact R.pure_rel _
  | var v ih =>
    simp only [eval]
    refine R.bind_rel (R.evalVariable_rel fun e he => ih e he fun i hi => ?_) fun v => R.ask_rel v
    exact h i (Expr.mentions_of_mem_children (e := .var v) he hi)
  | call name args ih =>
    simp only [eval]
    refine R.bind_rel (R.evalList_rel fun e he => ih e he fun i hi => ?_) fun _ => R.request_rel _ _
    exact h i (Expr.mentions_of_mem_children (e := .call name args) he hi)
  | unary op operand ih =>
    simp only [eval]
    refine R.bind_rel (ih fun i hi => h i ?_) fun _ => R.pure_rel _
    exact Expr.mentions_of_mem_children (List.mem_singleton_self operand) hi
  | binary op left right ihl ihr =>
    simp only [eval]
    refine R.bind_rel (ihl fun i hi => h i ?_) fun a => ?_
    · exact Expr.mentions_of_mem_children List.mem_cons_self hi
    split
    · exact R.pure_rel _
    · refine R.bind_rel (ihr fun i hi => h i ?_) fun _ => R.pure_rel _
      exact Expr.mentions_of_mem_children (List.mem_cons_of_mem _ List.mem_cons_self) hi
  | incoming i => exact h i (by simp [StackMachine.mentions, Expr.isIncoming])

/-- An expression with incoming values from below a depth is evaluated alike when these are taken alike.
-/
lemma Similarity.eval_rel_of_below {depth : Nat} (h : ∀ i < depth, R.rel (take i) (take' i)) {e : Expr}
    (he : e.Below depth) : R.rel (I.eval take e) (I.eval take' e) :=
  R.eval_rel fun i hi => h i (he.lt hi)

end Lists

/-- Equality of computations. -/
def Similarity.equality (I : Valuation) : I.Similarity where
  rel := Eq
  pure_rel _ := rfl
  bind_rel h hf := by rw [h, funext hf]
  ask_rel _ := rfl
  request_rel _ _ := rfl

/-- Computations with the same result in a store, which they leave as it is. -/
def Similarity.atStore (I : Valuation) (hcall : ∀ name args store, (I.call name args store).2 = store)
    (store : I.Store) : I.Similarity where
  rel x y := ∀ r r', r.store = store → r'.store = store →
    (x.run r).1 = (y.run r').1 ∧ (x.run r).2.store = store ∧ (y.run r').2.store = store
  pure_rel _ r r' h h' := ⟨rfl, h, h'⟩
  bind_rel {α β x y f g} h hf r r' hr hr' := by
    obtain ⟨hvalue, hx, hy⟩ := h r r' hr hr'
    have hfirst : (x >>= f).run r = (f (y.run r').1).run (x.run r).2 := by
      rw [← hvalue]
      rfl
    rw [hfirst]
    exact hf (y.run r').1 _ _ hx hy
  ask_rel v r r' h h' := by
    refine ⟨?_, h, h'⟩
    change I.read v r.store = I.read v r'.store
    rw [h, h']
  request_rel name args r r' h h' := by
    refine ⟨?_, (hcall name args r.store).trans h, (hcall name args r'.store).trans h'⟩
    change (I.call name args r.store).1 = (I.call name args r'.store).1
    rw [h, h']

/-! ### Substituted values -/

section Substitute

variable (values : List Expr) (take : Nat → I.Action I.Value)

/-- Takes the values that are put for incoming ones by evaluating them, and others as before. -/
def substituted (i : Nat) : I.Action I.Value :=
  match values[i]? with
  | some e => I.eval take e
  | none => take i

/-- The values of substituted expressions. -/
lemma evalList_substitute {l : List Expr}
    (h : ∀ e ∈ l, I.eval take (e.substitute values) = I.eval (substituted values take) e) :
    I.evalList take (l.map (Expr.substitute values)) = I.evalList (substituted values take) l := by
  induction l with
  | nil => rfl
  | cons e rest ih =>
    rw [List.forall_mem_cons] at h
    simp only [List.map_cons, evalList, h.1, ih h.2]

/-- The values of a substituted variable. -/
lemma evalVariable_substitute {v : Variable}
    (h : ∀ e ∈ v.children, I.eval take (e.substitute values) = I.eval (substituted values take) e) :
    I.evalVariable take (v.map (Expr.substitute values)) =
      I.evalVariable (substituted values take) v := by
  obtain ⟨name, owner, index⟩ := v
  cases owner <;> cases index <;>
    simp_all [VariableOf.map, OwnerOf.map, evalVariable, evalOwner, evalOption, VariableOf.children,
      OwnerOf.children]

/-- A substituted expression evaluates what is put for the incoming values wherever they are taken. -/
theorem eval_substitute (e : Expr) :
    I.eval take (e.substitute values) = I.eval (substituted values take) e := by
  induction e using Expr.tree_induction with
  | const c => rfl
  | var v ih =>
    simp only [Expr.substitute, Expr.substituteVariable_eq_map, eval, evalVariable_substitute _ _ ih]
  | call name args ih =>
    simp only [Expr.substitute, Expr.substituteList_eq_map, eval, evalList_substitute _ _ ih]
  | unary op operand ih => simp only [Expr.substitute, eval, ih]
  | binary op left right ihl ihr => simp only [Expr.substitute, eval, ihl, ihr]
  | incoming i =>
    simp only [Expr.substitute, eval, substituted]
    cases values[i]? <;> rfl

end Substitute

end Valuation

/-! ### Expressions that take a value first -/

namespace Expr

mutual

/-- Whether an expression takes the lowest incoming value before it evaluates anything else, and takes
it once. -/
def takesFirst : Expr → Bool
  | .const _ => false
  | .var v => variableTakesFirst v
  | .call _ args => listTakesFirst args
  | .unary _ operand => takesFirst operand
  | .binary _ left right => takesFirst left && !right.usesIncoming
  | .incoming i => i == 0

/-- Whether a variable takes the value first. -/
def variableTakesFirst : Variable → Bool
  | ⟨_, .computed value, index⟩ => takesFirst value && !optionUsesIncoming index
  | ⟨_, _, some index⟩ => takesFirst index
  | ⟨_, _, none⟩ => false

/-- Whether the arguments of a call take the value first; the last one comes first. -/
def listTakesFirst : List Expr → Bool
  | [] => false
  | [e] => takesFirst e
  | e :: rest => listTakesFirst rest && !e.usesIncoming

end

/-- An expression without incoming values lies below every depth. -/
lemma below_of_usesIncoming {depth : Nat} {e : Expr} (h : e.usesIncoming = false) : e.Below depth := by
  induction e using tree_induction with
  | const c => rfl
  | var v ih =>
    rw [usesIncoming, variableUsesIncoming_eq_any, List.any_eq_false] at h
    exact below_var fun e he => ih e he (by simpa using h e he)
  | call name args ih =>
    rw [usesIncoming, anyUsesIncoming_eq_any, List.any_eq_false] at h
    exact below_call.mpr fun e he => ih e he (by simpa using h e he)
  | unary op operand ih => exact below_unary.mpr (ih h)
  | binary op left right ihl ihr =>
    rw [usesIncoming, Bool.or_eq_false_iff] at h
    exact below_binary.mpr ⟨ihl h.1, ihr h.2⟩
  | incoming i => cases h

end Expr

namespace Valuation

variable {I : Valuation}

/-- An expression without incoming values does not depend on how they are taken. -/
lemma eval_of_usesIncoming (take take' : Nat → I.Action I.Value) {e : Expr}
    (h : e.usesIncoming = false) : I.eval take e = I.eval take' e :=
  (Similarity.equality I).eval_rel_of_below (fun i hi => absurd hi (Nat.not_lt_zero i))
    (Expr.below_of_usesIncoming h)

/-- Arguments that take the value first have it taken before the rest is evaluated. -/
lemma evalList_of_takesFirst (take : Nat → I.Action I.Value) {l : List Expr}
    (he : ∀ e ∈ l, e.takesFirst = true →
      I.eval take e = take 0 >>= fun v => I.eval (fun _ => pure v) e)
    (h : Expr.listTakesFirst l = true) :
    I.evalList take l = take 0 >>= fun v => I.evalList (fun _ => pure v) l := by
  induction l with
  | nil => cases h
  | cons e rest ih =>
    rw [List.forall_mem_cons] at he
    cases rest with
    | nil =>
      simp only [evalList, pure_bind]
      rw [he.1 h, bind_assoc]
    | cons e' rest =>
      rw [Expr.listTakesFirst, Bool.and_eq_true, Bool.not_eq_true'] at h
      · rw [evalList, ih he.2 h.1, bind_assoc]
        refine bind_congr fun v => bind_congr fun values => ?_
        rw [eval_of_usesIncoming take _ h.2]
      · exact nofun

/-- A variable that takes the value first has it taken before the rest is evaluated. -/
lemma evalVariable_of_takesFirst (take : Nat → I.Action I.Value) {v : Variable}
    (he : ∀ e ∈ v.children, e.takesFirst = true →
      I.eval take e = take 0 >>= fun v => I.eval (fun _ => pure v) e)
    (h : Expr.variableTakesFirst v = true) :
    I.evalVariable take v = take 0 >>= fun value => I.evalVariable (fun _ => pure value) v := by
  obtain ⟨name, owner, index⟩ := v
  cases owner with
  | computed value =>
    rw [Expr.variableTakesFirst, Bool.and_eq_true, Bool.not_eq_true'] at h
    have hindex : ∀ v : I.Value, I.evalOption take index = I.evalOption (fun _ => pure v) index := by
      intro v
      cases index with
      | none => rfl
      | some e => rw [evalOption, evalOption, eval_of_usesIncoming take _ h.2]
    simp only [evalVariable, evalOwner, bind_assoc, pure_bind]
    rw [he value List.mem_cons_self h.1, bind_assoc]
    refine bind_congr fun v => bind_congr fun owner => ?_
    rw [hindex v]
  | temporary | named _ =>
    cases index with
    | none => cases h
    | some e =>
      simp only [evalVariable, evalOwner, evalOption, bind_assoc, pure_bind]
      rw [he e List.mem_cons_self h, bind_assoc]

/-- An expression that takes the lowest incoming value first has the value taken before the rest is
evaluated. -/
theorem eval_of_takesFirst (take : Nat → I.Action I.Value) {e : Expr} (h : e.takesFirst = true) :
    I.eval take e = take 0 >>= fun v => I.eval (fun _ => pure v) e := by
  induction e using Expr.tree_induction with
  | const c => cases h
  | var v ih =>
    simp only [eval]
    rw [evalVariable_of_takesFirst take ih h, bind_assoc]
  | call name args ih =>
    simp only [eval]
    rw [evalList_of_takesFirst take ih h, bind_assoc]
  | unary op operand ih =>
    simp only [eval]
    rw [ih h, bind_assoc]
  | binary op left right ihl ihr =>
    rw [Expr.takesFirst, Bool.and_eq_true, Bool.not_eq_true'] at h
    obtain ⟨hleft, hright⟩ := h
    simp only [eval]
    rw [ihl hleft, bind_assoc]
    refine bind_congr fun v => bind_congr fun a => ?_
    rw [eval_of_usesIncoming take _ hright]
  | incoming i =>
    rw [Expr.takesFirst, beq_iff_eq] at h
    simp only [eval, h, bind_pure]

end Valuation

/-! ### Conditional values -/

namespace Valuation

variable {I : Valuation}

section Logic

variable (hI : I.Lawful) (take : Nat → I.Action I.Value)
include hI

omit hI in
/-- A logical expression has the value zero or one. -/
lemma eval_logical {op : BinaryOp} (h : op.isLogical = true) (left right : Expr) :
    I.eval take (.binary op left right) =
      I.bit <$> joined (op == .or) (I.truth take left) (I.truth take right) := by
  simp only [truth, eval, joined, h, true_and, map_bind, bind_map_left]
  refine bind_congr fun a => ?_
  split
  · rw [map_pure]
  · simp only [combine, h, if_true, map_eq_pure_bind, bind_assoc, pure_bind]

/-- Zero and one tell truth. -/
lemma truthy_map_bit (question : I.Action Bool) : I.truthy <$> I.bit <$> question = question := by
  have hid : I.truthy ∘ I.bit = id := funext hI.truthy_bit
  rw [← comp_map, hid, id_map]

/-- The short-circuit operators ask their right operand unless the left one decides. -/
lemma truth_logical {op : BinaryOp} (h : op.isLogical = true) (left right : Expr) :
    I.truth take (.binary op left right) =
      joined (op == .or) (I.truth take left) (I.truth take right) := by
  rw [truth, eval_logical take h, truthy_map_bit hI]

/-- A comparison and its inverse ask one question and answer it differently. -/
lemma truth_inverse {op inverse : BinaryOp} (h : op.inverse? = some inverse) (left right : Expr) :
    I.truth take (.binary inverse left right) = Bool.not <$> I.truth take (.binary op left right) := by
  have hstrict : op.isLogical = false ∧ inverse.isLogical = false := by
    cases op <;> simp_all [BinaryOp.inverse?, BinaryOp.isLogical] <;> subst h <;> rfl
  simp only [truth, eval, combine, hstrict.1, hstrict.2, Bool.false_eq_true, false_and, if_false,
    map_eq_pure_bind, bind_assoc, pure_bind, hI.truthy_inverse op inverse _ _ h]

/-- A negated expression holds where the expression does not. -/
lemma truth_negate (e : Expr) : I.truth take e.negate = Bool.not <$> I.truth take e := by
  have hnot : ∀ e, I.truth take (.not e) = Bool.not <$> I.truth take e := by
    intro e
    simp only [truth, Expr.not, eval, hI.unary_not, hI.truthy_bit, map_eq_pure_bind, bind_assoc,
      pure_bind]
  unfold Expr.negate
  split
  · rename_i op left right
    cases hinverse : op.inverse? with
    | none => exact hnot _
    | some inverse => exact truth_inverse hI take hinverse left right
  · rename_i operand
    rw [← Expr.not, hnot, not_map_not_map]
  · exact hnot _

/-- What a literal zero or one tells. -/
lemma truth_of_isLiteral {e : Expr} (b : Bool) (h : e.isLiteral (if b then 1 else 0) = true) :
    I.truth take e = pure b := by
  unfold Expr.isLiteral at h
  split at h
  · rename_i c
    rw [beq_iff_eq] at h
    simp only [truth, eval, map_pure, hI.constant_eq_bit c b h, hI.truthy_bit]
  · cases h

/-- The value that is put for a branch with two arms is zero or one, as the arm that is reached tells. -/
theorem eval_fold {test onTrue onFalse value : Expr}
    (h : Ternary.fold? test onTrue onFalse = some value) :
    I.eval take value = I.bit <$> (I.truth take test >>= fun answer =>
      I.truth take (if answer then onTrue else onFalse)) := by
  have hvalue : ∀ {op left right}, op.isLogical = true →
      I.eval take (Expr.leftAssociate (.binary op left right)) =
        I.bit <$> joined (op == .or) (I.truth take left) (I.truth take right) := by
    intro op left right hop
    obtain ⟨left', right', hroot⟩ := Expr.leftAssociate_eq_binary hop left right
    rw [hroot, eval_logical take hop, ← truth_logical hI take hop, ← hroot,
      question_leftAssociate (fun _ left right h => truth_logical hI take h left right),
      truth_logical hI take hop]
  have hnegate : ∀ stop : Bool, ∀ second : I.Action Bool,
      joined stop (I.truth take test.negate) second =
        I.truth take test >>= fun answer => if answer = !stop then pure stop else second := by
    intro stop second
    rw [truth_negate hI, joined, bind_map_left]
    refine bind_congr fun answer => ?_
    cases answer <;> cases stop <;> rfl
  have htrue := fun b => truth_of_isLiteral hI take (e := onTrue) b
  have hfalse := fun b => truth_of_isLiteral hI take (e := onFalse) b
  obtain ⟨logical, hlogical, rfl⟩ := Option.map_eq_some_iff.mp h
  split at hlogical
  · rename_i hone
    cases hlogical
    rw [hvalue rfl]
    refine congrArg _ (bind_congr fun answer => ?_)
    cases answer
    · rfl
    · exact (htrue true hone).symm
  split at hlogical
  · rename_i hzero
    cases hlogical
    rw [hvalue rfl, hnegate]
    refine congrArg _ (bind_congr fun answer => ?_)
    cases answer
    · rfl
    · exact (htrue false hzero).symm
  split at hlogical
  · rename_i hone
    cases hlogical
    rw [hvalue rfl, hnegate]
    refine congrArg _ (bind_congr fun answer => ?_)
    cases answer
    · exact (hfalse true hone).symm
    · rfl
  split at hlogical
  · rename_i hzero
    cases hlogical
    rw [hvalue rfl]
    refine congrArg _ (bind_congr fun answer => ?_)
    cases answer
    · exact (hfalse false hzero).symm
    · rfl
  · cases hlogical

end Logic

end Valuation

end Decompiler
