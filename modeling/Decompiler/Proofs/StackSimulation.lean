import Decompiler.Proofs.StackMachine

/-!
# Simulated blocks and the stack machine

A value on the symbolic stack is an expression that is evaluated later, when the statement that uses
it runs, while the stack machine has computed it already.  The two agree as long as evaluating all of
the symbolic stack at once, from the bottom to the top, gives what lies on the stack of the machine;
operations that only move values keep this (`Follows`).  A statement that is emitted is run before
what waits below it on the stack, and so it must not disturb that: `promptOp` and `prompt` say when it
does not.  The value of a variable may not wait across a store into a variable of that name, and calls
may not change places with other calls and reads.

`runStmts_simulate` is the result for whole lists of blocks, and `delayedRead_differs` shows that
without the condition a value can change while it waits.
-/

namespace Decompiler.StackMachine

open Bytecode Simulation

/-! ### What an expression waits for -/

mutual

/-- Whether a test holds of an expression or of one inside it. -/
def mentions (test : Expr → Bool) : Expr → Bool
  | .const c => test (.const c)
  | .var v => test (.var v) || variableMentions test v
  | .call name args => test (.call name args) || anyMentions test args
  | .unary op operand => test (.unary op operand) || mentions test operand
  | .binary op left right =>
    test (.binary op left right) || (mentions test left || mentions test right)
  | .incoming i => test (.incoming i)

/-- Whether a test holds inside a variable. -/
def variableMentions (test : Expr → Bool) : Variable → Bool
  | ⟨_, owner, index⟩ => ownerMentions test owner || optionMentions test index

/-- Whether a test holds inside an owner. -/
def ownerMentions (test : Expr → Bool) : Owner → Bool
  | .computed value => mentions test value
  | .temporary | .named _ => false

/-- Whether a test holds inside an optional expression. -/
def optionMentions (test : Expr → Bool) : Option Expr → Bool
  | some e => mentions test e
  | none => false

/-- Whether a test holds inside one of some expressions. -/
def anyMentions (test : Expr → Bool) : List Expr → Bool
  | [] => false
  | e :: rest => mentions test e || anyMentions test rest

end

/-- The cell of a variable. -/
def cellOf (v : Variable) : Cell :=
  (v.name, match v.owner with
    | .temporary => true
    | _ => false)

/-- Whether an expression is a call. -/
def isCall : Expr → Bool
  | .call _ _ => true
  | _ => false

/-- Whether an expression reads a cell. -/
def isReadOf (cell : Cell) : Expr → Bool
  | .var v => cellOf v == cell
  | _ => false

/-- Whether an expression is a call or reads a variable. -/
def isEffect : Expr → Bool
  | .call _ _ | .var _ => true
  | _ => false

mutual

/-- A weaker test holds inside an expression as well. -/
lemma mentions_mono {test test' : Expr → Bool} (hle : ∀ e, test e = true → test' e = true) :
    (e : Expr) → mentions test e = true → mentions test' e = true
  | .const c, h => hle _ h
  | .var v, h => by
    simp only [mentions, Bool.or_eq_true] at h ⊢
    exact h.imp (hle _) (variableMentions_mono hle v)
  | .call name args, h => by
    simp only [mentions, Bool.or_eq_true] at h ⊢
    exact h.imp (hle _) (anyMentions_mono hle args)
  | .unary op operand, h => by
    simp only [mentions, Bool.or_eq_true] at h ⊢
    exact h.imp (hle _) (mentions_mono hle operand)
  | .binary op left right, h => by
    simp only [mentions, Bool.or_eq_true] at h ⊢
    exact h.imp (hle _) (Or.imp (mentions_mono hle left) (mentions_mono hle right))
  | .incoming i, h => hle _ h

/-- A weaker test holds inside a variable as well. -/
lemma variableMentions_mono {test test' : Expr → Bool} (hle : ∀ e, test e = true → test' e = true) :
    (v : Variable) → variableMentions test v = true → variableMentions test' v = true
  | ⟨_, owner, index⟩, h => by
    simp only [variableMentions, Bool.or_eq_true] at h ⊢
    exact h.imp (ownerMentions_mono hle owner) (optionMentions_mono hle index)

/-- A weaker test holds inside an owner as well. -/
lemma ownerMentions_mono {test test' : Expr → Bool} (hle : ∀ e, test e = true → test' e = true) :
    (o : Owner) → ownerMentions test o = true → ownerMentions test' o = true
  | .computed value, h => by
    simp only [ownerMentions] at h ⊢
    exact mentions_mono hle value h
  | .temporary, h => by cases h
  | .named _, h => by cases h

/-- A weaker test holds inside an optional expression as well. -/
lemma optionMentions_mono {test test' : Expr → Bool} (hle : ∀ e, test e = true → test' e = true) :
    (e : Option Expr) → optionMentions test e = true → optionMentions test' e = true
  | some e, h => by
    simp only [optionMentions] at h ⊢
    exact mentions_mono hle e h
  | none, h => by cases h

/-- A weaker test holds inside some expressions as well. -/
lemma anyMentions_mono {test test' : Expr → Bool} (hle : ∀ e, test e = true → test' e = true) :
    (l : List Expr) → anyMentions test l = true → anyMentions test' l = true
  | [], h => by cases h
  | e :: rest, h => by
    simp only [anyMentions, Bool.or_eq_true] at h ⊢
    exact h.imp (mentions_mono hle e) (anyMentions_mono hle rest)

end

/-- Without effects there are no calls. -/
lemma anyMentions_isCall {l : List Expr} (h : anyMentions isEffect l = false) :
    anyMentions isCall l = false := by
  rw [← Bool.not_eq_true] at h ⊢
  refine fun hcall => h (anyMentions_mono (fun e he => ?_) l hcall)
  cases e <;> first | rfl | cases he

/-- Without effects nothing is read. -/
lemma anyMentions_isReadOf {l : List Expr} (h : anyMentions isEffect l = false) (cell : Cell) :
    anyMentions (isReadOf cell) l = false := by
  rw [← Bool.not_eq_true] at h ⊢
  refine fun hread => h (anyMentions_mono (fun e he => ?_) l hread)
  cases e <;> first | rfl | cases he

/-- Whether evaluating `now` first, and then storing to a cell if one is given, does not change what
comes of the values that wait below: these have no effects, or the others have none, or there are no
calls and nothing that waits reads what is stored. -/
def undisturbed (stored : Option Cell) (now waiting : List Expr) : Bool :=
  !anyMentions isEffect waiting ||
    (!anyMentions isEffect now && stored.isNone) ||
    (!anyMentions isCall now && !anyMentions isCall waiting &&
      stored.all fun cell => !anyMentions (isReadOf cell) waiting)

/-! ### Evaluation without calls -/

section Eval

variable {w : World} {entry : List w.Value}

mutual

/-- Evaluating an expression without calls changes nothing. -/
lemma eval_run (r : Run w) :
    (e : Expr) → mentions isCall e = false → (eval w entry e r).2 = r
  | .const c, _ => rfl
  | .var v, h => by
    simp only [mentions, Bool.or_eq_false_iff] at h
    exact locate_run r v h.2
  | .call name args, h => by simp [mentions, isCall] at h
  | .unary op operand, h => by
    simp only [mentions, Bool.or_eq_false_iff] at h
    exact eval_run r operand h.2
  | .binary op left right, h => by
    simp only [mentions, Bool.or_eq_false_iff] at h
    simp only [eval]
    rw [eval_run r left h.2.1, eval_run r right h.2.2]
  | .incoming i, _ => rfl

/-- Locating a variable without calls changes nothing. -/
lemma locate_run (r : Run w) :
    (v : Variable) → variableMentions isCall v = false → (locate w entry v r).2 = r
  | ⟨name, owner, index⟩, h => by
    simp only [variableMentions, Bool.or_eq_false_iff] at h
    simp only [locate]
    rw [evalOwner_run r owner h.1, evalOption_run r index h.2]

/-- Finding an owner without calls changes nothing. -/
lemma evalOwner_run (r : Run w) :
    (o : Owner) → ownerMentions isCall o = false → (evalOwner w entry o r).2 = r
  | .temporary, _ => rfl
  | .named _, _ => rfl
  | .computed value, h => by
    simp only [ownerMentions] at h
    exact eval_run r value h

/-- Evaluating an optional expression without calls changes nothing. -/
lemma evalOption_run (r : Run w) :
    (e : Option Expr) → optionMentions isCall e = false → (evalOption w entry e r).2 = r
  | none, _ => rfl
  | some e, h => by
    simp only [optionMentions] at h
    exact eval_run r e h

/-- Evaluating expressions without calls changes nothing. -/
lemma evalStack_run (r : Run w) :
    (l : List Expr) → anyMentions isCall l = false → (evalStack w entry l r).2 = r
  | [], _ => rfl
  | e :: rest, h => by
    simp only [anyMentions, Bool.or_eq_false_iff] at h
    simp only [evalStack]
    rw [evalStack_run r rest h.2, eval_run r e h.1]

end

/-- The cell of a variable's location. -/
lemma cell_locate (v : Variable) (r : Run w) : (locate w entry v r).1.cell = cellOf v := by
  obtain ⟨name, owner, index⟩ := v
  cases owner <;> rfl

mutual

/-- An expression without calls has the same value in two memories that agree on what it reads. -/
lemma eval_congr {r r' : Run w} :
    (e : Expr) → mentions isCall e = false →
      (∀ p, mentions (isReadOf p.cell) e = true → w.read p r.memory = w.read p r'.memory) →
        (eval w entry e r).1 = (eval w entry e r').1
  | .const c, _, _ => rfl
  | .var v, h, hread => by
    simp only [mentions, Bool.or_eq_false_iff] at h
    have hlocate := locate_congr v h.2 fun p hp => hread p (by
      rw [mentions, hp, Bool.or_true])
    simp only [eval]
    rw [locate_run r v h.2, locate_run r' v h.2, ← hlocate]
    refine hread _ ?_
    rw [mentions, isReadOf, cell_locate, beq_self_eq_true, Bool.true_or]
  | .call name args, h, _ => by simp [mentions, isCall] at h
  | .unary op operand, h, hread => by
    simp only [mentions, Bool.or_eq_false_iff] at h
    have hoperand := eval_congr operand h.2 fun p hp => hread p (by
      rw [mentions, hp, Bool.or_true])
    simp only [eval]
    rw [hoperand]
  | .binary op left right, h, hread => by
    simp only [mentions, Bool.or_eq_false_iff] at h
    have hleft := eval_congr left h.2.1 fun p hp => hread p (by
      rw [mentions, hp, Bool.true_or, Bool.or_true])
    have hright := eval_congr right h.2.2 fun p hp => hread p (by
      rw [mentions, hp, Bool.or_true, Bool.or_true])
    simp only [eval]
    rw [eval_run r left h.2.1, eval_run r' left h.2.1, hleft, hright]
  | .incoming i, _, _ => rfl

/-- A variable without calls has the same location in two memories that agree on what it reads. -/
lemma locate_congr {r r' : Run w} :
    (v : Variable) → variableMentions isCall v = false →
      (∀ p, variableMentions (isReadOf p.cell) v = true → w.read p r.memory = w.read p r'.memory) →
        (locate w entry v r).1 = (locate w entry v r').1
  | ⟨name, owner, index⟩, h, hread => by
    simp only [variableMentions, Bool.or_eq_false_iff] at h
    have howner := evalOwner_congr owner h.1 fun p hp => hread p (by
      rw [variableMentions, hp, Bool.true_or])
    have hindex := evalOption_congr index h.2 fun p hp => hread p (by
      rw [variableMentions, hp, Bool.or_true])
    simp only [locate]
    rw [evalOwner_run r owner h.1, evalOwner_run r' owner h.1, howner, hindex]

/-- An owner without calls is the same in two memories that agree on what it reads. -/
lemma evalOwner_congr {r r' : Run w} :
    (o : Owner) → ownerMentions isCall o = false →
      (∀ p, ownerMentions (isReadOf p.cell) o = true → w.read p r.memory = w.read p r'.memory) →
        (evalOwner w entry o r).1 = (evalOwner w entry o r').1
  | .temporary, _, _ => rfl
  | .named _, _, _ => rfl
  | .computed value, h, hread => by
    simp only [ownerMentions] at h hread
    simp only [evalOwner]
    rw [eval_congr value h hread]

/-- An optional expression without calls has the same value in two memories that agree on what it
reads. -/
lemma evalOption_congr {r r' : Run w} :
    (e : Option Expr) → optionMentions isCall e = false →
      (∀ p, optionMentions (isReadOf p.cell) e = true → w.read p r.memory = w.read p r'.memory) →
        (evalOption w entry e r).1 = (evalOption w entry e r').1
  | none, _, _ => rfl
  | some e, h, hread => by
    simp only [optionMentions] at h hread
    simp only [evalOption]
    rw [eval_congr e h hread]

/-- Expressions without calls have the same values in two memories that agree on what they read. -/
lemma evalStack_congr {r r' : Run w} :
    (l : List Expr) → anyMentions isCall l = false →
      (∀ p, anyMentions (isReadOf p.cell) l = true → w.read p r.memory = w.read p r'.memory) →
        (evalStack w entry l r).1 = (evalStack w entry l r').1
  | [], _, _ => rfl
  | e :: rest, h, hread => by
    simp only [anyMentions, Bool.or_eq_false_iff] at h
    have hhead := eval_congr e h.1 fun p hp => hread p (by
      rw [anyMentions, hp, Bool.true_or])
    have hrest := evalStack_congr rest h.2 fun p hp => hread p (by
      rw [anyMentions, hp, Bool.or_true])
    simp only [evalStack]
    rw [evalStack_run r rest h.2, evalStack_run r' rest h.2, hhead, hrest]

end

/-- Expressions without effects have the same values everywhere and change nothing. -/
lemma evalStack_of_inert {l : List Expr} (h : anyMentions isEffect l = false) (r r' : Run w) :
    evalStack w entry l r = ((evalStack w entry l r').1, r) := by
  have hvalues : (evalStack w entry l r).1 = (evalStack w entry l r').1 :=
    evalStack_congr l (anyMentions_isCall h) fun p hp => by
      rw [anyMentions_isReadOf h] at hp
      cases hp
  rw [← hvalues]
  exact Prod.ext rfl (evalStack_run r l (anyMentions_isCall h))

/-- The values of two stacks, one on the other. -/
lemma evalStack_append (a b : List Expr) (r : Run w) :
    evalStack w entry (a ++ b) r =
      ((evalStack w entry a (evalStack w entry b r).2).1 ++ (evalStack w entry b r).1,
        (evalStack w entry a (evalStack w entry b r).2).2) := by
  induction a with
  | nil => rfl
  | cons e rest ih =>
    simp only [List.cons_append, evalStack]
    rw [ih]

/-- Values that wait undisturbed may be evaluated after the others. -/
lemma evalStack_comm {stored : Option Cell} {now waiting : List Expr}
    (h : undisturbed stored now waiting = true) (r : Run w) :
    evalStack w entry (now ++ waiting) r =
      ((evalStack w entry now r).1 ++
        (evalStack w entry waiting (evalStack w entry now r).2).1,
        (evalStack w entry waiting (evalStack w entry now r).2).2) := by
  rw [evalStack_append]
  simp only [undisturbed, Bool.or_eq_true, Bool.and_eq_true, Bool.not_eq_true'] at h
  rcases h with (hwaiting | ⟨hnow, -⟩) | ⟨⟨hnow, hwaiting⟩, -⟩
  · rw [evalStack_of_inert hwaiting r (evalStack w entry now r).2,
      evalStack_of_inert hwaiting (evalStack w entry now r).2 (evalStack w entry now r).2]
  · rw [evalStack_of_inert hnow (evalStack w entry waiting r).2 r, evalStack_of_inert hnow r r]
  · rw [evalStack_run r waiting hwaiting, evalStack_run r now hnow, evalStack_run r waiting hwaiting]

/-- Values that wait undisturbed may be evaluated after a store. -/
lemma evalStack_write {names : Names} (lawful : w.Lawful names) {now waiting : List Expr}
    {p : Location w.Instance w.Value} (h : undisturbed (some p.cell) now waiting = true)
    (v : w.Value) (r : Run w) :
    evalStack w entry waiting (r.write p v) = ((evalStack w entry waiting r).1, r.write p v) ∧
      (evalStack w entry waiting r).2 = r := by
  simp only [undisturbed, Bool.or_eq_true, Bool.and_eq_true, Bool.not_eq_true', Option.isNone_some,
    Bool.false_eq_true, and_false, or_false, Option.all_some] at h
  rcases h with hwaiting | ⟨⟨-, hwaiting⟩, hread⟩
  · exact ⟨evalStack_of_inert hwaiting _ r, evalStack_run r waiting (anyMentions_isCall hwaiting)⟩
  · refine ⟨Prod.ext ?_ (evalStack_run _ waiting hwaiting), evalStack_run r waiting hwaiting⟩
    refine evalStack_congr waiting hwaiting fun q hq => lawful.read_write q p v r.memory ?_
    intro hcell
    rw [hcell, hread] at hq
    cases hq

end Eval

/-! ### One operation -/

/-- Whether the values that wait on the stack are undisturbed when an operation is run.  A copied
value must not hold calls, since its expression is evaluated twice; and for a swapped store, whose
value lies above its target, the two must not disturb each other. -/
def promptOp (stack : List Expr) : StackOp → Bool
  | .pop ref swapped =>
    undisturbed (some (ref.name, false)) (stack.take (ref.stackOperands + 1))
        (stack.drop (ref.stackOperands + 1)) &&
      (!swapped || undisturbed none (stack.take 1) ((stack.drop 1).take ref.stackOperands))
  | .popTemporary name => undisturbed (some (name, true)) (stack.take 1) (stack.drop 1)
  | .popz => undisturbed none (stack.take 1) (stack.drop 1)
  | .dup flag => !anyMentions isCall (stack.take (flag.toNat + 1))
  | _ => true

section Step

variable {w : World} {names : Names} (lawful : w.Lawful names) (entry : List w.Value)

include lawful in
/-- The owner that an expression on the stack stands for is the instance of its value. -/
lemma evalOwner_ownerOf (e : Expr) (r : Run w) :
    evalOwner w entry (ownerOf names e) r =
      (some (w.instanceOf (eval w entry e r).1), (eval w entry e r).2) := by
  unfold ownerOf
  cases hid : e.constant?.bind Constant.integer? with
  | none => rfl
  | some id =>
    obtain ⟨c, hc, hid⟩ := Option.bind_eq_some_iff.mp hid
    cases e with
    | const value =>
      cases hc
      simp only [evalOwner, eval]
      rw [lawful.instanceOf_constant _ id hid]
    | var | call | unary | binary | incoming => cases hc

/-- The index of a variable, taken off the stack of expressions and off the stack of values. -/
lemma takeIndex?_evalStack {ref : VarRef} {stack rest : List Expr} {index : Option Expr}
    (h : Simulation.takeIndex? ref stack = some (index, rest)) :
    ∃ operands, stack = operands ++ rest ∧ operands.length = (if ref.array then 1 else 0) ∧
      ∀ (r : Run w) (values : List w.Value),
        takeIndex? ref ((evalStack w entry operands r).1 ++ values) =
            some ((evalOption w entry index r).1, values) ∧
          (evalOption w entry index r).2 = (evalStack w entry operands r).2 := by
  unfold Simulation.takeIndex? at h
  unfold takeIndex?
  cases harray : ref.array with
  | false =>
    rw [harray] at h
    cases h
    exact ⟨[], rfl, rfl, fun r values => ⟨rfl, rfl⟩⟩
  | true =>
    rw [harray, if_pos rfl] at h
    cases stack with
    | nil => cases h
    | cons e stack =>
      cases h
      exact ⟨[e], rfl, rfl, fun r values => ⟨rfl, rfl⟩⟩

include lawful in
/-- The owner of a variable, taken off the stack of expressions and off the stack of values. -/
lemma takeOwner?_evalStack {ref : VarRef} {stack rest : List Expr} {owner : Owner}
    (h : Simulation.takeOwner? names ref stack = some (owner, rest)) :
    owner ≠ .temporary ∧
    ∃ operands, stack = operands ++ rest ∧ operands.length = (if ref.owner = 0 then 1 else 0) ∧
      ∀ r : Run w, ∃ inst, evalOwner w entry owner r =
          (some inst, (evalStack w entry operands r).2) ∧
        ∀ values, takeOwner? names ref ((evalStack w entry operands r).1 ++ values) =
          some (inst, values) := by
  unfold Simulation.takeOwner? at h
  unfold takeOwner?
  split at h
  · rename_i hzero
    cases stack with
    | nil => cases h
    | cons e stack =>
      cases h
      refine ⟨?_, [e], rfl, by rw [if_pos hzero]; rfl, fun r => ?_⟩
      · unfold ownerOf
        split <;> exact nofun
      · refine ⟨_, evalOwner_ownerOf lawful entry e r, fun values => ?_⟩
        rw [if_pos hzero]
        rfl
  · rename_i hzero
    cases h
    refine ⟨nofun, [], rfl, by rw [if_neg hzero]; rfl, fun r => ?_⟩
    refine ⟨_, rfl, fun values => ?_⟩
    rw [if_neg hzero]
    rfl

include lawful in
/-- What names a variable, taken off the stack of expressions and off the stack of values. -/
lemma takeLocation?_evalStack {ref : VarRef} {stack rest : List Expr} {target : Variable}
    (h : takeVariable? names ref stack = some (target, rest)) :
    ∃ operands, stack = operands ++ rest ∧ operands.length = ref.stackOperands ∧
      cellOf target = (ref.name, false) ∧
      ∀ (r : Run w) (values : List w.Value),
        takeLocation? names ref ((evalStack w entry operands r).1 ++ values) =
            some ((locate w entry target r).1, values) ∧
          (locate w entry target r).2 = (evalStack w entry operands r).2 := by
  unfold takeVariable? at h
  obtain ⟨⟨index, stack'⟩, hindex, h⟩ := Option.bind_eq_some_iff.mp h
  obtain ⟨⟨owner, rest'⟩, howner, h⟩ := Option.bind_eq_some_iff.mp h
  cases h
  obtain ⟨first, rfl, hfirst, hfirst'⟩ := takeIndex?_evalStack entry hindex
  obtain ⟨hcell, second, rfl, hsecond, hsecond'⟩ := takeOwner?_evalStack lawful entry howner
  refine ⟨first ++ second, by rw [List.append_assoc], ?_, ?_, fun r values => ?_⟩
  · rw [List.length_append, hfirst, hsecond, VarRef.stackOperands, Nat.add_comm]
  · cases owner with
    | temporary => exact absurd rfl hcell
    | named | computed => rfl
  · obtain ⟨inst, hinst, htake⟩ := hsecond' r
    obtain ⟨htake', hrun⟩ := hfirst' (evalStack w entry second r).2
      ((evalStack w entry second r).1 ++ values)
    simp only [locate, hinst, evalStack_append, List.append_assoc, takeLocation?]
    rw [htake']
    refine ⟨?_, hrun⟩
    simp only [Option.bind_eq_bind, Option.bind_some]
    rw [htake values]
    rfl

variable (names) in
/-- What an operation does to a stack of expressions, next to what it does to the stack of their
values: the statements it emits run to where the values of the new stack are those of the machine. -/
def Follows (state state' : State) (op : StackOp) : Prop :=
  ∃ emitted, state'.out = state.out ++ emitted ∧
    ∀ r : Run w, ∃ r',
      (∀ rest left, runStmts w entry (emitted ++ rest) r left = runStmts w entry rest r' left) ∧
        stackStep names (evalStack w entry state.stack r).2 (evalStack w entry state.stack r).1 op =
          some ((evalStack w entry state'.stack r').2, (evalStack w entry state'.stack r').1)

/-- An operation that emits nothing, and only has to get the values right. -/
lemma follows_of_evalStack {state : State} {stack : List Expr} {op : StackOp}
    (h : ∀ r : Run w,
      stackStep names (evalStack w entry state.stack r).2 (evalStack w entry state.stack r).1 op =
        some ((evalStack w entry stack r).2, (evalStack w entry stack r).1)) :
    Follows names entry state { state with stack } op :=
  ⟨[], (List.append_nil _).symm, fun r => ⟨r, fun _ _ => rfl, h r⟩⟩

include lawful in
/-- A store whose operands are evaluated to the given value and location, the rest of the stack being
undisturbed. -/
lemma follows_assign {op : StackOp} {state : State} {target : Variable} {value : Expr}
    {now rest : List Expr} (hstack : state.stack = now ++ rest)
    (hquiet : undisturbed (some (cellOf target)) now rest = true)
    (hstep : ∀ r : Run w, ∃ v rv, eval w entry value r = (v, rv) ∧
      (locate w entry target rv).2 = (evalStack w entry now r).2 ∧
      ∀ (r₁ : Run w) (values : List w.Value),
        stackStep names r₁ ((evalStack w entry now r).1 ++ values) op =
          some (r₁.write (locate w entry target rv).1 v, values)) :
    Follows names entry state ({ state with stack := rest }.emit (.assign target value)) op := by
  refine ⟨[.assign target value], rfl, fun r => ?_⟩
  obtain ⟨v, rv, hv, hrun, hop⟩ := hstep r
  rw [← cell_locate target rv] at hquiet
  obtain ⟨hwrite, hsame⟩ := evalStack_write lawful hquiet v (evalStack w entry now r).2
  refine ⟨(evalStack w entry now r).2.write (locate w entry target rv).1 v, fun rest left => ?_, ?_⟩
  · simp only [List.singleton_append, runStmts]
    rw [hv, hrun]
  · rw [hstack, evalStack_comm hquiet, hsame, hop]
    simp only [State.emit]
    rw [hwrite]

include lawful in
/-- A store of a value that lies below its target. -/
lemma follows_pop {ref : VarRef} {state : State} {target : Variable} {value : Expr}
    {rest : List Expr} (htake : takeVariable? names ref state.stack = some (target, value :: rest))
    (hprompt : promptOp state.stack (.pop ref false) = true) :
    Follows names entry state ({ state with stack := rest }.emit (.assign target value))
      (.pop ref false) := by
  obtain ⟨operands, hstack, hlength, hcell, hlocate⟩ := takeLocation?_evalStack lawful entry htake
  have hsplit : state.stack = (operands ++ [value]) ++ rest := by
    rw [hstack, List.append_assoc]
    rfl
  have hlength' : (operands ++ [value]).length = ref.stackOperands + 1 := by
    rw [List.length_append, hlength]
    rfl
  simp only [promptOp, Bool.and_eq_true] at hprompt
  have hquiet := hprompt.1
  rw [hsplit, ← hlength', List.take_left, List.drop_left, ← hcell] at hquiet
  refine follows_assign lawful entry hsplit hquiet fun r => ?_
  -- The statement evaluates the value and then the target, which is how they lie on the stack.
  rcases hv : eval w entry value r with ⟨v, rv⟩
  have hnow : evalStack w entry (operands ++ [value]) r =
      ((evalStack w entry operands rv).1 ++ [v], (evalStack w entry operands rv).2) := by
    rw [evalStack_append]
    simp only [evalStack, hv]
  refine ⟨v, rv, rfl, ?_, fun r₁ values => ?_⟩
  · rw [hnow]
    exact (hlocate rv []).2
  · rw [hnow]
    simp only [stackStep, List.append_assoc, List.singleton_append]
    rw [(hlocate rv _).1]
    rfl

include lawful in
/-- A store of a value that lies above its target. -/
lemma follows_popSwapped {ref : VarRef} {state : State} {target : Variable} {value : Expr}
    {stack rest : List Expr} (hvalue : state.stack = value :: stack)
    (htake : takeVariable? names ref stack = some (target, rest))
    (hprompt : promptOp state.stack (.pop ref true) = true) :
    Follows names entry state ({ state with stack := rest }.emit (.assign target value))
      (.pop ref true) := by
  obtain ⟨operands, hstack, hlength, hcell, hlocate⟩ := takeLocation?_evalStack lawful entry htake
  have hsplit : state.stack = (value :: operands) ++ rest := by
    rw [hvalue, hstack]
    rfl
  have hlength' : (value :: operands).length = ref.stackOperands + 1 := by
    rw [List.length_cons, hlength]
  simp only [promptOp, Bool.not_true, Bool.false_or, Bool.and_eq_true] at hprompt
  obtain ⟨hquiet, hswap⟩ := hprompt
  rw [hsplit, ← hlength', List.take_left, List.drop_left, ← hcell] at hquiet
  have hswap' : undisturbed none [value] operands = true := by
    rw [hsplit, ← hlength] at hswap
    simpa using hswap
  refine follows_assign lawful entry hsplit hquiet fun r => ?_
  -- The target lies below the value, but as the two do not disturb each other the value may go first.
  rcases hv : eval w entry value r with ⟨v, rv⟩
  have hnow : evalStack w entry (value :: operands) r =
      (v :: (evalStack w entry operands rv).1, (evalStack w entry operands rv).2) := by
    have hcomm : evalStack w entry ([value] ++ operands) r = _ := evalStack_comm hswap' r
    simpa only [List.singleton_append, evalStack, hv] using hcomm
  refine ⟨v, rv, rfl, ?_, fun r₁ values => ?_⟩
  · rw [hnow]
    exact (hlocate rv []).2
  · rw [hnow]
    simp only [stackStep, List.cons_append]
    rw [(hlocate rv _).1]
    rfl

/-- A stack has as many values as expressions. -/
lemma length_evalStack (l : List Expr) (r : Run w) :
    (evalStack w entry l r).1.length = l.length := by
  induction l with
  | nil => rfl
  | cons e rest ih => rw [evalStack, List.length_cons, List.length_cons, ih]

include lawful in
/-- A variable that is pushed. -/
lemma follows_pushVar {ref : VarRef} {state : State} {v : Variable} {rest : List Expr}
    (htake : takeVariable? names ref state.stack = some (v, rest)) :
    Follows names entry state { state with stack := .var v :: rest } (.pushVar ref) := by
  obtain ⟨operands, hstack, -, -, hlocate⟩ := takeLocation?_evalStack lawful entry htake
  refine follows_of_evalStack entry fun r => ?_
  obtain ⟨htake', hrun⟩ := hlocate (evalStack w entry rest r).2 (evalStack w entry rest r).1
  rw [hstack, evalStack_append]
  simp only [stackStep, evalStack, eval]
  rw [htake', hrun]
  rfl

/-- Values that are copied, without calls in them. -/
lemma follows_dup {flag : UInt16} {state state' : State}
    (h : step? names state (.dup flag) = some state')
    (hprompt : promptOp state.stack (.dup flag) = true) :
    Follows names entry state state' (.dup flag) := by
  obtain ⟨stack, out, scopes⟩ := state
  simp only [step?] at h
  split at h
  · rename_i hzero
    subst hzero
    cases stack with
    | nil => cases h
    | cons a stack =>
      cases h
      simp only [promptOp, UInt16.toNat_zero, Nat.zero_add, List.take_succ_cons, List.take_zero,
        anyMentions, Bool.or_false, Bool.not_eq_true'] at hprompt
      refine follows_of_evalStack entry fun r => ?_
      simp only [evalStack, stackStep, if_true, eval_run _ a hprompt]
  · split at h
    · rename_i hone
      subst hone
      cases stack with
      | nil => cases h
      | cons b stack =>
        cases stack with
        | nil => cases h
        | cons a stack =>
          cases h
          simp only [promptOp, UInt16.toNat_one, Nat.reduceAdd, List.take_succ_cons, List.take_zero,
            anyMentions, Bool.or_false, Bool.not_eq_true', Bool.or_eq_false_iff] at hprompt
          refine follows_of_evalStack entry fun r => ?_
          simp only [evalStack, stackStep, eval_run _ a hprompt.2, eval_run _ b hprompt.1]
          rfl
    · cases h

/-- A call on the values at the top of the stack. -/
lemma follows_call {name : String} {argc : UInt16} {state state' : State}
    (h : step? names state (.call name argc) = some state') :
    Follows names entry state state' (.call name argc) := by
  simp only [step?] at h
  split at h
  · cases h
  · rename_i hlength
    cases h
    obtain ⟨args, rest, hstack, hargs⟩ : ∃ args rest, state.stack = args ++ rest ∧
        args.length = argc.toNat :=
      ⟨_, _, (List.take_append_drop argc.toNat _).symm,
        List.length_take_of_le (Nat.le_of_not_lt hlength)⟩
    rw [hstack, ← hargs, List.take_left, List.drop_left]
    refine follows_of_evalStack entry fun r => ?_
    have hnot : ¬ (evalStack w entry state.stack r).1.length < argc.toNat := by
      rw [length_evalStack]
      exact hlength
    simp only [stackStep, if_neg hnot]
    rw [hstack, evalStack_append, ← hargs,
      ← length_evalStack entry args (evalStack w entry rest r).2, List.take_left, List.drop_left]
    rfl

/-- A value that is dropped. -/
lemma follows_popz {state : State} {value : Expr} {rest : List Expr}
    (hstack : state.stack = value :: rest) (hprompt : promptOp state.stack .popz = true) :
    Follows names entry state ({ state with stack := rest }.emit (dropped value)) .popz := by
  have hquiet : undisturbed none [value] rest = true := by
    rw [hstack] at hprompt
    exact hprompt
  refine ⟨[dropped value], rfl, fun r => ⟨(eval w entry value r).2, fun later left => ?_, ?_⟩⟩
  · cases value <;> rfl
  · have hcomm : evalStack w entry ([value] ++ rest) r = _ := evalStack_comm hquiet r
    rw [hstack]
    simp only [List.singleton_append] at hcomm
    rw [hcomm]
    rfl

include lawful in
/-- An operation that stays in the block is followed by the stack machine. -/
lemma follows_step? {op : StackOp} {state state' : State} (hcond : op.isConditional = false)
    (hret : op ≠ .ret) (h : step? names state op = some state')
    (hprompt : promptOp state.stack op = true) : Follows names entry state state' op := by
  cases op with
  | push value =>
    cases h
    exact follows_of_evalStack entry fun r => rfl
  | pushTemporary name =>
    cases h
    exact follows_of_evalStack entry fun r => rfl
  | pushVar ref =>
    obtain ⟨⟨v, rest⟩, htake, h⟩ := Option.bind_eq_some_iff.mp h
    cases h
    exact follows_pushVar lawful entry htake
  | pop ref swapped =>
    cases swapped with
    | true =>
      obtain ⟨stack, out, scopes⟩ := state
      cases stack with
      | nil => cases h
      | cons value stack =>
        obtain ⟨⟨target, rest⟩, htake, h⟩ := Option.bind_eq_some_iff.mp h
        cases h
        exact follows_popSwapped lawful entry rfl htake hprompt
    | false =>
      obtain ⟨⟨target, stack⟩, htake, h⟩ := Option.bind_eq_some_iff.mp h
      cases stack with
      | nil => cases h
      | cons value rest =>
        cases h
        exact follows_pop lawful entry htake hprompt
  | popTemporary name =>
    obtain ⟨stack, out, scopes⟩ := state
    cases stack with
    | nil => cases h
    | cons value rest =>
      cases h
      refine follows_assign lawful entry (show _ = [value] ++ rest from rfl) hprompt fun r => ?_
      exact ⟨_, _, rfl, rfl, fun r₁ values => rfl⟩
  | dup flag => exact follows_dup entry h hprompt
  | binary op =>
    obtain ⟨stack, out, scopes⟩ := state
    match stack, h with
    | right :: left :: rest, h =>
      cases h
      exact follows_of_evalStack entry fun r => rfl
  | unary op =>
    obtain ⟨stack, out, scopes⟩ := state
    match stack, h with
    | operand :: rest, h =>
      cases h
      exact follows_of_evalStack entry fun r => rfl
  | call name argc => exact follows_call entry h
  | popz =>
    obtain ⟨stack, out, scopes⟩ := state
    cases stack with
    | nil => cases h
    | cons value rest =>
      cases h
      exact follows_popz entry rfl hprompt
  | ret => exact absurd rfl hret
  | branchTrue | branchFalse | pushEnv | popEnv | dispatch => cases hcond

end Step

/-! ### Whole blocks -/

/-- Whether a statement goes to another block or leaves the unit. -/
def isJump : Stmt → Bool
  | .goto _ | .exit => true
  | _ => false

/-- The statements of a raw block: labels and stack operations, then a transfer of control, with a
branch only directly before it. -/
inductive RawBody : List Stmt → Prop
  | jump {s : Stmt} (h : isJump s = true) : RawBody [s]
  | ret (offset : Nat) : RawBody [.raw offset .ret]
  | branch (offset : Nat) {op : StackOp} {s : Stmt} (hcond : op.isConditional = true)
    (h : isJump s = true) : RawBody [.raw offset op, s]
  | label (id : LabelId) {rest : List Stmt} (h : RawBody rest) : RawBody (.label id :: rest)
  | op (offset : Nat) {op : StackOp} {rest : List Stmt} (hcond : op.isConditional = false)
    (hret : op ≠ .ret) (h : RawBody rest) : RawBody (.raw offset op :: rest)

/-- Whether nothing that waits on the stack is disturbed in the course of a block. -/
def prompt (names : Names) : List Expr → List Stmt → Bool
  | stack, .raw _ op :: rest =>
    promptOp stack op &&
      match step? names { stack, scopes := 0 } op with
      | some state => prompt names state.stack rest
      | none => true
  | stack, _ :: rest => prompt names stack rest
  | _, [] => true

/-- An operation that stays in the block changes the stack by what is on the stack. -/
lemma step?_stack {names : Names} {op : StackOp} {state state' : State}
    (hcond : op.isConditional = false) (h : step? names state op = some state') :
    ∃ final, step? names { stack := state.stack, scopes := 0 } op = some final ∧
      final.stack = state'.stack := by
  obtain ⟨stack, out, scopes⟩ := state
  cases op with
  | push | pushTemporary =>
    cases h
    exact ⟨_, rfl, rfl⟩
  | pushVar ref =>
    obtain ⟨⟨v, rest⟩, htake, h⟩ := Option.bind_eq_some_iff.mp h
    cases h
    refine ⟨{ stack := .var v :: rest, scopes := 0 }, ?_, rfl⟩
    simp only [step?, htake]
    rfl
  | pop ref swapped =>
    cases swapped with
    | true =>
      match stack, h with
      | value :: stack, h =>
        obtain ⟨⟨target, rest⟩, htake, h⟩ := Option.bind_eq_some_iff.mp h
        cases h
        refine ⟨State.emit { stack := rest, scopes := 0 } (.assign target value), ?_, rfl⟩
        simp only [step?, htake]
        rfl
    | false =>
      obtain ⟨⟨target, stack'⟩, htake, h⟩ := Option.bind_eq_some_iff.mp h
      match stack', h with
      | value :: rest, h =>
        cases h
        refine ⟨State.emit { stack := rest, scopes := 0 } (.assign target value), ?_, rfl⟩
        simp only [step?, htake]
        rfl
  | popTemporary | unary | popz | ret =>
    match stack, h with
    | value :: rest, h =>
      cases h
      exact ⟨_, rfl, rfl⟩
  | binary op =>
    match stack, h with
    | right :: left :: rest, h =>
      cases h
      exact ⟨_, rfl, rfl⟩
  | dup flag =>
    simp only [step?] at h ⊢
    split at h
    · rename_i hzero
      rw [if_pos hzero]
      match stack, h with
      | a :: rest, h =>
        cases h
        exact ⟨_, rfl, rfl⟩
    · rename_i hzero
      rw [if_neg hzero]
      split at h
      · rename_i hone
        rw [if_pos hone]
        match stack, h with
        | b :: a :: rest, h =>
          cases h
          exact ⟨_, rfl, rfl⟩
      · cases h
  | call name argc =>
    simp only [step?] at h ⊢
    split at h
    · cases h
    · rename_i hlength
      rw [if_neg hlength]
      cases h
      exact ⟨_, rfl, rfl⟩
  | branchTrue | branchFalse | pushEnv | popEnv | dispatch => cases hcond

section Block

variable {w : World} {names : Names} (entry : List w.Value)

/-- Pushing the values that are left on the stack. -/
lemma runStmts_push (stack : List Expr) (rest : List Stmt) (r : Run w) (left : List w.Value) :
    runStmts w entry (stack.reverse.map Stmt.push ++ rest) r left =
      runStmts w entry rest (evalStack w entry stack r).2
        (left ++ (evalStack w entry stack r).1.reverse) := by
  induction stack generalizing rest with
  | nil => simp only [List.reverse_nil, List.map_nil, List.nil_append, evalStack, List.append_nil]
  | cons e stack ih =>
    rw [List.reverse_cons, List.map_append, List.append_assoc, ih]
    simp only [List.map_cons, List.map_nil, List.singleton_append, runStmts, evalStack,
      List.reverse_cons, List.append_assoc]

/-- Pushing the values that are left on the stack, with nothing pushed before. -/
lemma runStmts_flush (stack : List Expr) (rest : List Stmt) (r : Run w) :
    runStmts w entry (stack.reverse.map Stmt.push ++ rest) r [] =
      runStmts w entry rest (evalStack w entry stack r).2 (evalStack w entry stack r).1.reverse := by
  rw [runStmts_push, List.nil_append]

/-- The negation of a test is evaluated like the test and has the opposite truth. -/
lemma eval_negate (lawful : w.Lawful names) (e : Expr) (r : Run w) :
    (eval w entry e.negate r).2 = (eval w entry e r).2 ∧
      w.truthy (eval w entry e.negate r).1 = !w.truthy (eval w entry e r).1 := by
  have hnot : ∀ e, (eval w entry (.not e) r).2 = (eval w entry e r).2 ∧
      w.truthy (eval w entry (.not e) r).1 = !w.truthy (eval w entry e r).1 :=
    fun e => ⟨rfl, lawful.truthy_not _⟩
  unfold Expr.negate
  split
  · rename_i op left right
    cases hinv : op.inverse? with
    | none => exact hnot _
    | some inverse => exact ⟨rfl, lawful.truthy_inverse op inverse _ _ hinv⟩
  · rename_i operand
    obtain ⟨hrun, htruth⟩ := hnot operand
    refine ⟨hrun.symm, ?_⟩
    rw [Expr.not] at htruth
    rw [htruth, Bool.not_not]
  · exact hnot _

/-- The instances of a scope are those of the value on the stack. -/
lemma eval_scopeOf (lawful : w.Lawful names) (e : Expr) (r : Run w) :
    (eval w entry (scopeOf names e) r).2 = (eval w entry e r).2 ∧
      w.instanceOf (eval w entry (scopeOf names e) r).1 =
        w.instanceOf (eval w entry e r).1 := by
  unfold scopeOf
  cases hid : e.constant?.bind Constant.integer? with
  | none => exact ⟨rfl, rfl⟩
  | some id =>
    obtain ⟨c, hc, hid⟩ := Option.bind_eq_some_iff.mp hid
    cases e with
    | const value =>
      cases hc
      refine ⟨rfl, ?_⟩
      rw [eval, lawful.instanceOf_constant _ id hid]
      exact lawful.instanceOf_name id r.memory
    | var | call | unary | binary | incoming => cases hc

/-- A branch leaves the stack behind and asks what the stack machine asks. -/
lemma branch_step? (lawful : w.Lawful names) {op : StackOp} {state state' : State}
    (hcond : op.isConditional = true) (h : step? names state op = some state') :
    ∃ branch rest, state'.stack = [] ∧
      state'.out = state.out ++ rest.reverse.map Stmt.push ++ [branch] ∧
      ∀ r : Run w, ∃ r' answer,
        (∀ later left, runStmts w entry (branch :: later) (evalStack w entry rest r).2 left =
          Outcome.decide r' left answer (runStmts w entry later r' left)) ∧
        ∀ offset later,
          runRaw names (.raw offset op :: later) (evalStack w entry state.stack r).2
              (evalStack w entry state.stack r).1 =
            Outcome.decide r' (evalStack w entry rest r).1.reverse answer
              (runRaw names later r' (evalStack w entry rest r).1) := by
  obtain ⟨stack, out, scopes⟩ := state
  cases op with
  | branchTrue target =>
    match stack, h with
    | test :: rest, h =>
      cases h
      exact ⟨_, rest, rfl, rfl, fun r => ⟨_, _, fun _ _ => rfl, fun _ _ => rfl⟩⟩
  | branchFalse target =>
    match stack, h with
    | test :: rest, h =>
      cases h
      refine ⟨_, rest, rfl, rfl, fun r => ⟨_, _, fun _ _ => rfl, fun _ _ => ?_⟩⟩
      obtain ⟨hrun, htruth⟩ := eval_negate entry lawful test (evalStack w entry rest r).2
      rw [hrun, htruth]
      rfl
  | pushEnv skip =>
    match stack, h with
    | env :: rest, h =>
      cases h
      refine ⟨_, rest, rfl, rfl, fun r => ⟨_, _, fun _ _ => rfl, fun _ _ => ?_⟩⟩
      obtain ⟨hrun, hinst⟩ := eval_scopeOf entry lawful env (evalStack w entry rest r).2
      rw [hrun, hinst]
      rfl
  | popEnv back =>
    cases scopes with
    | zero => cases h
    | succ scopes =>
      cases h
      exact ⟨_, stack, rfl, rfl, fun r => ⟨_, _, fun _ _ => rfl, fun _ _ => rfl⟩⟩
  | dispatch cases default =>
    match stack, h with
    | value :: rest, h =>
      cases h
      refine ⟨_, rest, rfl, rfl, fun r => ?_⟩
      refine ⟨(eval w entry value (evalStack w entry rest r).2).2,
        some (select (eval w entry value (evalStack w entry rest r).2).1 default
          (cases.map fun c => (w.constant c.1, c.2))), fun later left => ?_, fun _ _ => rfl⟩
      simp only [runStmts, List.map_map]
      rfl
  | push | pushVar | pop | pushTemporary | popTemporary | dup | binary | unary | call | popz | ret =>
    cases hcond

/-- An operation that stays in the block, as a step of the stack machine. -/
lemma runRaw_op {op : StackOp} (hcond : op.isConditional = false) (hret : op ≠ .ret) (offset : Nat)
    (rest : List Stmt) (r : Run w) (stack : List w.Value) :
    runRaw names (.raw offset op :: rest) r stack =
      (stackStep names r stack op).bind fun next => runRaw names rest next.1 next.2 := by
  cases op with
  | ret => exact absurd rfl hret
  | branchTrue | branchFalse | pushEnv | popEnv | dispatch => cases hcond
  | push | pushVar | pop | pushTemporary | popTemporary | dup | binary | unary | call | popz =>
    simp only [runRaw]
    cases stackStep names r stack _ <;> rfl

/-- A jump at the end of a block, simulated. -/
lemma stmts_jump {done : List Stmt} {s : Stmt} (h : isJump s = true) (state : State) :
    stmts names done state [s] = .ok (state.flush.emit s) := by
  cases s with
  | goto | exit => rfl
  | label | raw | push | assign | call | discard | condGoto | pushEnv | popEnv | dispatch | ret
  | breakOut | continueLoop | basic | seq | cond | loop | switch | scope => cases h

variable (names) in
/-- A jump at the end of a block is the same in both ways of running it. -/
lemma exists_transfer {s : Stmt} (h : isJump s = true) : ∃ transfer,
    (∀ (r : Run w) left, runStmts w entry [s] r left = some { run := r, left, transfer }) ∧
      ∀ (r : Run w) stack,
        runRaw names [s] r stack = some { run := r, left := stack.reverse, transfer } := by
  cases s with
  | goto target => exact ⟨.goto target, fun _ _ => rfl, fun _ _ => rfl⟩
  | exit => exact ⟨.exit, fun _ _ => rfl, fun _ _ => rfl⟩
  | label | raw | push | assign | call | discard | condGoto | pushEnv | popEnv | dispatch | ret
  | breakOut | continueLoop | basic | seq | cond | loop | switch | scope => cases h

/-- Every block ends in something. -/
lemma RawBody.isEmpty_eq_false {body : List Stmt} (h : RawBody body) : body.isEmpty = false := by
  cases h <;> rfl

/-- The rest of a block: what is emitted for it runs like the stack machine, from the point where the
values of the symbolic stack are those of the machine. -/
theorem runStmts_stmts (lawful : w.Lawful names) {done : List Stmt} {body : List Stmt}
    (hbody : RawBody body) {state final : State} (h : stmts names done state body = .ok final)
    (hprompt : prompt names state.stack body = true) :
    ∃ emitted, settle final = state.out ++ emitted ∧
      ∀ r : Run w, ∃ outcome, runStmts w entry emitted r [] = some outcome ∧
        runRaw names body (evalStack w entry state.stack r).2 (evalStack w entry state.stack r).1 =
          some outcome := by
  induction hbody generalizing state with
  | jump hjump =>
    rename_i s
    obtain ⟨transfer, hstmts, hraw⟩ := exists_transfer names entry hjump
    rw [stmts_jump hjump] at h
    cases h
    refine ⟨state.stack.reverse.map Stmt.push ++ [s], List.append_assoc _ _ _, fun r => ?_⟩
    rw [runStmts_flush, hstmts, hraw]
    exact ⟨_, rfl, rfl⟩
  | ret offset =>
    obtain ⟨stack, out, scopes⟩ := state
    cases stack with
    | nil => cases h
    | cons value rest =>
      cases h
      refine ⟨rest.reverse.map Stmt.push ++ [.ret value], ?_, fun r => ?_⟩
      · -- What is left goes before the return, where there is anything.
        cases rest with
        | nil => rfl
        | cons e rest =>
          simp only [settle, State.emit, List.isEmpty_cons, Bool.false_eq_true, if_false,
            List.dropLast_concat, List.getLast?_concat, Option.toList_some, List.append_assoc]
      · rw [runStmts_flush]
        exact ⟨_, rfl, rfl⟩
  | branch offset hcond hjump =>
    rename_i op s
    obtain ⟨transfer, hstmts, hraw⟩ := exists_transfer names entry hjump
    simp only [stmts, step] at h
    cases hstep : step? names state op with
    | none =>
      rw [hstep] at h
      cases h
    | some state' =>
      simp only [hstep, stmts_jump hjump] at h
      cases h
      obtain ⟨branch, rest, hstack, hout, hbranch⟩ := branch_step? entry lawful hcond hstep
      refine ⟨rest.reverse.map Stmt.push ++ [branch, s], ?_, fun r => ?_⟩
      · simp only [settle, State.flush, State.emit, hstack, hout, List.isEmpty_nil, if_true,
          List.reverse_nil, List.map_nil, List.append_nil, List.append_assoc, List.singleton_append]
      · obtain ⟨r', answer, hstmts', hraw'⟩ := hbranch r
        rw [runStmts_flush, hstmts', hraw', hstmts, hraw]
        cases answer with
        | none => exact ⟨_, rfl, rfl⟩
        | some target => exact ⟨_, rfl, rfl⟩
  | label id hrest ih =>
    simp only [stmts, hrest.isEmpty_eq_false, Bool.false_eq_true, if_false] at h
    obtain ⟨emitted, hout, hrun⟩ := ih h hprompt
    refine ⟨.label id :: emitted, ?_, hrun⟩
    rw [hout, State.emit, List.append_assoc]
    rfl
  | op offset hcond hret hrest ih =>
    rename_i op rest
    simp only [stmts, step] at h
    simp only [prompt, Bool.and_eq_true] at hprompt
    cases hstep : step? names state op with
    | none =>
      rw [hstep] at h
      cases h
    | some state' =>
      obtain ⟨final, hfinal, hstack⟩ := step?_stack hcond hstep
      simp only [hstep, hfinal, hstack] at h hprompt
      obtain ⟨first, hfirst, hfollow⟩ := follows_step? lawful entry hcond hret hstep hprompt.1
      obtain ⟨emitted, hout, hrun⟩ := ih h hprompt.2
      refine ⟨first ++ emitted, ?_, fun r => ?_⟩
      · rw [hout, hfirst, List.append_assoc]
      · obtain ⟨r', hfirst', hop⟩ := hfollow r
        obtain ⟨outcome, hstmts, hraw⟩ := hrun r'
        refine ⟨outcome, ?_, ?_⟩
        · rw [hfirst', hstmts]
        · rw [runRaw_op hcond hret, hop]
          exact hraw

/-- The values that lie on the stack when a block is entered. -/
lemma evalStack_incomingStack (r : Run w) :
    evalStack w entry (incomingStack entry.length) r = (entry.reverse, r) := by
  have h : ∀ n ≤ entry.length,
      evalStack w entry ((List.range n).reverse.map Expr.incoming) r = ((entry.take n).reverse, r) := by
    intro n hn
    induction n with
    | zero => rfl
    | succ n ih =>
      have hlt : n < entry.length := hn
      rw [List.range_succ, List.reverse_append, List.take_add_one, List.reverse_append,
        List.getElem?_eq_getElem hlt]
      simp only [List.reverse_singleton, List.singleton_append, List.map_cons, evalStack, eval,
        ih (Nat.le_of_lt hlt), Option.toList_some, List.getElem?_eq_getElem hlt, Option.getD_some]
  rw [incomingStack, h _ (Nat.le_refl _), List.take_length]

/-- A simulated block runs like its operations on the stack machine. -/
lemma runStmts_block (lawful : w.Lawful names) {done : List Stmt} {scopes scopes' : Nat}
    {body out : List Stmt} (h : block names done scopes entry.length body = .ok (out, scopes'))
    (hbody : RawBody body) (hprompt : prompt names (incomingStack entry.length) body = true)
    (r : Run w) :
    ∃ outcome, runStmts w entry out r [] = some outcome ∧
      runRaw names body r entry.reverse = some outcome := by
  unfold block at h
  cases hstmts : stmts names done { stack := incomingStack entry.length, scopes } body with
  | error e =>
    rw [hstmts] at h
    cases h
  | ok final =>
    rw [hstmts] at h
    cases h
    obtain ⟨emitted, hout, hrun⟩ := runStmts_stmts entry lawful hbody hstmts hprompt
    obtain ⟨outcome, hemitted, hraw⟩ := hrun r
    rw [evalStack_incomingStack] at hraw
    refine ⟨outcome, ?_, hraw⟩
    rw [hout]
    exact hemitted

/-- Each block of a simulated list is the simulation of the block at its place. -/
lemma exists_block {done : List Stmt} {scopes : Nat} {sources : List (BasicBlock × Nat)}
    {results : List BasicBlock} (h : blocks names done scopes sources = .ok results) {i : Nat}
    {result : BasicBlock} (hresult : results[i]? = some result) :
    ∃ source, sources[i]? = some (source, result.entryDepth) ∧
      ∃ done scopes scopes', block names done scopes result.entryDepth source.body =
        .ok (result.body, scopes') := by
  induction sources generalizing done scopes results i with
  | nil =>
    simp only [blocks] at h
    split at h
    · cases h
      simp only [List.getElem?_nil, reduceCtorEq] at hresult
    · cases h
  | cons first rest ih =>
    obtain ⟨source, depth⟩ := first
    simp only [blocks, bind, Except.bind] at h
    cases hblock : block names done scopes depth source.body with
    | error e =>
      rw [hblock] at h
      cases h
    | ok out =>
      obtain ⟨body, scopes'⟩ := out
      cases hlater : blocks names (done ++ body) scopes' rest with
      | error e =>
        simp only [hblock, hlater] at h
        cases h
      | ok later =>
        simp only [hblock, hlater] at h
        cases h
        cases i with
        | zero =>
          cases hresult
          exact ⟨source, rfl, done, scopes, scopes', hblock⟩
        | succ i => exact ih hlater hresult

end Block

/-- Simulated blocks run like the operations they were made of.  Where nothing that waits on the
symbolic stack is disturbed, a block that is entered with the values `entry` does the same in every
world as the stack machine: it ends with the same memory, makes the same calls, answers its branch in
the same way, leaves the same values and the block in the same way. -/
theorem runStmts_simulate {names : Names} {labels : Labels} {sources results : List BasicBlock}
    (h : simulate names labels sources = .ok results) {i : Nat} {source result : BasicBlock}
    (hsource : sources[i]? = some source) (hresult : results[i]? = some result)
    (hbody : RawBody source.body)
    (hprompt : prompt names (incomingStack result.entryDepth) source.body = true) {w : World}
    (lawful : w.Lawful names) {entry : List w.Value} (hentry : entry.length = result.entryDepth)
    (memory : w.Memory) :
    ∃ outcome, runStmts w entry result.body ⟨memory, []⟩ [] = some outcome ∧
      runRaw names source.body ⟨memory, []⟩ entry.reverse = some outcome := by
  unfold simulate at h
  cases hdepths : Depth.entryDepths sources labels with
  | error e =>
    rw [hdepths] at h
    cases h
  | ok depths =>
    rw [hdepths] at h
    obtain ⟨source', hzip, done, scopes, scopes', hblock⟩ := exists_block h hresult
    obtain rfl : source' = source := by
      have hsource' := (List.getElem?_zip_eq_some.mp hzip).1
      rw [hsource] at hsource'
      exact (Option.some.inj hsource').symm
    rw [← hentry] at hblock hprompt
    exact runStmts_block entry lawful hblock hbody hprompt ⟨memory, []⟩

/-! ### A world of integers -/

/-- An integer with the name of the instance it stands for. -/
def number (names : Names) (n : Int) : Int × String :=
  (n, instanceName names n)

/-- What an operator computes on integers; a truth value is zero or one. -/
def integerBinary (op : BinaryOp) (a b : Int) : Int :=
  match op with
  | .add => a + b
  | .sub => a - b
  | .mul => a * b
  | .lt => if a < b then 1 else 0
  | .le => if a ≤ b then 1 else 0
  | .eq => if a = b then 1 else 0
  | .ne => if a = b then 0 else 1
  | .ge => if a < b then 0 else 1
  | .gt => if a ≤ b then 0 else 1
  | _ => 0

/-- What a memory cell that holds an integer reads as; a temporary stands for the instance of its name.
-/
def integerRead (names : Names) (p : Location String (Int × String)) (n : Int) : Int × String :=
  match p.owner with
  | none => (n, p.name)
  | some _ => number names n

/-- A world of integers, in which a call gives the sum of its arguments and changes nothing. -/
def integerWorld (names : Names) : World where
  Value := Int × String
  Instance := String
  Memory := Location String (Int × String) → Int
  undefined := number names 0
  constant c := number names (c.integer?.getD 0)
  unary op v := number names
    (match op with
      | .not => if v.1 = 0 then 1 else 0
      | .neg => -v.1)
  binary op a b := number names (integerBinary op a.1 b.1)
  truthy v := v.1 != 0
  equal a b := a.1 == b.1
  instanceOf v := v.2
  named name := name
  read p memory := integerRead names p (memory p)
  write p v memory := fun q => if q = p then v.1 else memory q
  call _ args memory := (number names (args.foldl (fun sum v => sum + v.1) 0), memory)
  enter _ memory := (false, memory)
  leave memory := (false, memory)

/-- The world of integers keeps the laws. -/
lemma integerWorld_lawful (names : Names) : (integerWorld names).Lawful names where
  read_write p q v m h :=
    congrArg (integerRead names p) (if_neg fun heq => h (congrArg Location.cell heq))
  truthy_not v := by
    by_cases h : v.1 = 0 <;> simp [integerWorld, number, h]
  truthy_inverse op inverse a b h := by
    cases op <;> cases h <;> simp only [integerWorld, number, integerBinary] <;> split <;> rfl
  instanceOf_constant c id h := by
    simp only [integerWorld, number, h, Option.getD_some]
  instanceOf_name id m := rfl

/-- A block that leaves a value for the next one. -/
def pushedArgument : BasicBlock where
  body := [.label 0, .raw 0 (.push (.int 2)), .goto 1]

/-- A block that calls `f` with the value it is entered with, adds `x` and stores the sum in `x`. -/
def storedCall : BasicBlock where
  body := [.label 1, .raw 2 (.call "f" 1), .raw 3 (.pushVar ⟨"x", -1, false⟩), .raw 4 (.binary .add),
    .raw 5 (.pop ⟨"x", -1, false⟩ false), .exit]

/-- In the world of integers the block does the same as its operations, whatever it is entered with.
-/
theorem storedCall_runs :
    ∃ first out, simulate {} {} [pushedArgument, storedCall] = .ok [first, out] ∧
      RawBody storedCall.body ∧
      prompt {} (incomingStack out.entryDepth) storedCall.body = true ∧
      ∃ outcome, runStmts (integerWorld {}) [(7, "noone")] out.body ⟨fun _ => 3, []⟩ [] =
          some outcome ∧
        runRaw (w := integerWorld {}) {} storedCall.body ⟨fun _ => 3, []⟩ [(7, "noone")] =
          some outcome ∧
        outcome.run.memory ⟨"x", some "self", none⟩ = 10 := by
  have hbody : RawBody storedCall.body :=
    .label 1 (.op 2 rfl nofun (.op 3 rfl nofun (.op 4 rfl nofun (.op 5 rfl nofun (.jump rfl)))))
  let x : Variable := ⟨"x", .named "self", none⟩
  let out : BasicBlock := { entryDepth := 1, body := [.label 1,
    .assign x (.binary .add (.call "f" [.incoming 0]) (.var x)), .exit] }
  have hsim : simulate {} {} [pushedArgument, storedCall] =
      .ok [{ body := [.label 0, .push (.int 2), .goto 1] }, out] := rfl
  have hprompt : prompt {} (incomingStack out.entryDepth) storedCall.body = true := by decide
  obtain ⟨outcome, hstmts, hraw⟩ := runStmts_simulate (i := 1) hsim rfl rfl hbody hprompt
    (integerWorld_lawful {}) (show [((7 : Int), "noone")].length = out.entryDepth from rfl)
    fun _ => 3
  refine ⟨_, out, hsim, hbody, hprompt, outcome, hstmts, hraw, ?_⟩
  cases hraw
  decide

/-- A block that reads `x`, then stores into `x`, and then stores what it has read into `y`. -/
def delayedRead : BasicBlock where
  body := [.label 0, .raw 0 (.pushVar ⟨"x", -1, false⟩), .raw 1 (.push (.int 1)),
    .raw 2 (.pop ⟨"x", -1, false⟩ false), .raw 3 (.pop ⟨"y", -1, false⟩ false), .exit]

/-- The simulated block reads `x` only after the store, and so `y` gets the new value. -/
theorem delayedRead_differs :
    RawBody delayedRead.body ∧ (integerWorld {}).Lawful {} ∧
      ∃ out a b, simulate {} {} [delayedRead] = .ok [out] ∧
        runStmts (integerWorld {}) [] out.body ⟨fun _ => 0, []⟩ [] = some a ∧
        runRaw (w := integerWorld {}) {} delayedRead.body ⟨fun _ => 0, []⟩ [] = some b ∧
        a.run.memory ⟨"y", some "self", none⟩ = 1 ∧ b.run.memory ⟨"y", some "self", none⟩ = 0 := by
  refine ⟨?_, integerWorld_lawful {}, _, _, _, rfl, rfl, rfl, by decide, by decide⟩
  refine .label 0 (.op 0 rfl nofun (.op 1 rfl nofun (.op 2 rfl nofun (.op 3 rfl nofun ?_))))
  exact .jump rfl

end Decompiler.StackMachine
