import Mathlib.Tactic.Common
import Decompiler.Proofs.StackMachine

/-!
# The stack machine on lists of blocks

The stack machine runs a list of blocks one statement after the other (`Config.next?`); where control goes to
a label, it goes on behind the label of the block.  On each block it does what running the block to its end
does (`reaches_of_runRaw`).

An operation that takes no more values than there are on the top part of the stack does not touch what lies
below (`operate_append`), and an operation that does not name a temporary does not care what the temporary
holds (`operate_hold`), as long as nothing but its own reads and writes reach the temporary
(`World.Reserves`).
-/

namespace Decompiler.StackMachine

open Bytecode

variable {w : World}

/-! ### Operations -/

/-- What an operation does: the label that it jumps to, if it does, and the run and the stack after it. -/
def operate (names : Names) (r : Run w) (stack : List w.Value) :
    StackOp → Option (Option LabelId × Run w × List w.Value)
  | .branchTrue target => do
    let test :: stack := stack | none
    return (taken (w.truthy test) target, r, stack)
  | .branchFalse target => do
    let test :: stack := stack | none
    return (taken (!w.truthy test) target, r, stack)
  | .pushEnv skip => do
    let env :: stack := stack | none
    let (answer, memory) := w.enter (w.instanceOf env) r.memory
    return (taken answer skip, { r with memory }, stack)
  | .popEnv back =>
    let (answer, memory) := w.leave r.memory
    some (taken answer back, { r with memory }, stack)
  | .dispatch cases default => do
    let value :: stack := stack | none
    return (some (select value default (cases.map fun c => (w.constant c.1, c.2))), r, stack)
  | op => (stackStep names r stack op).map fun (r, stack) => (none, r, stack)

/-- The number of values that a statement takes off the stack. -/
def popped : Stmt → Nat
  | .raw _ op => (op.effect?.map Prod.fst).getD 0
  | _ => 0

section Frame

variable {names : Names} {r : Run w} {above lower : List w.Value}

lemma exists_cons_cons {α : Type} {l : List α} (h : 2 ≤ l.length) : ∃ a b rest, l = a :: b :: rest := by
  obtain ⟨a, l, rfl⟩ := List.exists_cons_of_length_pos (Nat.lt_of_lt_of_le Nat.two_pos h)
  obtain ⟨b, rest, rfl⟩ := List.exists_cons_of_length_pos (Nat.le_of_succ_le_succ h)
  exact ⟨a, b, rest, rfl⟩

/-- A variable takes its index off the stack, and no more. -/
lemma exists_takeIndex? {ref : VarRef} (h : (if ref.array then 1 else 0) ≤ above.length) :
    ∃ (index : Option w.Value) (rest : List w.Value),
      rest.length + (if ref.array then 1 else 0) = above.length ∧
      ∀ lower, takeIndex? ref (above ++ lower) = some (index, rest ++ lower) := by
  unfold takeIndex?
  revert h
  cases ref.array with
  | false => exact fun _ => ⟨none, above, rfl, fun _ => rfl⟩
  | true =>
    intro h
    obtain ⟨a, rest, rfl⟩ := List.exists_cons_of_length_pos h
    exact ⟨some a, rest, rfl, fun _ => rfl⟩

/-- A variable takes its owner off the stack, and no more. -/
lemma exists_takeOwner? (names : Names) {ref : VarRef}
    (h : (if ref.owner = 0 then 1 else 0) ≤ above.length) :
    ∃ (owner : w.Instance) (rest : List w.Value),
      rest.length + (if ref.owner = 0 then 1 else 0) = above.length ∧
      ∀ lower, takeOwner? names ref (above ++ lower) = some (owner, rest ++ lower) := by
  unfold takeOwner?
  split
  · rename_i howner
    rw [if_pos howner] at h
    obtain ⟨a, rest, rfl⟩ := List.exists_cons_of_length_pos h
    exact ⟨w.instanceOf a, rest, rfl, fun _ => rfl⟩
  · exact ⟨_, above, rfl, fun _ => rfl⟩

/-- A variable takes what names it off the stack, and no more. -/
lemma exists_takeLocation? (names : Names) {ref : VarRef} (h : ref.stackOperands ≤ above.length) :
    ∃ (p : Location w.Instance w.Value) (rest : List w.Value),
      rest.length + ref.stackOperands = above.length ∧
      ∀ lower, takeLocation? names ref (above ++ lower) = some (p, rest ++ lower) := by
  rw [VarRef.stackOperands] at h ⊢
  have hlong : (if ref.array then 1 else 0) ≤ above.length := by omega
  obtain ⟨index, middle, hmiddle, hindex⟩ := exists_takeIndex? hlong
  have hlong' : (if ref.owner = 0 then 1 else 0) ≤ middle.length := by omega
  obtain ⟨owner, rest, hrest, howner⟩ := exists_takeOwner? names hlong'
  refine ⟨⟨ref.name, some owner, index⟩, rest, by omega, fun lower => ?_⟩
  simp [takeLocation?, hindex, howner]

/-- What lies below the values that an operation takes is left alone. -/
lemma operate_append {op : StackOp} {k j : Nat} (heffect : op.effect? = some (k, j))
    (hk : k ≤ above.length) (lower : List w.Value) :
    operate names r (above ++ lower) op =
      (operate names r above op).map fun x => (x.1, x.2.1, x.2.2 ++ lower) := by
  cases op with
  | push | pushTemporary | popEnv | ret => rfl
  | pushVar ref =>
    obtain ⟨rfl, -⟩ := Prod.mk.inj (Option.some.inj heffect)
    obtain ⟨p, rest, -, htake⟩ := exists_takeLocation? names hk
    have habove := htake []
    rw [List.append_nil, List.append_nil] at habove
    simp [operate, stackStep, htake, habove]
  | pop ref swapped =>
    obtain ⟨rfl, -⟩ := Prod.mk.inj (Option.some.inj heffect)
    cases swapped with
    | true =>
      obtain ⟨value, above, rfl⟩ := List.exists_cons_of_length_pos (Nat.lt_of_lt_of_le (Nat.succ_pos _) hk)
      obtain ⟨p, rest, -, htake⟩ := exists_takeLocation? names (Nat.le_of_succ_le_succ hk)
      have habove := htake []
      rw [List.append_nil, List.append_nil] at habove
      simp [operate, stackStep, htake, habove]
    | false =>
      obtain ⟨p, rest, hrest, htake⟩ := exists_takeLocation? names (Nat.le_of_succ_le hk)
      obtain ⟨value, rest, rfl⟩ := List.exists_cons_of_length_pos (l := rest) (by omega)
      have habove := htake []
      rw [List.append_nil, List.append_nil] at habove
      simp [operate, stackStep, htake, habove]
  | call name argc =>
    obtain ⟨rfl, -⟩ := Prod.mk.inj (Option.some.inj heffect)
    have hlong : ¬ above.length + lower.length < argc.toNat := by omega
    simp [operate, stackStep, hlong, Nat.not_lt.mpr hk, List.take_append_of_le_length hk,
      List.drop_append_of_le_length hk]
  | dup flag =>
    rw [StackOp.effect?] at heffect
    split at heffect
    · rename_i hflag
      obtain ⟨rfl, -⟩ := Prod.mk.inj (Option.some.inj heffect)
      obtain ⟨a, above, rfl⟩ := List.exists_cons_of_length_pos hk
      simp [operate, stackStep, hflag]
    · split at heffect
      · rename_i hflag
        obtain ⟨rfl, -⟩ := Prod.mk.inj (Option.some.inj heffect)
        obtain ⟨b, a, above, rfl⟩ := exists_cons_cons hk
        simp [operate, stackStep, hflag]
      · cases heffect
  | binary op =>
    obtain ⟨rfl, -⟩ := Prod.mk.inj (Option.some.inj heffect)
    obtain ⟨b, a, above, rfl⟩ := exists_cons_cons hk
    rfl
  | unary op | popTemporary name | popz | branchTrue target | branchFalse target | pushEnv skip
  | dispatch cases default =>
    obtain ⟨rfl, -⟩ := Prod.mk.inj (Option.some.inj heffect)
    obtain ⟨a, above, rfl⟩ := List.exists_cons_of_length_pos hk
    rfl

end Frame

/-! ### Temporaries -/

/-- A temporary that nothing but its own reads and writes reach. -/
structure World.Reserves (w : World) (name : String) : Prop where
  read_own : ∀ v m, w.read (.temporary name) (w.write (.temporary name) v m) = v
  write_own : ∀ u v m, w.write (.temporary name) v (w.write (.temporary name) u m) =
    w.write (.temporary name) v m
  read_other : ∀ p v m, p.cell ≠ (name, true) → w.read p (w.write (.temporary name) v m) = w.read p m
  write_other : ∀ p u v m, p.cell ≠ (name, true) →
    w.write p u (w.write (.temporary name) v m) = w.write (.temporary name) v (w.write p u m)
  call : ∀ f args v m, w.call f args (w.write (.temporary name) v m) =
    ((w.call f args m).1, w.write (.temporary name) v (w.call f args m).2)
  enter : ∀ i v m, w.enter i (w.write (.temporary name) v m) =
    ((w.enter i m).1, w.write (.temporary name) v (w.enter i m).2)
  leave : ∀ v m, w.leave (w.write (.temporary name) v m) =
    ((w.leave m).1, w.write (.temporary name) v (w.leave m).2)

/-- The run with another value in a temporary. -/
def Run.hold (r : Run w) (name : String) (v : w.Value) : Run w :=
  r.write (.temporary name) v

/-- The statement reads or writes a temporary. -/
def usesTemporary (name : String) : Stmt → Bool
  | .raw _ (.pushTemporary n) | .raw _ (.popTemporary n) => n == name
  | _ => false

section Temporaries

variable {name : String} (h : w.Reserves name) {names : Names}
include h

lemma hold_hold (r : Run w) (u v : w.Value) : (r.hold name u).hold name v = r.hold name v := by
  simp only [Run.hold, Run.write, h.write_own]

omit h in
/-- A variable that is not a temporary is not this one. -/
lemma cell_takeLocation? {ref : VarRef} {stack rest : List w.Value} {p : Location w.Instance w.Value}
    (htake : takeLocation? names ref stack = some (p, rest)) : p.cell ≠ (name, true) := by
  simp only [takeLocation?, Option.bind_eq_bind, Option.bind_eq_some_iff, Option.pure_def,
    Option.some.injEq, Prod.mk.injEq] at htake
  obtain ⟨_, -, _, -, rfl, -⟩ := htake
  simp [Location.cell]

lemma hold_write {p : Location w.Instance w.Value} (hp : p.cell ≠ (name, true)) (r : Run w)
    (u v : w.Value) : (r.hold name v).write p u = (r.write p u).hold name v := by
  simp only [Run.hold, Run.write, h.write_other p u v r.memory hp]

lemma hold_call (r : Run w) (f : String) (args : List w.Value) (v : w.Value) :
    (r.hold name v).call f args = ((r.call f args).1, (r.call f args).2.hold name v) := by
  simp only [Run.call, Run.hold, Run.write, h.call]

/-- An operation that does not name the temporary does the same whatever it holds. -/
lemma operate_hold {offset : Nat} {op : StackOp} (hop : usesTemporary name (.raw offset op) = false)
    (r : Run w) (v : w.Value) (stack : List w.Value) :
    operate names (r.hold name v) stack op =
      (operate names r stack op).map fun x => (x.1, x.2.1.hold name v, x.2.2) := by
  cases op with
  | push | ret => rfl
  | pushVar ref =>
    cases htake : takeLocation? names ref stack with
    | none => simp [operate, stackStep, htake]
    | some x =>
      have hread := h.read_other x.1 v r.memory (cell_takeLocation? htake)
      simp [operate, stackStep, htake, Run.hold, Run.write, hread]
  | pop ref swapped =>
    cases swapped with
    | true =>
      cases stack with
      | nil => rfl
      | cons value stack =>
        cases htake : takeLocation? names ref stack with
        | none => simp [operate, stackStep, htake]
        | some x =>
          have hwrite := hold_write h (cell_takeLocation? htake) r value v
          simp [operate, stackStep, htake, hwrite]
    | false =>
      cases htake : takeLocation? names ref stack with
      | none => simp [operate, stackStep, htake]
      | some x =>
        obtain ⟨p, _ | ⟨value, stack⟩⟩ := x
        · simp [operate, stackStep, htake]
        · have hwrite := hold_write h (cell_takeLocation? htake) r value v
          simp [operate, stackStep, htake, hwrite]
  | pushTemporary n =>
    have hcell : (Location.temporary n : Location w.Instance w.Value).cell ≠ (name, true) := by
      simpa [Location.cell, Location.temporary, usesTemporary] using hop
    simp [operate, stackStep, Run.hold, Run.write, h.read_other _ v r.memory hcell]
  | popTemporary n =>
    have hcell : (Location.temporary n : Location w.Instance w.Value).cell ≠ (name, true) := by
      simpa [Location.cell, Location.temporary, usesTemporary] using hop
    cases stack with
    | nil => rfl
    | cons value stack => simp [operate, stackStep, hold_write h hcell]
  | dup flag =>
    simp only [operate, stackStep]
    split
    · cases stack <;> rfl
    · split
      · rcases stack with _ | ⟨a, _ | ⟨b, stack⟩⟩ <;> rfl
      · rfl
  | binary op => rcases stack with _ | ⟨a, _ | ⟨b, stack⟩⟩ <;> rfl
  | call f argc =>
    simp only [operate, stackStep, hold_call h]
    split <;> rfl
  | unary op | popz | branchTrue target | branchFalse target | dispatch cases default =>
    cases stack <;> rfl
  | pushEnv skip =>
    cases stack with
    | nil => rfl
    | cons env stack => simp [operate, Run.hold, Run.write, h.enter]
  | popEnv back => simp [operate, Run.hold, Run.write, h.leave]

omit h in
/-- An operation that runs takes a number of values. -/
lemma exists_effect? {op : StackOp} {r : Run w} {stack : List w.Value}
    {next : Option LabelId × Run w × List w.Value} (hnext : operate names r stack op = some next) :
    ∃ taken left, op.effect? = some (taken, left) := by
  cases op with
  | dup flag =>
    simp only [operate, stackStep] at hnext
    simp only [StackOp.effect?]
    split_ifs at hnext ⊢
    · exact ⟨1, 2, rfl⟩
    · exact ⟨2, 4, rfl⟩
    · cases hnext
  | push | pushVar | pop | pushTemporary | popTemporary | binary | unary | call | popz | ret | branchTrue
  | branchFalse | pushEnv | popEnv | dispatch => exact ⟨_, _, rfl⟩

/-- An operation does the same over other values, and with another value in a temporary that it does not
name. -/
lemma operate_beside {offset : Nat} {op : StackOp} (hop : usesTemporary name (.raw offset op) = false)
    {r r' : Run w} {above lower stack : List w.Value} {target : Option LabelId}
    (hpopped : popped (.raw offset op) ≤ above.length)
    (hnext : operate names r (above ++ lower) op = some (target, r', stack)) :
    ∃ above', stack = above' ++ lower ∧ ∀ v lower',
      operate names (r.hold name v) (above ++ lower') op =
        some (target, r'.hold name v, above' ++ lower') := by
  obtain ⟨k, j, heffect⟩ := exists_effect? hnext
  have hk : k ≤ above.length := by simpa [popped, heffect] using hpopped
  rw [operate_append heffect hk, Option.map_eq_some_iff] at hnext
  obtain ⟨⟨target, r', above'⟩, habove, hnext⟩ := hnext
  cases hnext
  refine ⟨above', rfl, fun v lower' => ?_⟩
  rw [operate_append heffect hk, operate_hold h hop, habove]
  rfl

end Temporaries

/-! ### Runs -/

/-- The statements of the block with a label. -/
def bodyOf? (blocks : List BasicBlock) (label : LabelId) : Option (List Stmt) :=
  (blocks.find? fun block => block.entryLabel? == some label).map (·.body)

/-- Where a run on a list of blocks is: in which block, what is left of it, and the stack with the top value
first. -/
structure Config (w : World) where
  label : LabelId
  rest : List Stmt
  stack : List w.Value
  run : Run w

namespace Config

/-- Goes on behind the label of a block. -/
def enter? (blocks : List BasicBlock) (c : Config w) (label : LabelId) : Option (Config w) :=
  (bodyOf? blocks label).map fun body => { c with label, rest := body.tail }

/-- Runs one statement.  There is no next statement after the end of the unit, and none where an operation
lacks values. -/
def next? (names : Names) (blocks : List BasicBlock) (c : Config w) : Option (Config w) :=
  match c.rest with
  | .label _ :: rest => some { c with rest }
  | .goto target :: _ => c.enter? blocks target
  | .raw _ op :: rest => do
    let (target, run, stack) ← operate names c.run c.stack op
    match target with
    | none => some { c with rest, run, stack }
    | some target => enter? blocks { c with run, stack } target
  | _ => none

/-- An operation that runs goes on with the next statement, or behind the label that it jumps to. -/
lemma next?_of_operate {names : Names} {blocks : List BasicBlock} {op : StackOp} {r r' : Run w}
    {stack stack' : List w.Value} {target : Option LabelId}
    (h : operate names r stack op = some (target, r', stack')) (label : LabelId) (offset : Nat)
    (rest : List Stmt) :
    next? names blocks ⟨label, .raw offset op :: rest, stack, r⟩ =
      match target with
      | none => some ⟨label, rest, stack', r'⟩
      | some target => enter? blocks ⟨label, rest, stack', r'⟩ target := by
  simp only [next?, h, Option.bind_eq_bind, Option.bind_some]
  cases target <;> rfl

/-- A branch that is taken. -/
lemma next?_of_truthy {names : Names} {blocks : List BasicBlock} {v : w.Value} (hv : w.truthy v = true)
    (label : LabelId) (offset : Nat) (target : LabelId) (rest : List Stmt) (stack : List w.Value)
    (run : Run w) :
    next? names blocks ⟨label, .raw offset (.branchTrue target) :: rest, v :: stack, run⟩ =
      enter? blocks ⟨label, rest, stack, run⟩ target := by
  simp [next?, operate, taken, hv, enter?]

/-- A branch that is not taken. -/
lemma next?_of_not_truthy {names : Names} {blocks : List BasicBlock} {v : w.Value}
    (hv : w.truthy v = false) (label : LabelId) (offset : Nat) (target : LabelId) (rest : List Stmt)
    (stack : List w.Value) (run : Run w) :
    next? names blocks ⟨label, .raw offset (.branchTrue target) :: rest, v :: stack, run⟩ =
      some ⟨label, rest, stack, run⟩ := by
  simp [next?, operate, taken, hv]

end Config

/-- Runs a number of statements, as long as each step is allowed, and collects what they emit. -/
def run? {ε : Type} (names : Names) (blocks : List BasicBlock) (emit : Config w → List ε)
    (allowed : Config w → Config w → Bool) : Nat → Config w → Option (List ε × Config w)
  | 0, c => some ([], c)
  | n + 1, c => do
    let d ← c.next? names blocks
    if allowed c d then
      let (log, e) ← run? names blocks emit allowed n d
      return (emit c ++ log, e)
    else none

section Runs

variable {ε : Type} {names : Names} {blocks : List BasicBlock} {emit : Config w → List ε}
  {allowed : Config w → Config w → Bool} {m n : Nat} {c d e : Config w} {log log' : List ε}

/-- The first step of a run. -/
lemma exists_of_run?_succ (h : run? names blocks emit allowed (n + 1) c = some (log, e)) :
    ∃ d rest, c.next? names blocks = some d ∧ allowed c d = true ∧
      run? names blocks emit allowed n d = some (rest, e) ∧ log = emit c ++ rest := by
  simp only [run?, Option.bind_eq_bind, Option.bind_eq_some_iff] at h
  obtain ⟨d, hnext, h⟩ := h
  split at h
  · rename_i hallowed
    simp only [Option.bind_eq_some_iff, Option.pure_def, Option.some.injEq, Prod.mk.injEq] at h
    obtain ⟨⟨rest, e'⟩, hrun, rfl, rfl⟩ := h
    exact ⟨d, rest, hnext, hallowed, hrun, rfl⟩
  · cases h

/-- A step in front of a run. -/
lemma run?_succ (hnext : c.next? names blocks = some d) (hallowed : allowed c d = true)
    (h : run? names blocks emit allowed n d = some (log, e)) :
    run? names blocks emit allowed (n + 1) c = some (emit c ++ log, e) := by
  simp [run?, hnext, hallowed, h]

/-- One run after another. -/
lemma run?_add (h : run? names blocks emit allowed m c = some (log, d))
    (h' : run? names blocks emit allowed n d = some (log', e)) :
    run? names blocks emit allowed (m + n) c = some (log ++ log', e) := by
  induction m generalizing c log with
  | zero =>
    obtain ⟨rfl, rfl⟩ := Prod.mk.inj (Option.some.inj h)
    rwa [Nat.zero_add]
  | succ m ih =>
    obtain ⟨d, rest, hnext, hallowed, hrun, rfl⟩ := exists_of_run?_succ h
    rw [Nat.succ_add, List.append_assoc]
    exact run?_succ hnext hallowed (ih hrun)

/-- A run of some number of steps. -/
def Reaches (names : Names) (blocks : List BasicBlock) (emit : Config w → List ε) (log : List ε)
    (c d : Config w) : Prop :=
  ∃ n, run? names blocks emit (fun _ _ => true) n c = some (log, d)

lemma Reaches.refl (c : Config w) : Reaches names blocks emit [] c c :=
  ⟨0, rfl⟩

lemma Reaches.head (hnext : c.next? names blocks = some d) (h : Reaches names blocks emit log d e) :
    Reaches names blocks emit (emit c ++ log) c e := by
  obtain ⟨n, hrun⟩ := h
  exact ⟨n + 1, run?_succ hnext rfl hrun⟩

lemma Reaches.single (hnext : c.next? names blocks = some d) : Reaches names blocks emit (emit c) c d := by
  simpa using (Reaches.refl d).head hnext

lemma Reaches.trans (h : Reaches names blocks emit log c d) (h' : Reaches names blocks emit log' d e) :
    Reaches names blocks emit (log ++ log') c e := by
  obtain ⟨m, hrun⟩ := h
  obtain ⟨n, hrun'⟩ := h'
  exact ⟨m + n, run?_add hrun hrun'⟩

end Runs

/-! ### Runs of blocks -/

/-- An operation that is no branch goes on with the next statement. -/
lemma target_eq_none {names : Names} {op : StackOp} (hop : op.isConditional = false) {r r' : Run w}
    {stack stack' : List w.Value} {target : Option LabelId}
    (h : operate names r stack op = some (target, r', stack')) : target = none := by
  cases op with
  | branchTrue | branchFalse | pushEnv | popEnv | dispatch => cases hop
  | push | pushVar | pop | pushTemporary | popTemporary | dup | binary | unary | call | popz | ret =>
    simp only [operate, Option.map_eq_some_iff, Prod.mk.injEq] at h
    obtain ⟨_, -, rfl, -⟩ := h
    rfl

/-- Running a block to its end takes the same steps. -/
lemma runRaw_raw {names : Names} {offset : Nat} {op : StackOp} (hop : op ≠ .ret) (rest : List Stmt)
    (r : Run w) (stack : List w.Value) :
    runRaw names (.raw offset op :: rest) r stack =
      (operate names r stack op).bind fun (target, r, stack) =>
        if op.isConditional then
          Outcome.decide r stack.reverse target (runRaw names rest r stack)
        else runRaw names rest r stack := by
  cases op with
  | ret => exact absurd rfl hop
  | branchTrue target | branchFalse target | pushEnv skip | dispatch cases default =>
    cases stack <;> rfl
  | popEnv back => rfl
  | push | pushVar | pop | pushTemporary | popTemporary | dup | binary | unary | call | popz =>
    simp only [runRaw, operate, StackOp.isConditional]
    cases stackStep names r stack _ <;> rfl

/-- Where a block that is run to its end goes to another one, the run of the list goes on behind the label of
that block. -/
theorem reaches_of_runRaw {names : Names} {blocks : List BasicBlock} {label target : LabelId}
    {rest body : List Stmt} {r : Run w} {stack : List w.Value} {outcome : Outcome w}
    (h : runRaw names rest r stack = some outcome) (htarget : outcome.transfer = .goto target)
    (hbody : bodyOf? blocks target = some body) :
    Reaches names blocks (fun _ => ([] : List Unit)) [] ⟨label, rest, stack, r⟩
      ⟨target, body.tail, outcome.left.reverse, outcome.run⟩ := by
  have henter : ∀ c : Config w,
      c.enter? blocks target = some { c with label := target, rest := body.tail } := by
    intro c
    rw [Config.enter?, hbody]
    rfl
  induction rest generalizing r stack outcome with
  | nil => cases h
  | cons s rest ih =>
    cases s with
    | label id => exact (ih h htarget).head rfl
    | goto next =>
      cases h
      cases htarget
      rw [List.reverse_reverse]
      exact .single (henter _)
    | exit =>
      cases h
      cases htarget
    | raw offset op =>
      by_cases hret : op = .ret
      · subst hret
        cases stack with
        | nil => cases h
        | cons value stack =>
          cases h
          cases htarget
      rw [runRaw_raw hret, Option.bind_eq_some_iff] at h
      obtain ⟨⟨next, r', stack'⟩, hoperate, h⟩ := h
      have hnext : Config.next? names blocks ⟨label, .raw offset op :: rest, stack, r⟩ = _ :=
        Config.next?_of_operate hoperate ..
      cases next with
      | none =>
        refine Reaches.head hnext ?_
        dsimp only at h
        split at h
        · obtain ⟨later, hlater, rfl⟩ := Option.map_eq_some_iff.mp h
          have hreaches := ih hlater htarget
          exact hreaches
        · exact ih h htarget
      | some next =>
        dsimp only at h
        split at h
        · cases h
          cases htarget
          rw [List.reverse_reverse]
          exact .single (hnext.trans (henter _))
        · rename_i hop
          cases target_eq_none (eq_false_of_ne_true hop) hoperate
    | push | assign | call | discard | condGoto | pushEnv | popEnv | dispatch | ret | breakOut
    | continueLoop | basic | seq | cond | loop | switch | scope => cases h

end Decompiler.StackMachine
