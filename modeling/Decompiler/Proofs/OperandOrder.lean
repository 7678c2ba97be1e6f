import Decompiler.Proofs.RawBlocks

/-!
# The order of operands

Whether an operation takes the values that it is meant to take can be told apart from when they are
computed.  In an environment that does not change while a block runs (`Environment`) an expression has
one value, and what is seen of a block is a list of events: what is assigned, called, dropped, entered,
returned and asked, and the values that are pushed for the next block.

`Machine` runs stack operations on values.  How many of them an operation takes is said by the table of
effects alone, and `results` and `event?` say what it makes of them: of a variable the index lies on the
instance, of a call the first argument lies on top.  `shows_block` compares a simulated block with the
machine: the two show the same, or they fail at the same operation, for the same reason, after having
shown the same.
-/

namespace Decompiler

open Bytecode Simulation
open StackMachine (Location RawBody)

/-! ### Blocks with a late branch -/

/-- Whether a statement is the same before and after the simulation: a label or a jump. -/
def Stmt.isMark : Stmt → Bool
  | .label _ | .goto _ | .exit => true
  | _ => false

/-- The statements of a block with a branch at most right before the last statement, which is then a
label or a jump. -/
inductive BranchesLate : List Stmt → Prop
  | nil : BranchesLate []
  | mark {s : Stmt} {rest : List Stmt} (hs : s.isMark = true) (h : BranchesLate rest) :
    BranchesLate (s :: rest)
  | op (offset : Nat) {op : StackOp} {rest : List Stmt} (hcond : op.isConditional = false)
    (h : BranchesLate rest) : BranchesLate (.raw offset op :: rest)
  | branch (offset : Nat) {op : StackOp} {s : Stmt} (hcond : op.isConditional = true)
    (hs : s.isMark = true) : BranchesLate [.raw offset op, s]

/-- A jump is simulated as it stands. -/
lemma StackMachine.isMark_of_isJump {s : Stmt} (h : isJump s = true) : s.isMark = true := by
  cases s with
  | goto | exit => rfl
  | _ => cases h

/-- The blocks of decoded code are such blocks. -/
lemma StackMachine.RawBody.branchesLate {body : List Stmt} (h : RawBody body) : BranchesLate body := by
  induction h with
  | jump hs => exact .mark (isMark_of_isJump hs) .nil
  | ret offset => exact .op offset rfl .nil
  | branch offset hcond hs => exact .branch offset hcond (isMark_of_isJump hs)
  | label id _ ih => exact .mark rfl ih
  | op offset hcond _ _ ih => exact .op offset hcond ih

/-! ### Environments -/

/-- The meaning of what occurs in expressions, by functions of values. -/
structure Environment where
  Value : Type
  Instance : Type
  constant : Constant → Value
  read : Location Instance Value → Value
  unary : UnaryOp → Value → Value
  binary : BinaryOp → Value → Value → Value
  call : String → List Value → Value
  truthy : Value → Bool
  /-- The instance that a value stands for. -/
  instanceOf : Value → Instance
  /-- The instance of a name. -/
  named : String → Instance

namespace Environment

variable (env : Environment)

section Eval

variable (incoming : Nat → env.Value)

mutual

/-- The value of an expression in a block that was entered with the values `incoming`. -/
def eval : Expr → env.Value
  | .const c => env.constant c
  | .var v => env.read (locate v)
  | .call name args => env.call name (evalList args)
  | .unary op operand => env.unary op (eval operand)
  | .binary op left right => env.binary op (eval left) (eval right)
  | .incoming i => incoming i

/-- The location of a variable. -/
def locate : Variable → Location env.Instance env.Value
  | ⟨name, owner, index⟩ => ⟨name, evalOwner owner, evalOption index⟩

/-- The instance of an owner. -/
def evalOwner : Owner → Option env.Instance
  | .temporary => none
  | .named name => some (env.named name)
  | .computed value => some (env.instanceOf (eval value))

/-- The value of an optional expression. -/
def evalOption : Option Expr → Option env.Value
  | none => none
  | some e => some (eval e)

/-- The values of some expressions. -/
def evalList : List Expr → List env.Value
  | [] => []
  | e :: rest => eval e :: evalList rest

end

/-- The values of some expressions, one by one. -/
lemma evalList_eq_map (l : List Expr) : env.evalList incoming l = l.map (env.eval incoming) := by
  induction l with
  | nil => rfl
  | cons e rest ih => rw [evalList, ih, List.map_cons]

end Eval

/-- What is asked of an environment: the name of the instance that an integer stands for denotes that
instance, as the owner of a variable and as a temporary, and negation turns truth round. -/
structure Lawful (names : Names) : Prop where
  named_eq : ∀ c id, c.integer? = some id →
    env.named (instanceName names id) = env.instanceOf (env.constant c)
  temporary_eq : ∀ c id, c.integer? = some id →
    env.instanceOf (env.read (.temporary (instanceName names id))) = env.instanceOf (env.constant c)
  truthy_negate : ∀ incoming e,
    env.truthy (env.eval incoming e.negate) = !env.truthy (env.eval incoming e)

/-! ### What a block shows -/

/-- What is seen of a block. -/
inductive Event where
  | assign (target : Location env.Instance env.Value) (value : env.Value)
  | call (name : String) (args : List env.Value)
  | discard (value : env.Value)
  /-- A branch, and whether its test holds. -/
  | branch (holds : Bool) (target : LabelId)
  | dispatch (value : env.Value) (cases : List (env.Value × LabelId)) (default : LabelId)
  | enter (inst : env.Instance) (skip : LabelId)
  | leave (back : LabelId)
  | ret (value : env.Value)
  | goto (target : LabelId)
  | exit
  /-- A statement that neither raw nor simulated blocks have. -/
  | stray (s : Stmt)

section Statements

variable (incoming : Nat → env.Value)

/-- What a statement shows. -/
def shown? : Stmt → Option env.Event
  | .label _ | .push _ => none
  | .assign target value => some (.assign (env.locate incoming target) (env.eval incoming value))
  | .call name args => some (.call name (env.evalList incoming args))
  | .discard value => some (.discard (env.eval incoming value))
  | .condGoto test target => some (.branch (env.truthy (env.eval incoming test)) target)
  | .dispatch value cases default =>
    some (.dispatch (env.eval incoming value) (cases.map fun c => (env.eval incoming c.1, c.2)) default)
  | .pushEnv value skip => some (.enter (env.instanceOf (env.eval incoming value)) skip)
  | .popEnv back => some (.leave back)
  | .ret value => some (.ret (env.eval incoming value))
  | .goto target => some (.goto target)
  | .exit => some .exit
  | s => some (.stray s)

/-- The value that a statement pushes. -/
def pushed? : Stmt → Option env.Value
  | .push value => some (env.eval incoming value)
  | _ => none

/-- What statements show, one after the other. -/
def shown (body : List Stmt) : List env.Event :=
  body.filterMap (env.shown? incoming)

/-- The values that statements push, the lowest first. -/
def pushed (body : List Stmt) : List env.Value :=
  body.filterMap (env.pushed? incoming)

end Statements

/-! ### The machine -/

/-- A value on the stack.  A value that comes straight from a call remembers it, since dropping it
leaves a call and nothing else. -/
structure Slot where
  value : env.Value
  call? : Option (String × List env.Value) := none

/-- The machine in the course of a block. -/
structure Machine where
  /-- The stack, the top value first. -/
  stack : List env.Slot
  events : List env.Event := []
  /-- How many scopes are open. -/
  scopes : Nat

/-- The location that the operands of a variable name. -/
def location (names : Names) (ref : VarRef) (operands : List env.Value) :
    Location env.Instance env.Value where
  name := ref.name
  owner :=
    if ref.owner = 0 then operands.getLast?.map env.instanceOf
    else some (env.named (names.instanceName ref.owner.toInt))
  index := if ref.array then operands.head? else none

/-- The values that an operation puts back for its operands. -/
def results (names : Names) : StackOp → List env.Slot → List env.Slot
  | .push c, _ => [{ value := env.constant c }]
  | .pushTemporary name, _ => [{ value := env.read (.temporary name) }]
  | .pushVar ref, operands => [{ value := env.read (env.location names ref (operands.map Slot.value)) }]
  | .dup _, operands => operands ++ operands
  | .binary op, [right, left] => [{ value := env.binary op left.value right.value }]
  | .unary op, [operand] => [{ value := env.unary op operand.value }]
  | .call name _, operands =>
    let args := operands.map Slot.value
    [{ value := env.call name args, call? := some (name, args) }]
  | _, _ => []

/-- What an operation shows with its operands. -/
def event? (names : Names) (op : StackOp) (operands : List env.Slot) : Option env.Event :=
  match op, operands.map Slot.value with
  | .pop ref true, value :: operands => some (.assign (env.location names ref operands) value)
  | .pop ref false, operands =>
    operands.getLast?.map fun value => .assign (env.location names ref operands.dropLast) value
  | .popTemporary name, [value] => some (.assign (.temporary name) value)
  | .popz, [value] =>
    match operands.head?.bind Slot.call? with
    | some (name, args) => some (.call name args)
    | none => some (.discard value)
  | .ret, [value] => some (.ret value)
  | .branchTrue target, [test] => some (.branch (env.truthy test) target)
  | .branchFalse target, [test] => some (.branch (!env.truthy test) target)
  | .dispatch cases default, [value] =>
    some (.dispatch value (cases.map fun c => (env.constant c.1, c.2)) default)
  | .pushEnv skip, [value] => some (.enter (env.instanceOf value) skip)
  | .popEnv back, _ => some (.leave back)
  | _, _ => none

/-- The scopes that are open behind an operation; `none` where there is none to leave. -/
def scopesAfter? : StackOp → Nat → Option Nat
  | .pushEnv _, scopes => some (scopes + 1)
  | .popEnv _, 0 => none
  | .popEnv _, scopes + 1 => some scopes
  | _, scopes => some scopes

/-- The flag of a `dup`. -/
def flagOf : StackOp → UInt16
  | .dup flag => flag
  | _ => 0

namespace Machine

variable {env}

/-- Adds an event. -/
def emit (m : env.Machine) (event : env.Event) : env.Machine :=
  { m with events := m.events ++ [event] }

/-- The values on the stack, the lowest first. -/
def left (m : env.Machine) : List env.Value :=
  (m.stack.map Slot.value).reverse

/-- One operation. -/
def step (names : Names) (m : env.Machine) (op : StackOp) : Except Fault env.Machine :=
  match op.effect? with
  | none => .error (.dupFlag (flagOf op))
  | some (pops, _) =>
    if m.stack.length < pops then .error (.underflow pops m.stack.length)
    else
      match scopesAfter? op m.scopes with
      | none => .error .unmatchedPopEnv
      | some scopes =>
        let operands := m.stack.take pops
        .ok {
          stack := env.results names op operands ++ m.stack.drop pops
          events := m.events ++ (env.event? names op operands).toList
          scopes }

end Machine

/-- Where and why the machine stops, and what was shown before. -/
structure Failure where
  offset : Nat
  op : StackOp
  fault : Fault
  events : List env.Event

namespace Machine

variable {env}

/-- Runs the statements of a raw block. -/
def run (names : Names) : env.Machine → List Stmt → Except env.Failure env.Machine
  | m, [] => .ok m
  | m, .raw offset op :: rest =>
    match m.step names op with
    | .ok m => run names m rest
    | .error fault => .error { offset, op, fault, events := m.events }
  | m, .label _ :: rest => run names m rest
  | m, .goto target :: rest => run names (m.emit (.goto target)) rest
  | m, .exit :: rest => run names (m.emit .exit) rest
  | m, s :: rest => run names (m.emit (.stray s)) rest

end Machine

/-- The machine at the entry of a block, with `depth` values on the stack. -/
def entered (incoming : Nat → env.Value) (scopes depth : Nat) : env.Machine where
  stack := (List.range depth).reverse.map fun i => { value := incoming i }
  scopes

/-! ### The machine beside the stack of expressions -/

section Shows

variable {env} {names : Names} (incoming : Nat → env.Value)

/-- The slot of an expression. -/
def slot (e : Expr) : env.Slot where
  value := env.eval incoming e
  call? :=
    match e with
    | .call name args => some (name, env.evalList incoming args)
    | _ => none

/-- The value of a slot. -/
@[simp] lemma value_slot (e : Expr) : (slot incoming e).value = env.eval incoming e := rfl

/-- The values of the slots of expressions. -/
lemma map_value_slot (l : List Expr) :
    (l.map (slot incoming)).map Slot.value = l.map (env.eval incoming) := by
  rw [List.map_map]
  rfl

/-- What two lists of statements show, one after the other. -/
lemma shown_append (a b : List Stmt) :
    env.shown incoming (a ++ b) = env.shown incoming a ++ env.shown incoming b :=
  List.filterMap_append

/-- What two lists of statements push, one after the other. -/
lemma pushed_append (a b : List Stmt) :
    env.pushed incoming (a ++ b) = env.pushed incoming a ++ env.pushed incoming b :=
  List.filterMap_append

/-- What one statement shows. -/
lemma shown_singleton (s : Stmt) : env.shown incoming [s] = (env.shown? incoming s).toList := by
  rw [shown, List.filterMap_cons]
  cases env.shown? incoming s <;> rfl

/-- What one statement pushes. -/
lemma pushed_singleton (s : Stmt) : env.pushed incoming [s] = (env.pushed? incoming s).toList := by
  rw [pushed, List.filterMap_cons]
  cases env.pushed? incoming s <;> rfl

/-- Pushes show nothing. -/
lemma shown_push (values : List Expr) : env.shown incoming (values.map Stmt.push) = [] := by
  rw [shown, List.filterMap_map]
  exact List.filterMap_none values

/-- Pushes push their values. -/
lemma pushed_push (values : List Expr) :
    env.pushed incoming (values.map Stmt.push) = values.map (env.eval incoming) := by
  rw [pushed, List.filterMap_map]
  exact congrFun List.filterMap_eq_map values

/-- A block under simulation has the values of the machine on its stack and has shown the same. -/
structure Shows (state : State) (m : env.Machine) : Prop where
  stack : m.stack = state.stack.map (slot incoming)
  events : env.shown incoming state.out = m.events
  pushed : env.pushed incoming state.out = []
  scopes : state.scopes = m.scopes

/-- A list of statements shows what the machine has shown, and pushes what is left on its stack. -/
structure Finishes (out : List Stmt) (m : env.Machine) : Prop where
  events : env.shown incoming out = m.events
  pushed : env.pushed incoming out = m.left

/-- A block under simulation has nothing left on its stack and has finished. -/
structure Settled (state : State) (m : env.Machine) : Prop extends Finishes incoming state.out m where
  stack : state.stack = []
  scopes : state.scopes = m.scopes

variable {incoming} {op : StackOp} {state next : State} {m : env.Machine}

/-- An operation that finds its operands, and a scope to leave if it leaves one. -/
lemma Machine.step_eq_ok {pushes scopes : Nat} {operands rest : List env.Slot}
    (heffect : op.effect? = some (operands.length, pushes)) (hstack : m.stack = operands ++ rest)
    (hscopes : scopesAfter? op m.scopes = some scopes) :
    m.step names op = .ok {
      stack := env.results names op operands ++ rest
      events := m.events ++ (env.event? names op operands).toList
      scopes } := by
  have henough : ¬ (operands ++ rest).length < operands.length := by simp
  simp only [Machine.step, heffect, hscopes, hstack, if_neg henough, List.take_left, List.drop_left]

/-- The values on the machine are those of the expressions. -/
lemma Shows.left (h : Shows incoming state m) :
    m.left = state.stack.reverse.map (env.eval incoming) := by
  rw [Machine.left, h.stack, map_value_slot, List.map_reverse]

/-- An operation that the machine runs like the simulation. -/
lemma Shows.step (now added : List Expr) {rest : List Expr} {out : List Stmt} {pushes : Nat}
    (h : Shows incoming state m) (hstack : state.stack = now ++ rest)
    (heffect : op.effect? = some (now.length, pushes))
    (hscopes : scopesAfter? op state.scopes = some state.scopes)
    (hresults : env.results names op (now.map (slot incoming)) = added.map (slot incoming))
    (hevent : (env.event? names op (now.map (slot incoming))).toList = env.shown incoming out)
    (hpushed : env.pushed incoming out = []) :
    ∃ m', m.step names op = .ok m' ∧
      Shows incoming { stack := added ++ rest, out := state.out ++ out, scopes := state.scopes } m' := by
  have hslots : m.stack = now.map (slot incoming) ++ rest.map (slot incoming) := by
    rw [h.stack, hstack, List.map_append]
  refine ⟨_, Machine.step_eq_ok (by rw [heffect, List.length_map]) hslots (h.scopes ▸ hscopes), ?_⟩
  refine ⟨?_, ?_, ?_, h.scopes⟩
  · rw [hresults, List.map_append]
  · rw [hevent, shown_append, h.events]
  · rw [pushed_append, h.pushed, hpushed, List.append_nil]

/-- An operation that only changes the stack. -/
lemma Shows.moved (now added : List Expr) {rest : List Expr} {pushes : Nat}
    (h : Shows incoming state m) (hstack : state.stack = now ++ rest)
    (heffect : op.effect? = some (now.length, pushes))
    (hscopes : scopesAfter? op state.scopes = some state.scopes)
    (hresults : env.results names op (now.map (slot incoming)) = added.map (slot incoming))
    (hevent : env.event? names op (now.map (slot incoming)) = none) :
    ∃ m', m.step names op = .ok m' ∧ Shows incoming { state with stack := added ++ rest } m' := by
  have hnone : (env.event? names op (now.map (slot incoming))).toList = env.shown incoming [] := by
    rw [hevent]
    rfl
  simpa only [List.append_nil] using h.step now added hstack heffect hscopes hresults hnone rfl

/-- An operation that takes its operands and leaves a statement. -/
lemma Shows.emitted (now : List Expr) {rest : List Expr} {s : Stmt} (h : Shows incoming state m)
    (hstack : state.stack = now ++ rest) (heffect : op.effect? = some (now.length, 0))
    (hscopes : scopesAfter? op state.scopes = some state.scopes)
    (hresults : env.results names op (now.map (slot incoming)) = [])
    (hevent : env.event? names op (now.map (slot incoming)) = env.shown? incoming s)
    (hpushed : env.pushed? incoming s = none) :
    ∃ m', m.step names op = .ok m' ∧
      Shows incoming (State.emit { state with stack := rest } s) m' := by
  refine h.step now [] hstack heffect hscopes hresults ?_ ?_
  · rw [hevent, shown_singleton]
  · rw [pushed_singleton, hpushed, Option.toList_none]

/-! ### One operation -/

variable (incoming) in
/-- The owner that an expression on the stack stands for is the instance of its value. -/
lemma evalOwner_ownerOf (lawful : env.Lawful names) (e : Expr) :
    env.evalOwner incoming (ownerOf names e) = some (env.instanceOf (env.eval incoming e)) := by
  unfold ownerOf
  cases hid : e.constant?.bind Constant.integer? with
  | none => rfl
  | some id =>
    obtain ⟨c, hc, hid⟩ := Option.bind_eq_some_iff.mp hid
    cases e with
    | const value =>
      cases hc
      exact congrArg some (lawful.named_eq c id hid)
    | var | call | unary | binary | incoming => cases hc

variable (incoming) in
/-- The instance of a scope is that of the value on the stack. -/
lemma instanceOf_scopeOf (lawful : env.Lawful names) (e : Expr) :
    env.instanceOf (env.eval incoming (scopeOf names e)) = env.instanceOf (env.eval incoming e) := by
  unfold scopeOf
  cases hid : e.constant?.bind Constant.integer? with
  | none => rfl
  | some id =>
    obtain ⟨c, hc, hid⟩ := Option.bind_eq_some_iff.mp hid
    cases e with
    | const value =>
      cases hc
      exact lawful.temporary_eq c id hid
    | var | call | unary | binary | incoming => cases hc

variable (incoming) in
/-- The operands that name a variable, and the location that they name. -/
lemma exists_operands (lawful : env.Lawful names) {ref : VarRef} {stack rest : List Expr}
    {v : Variable} (h : takeVariable? names ref stack = some (v, rest)) :
    ∃ operands, stack = operands ++ rest ∧ operands.length = ref.stackOperands ∧
      env.locate incoming v = env.location names ref (operands.map (env.eval incoming)) := by
  obtain ⟨index, harray, ⟨hzero, e, rfl, rfl⟩ | ⟨hzero, rfl, rfl⟩⟩ := takeVariable?_eq_some h
  · refine ⟨index.toList ++ [e], by simp, ?_, ?_⟩
    · cases index <;> simp [VarRef.stackOperands, hzero, ← harray]
    · cases index <;>
        simp [locate, location, hzero, ← harray, evalOwner_ownerOf incoming lawful, evalOption]
  · refine ⟨index.toList, rfl, ?_, ?_⟩
    · cases index <;> simp [VarRef.stackOperands, hzero, ← harray]
    · cases index <;> simp [locate, location, hzero, ← harray, evalOwner, evalOption]

variable (incoming) in
/-- A value that is dropped: of a call the call is left. -/
lemma shown?_dropped (names : Names) (value : Expr) :
    env.event? names .popz [slot incoming value] = env.shown? incoming (dropped value) ∧
      env.pushed? incoming (dropped value) = none := by
  cases value <;> exact ⟨rfl, rfl⟩

/-- An operation that stays in the block, on the machine and in the simulation. -/
lemma Shows.step_straight (lawful : env.Lawful names) (hop : op.isConditional = false)
    (h : Shows incoming state m) (hstep : step? names state op = some next) :
    ∃ m', m.step names op = .ok m' ∧ Shows incoming next m' := by
  obtain ⟨stack, out, scopes⟩ := state
  cases op with
  | push c =>
    cases hstep
    exact h.moved [] [.const c] rfl rfl rfl rfl rfl
  | pushTemporary name =>
    cases hstep
    exact h.moved [] [.var (Variable.temporary name)] rfl rfl rfl rfl rfl
  | pushVar ref =>
    obtain ⟨⟨v, rest⟩, htake, hstep⟩ := Option.bind_eq_some_iff.mp hstep
    cases hstep
    obtain ⟨operands, hstack, hlength, hlocate⟩ := exists_operands incoming lawful htake
    refine h.moved operands [.var v] hstack (by rw [hlength]; rfl) rfl ?_ rfl
    simp only [results, map_value_slot, ← hlocate]
    rfl
  | pop ref swapped =>
    cases swapped with
    | true =>
      obtain _ | ⟨value, stack⟩ := stack
      · cases hstep
      obtain ⟨⟨target, rest⟩, htake, hstep⟩ := Option.bind_eq_some_iff.mp hstep
      cases hstep
      obtain ⟨operands, rfl, hlength, hlocate⟩ := exists_operands incoming lawful htake
      refine h.emitted (value :: operands) rfl ?_ rfl rfl ?_ rfl
      · rw [List.length_cons, hlength]
        rfl
      · simp only [event?, map_value_slot, List.map_cons, value_slot, shown?, hlocate]
    | false =>
      obtain ⟨⟨target, stack'⟩, htake, hstep⟩ := Option.bind_eq_some_iff.mp hstep
      obtain _ | ⟨value, rest⟩ := stack' <;> cases hstep
      obtain ⟨operands, hstack, hlength, hlocate⟩ := exists_operands incoming lawful htake
      refine h.emitted (operands ++ [value]) (hstack.trans (by simp)) ?_ rfl rfl ?_ rfl
      · rw [List.length_append, hlength]
        rfl
      · simp only [event?, map_value_slot, List.map_append, List.map_cons, List.map_nil,
          List.getLast?_concat, List.dropLast_concat, Option.map_some, value_slot, shown?, hlocate]
  | popTemporary name =>
    obtain _ | ⟨value, rest⟩ := stack <;> cases hstep
    exact h.emitted [value] rfl rfl rfl rfl rfl rfl
  | dup flag =>
    simp only [step?] at hstep
    split at hstep
    · rename_i hzero
      subst hzero
      obtain _ | ⟨a, rest⟩ := stack <;> cases hstep
      exact h.moved [a] [a, a] rfl rfl rfl rfl rfl
    · split at hstep
      · rename_i hone
        subst hone
        obtain _ | ⟨b, _ | ⟨a, rest⟩⟩ := stack <;> cases hstep
        exact h.moved [b, a] [b, a, b, a] rfl rfl rfl rfl rfl
      · cases hstep
  | binary op =>
    obtain _ | ⟨right, _ | ⟨left, rest⟩⟩ := stack <;> cases hstep
    exact h.moved [right, left] [.binary op left right] rfl rfl rfl rfl rfl
  | unary op =>
    obtain _ | ⟨operand, rest⟩ := stack <;> cases hstep
    exact h.moved [operand] [.unary op operand] rfl rfl rfl rfl rfl
  | call name argc =>
    simp only [step?] at hstep
    split at hstep
    · cases hstep
    · rename_i henough
      cases hstep
      have hlength : (stack.take argc.toNat).length = argc.toNat :=
        List.length_take_of_le (Nat.le_of_not_lt henough)
      refine h.moved _ [.call name (stack.take argc.toNat)]
        (List.take_append_drop argc.toNat stack).symm (by rw [hlength]; rfl) rfl ?_ rfl
      simp only [results, map_value_slot, ← evalList_eq_map]
      rfl
  | popz =>
    obtain _ | ⟨value, rest⟩ := stack <;> cases hstep
    obtain ⟨hevent, hpushed⟩ := shown?_dropped incoming names value
    exact h.emitted [value] rfl rfl rfl rfl hevent hpushed
  | ret =>
    obtain _ | ⟨value, rest⟩ := stack <;> cases hstep
    exact h.emitted [value] rfl rfl rfl rfl rfl rfl
  | branchTrue | branchFalse | pushEnv | popEnv | dispatch => cases hop

/-- A branch: what lies below its operands is pushed, and then it shows what it asks. -/
lemma Shows.branched (now : List Expr) {rest : List Expr} {s : Stmt} {scopes : Nat}
    (h : Shows incoming state m) (hstack : state.stack = now ++ rest)
    (heffect : op.effect? = some (now.length, 0))
    (hscopes : scopesAfter? op state.scopes = some scopes)
    (hresults : env.results names op (now.map (slot incoming)) = [])
    (hevent : env.event? names op (now.map (slot incoming)) = env.shown? incoming s)
    (hpushed : env.pushed? incoming s = none) :
    ∃ m', m.step names op = .ok m' ∧ Settled incoming (State.branch ⟨rest, state.out, scopes⟩ s) m' := by
  have hslots : m.stack = now.map (slot incoming) ++ rest.map (slot incoming) := by
    rw [h.stack, hstack, List.map_append]
  refine ⟨_, Machine.step_eq_ok (by rw [heffect, List.length_map]) hslots (h.scopes ▸ hscopes), ?_⟩
  refine { events := ?_, pushed := ?_, stack := rfl, scopes := rfl }
  · change env.shown incoming (state.out ++ rest.reverse.map Stmt.push ++ [s]) = _
    rw [shown_append, shown_append, shown_push, shown_singleton, List.append_nil, h.events, hevent]
  · change env.pushed incoming (state.out ++ rest.reverse.map Stmt.push ++ [s]) = _
    rw [pushed_append, pushed_append, pushed_push, pushed_singleton, hpushed, h.pushed]
    simp only [Machine.left, hresults, List.nil_append, Option.toList_none, List.append_nil,
      map_value_slot, List.map_reverse]

/-- A branch, on the machine and in the simulation. -/
lemma Shows.step_branch (lawful : env.Lawful names) (hop : op.isConditional = true)
    (h : Shows incoming state m) (hstep : step? names state op = some next) :
    ∃ m', m.step names op = .ok m' ∧ Settled incoming next m' := by
  obtain ⟨stack, out, scopes⟩ := state
  cases op with
  | branchTrue target =>
    obtain _ | ⟨test, rest⟩ := stack <;> cases hstep
    exact h.branched [test] rfl rfl rfl rfl rfl rfl
  | branchFalse target =>
    obtain _ | ⟨test, rest⟩ := stack <;> cases hstep
    refine h.branched [test] rfl rfl rfl rfl ?_ rfl
    rw [shown?, lawful.truthy_negate]
    rfl
  | pushEnv skip =>
    obtain _ | ⟨value, rest⟩ := stack <;> cases hstep
    refine h.branched [value] rfl rfl rfl rfl ?_ rfl
    rw [shown?, instanceOf_scopeOf incoming lawful]
    rfl
  | popEnv back =>
    obtain _ | scopes := scopes <;> cases hstep
    exact h.branched [] rfl rfl rfl rfl rfl rfl
  | dispatch cases default =>
    obtain _ | ⟨value, rest⟩ := stack <;> cases hstep
    refine h.branched [value] rfl rfl rfl rfl ?_ rfl
    rw [shown?, List.map_map]
    rfl
  | _ => cases hop

/-- An operation that the simulation cannot run stops the machine, for the same reason. -/
lemma Shows.step_fault (h : Shows incoming state m) (hstep : step? names state op = none) :
    m.step names op = .error (fault state op) := by
  have hlength : m.stack.length = state.stack.length := by rw [h.stack, List.length_map]
  cases heffect : op.effect? with
  | none =>
    cases op with
    | dup flag => simp only [Machine.step, fault, heffect, flagOf]
    | _ => cases heffect
  | some effect =>
    obtain ⟨pops, pushes⟩ := effect
    simp only [Machine.step, heffect, hlength]
    by_cases hpops : state.stack.length < pops
    · rw [if_pos hpops]
      cases op with
      | popEnv back =>
        cases heffect
        exact absurd hpops (Nat.not_lt_zero _)
      | _ => simp only [fault, heffect]
    · -- With its operands on the stack an operation can only miss a scope to leave.
      obtain ⟨back, rfl, hscopes⟩ : ∃ back, op = .popEnv back ∧ state.scopes = 0 := by
        by_contra hnone
        obtain ⟨next, hnext⟩ := exists_step? names heffect (Nat.le_of_not_lt hpops)
          fun back hback => Nat.pos_of_ne_zero fun hzero => hnone ⟨back, hback, hzero⟩
        rw [hstep] at hnext
        cases hnext
      rw [if_neg hpops, ← h.scopes, hscopes]
      rfl

/-! ### Whole blocks -/

/-- What waits on the stack is pushed when it is left. -/
lemma settled_flush (hevents : env.shown incoming state.out = m.events)
    (hleft : env.pushed incoming state.out ++ state.stack.reverse.map (env.eval incoming) = m.left)
    (hscopes : state.scopes = m.scopes) : Settled incoming state.flush m := by
  refine { events := ?_, pushed := ?_, stack := rfl, scopes := hscopes }
  · rw [State.flush, shown_append, shown_push, List.append_nil, hevents]
  · rw [State.flush, pushed_append, pushed_push, hleft]

/-- A block that waits for its last statement. -/
lemma Shows.flush (h : Shows incoming state m) : Settled incoming state.flush m :=
  settled_flush h.events (by rw [h.pushed, h.left, List.nil_append]) h.scopes

/-- A branch has left nothing on the stack. -/
lemma Settled.flush (h : Settled incoming state m) : Settled incoming state.flush m :=
  settled_flush h.events (by rw [h.stack, ← h.pushed]; simp) h.scopes

section Mark

variable {s : Stmt} (hs : s.isMark = true)
include hs

/-- Labels and jumps push nothing. -/
lemma pushed?_of_isMark : env.pushed? incoming s = none := by
  cases s with
  | label | goto | exit => rfl
  | _ => cases hs

variable (incoming) in
/-- At a label or a jump the machine shows what the statement shows. -/
lemma Machine.run_mark (m : env.Machine) (rest : List Stmt) :
    m.run names (s :: rest) =
      Machine.run names { m with events := m.events ++ (env.shown? incoming s).toList } rest := by
  cases s with
  | label id => simp only [Machine.run, shown?, Option.toList_none, List.append_nil]
  | goto | exit => rfl
  | _ => cases hs

/-- A label or a jump is simulated as it stands, behind what waits on the stack if it is the last
statement. -/
lemma stmts_mark (done rest : List Stmt) (state : State) :
    stmts names done state (s :: rest) =
      stmts names done ((if rest.isEmpty then state.flush else state).emit s) rest := by
  cases s with
  | label | goto | exit => rfl
  | _ => cases hs

/-- A label or a jump in the course of a block. -/
lemma Shows.mark (h : Shows incoming state m) :
    Shows incoming (state.emit s)
      { m with events := m.events ++ (env.shown? incoming s).toList } where
  stack := h.stack
  events := by rw [State.emit, shown_append, shown_singleton, h.events]
  pushed := by
    rw [State.emit, pushed_append, pushed_singleton, h.pushed, pushed?_of_isMark hs]
    rfl
  scopes := h.scopes

/-- A label or a jump at the end of a block. -/
lemma Settled.mark (h : Settled incoming state m) :
    Settled incoming (state.emit s)
      { m with events := m.events ++ (env.shown? incoming s).toList } where
  events := by rw [State.emit, shown_append, shown_singleton, h.events]
  pushed := by
    rw [State.emit, pushed_append, pushed_singleton, pushed?_of_isMark hs, h.pushed]
    exact List.append_nil _
  stack := h.stack
  scopes := h.scopes

end Mark

/-- Nothing is left on the stack. -/
lemma Settled.finishes (h : Settled incoming state m) : Finishes incoming (settle state) m := by
  simp only [settle, h.stack, List.isEmpty_nil, if_true]
  exact h.toFinishes

/-- What waits on the stack is pushed before the last statement of a block that ends otherwise. -/
lemma Shows.finishes (h : Shows incoming state m) : Finishes incoming (settle state) m := by
  have hout : state.out = state.out.dropLast ++ state.out.getLast?.toList := by
    cases hlast : state.out.getLast? with
    | none => simp [List.getLast?_eq_none_iff.mp hlast]
    | some s => simp [List.dropLast_append_getLast? s hlast]
  have hsettle : settle state =
      state.out.dropLast ++ (state.stack.reverse.map Stmt.push ++ state.out.getLast?.toList) := by
    unfold settle
    split
    · rename_i hempty
      rw [List.isEmpty_iff.mp hempty]
      exact hout
    · rw [List.append_assoc]
  have hevents := h.events
  have hpushed := h.pushed
  rw [hout, shown_append] at hevents
  rw [hout, pushed_append, List.append_eq_nil_iff] at hpushed
  rw [hsettle]
  refine ⟨?_, ?_⟩
  · rw [shown_append, shown_append, shown_push, List.nil_append, hevents]
  · rw [pushed_append, pushed_append, pushed_push, hpushed.1, hpushed.2, List.nil_append,
      List.append_nil, h.left]

/-- The rest of a block, where the simulation has the values of the machine on its stack: both come to
the end of the block, or both stop at the same operation for the same reason. -/
theorem Shows.run_stmts (lawful : env.Lawful names) (done : List Stmt) {body : List Stmt}
    (hbody : BranchesLate body) (h : Shows incoming state m) :
    (∃ final m', stmts names done state body = .ok final ∧ m.run names body = .ok m' ∧
        Finishes incoming (settle final) m' ∧ final.scopes = m'.scopes) ∨
      ∃ built failure, stmts names done state body =
          .error (failure.fault.toError failure.offset failure.op (done ++ built)) ∧
        m.run names body = .error failure ∧ env.shown incoming built = failure.events := by
  induction hbody generalizing state m with
  | nil => exact .inl ⟨state, m, rfl, rfl, h.finishes, h.scopes⟩
  | @mark s rest hs hrest ih =>
    rw [stmts_mark hs, Machine.run_mark incoming hs]
    cases rest with
    | nil => exact .inl ⟨_, _, rfl, rfl, (h.flush.mark hs).finishes, h.scopes⟩
    | cons t rest => exact ih (h.mark hs)
  | @branch offset op s hcond hs =>
    simp only [stmts, Simulation.step, Machine.run]
    cases hstep : step? names state op with
    | none =>
      simp only [h.step_fault hstep]
      exact .inr ⟨state.out, ⟨offset, op, fault state op, m.events⟩, rfl, rfl, h.events⟩
    | some next =>
      obtain ⟨m', hm, hnext⟩ := h.step_branch lawful hcond hstep
      simp only [hm]
      rw [stmts_mark hs, Machine.run_mark incoming hs]
      exact .inl ⟨_, _, rfl, rfl, (hnext.flush.mark hs).finishes, hnext.scopes⟩
  | @op offset op rest hcond hrest ih =>
    simp only [stmts, Simulation.step, Machine.run]
    cases hstep : step? names state op with
    | none =>
      simp only [h.step_fault hstep]
      exact .inr ⟨state.out, ⟨offset, op, fault state op, m.events⟩, rfl, rfl, h.events⟩
    | some next =>
      obtain ⟨m', hm, hnext⟩ := h.step_straight lawful hcond hstep
      simp only [hm]
      exact ih hnext

end Shows

/-- What a world is at a moment, with calls that change nothing. -/
def ofWorld (w : StackMachine.World) (memory : w.Memory) : Environment where
  Value := w.Value
  Instance := w.Instance
  constant := w.constant
  read p := w.read p memory
  unary := w.unary
  binary := w.binary
  call name args := (w.call name args memory).1
  truthy := w.truthy
  instanceOf := w.instanceOf
  named := w.named

/-- The laws of a world hold at every moment. -/
lemma lawful_ofWorld {w : StackMachine.World} {names : Names} (lawful : w.Lawful names)
    (memory : w.Memory) : (ofWorld w memory).Lawful names where
  named_eq c id h := (lawful.instanceOf_constant c id h).symm
  temporary_eq c id h :=
    (lawful.instanceOf_name id memory).trans (lawful.instanceOf_constant c id h).symm
  truthy_negate incoming e := by
    unfold Expr.negate
    split
    · rename_i op left right
      cases hinv : op.inverse? with
      | none => exact lawful.truthy_not _
      | some inverse => exact lawful.truthy_inverse op inverse _ _ hinv
    · rename_i operand
      have htruth := lawful.truthy_not ((ofWorld w memory).eval incoming operand)
      exact (Bool.not_not _).symm.trans (congrArg Bool.not htruth.symm)
    · exact lawful.truthy_not _

/-- A block that is entered with three values.  It adds one to an element of an array, calls `f` with a
constant and the difference of the two upper values, drops what the call gives, and compares the lowest
value with nine. -/
def compoundStore : List Stmt :=
  [.label 0, .raw 0 (.push (.int (-1))), .raw 1 (.push (.int 3)), .raw 2 (.dup 1),
    .raw 3 (.pushVar ⟨"a", 0, true⟩), .raw 4 (.push (.int 1)), .raw 5 (.binary .add),
    .raw 6 (.pop ⟨"a", 0, true⟩ true), .raw 7 (.binary .sub), .raw 8 (.push (.int 10)),
    .raw 9 (.call "f" 2), .raw 10 .popz, .raw 11 (.dup 0), .raw 12 (.push (.int 9)),
    .raw 13 (.binary .lt), .raw 14 (.branchFalse 2), .goto 1]

/-- The integers, at a moment when every variable holds four. -/
def fours : Environment :=
  ofWorld (StackMachine.integerWorld {}) fun _ => 4

/-- The values 9, 7, 5 and so on, from the lowest up. -/
def descending (i : Nat) : fours.Value :=
  StackMachine.number {} (9 - 2 * i)

end Environment

end Decompiler
