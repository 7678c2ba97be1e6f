import Decompiler.Proofs.ExprTrees
import Decompiler.Proofs.Negation
import Decompiler.Proofs.RawBlocks
import Decompiler.Peephole.Join

/-!
# Simulating joined blocks

A block that only jumps on and the block behind the jump can be simulated one by one and then joined, or
their operations can be put in one block and simulated at once.  Simulating an operation commutes with
putting values for the carried ones (`step?_substitute`), up to two things that the simulation does only
where it sees what is on the stack: a dropped call is a call statement, and the negation of a test is
folded.  A third one, the name in place of the number of an instance, is excluded by asking that no
operation takes a carried value as an instance (`instancesKnown`).

`block_joined` puts this together: the two ways agree after folding negations and turning dropped calls
into call statements.
-/

namespace Decompiler

open Bytecode Simulation
open StackMachine (RawBody isJump)

/-! ### Normal forms -/

namespace Stmt

/-- A statement with its negations folded, and a call in place of a dropped call. -/
def normal (s : Stmt) : Stmt :=
  (s.mapExprs ⟨fun e => e.simplifyNot.1, fun v => (Expr.simplifyNotVariable v).1⟩).promoteCalls

/-- The normal forms of some statements, one by one. -/
lemma promoteCallsList_simplifyNotList (list : List Stmt) :
    promoteCallsList (simplifyNotList list) = list.map normal := by
  induction list with
  | nil => rfl
  | cons s rest ih =>
    rw [List.map_cons, ← ih]
    rfl

/-- A dropped value and the statement that dropping it leaves have one normal form. -/
lemma normal_dropped (e : Expr) : (dropped e).normal = (Stmt.discard e).normal := by
  cases e with
  | call name args =>
    simp only [dropped, normal, mapExprs, Expr.simplifyNot, promoteCalls, Expr.simplifyNotList_eq_map]
  | const | var | unary | binary | incoming => rfl

/-- Tests with one negation folded in different ways have one normal form. -/
lemma normal_condGoto {test test' : Expr} (h : test.simplifyNot.1 = test'.simplifyNot.1)
    (target : LabelId) : (condGoto test target).normal = (condGoto test' target).normal := by
  simp only [normal, mapExprs, promoteCalls, h]

end Stmt

/-! ### Carried values -/

namespace Simulation

/-- Whether an expression is a value that was carried into the block. -/
def isCarried : Expr → Bool
  | .incoming _ => true
  | _ => false

/-- The value on the stack that names the instance of a variable; it lies below the index. -/
def ownerOperand? (ref : VarRef) (stack : List Expr) : Option Expr :=
  if ref.owner = 0 then stack[if ref.array then 1 else 0]? else none

/-- The value on the stack that an operation takes as an instance. -/
def instanceOperand? (stack : List Expr) : StackOp → Option Expr
  | .pushVar ref | .pop ref false => ownerOperand? ref stack
  | .pop ref true => ownerOperand? ref stack.tail
  | .pushEnv _ => stack.head?
  | _ => none

/-- Whether no operation of a block takes a carried value as an instance. -/
def instancesKnown (names : Names) : List Expr → List Stmt → Bool
  | stack, .raw _ op :: rest =>
    !(instanceOperand? stack op).any isCarried &&
      match step? names { stack, scopes := 0 } op with
      | some state => instancesKnown names state.stack rest
      | none => true
  | stack, _ :: rest => instancesKnown names stack rest
  | _, [] => true

section Substitute

variable {names : Names} (values : List Expr)

/-- The owner that a value stands for can be told before values are put, unless it is a carried one. -/
lemma ownerOf_substitute {e : Expr} (h : isCarried e = false) :
    ownerOf names (e.substitute values) = Expr.substituteOwner values (ownerOf names e) := by
  cases e with
  | const c =>
    simp only [Expr.substitute, ownerOf, Expr.constant?]
    split <;> rfl
  | var | call | unary | binary => rfl
  | incoming i => cases h

/-- The instances of a scope can be told before values are put, unless they are carried ones. -/
lemma scopeOf_substitute {e : Expr} (h : isCarried e = false) :
    scopeOf names (e.substitute values) = (scopeOf names e).substitute values := by
  cases e with
  | const c =>
    simp only [Expr.substitute, scopeOf, Expr.constant?]
    split <;> rfl
  | var | call | unary | binary => rfl
  | incoming i => cases h

/-- Values are put for carried ones before or after a test is negated. -/
lemma simplifyNot_negate_substitute (e : Expr) :
    (e.negate.substitute values).simplifyNot.1 = (e.substitute values).negate.simplifyNot.1 := by
  cases e with
  | const | var | call => rfl
  | unary op operand => cases op <;> rfl
  | binary op left right =>
    simp only [Expr.substitute, Expr.negate]
    cases op.inverse? <;> rfl
  | incoming i =>
    rw [Expr.simplifyNot_negate]
    rfl

/-- Values are put for carried ones before or after a variable is named. -/
lemma takeVariable?_substitute {ref : VarRef} {stack rest : List Expr} {v : Variable}
    (h : takeVariable? names ref stack = some (v, rest))
    (hknown : (ownerOperand? ref stack).any isCarried = false) :
    takeVariable? names ref (stack.map (Expr.substitute values)) =
      some (Expr.substituteVariable values v, rest.map (Expr.substitute values)) := by
  obtain ⟨index, harray, ⟨hzero, e, rfl, rfl⟩ | ⟨hzero, rfl, rfl⟩⟩ := takeVariable?_eq_some h
  · have he : isCarried e = false := by
      cases index <;> simpa [ownerOperand?, hzero, ← harray] using hknown
    cases index <;>
      simp [takeVariable?, takeIndex?, takeOwner?, hzero, ← harray, ownerOf_substitute values he,
        Expr.substituteVariable, Expr.substituteOption]
  · cases index <;>
      simp [takeVariable?, takeIndex?, takeOwner?, hzero, ← harray, Expr.substituteVariable,
        Expr.substituteOption, Expr.substituteOwner]

/-! ### One operation -/

/-- The first statements have the normal forms of the others once values are put for the carried ones.
-/
def Agree (list list' : List Stmt) : Prop :=
  list.map (fun s => (s.substitute values).normal) = list'.map Stmt.normal

variable {values}

/-- Statements that agree, before others that do. -/
lemma Agree.append {a a' b b' : List Stmt} (ha : Agree values a a') (hb : Agree values b b') :
    Agree values (a ++ b) (a' ++ b') := by
  rw [Agree, List.map_append, List.map_append, ha, hb]

/-- Two statements with one normal form. -/
lemma agree_singleton {s s' : Stmt} (h : (s.substitute values).normal = s'.normal) :
    Agree values [s] [s'] := by
  rw [Agree, List.map_singleton, List.map_singleton, h]

variable (values) in
/-- Values that are pushed are those that are put for the carried ones. -/
lemma agree_push (stack : List Expr) :
    Agree values (stack.map Stmt.push) ((stack.map (Expr.substitute values)).map Stmt.push) := by
  simp only [Agree, List.map_map]
  rfl

variable (values) in
/-- What is behind an operation, in a block that carries values and where the values are seen: the
stacks are the same once the values are put, and the statements that are added agree. -/
structure Mirrors (out out' : List Stmt) (next next' : State) : Prop where
  stack : next'.stack = next.stack.map (Expr.substitute values)
  scopes : next'.scopes = next.scopes
  out : ∃ added added', next.out = out ++ added ∧ next'.out = out' ++ added' ∧
    Agree values added added'

variable {out out' : List Stmt} {scopes : Nat}

/-- An operation that only changes the stack. -/
lemma Mirrors.moved (stack : List Expr) :
    Mirrors values out out' ⟨stack, out, scopes⟩ ⟨stack.map (Expr.substitute values), out', scopes⟩ where
  stack := rfl
  scopes := rfl
  out := ⟨[], [], (List.append_nil _).symm, (List.append_nil _).symm, rfl⟩

/-- An operation that leaves a statement. -/
lemma Mirrors.emitted {stack : List Expr} {s s' : Stmt} (h : (s.substitute values).normal = s'.normal) :
    Mirrors values out out' (State.emit ⟨stack, out, scopes⟩ s)
      (State.emit ⟨stack.map (Expr.substitute values), out', scopes⟩ s') where
  stack := rfl
  scopes := rfl
  out := ⟨[s], [s'], rfl, rfl, agree_singleton h⟩

/-- The stack is left before a statement. -/
lemma Mirrors.branched {stack : List Expr} {s s' : Stmt}
    (h : (s.substitute values).normal = s'.normal) :
    Mirrors values out out' (State.branch ⟨stack, out, scopes⟩ s)
      (State.branch ⟨stack.map (Expr.substitute values), out', scopes⟩ s') where
  stack := rfl
  scopes := rfl
  out := by
    refine ⟨_, _, List.append_assoc _ _ _, List.append_assoc _ _ _, ?_⟩
    rw [← List.map_reverse]
    exact (agree_push values stack.reverse).append (agree_singleton h)

/-- Of a dropped value it can be told later whether it is a call. -/
lemma normal_dropped_substitute (e : Expr) :
    ((dropped e).substitute values).normal = (dropped (e.substitute values)).normal := by
  rw [Stmt.normal_dropped]
  cases e with
  | call name args =>
    have hcall : (dropped (.call name args)).substitute values =
        dropped ((Expr.call name args).substitute values) := by
      rw [Expr.substitute, Expr.substituteList_eq_map]
      rfl
    rw [hcall, Stmt.normal_dropped]
  | const | var | unary | binary | incoming => rfl

variable (values out') in
/-- An operation that runs in a block that carries values runs where the values are seen. -/
lemma step?_substitute {op : StackOp} {stack : List Expr} {next : State}
    (h : step? names ⟨stack, out, scopes⟩ op = some next)
    (hknown : (instanceOperand? stack op).any isCarried = false) :
    ∃ next', step? names ⟨stack.map (Expr.substitute values), out', scopes⟩ op = some next' ∧
      Mirrors values out out' next next' := by
  cases op with
  | push | pushTemporary =>
    cases h
    exact ⟨_, rfl, .moved (_ :: stack)⟩
  | pushVar ref =>
    obtain ⟨⟨v, rest⟩, htake, h⟩ := Option.bind_eq_some_iff.mp h
    cases h
    refine ⟨_, ?_, .moved (.var v :: rest)⟩
    simp only [step?, takeVariable?_substitute values htake hknown]
    rfl
  | pop ref swapped =>
    cases swapped with
    | true =>
      obtain _ | ⟨value, stack⟩ := stack
      · cases h
      obtain ⟨⟨target, rest⟩, htake, h⟩ := Option.bind_eq_some_iff.mp h
      cases h
      refine ⟨_, ?_, .emitted (s := .assign target value) rfl⟩
      simp only [step?, List.map_cons, takeVariable?_substitute values htake hknown]
      rfl
    | false =>
      obtain ⟨⟨target, stack'⟩, htake, h⟩ := Option.bind_eq_some_iff.mp h
      obtain _ | ⟨value, rest⟩ := stack' <;> cases h
      refine ⟨_, ?_, .emitted (s := .assign target value) rfl⟩
      simp only [step?, takeVariable?_substitute values htake hknown]
      rfl
  | popTemporary name =>
    obtain _ | ⟨value, rest⟩ := stack <;> cases h
    exact ⟨_, rfl, .emitted rfl⟩
  | dup flag =>
    simp only [step?] at h ⊢
    split at h
    · rename_i hzero
      rw [if_pos hzero]
      obtain _ | ⟨a, rest⟩ := stack <;> cases h
      exact ⟨_, rfl, .moved (a :: a :: rest)⟩
    · rename_i hzero
      rw [if_neg hzero]
      split at h
      · rename_i hone
        rw [if_pos hone]
        obtain _ | ⟨b, _ | ⟨a, rest⟩⟩ := stack <;> cases h
        exact ⟨_, rfl, .moved (b :: a :: b :: a :: rest)⟩
      · cases h
  | binary op =>
    obtain _ | ⟨right, _ | ⟨left, rest⟩⟩ := stack <;> cases h
    exact ⟨_, rfl, .moved (.binary op left right :: rest)⟩
  | unary op =>
    obtain _ | ⟨operand, rest⟩ := stack <;> cases h
    exact ⟨_, rfl, .moved (.unary op operand :: rest)⟩
  | call name argc =>
    simp only [step?] at h ⊢
    split at h
    · cases h
    · rename_i henough
      cases h
      rw [if_neg (by rwa [List.length_map])]
      refine ⟨_, rfl, ?_⟩
      rw [← List.map_take, ← List.map_drop, ← Expr.substituteList_eq_map]
      exact .moved (.call name (stack.take argc.toNat) :: stack.drop argc.toNat)
  | popz =>
    obtain _ | ⟨value, rest⟩ := stack <;> cases h
    exact ⟨_, rfl, .emitted (normal_dropped_substitute value)⟩
  | ret =>
    obtain _ | ⟨value, rest⟩ := stack <;> cases h
    exact ⟨_, rfl, .emitted rfl⟩
  | branchTrue target =>
    obtain _ | ⟨test, rest⟩ := stack <;> cases h
    exact ⟨_, rfl, .branched rfl⟩
  | branchFalse target =>
    obtain _ | ⟨test, rest⟩ := stack <;> cases h
    exact ⟨_, rfl, .branched (Stmt.normal_condGoto (simplifyNot_negate_substitute values test) target)⟩
  | pushEnv skip =>
    obtain _ | ⟨value, rest⟩ := stack <;> cases h
    refine ⟨_, rfl, .branched ?_⟩
    rw [scopeOf_substitute values (by simpa [instanceOperand?] using hknown)]
    rfl
  | popEnv back =>
    obtain _ | scopes := scopes <;> cases h
    exact ⟨_, rfl, .branched rfl⟩
  | dispatch cases default =>
    obtain _ | ⟨value, rest⟩ := stack <;> cases h
    refine ⟨_, rfl, .branched ?_⟩
    simp only [Stmt.substitute, Stmt.mapExprs, List.map_map]
    rfl

/-! ### The rest of a block -/

variable {state state' next next' final : State}

/-- What is added later goes behind what was added before. -/
lemma Mirrors.trans (h : Mirrors values out out' state state')
    (hnext : Mirrors values state.out state'.out next next') : Mirrors values out out' next next' where
  stack := hnext.stack
  scopes := hnext.scopes
  out := by
    obtain ⟨first, first', hfirst, hfirst', hagree⟩ := h.out
    obtain ⟨second, second', hsecond, hsecond', hagree'⟩ := hnext.out
    refine ⟨first ++ second, first' ++ second', ?_, ?_, hagree.append hagree'⟩
    · rw [hsecond, hfirst, List.append_assoc]
    · rw [hsecond', hfirst', List.append_assoc]

/-- One operation in a block that carries values and where the values are seen. -/
lemma Mirrors.step? {op : StackOp} (h : Mirrors values out out' state state')
    (hstep : step? names state op = some next)
    (hknown : (instanceOperand? state.stack op).any isCarried = false) :
    ∃ next', Simulation.step? names state' op = some next' ∧ Mirrors values out out' next next' := by
  obtain ⟨next', hstep', hnext⟩ := step?_substitute values state'.out hstep hknown
  rw [← h.stack, ← h.scopes] at hstep'
  exact ⟨next', hstep', h.trans hnext⟩

/-- Values that are left before the last statement. -/
lemma Mirrors.ends {s s' : Stmt} (h : Mirrors values out out' state state') (stack : List Expr)
    (hs : (s.substitute values).normal = s'.normal) :
    ∃ added added', state.out ++ (stack.reverse.map Stmt.push ++ [s]) = out ++ added ∧
      state'.out ++ ((stack.map (Expr.substitute values)).reverse.map Stmt.push ++ [s']) =
        out' ++ added' ∧ Agree values added added' := by
  obtain ⟨first, first', hfirst, hfirst', hagree⟩ := h.out
  refine ⟨first ++ (stack.reverse.map Stmt.push ++ [s]), _, ?_, ?_,
    hagree.append ((agree_push values stack.reverse).append (agree_singleton hs))⟩
  · rw [hfirst, List.append_assoc]
  · rw [hfirst', List.append_assoc, ← List.map_reverse]

/-- A statement that is added to both. -/
lemma Mirrors.emit {s s' : Stmt} (h : Mirrors values out out' state state')
    (hs : (s.substitute values).normal = s'.normal) :
    Mirrors values out out' (state.emit s) (state'.emit s') :=
  h.trans ⟨h.stack, h.scopes, [s], [s'], rfl, rfl, agree_singleton hs⟩

variable (values out out') in
/-- What is behind a block: as many open scopes, and statements that agree. -/
structure SettleAlike (final final' : State) : Prop where
  scopes : final'.scopes = final.scopes
  out : ∃ added added', settle final = out ++ added ∧ settle final' = out' ++ added' ∧
    Agree values added added'

variable {body done : List Stmt} (done' : List Stmt)

/-- A jump at the end of a block. -/
lemma Mirrors.jump {s : Stmt} (h : Mirrors values out out' state state') (hs : isJump s = true)
    (hfinal : stmts names done state [s] = .ok final) :
    ∃ final', stmts names done' state' [s] = .ok final' ∧ SettleAlike values out out' final final' := by
  obtain ⟨hnone, hsame⟩ : s.stackOp? = none ∧ (s.substitute values).normal = s.normal := by
    cases s with
    | goto | exit => exact ⟨rfl, rfl⟩
    | _ => cases hs
  obtain ⟨added, added', hadded, hadded', hagree⟩ := h.ends state.stack hsame
  have hfinal' : stmts names done' state' [s] = .ok (state'.flush.emit s) :=
    StackMachine.stmts_jump hs state'
  refine ⟨_, hfinal', ⟨?_, added, added', ?_, ?_, hagree⟩⟩
  · rw [StackMachine.stmts_jump hs] at hfinal
    cases hfinal
    exact h.scopes
  · rw [settle_jump hnone hfinal, hadded]
  · rw [settle_jump hnone hfinal', h.stack, hadded']

/-- A return at the end of a block. -/
lemma Mirrors.ret {offset : Nat} (h : Mirrors values out out' state state')
    (hfinal : stmts names done state [.raw offset .ret] = .ok final) :
    ∃ final', stmts names done' state' [.raw offset .ret] = .ok final' ∧
      SettleAlike values out out' final final' := by
  obtain ⟨next, hstep, hnext⟩ := stmts_raw hfinal
  rw [Simulation.stmts] at hnext
  cases hnext
  obtain ⟨stack, out₀, scopes⟩ := state
  obtain ⟨stack', out₀', scopes'⟩ := state'
  obtain _ | ⟨value, rest⟩ := stack <;> cases hstep
  obtain rfl : stack' = (value :: rest).map (Expr.substitute values) := h.stack
  have hsame : ((Stmt.ret value).substitute values).normal =
      (Stmt.ret (value.substitute values)).normal := rfl
  obtain ⟨added, added', hadded, hadded', hagree⟩ := h.ends rest hsame
  refine ⟨_, rfl, ⟨h.scopes, added, added', ?_, ?_, hagree⟩⟩
  · rw [settle_emit, ← hadded]
  · rw [settle_emit, ← hadded']

/-- Whether the values are carried or seen, the rest of a block is simulated alike. -/
theorem Mirrors.stmts (hbody : RawBody body) (h : Mirrors values out out' state state')
    (hfinal : stmts names done state body = .ok final)
    (hknown : instancesKnown names state.stack body = true) :
    ∃ final', Simulation.stmts names done' state' body = .ok final' ∧
      SettleAlike values out out' final final' := by
  induction hbody generalizing state state' with
  | jump hs => exact h.jump done' hs hfinal
  | ret offset => exact h.ret done' hfinal
  | branch offset hcond hs =>
    simp only [instancesKnown, Bool.and_eq_true, Bool.not_eq_true'] at hknown
    obtain ⟨next, hstep, hnext⟩ := stmts_raw hfinal
    obtain ⟨next', hstep', hmirrors⟩ := h.step? hstep hknown.1
    rw [Simulation.stmts, step, hstep']
    exact hmirrors.jump done' hs hnext
  | @label id rest hrest ih =>
    simp only [Simulation.stmts, hrest.isEmpty_eq_false, Bool.false_eq_true, if_false] at hfinal ⊢
    exact ih (h.emit rfl) hfinal hknown
  | op offset hcond hret hrest ih =>
    simp only [instancesKnown, Bool.and_eq_true, Bool.not_eq_true'] at hknown
    obtain ⟨next, hstep, hnext⟩ := stmts_raw hfinal
    obtain ⟨next', hstep', hmirrors⟩ := h.step? hstep hknown.1
    obtain ⟨seen, hseen, hstack⟩ := StackMachine.step?_stack hcond hstep
    simp only [hseen, hstack] at hknown
    rw [Simulation.stmts, step, hstep']
    exact ih hmirrors hnext hknown.2

end Substitute

/-! ### The start of a block -/

/-- A label, or an operation that stays in a block, is simulated before the rest, if it finds the values
it takes. -/
lemma exists_next (names : Names) {s : Stmt} (hs : s.staysInside = true) {state : State}
    (hfinds : s.finds state.stack.length = true) :
    ∃ next : State, next.stack.length = s.depthAfter state.stack.length ∧
      next.scopes = state.scopes ∧
      (∃ added, next.out = state.out ++ added ∧ ∀ t ∈ added, t.isConditional = false) ∧
      ∀ done rest, rest ≠ [] → stmts names done state (s :: rest) = stmts names done next rest := by
  cases s with
  | label id =>
    refine ⟨state.emit (.label id), rfl, rfl, ⟨[.label id], rfl, by simp [Stmt.isConditional]⟩, ?_⟩
    exact fun done rest hrest => stmts_label hrest
  | raw offset op =>
    have hop : op.isConditional = false := by
      cases op with
      | ret => cases hs
      | _ => simpa [Stmt.staysInside] using hs
    have hnest : ScopeMark.nest state.scopes (Stmt.raw offset op).scopeMark?.toList =
        some state.scopes := by
      rw [scopeMark?_of_straight offset hop]
      rfl
    obtain ⟨next, hstep, hscopes⟩ := exists_step?_of_finds names hfinds hnest
    have hstraight := step?_straight hop hstep
    obtain ⟨added, hadded, hplain, -⟩ := hstraight.out
    refine ⟨next, (finds_of_straight offset hstraight).2, hscopes, ⟨added, hadded, ?_⟩, ?_⟩
    · exact fun t ht => (Stmt.outline_of_isPlain (hplain t ht)).2.2
    · intro done rest _
      rw [stmts, step, hstep]
  | _ => cases hs

/-- Labels and operations that stay in a block are simulated before the rest, if they find the values
they take. -/
lemma exists_middle (names : Names) {init : List Stmt} (hinit : ∀ s ∈ init, s.staysInside = true)
    {state : State} (henough : Stmt.enough state.stack.length init = true) :
    ∃ middle : State, middle.stack.length = init.foldl Stmt.depthAfter state.stack.length ∧
      middle.scopes = state.scopes ∧
      (∃ added, middle.out = state.out ++ added ∧ ∀ s ∈ added, s.isConditional = false) ∧
      ∀ done rest, rest ≠ [] →
        stmts names done state (init ++ rest) = stmts names done middle rest := by
  induction init generalizing state with
  | nil => exact ⟨state, rfl, rfl, ⟨[], (List.append_nil _).symm, by simp⟩, fun _ _ _ => rfl⟩
  | cons s init ih =>
    rw [List.forall_mem_cons] at hinit
    simp only [Stmt.enough, Bool.and_eq_true] at henough
    obtain ⟨next, hlength, hscopes, ⟨first, hfirst, hplain⟩, hnext⟩ :=
      exists_next names hinit.1 henough.1
    rw [← hlength] at henough
    obtain ⟨middle, hlength', hscopes', ⟨added, hadded, hplain'⟩, hmiddle⟩ := ih hinit.2 henough.2
    refine ⟨middle, ?_, hscopes'.trans hscopes, ⟨first ++ added, ?_, ?_⟩, fun done rest hrest => ?_⟩
    · rw [hlength', hlength, List.foldl_cons]
    · rw [hadded, hfirst, List.append_assoc]
    · exact List.forall_mem_append.mpr ⟨hplain, hplain'⟩
    · rw [List.cons_append, hnext done _ (by simp [hrest]), hmiddle done rest hrest]

/-- Where the values on the stack are put for the carried ones, the stack is the same. -/
lemma incomingStack_substitute (stack : List Expr) :
    (incomingStack stack.length).map (Expr.substitute stack.reverse) = stack := by
  have hrange : (List.range stack.length).map
      (fun i => (Expr.incoming i).substitute stack.reverse) = stack.reverse := by
    refine List.ext_getElem (by simp) fun i hi hi' => ?_
    rw [List.getElem_map, List.getElem_range, Expr.substitute, List.getElem?_eq_getElem hi']
    rfl
  rw [incomingStack, List.map_map, List.map_reverse]
  exact (congrArg List.reverse hrange).trans stack.reverse_reverse

end Simulation

/-! ### Joining -/

namespace Join

/-- The values of `push` statements. -/
lemma pushedValues?_push (values : List Expr) : pushedValues? (values.map Stmt.push) = some values := by
  induction values with
  | nil => rfl
  | cons value rest ih =>
    rw [List.map_cons, pushedValues?, ih]
    rfl

/-- A head that leaves the values that the next block expects takes it in. -/
lemma joined?_eq_some {head next : BasicBlock} {kept : List Stmt} {values : List Expr} {jump : Stmt}
    (hbody : head.body = kept ++ (values.map Stmt.push ++ [jump])) (hkept : kept ≠ [])
    (hvalues : values.length = next.entryDepth) :
    joined? head next =
      some { head with body := kept ++ (next.body.drop 1).map (Stmt.substitute values) } := by
  have hjump : head.body.length - 1 = kept.length + values.length := by
    rw [hbody]
    simp
  have hpositive : 0 < kept.length := List.length_pos_iff.mpr hkept
  have hguard : ¬ kept.length + values.length < values.length + 1 := by omega
  have hpushes : ((head.body.take (kept.length + values.length)).drop kept.length) =
      values.map Stmt.push := by
    rw [hbody, ← List.append_assoc, List.take_left' (by simp), List.drop_left]
  have hkeep : head.body.take kept.length = kept := by rw [hbody, List.take_left]
  simp only [joined?, hjump, ← hvalues, if_neg hguard, Nat.add_sub_cancel, hpushes, pushedValues?_push,
    hkeep, Option.bind_eq_bind, Option.bind_some, Option.pure_def]

/-- A block to which nothing but the head of a site goes, and which is neither the head nor the first
block. -/
structure Follows (site : Site) (next : LabelId) (block : BasicBlock) : Prop where
  refcount : site.refcount next = 1
  found : ∃ nextAt, site.map.position? next = some nextAt ∧ nextAt ≠ site.pos ∧ nextAt ≠ 0 ∧
    site.blocks[nextAt]? = some block

/-- A head without branches that leaves the values that the next block expects, and to which alone that
block belongs, takes it in. -/
lemma edit?_of_follows {site : Site} {next : LabelId} {block : BasicBlock} {kept : List Stmt}
    {values : List Expr} (hfollows : Follows site next block)
    (hbody : site.head.body = kept ++ (values.map Stmt.push ++ [.goto next])) (hkept : kept ≠ [])
    (hplain : ∀ s ∈ kept, s.isConditional = false) (hvalues : values.length = block.entryDepth) :
    edit? site = some {
      head := some { site.head with
        body := kept ++ (block.body.drop 1).map (Stmt.substitute values) }
      remove := [next] } := by
  obtain ⟨nextAt, hat, hpos, hzero, hnext⟩ := hfollows.found
  have hgoto : site.head.gotoTarget? = some next := by simp [BasicBlockOf.gotoTarget?, hbody]
  have hpushes : Stmt.IsMiddle (values.map Stmt.push) :=
    (Stmt.outline_of_plainList Stmt.isPlain_push).1
  have hstraight : ∀ s ∈ site.head.body, s.isConditional = false := by
    rw [hbody, List.forall_mem_append, List.forall_mem_append]
    exact ⟨hplain, hpushes.straight, List.forall_mem_singleton.mpr rfl⟩
  have hguard : ¬ (site.refcount next ≠ 1 ∨ site.head.body.any Stmt.isConditional = true) := by
    simpa [hfollows.refcount] using hstraight
  have hplace : ¬ (nextAt = site.pos ∨ nextAt = 0) := not_or.mpr ⟨hpos, hzero⟩
  simp only [edit?, hgoto, hat, hnext, joined?_eq_some hbody hkept hvalues, Option.bind_eq_bind,
    Option.bind_some, if_neg hguard, if_neg hplace, Option.pure_def]

end Join

namespace Simulation

variable {names : Names} {a b : LabelId} {init rest : List Stmt} {depth entry : Nat}

/-- A block that goes on to a label is simulated up to there without a fault, and so is every block that
starts like it. -/
lemma exists_head (names : Names) (hinit : ∀ s ∈ init, s.staysInside = true)
    (hexit : (b, entry) ∈ Depth.branches depth (.label a :: (init ++ [.goto b]))) (scopes : Nat) :
    ∃ middle : State, middle.stack.length = entry ∧ middle.scopes = scopes ∧
      (∃ added, middle.out = .label a :: added ∧ ∀ s ∈ added, s.isConditional = false) ∧
      ∀ done rest, rest ≠ [] →
        stmts names done { stack := incomingStack depth, scopes } (.label a :: (init ++ rest)) =
          stmts names done middle rest := by
  have hbranches : (b, entry) ∈ Depth.branches depth (init ++ [.goto b]) := hexit
  obtain ⟨henough, hentry⟩ := (Depth.mem_branches_append hinit).mp hbranches
  have hdepth : init.foldl Stmt.depthAfter depth = entry := by
    simpa [Depth.branches, eq_comm] using hentry
  let start : State := ⟨incomingStack depth, [.label a], scopes⟩
  have hstart : start.stack.length = depth := length_incomingStack depth
  obtain ⟨middle, hlength, hscopes, ⟨added, hout, hplain⟩, hmiddle⟩ :=
    exists_middle names hinit (hstart.symm ▸ henough)
  refine ⟨middle, ?_, hscopes, ⟨added, hout, hplain⟩, fun done rest hrest => ?_⟩
  · rw [hlength, hstart, hdepth]
  · rw [stmts_label (by simp [hrest])]
    exact hmiddle done rest hrest

/-- A block is simulated where the values that it expects lie on the stack as it is simulated with
carried values in their place. -/
lemma exists_agree (hrest : RawBody rest) {middle final : State} {done done' second : List Stmt}
    {scopes' : Nat} (hknown : instancesKnown names (incomingStack middle.stack.length) rest = true)
    (hsecond : block names done middle.scopes middle.stack.length (.label b :: rest) =
      .ok (second, scopes'))
    (hfinal : stmts names done' middle rest = .ok final) :
    ∃ added added', second = .label b :: added ∧ settle final = middle.out ++ added' ∧
      Agree middle.stack.reverse added added' := by
  obtain ⟨final₀, hfinal₀, rfl, -⟩ := block_eq_ok_iff.mp hsecond
  rw [stmts_label (List.isEmpty_eq_false_iff.mp hrest.isEmpty_eq_false)] at hfinal₀
  have hmirrors : Mirrors middle.stack.reverse [.label b] middle.out
      ⟨incomingStack middle.stack.length, [.label b], middle.scopes⟩ middle := by
    refine ⟨(incomingStack_substitute middle.stack).symm, rfl, [], [], rfl, ?_, rfl⟩
    exact (List.append_nil _).symm
  obtain ⟨final', hfinal', halike⟩ := hmirrors.stmts done' hrest hfinal₀ hknown
  rw [hfinal] at hfinal'
  cases hfinal'
  exact halike.out

/-- Joining commutes with simulation.  Where a block goes on to a label with as many values as the block
there expects, and no operation of that block takes a carried value as an instance, the two blocks can
be simulated exactly when their operations in one block can; the first one can be simulated anyway.  The
first one then takes in the second one, and the result has the same normal form as the one block: the
same statements, once negations are folded and dropped calls are call statements. -/
theorem block_joined (hinit : ∀ s ∈ init, s.staysInside = true) (hrest : RawBody rest)
    (hexit : (b, entry) ∈ Depth.branches depth (.label a :: (init ++ [.goto b])))
    (hknown : instancesKnown names (incomingStack entry) rest = true) (scopes : Nat)
    (done done' done'' : List Stmt) :
    ∃ first, block names done scopes depth (.label a :: (init ++ [.goto b])) = .ok (first, scopes) ∧
      ∀ scopes',
        ((∃ second, block names done' scopes entry (.label b :: rest) = .ok (second, scopes')) ↔
          ∃ whole, block names done'' scopes depth (.label a :: (init ++ rest)) =
            .ok (whole, scopes')) ∧
        ∀ second whole,
          block names done' scopes entry (.label b :: rest) = .ok (second, scopes') →
          block names done'' scopes depth (.label a :: (init ++ rest)) = .ok (whole, scopes') →
          ∃ joined : BasicBlock, Join.joined? ⟨depth, first⟩ ⟨entry, second⟩ = some joined ∧
            joined.entryDepth = depth ∧
            Stmt.promoteCallsList (Stmt.simplifyNotList joined.body) =
              Stmt.promoteCallsList (Stmt.simplifyNotList whole) ∧
            ∀ site : Site, site.head = ⟨depth, first⟩ → Join.Follows site b ⟨entry, second⟩ →
              Join.edit? site = some { head := some joined, remove := [b] } := by
  obtain ⟨middle, rfl, rfl, ⟨kept, hkept, hplain⟩, hmiddle⟩ := exists_head names hinit hexit scopes
  have hne : rest ≠ [] := List.isEmpty_eq_false_iff.mp hrest.isEmpty_eq_false
  have hjump : stmts names done middle [.goto b] = .ok (middle.flush.emit (.goto b)) := rfl
  refine ⟨settle (middle.flush.emit (.goto b)), ?_, fun scopes' => ⟨?_, ?_⟩⟩
  · exact block_eq_ok_iff.mpr ⟨_, (hmiddle done _ (by simp)).trans hjump, rfl, rfl⟩
  · have hwhole : Ends names done'' { stack := incomingStack depth, scopes := middle.scopes }
        (.label a :: (init ++ rest)) scopes' ↔ Ends names done'' middle rest scopes' := by
      rw [Ends, Ends, hmiddle done'' rest hne]
    have hmarks : (Stmt.label b :: rest).filterMap Stmt.scopeMark? = rest.filterMap Stmt.scopeMark? :=
      List.filterMap_cons_none rfl
    have henough : Stmt.enough middle.stack.length (.label b :: rest) =
        Stmt.enough middle.stack.length rest := rfl
    rw [exists_block_iff, exists_block_iff, hwhole, ends_iff hrest, ends_iff (.label b hrest), hmarks,
      length_incomingStack, henough]
  · intro second whole hsecond hwhole
    obtain ⟨final, hfinal, rfl, -⟩ := block_eq_ok_iff.mp hwhole
    rw [hmiddle done'' rest hne] at hfinal
    obtain ⟨added, added', rfl, hsettle, hagree⟩ := exists_agree hrest hknown hsecond hfinal
    have hfirst := settle_jump rfl hjump
    have hne' : middle.out ≠ [] := by simp [hkept]
    have hvalues : middle.stack.reverse.length = middle.stack.length := by simp
    refine ⟨_, Join.joined?_eq_some hfirst hne' hvalues, rfl, ?_, fun site hhead hfollows => ?_⟩
    · rw [Stmt.promoteCallsList_simplifyNotList, Stmt.promoteCallsList_simplifyNotList, hsettle]
      simp only [List.drop_succ_cons, List.drop_zero, List.map_append, List.map_map]
      exact congrArg _ hagree
    · rw [Join.edit?_of_follows hfollows (hhead ▸ hfirst) hne' ?_ hvalues, hhead]
      rw [hkept]
      exact List.forall_mem_cons.mpr ⟨rfl, hplain⟩

/-- A block that leaves a comparison and the value of a call, on the value it is entered with. -/
def comparedCall : List Stmt :=
  [.raw 0 (.pushVar ⟨"x", -1, false⟩), .raw 1 (.push (.int 3)), .raw 2 (.binary .lt),
    .raw 3 (.call "f" 0)]

/-- A block that drops a value and branches where the next one does not hold. -/
def droppedTest : List Stmt :=
  [.raw 4 .popz, .raw 5 (.branchFalse 4), .goto 3]

/-- The comparison of `x` with three. -/
def compared (op : BinaryOp) : Expr :=
  .binary op (.var ⟨"x", .named "self", none⟩) (.const (.int 3))

/-- The joined block drops the call and negates the comparison; in the one block the call is a statement
and the comparison is inverted. -/
theorem comparedCall_joined :
    (∀ s ∈ comparedCall, s.staysInside = true) ∧ RawBody droppedTest ∧
      (2, 3) ∈ Depth.branches 1 (.label 1 :: (comparedCall ++ [.goto 2])) ∧
      instancesKnown {} (incomingStack 3) droppedTest = true ∧
      ∃ first second joined whole,
        block {} [] 0 1 (.label 1 :: (comparedCall ++ [.goto 2])) = .ok (first, 0) ∧
        block {} [] 0 3 (.label 2 :: droppedTest) = .ok (second, 0) ∧
        block {} [] 0 1 (.label 1 :: (comparedCall ++ droppedTest)) = .ok (whole, 0) ∧
        Join.joined? ⟨1, first⟩ ⟨3, second⟩ = some ⟨1, joined⟩ ∧
        joined = [.label 1, .discard (.call "f" []), .push (.incoming 0),
          .condGoto (.not (compared .lt)) 4, .goto 3] ∧
        whole = [.label 1, .call "f" [], .push (.incoming 0), .condGoto (compared .ge) 4, .goto 3] ∧
        Stmt.promoteCallsList (Stmt.simplifyNotList joined) =
          Stmt.promoteCallsList (Stmt.simplifyNotList whole) := by
  have hinit : ∀ s ∈ comparedCall, s.staysInside = true := by decide
  have hrest : RawBody droppedTest := .op 4 rfl nofun (.branch 5 rfl rfl)
  have hexit : (2, 3) ∈ Depth.branches 1 (.label 1 :: (comparedCall ++ [.goto 2])) := by decide
  have hknown : instancesKnown {} (incomingStack 3) droppedTest = true := by decide
  refine ⟨hinit, hrest, hexit, hknown, ?_⟩
  obtain ⟨first, hfirst, hall⟩ := block_joined hinit hrest hexit hknown 0 [] [] []
  obtain ⟨joined, hjoined, -, hnormal, -⟩ := (hall 0).2 _ _ rfl rfl
  cases hfirst
  cases hjoined
  exact ⟨_, _, _, _, rfl, rfl, rfl, rfl, rfl, rfl, hnormal⟩

end Simulation

end Decompiler
