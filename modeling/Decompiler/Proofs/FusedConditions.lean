import Decompiler.Proofs.Negation
import Decompiler.Proofs.RuleSoundness

/-!
# Evaluation of fused conditions

Conditions are evaluated with effects in a lawful monad `m`, from left to right; `&&` and `||` stop as
soon as their first operand decides, and a negation turns the answer (`Evaluation.holds`).  What is left
are the atomic conditions.  An `Evaluation` says how they are answered and what the statements of a block
do; all it has to observe is that a comparison and its inverse are one question with opposite answers.
The atomic conditions are recorded in the order in which they are asked, in their positive form; as `m`
is any lawful monad, it may keep a record of its own that outlives a failure.

`Expr.negate` turns the answer and `Expr.leftAssociate` keeps it, and both ask what was asked before
(`Evaluation.holds_negate`, `Evaluation.holds_leftAssociate`).  Two branches that share a target are
therefore the branch on the fused condition (`Evaluation.branch_fuseElse?`,
`Evaluation.branch_fuseThen?`), and the rule for short-circuit conditions leaves a block that asks what
the two blocks asked and arrives where they did (`ShortCircuit.run_fused`).
-/

namespace Decompiler

open Bytecode

/-! ### Questions that may not be asked -/

section

variable {n : Type → Type} [Monad n]

/-- Asks a second question unless the answer to the first one is `stop`. -/
def joined (stop : Bool) (first second : n Bool) : n Bool := do
  let answer ← first
  if answer = stop then pure stop else second

/-- Three questions in a row may be grouped either way. -/
lemma joined_assoc [LawfulMonad n] (stop : Bool) (first second third : n Bool) :
    joined stop (joined stop first second) third = joined stop first (joined stop second third) := by
  simp only [joined, bind_assoc]
  refine bind_congr fun answer => ?_
  by_cases h : answer = stop
  · simp only [if_pos h, pure_bind, if_true]
  · simp only [if_neg h]

section Chains

variable [LawfulMonad n] {question : Expr → n Bool}
  (hlogical : ∀ op left right, op.isLogical = true →
    question (.binary op left right) = joined (op == .or) (question left) (question right))
include hlogical

/-- Appending a chain link by link asks what the chain asks as a right operand. -/
lemma question_joinLeft {op : BinaryOp} (h : op.isLogical = true) (left right : Expr) :
    question (Expr.joinLeft op left right) =
      joined (op == .or) (question left) (question right) := by
  induction left, right using Expr.joinLeft.induct op with
  | case1 left a b ih₁ ih₂ =>
    rw [Expr.joinLeft, if_pos rfl, ih₂, ih₁, hlogical op a b h, joined_assoc]
  | case2 left inner a b hne =>
    rw [Expr.joinLeft, if_neg hne, hlogical _ _ _ h]
  | case3 left right hne =>
    rw [Expr.joinLeft, hlogical _ _ _ h]
    exact hne

/-- A logical chain that leans to the left asks what the chain before asks. -/
lemma question_leftAssociate (e : Expr) : question e.leftAssociate = question e := by
  induction e using Expr.leftAssociate.induct with
  | case1 op left right h ihl ihr =>
    rw [Expr.leftAssociate, if_pos h, question_joinLeft hlogical h, hlogical _ _ _ h, ihl, ihr]
  | case2 op left right h => rw [Expr.leftAssociate, if_neg h]
  | case3 e h => rw [Expr.leftAssociate]; exact h

end Chains

/-- Turning an answer twice changes nothing. -/
lemma not_map_not_map [LawfulMonad n] (question : n Bool) :
    Bool.not <$> Bool.not <$> question = question := by
  rw [← comp_map, Bool.involutive_not.comp_self, id_map]

end

/-! ### Evaluations -/

/-- Where control is after some statements. -/
inductive Control where
  /-- At the next statement. -/
  | next
  /-- At the block under a label. -/
  | arrives (label : LabelId)
  /-- Out of the unit. -/
  | leaves
deriving DecidableEq, Repr

namespace Control

/-- Goes on with the rest of the statements, if control is there. -/
def andThen {n : Type → Type} [Monad n] (control : Control) (rest : n Control) : n Control :=
  match control with
  | .next => rest
  | control => pure control

/-- Control arrives, if anywhere, at one of the given labels. -/
def Among (labels : List LabelId) : Control → Prop
  | .arrives label => label ∈ labels
  | _ => True

/-- What is among some labels is among more labels. -/
lemma Among.append_left {control : Control} {labels : List LabelId} (h : control.Among labels)
    (more : List LabelId) : control.Among (more ++ labels) := by
  cases control with
  | arrives label => exact List.mem_append_right _ h
  | _ => trivial

end Control

/-- How atomic conditions are answered and what statements do, with effects in `m`. -/
structure Evaluation (m : Type → Type) [Monad m] where
  answer : Expr → m Bool
  /-- What a statement does that is neither a jump nor a branch on a condition.  Control may arrive at
  the labels that the statement names. -/
  perform : (s : Stmt) → m { control : Control // control.Among s.targets }
  /-- A comparison and its inverse are one question, and the answers to them are opposite. -/
  answer_inverse : ∀ {op inverse : BinaryOp}, op.inverse? = some inverse → ∀ left right,
    answer (.binary inverse left right) = Bool.not <$> answer (.binary op left right)

namespace Evaluation

variable {m : Type → Type} [Monad m] (I : Evaluation m)

/-- Asks an atomic condition and records its positive form. -/
def ask (e : Expr) : StateT (List Expr) m Bool := do
  modify (· ++ [e.polarity.1])
  I.answer e

/-- Evaluates a condition from left to right. -/
def holds : Expr → StateT (List Expr) m Bool
  | .unary .not operand => Bool.not <$> holds operand
  | .binary .and left right => do
    if ← holds left then holds right else pure false
  | .binary .or left right => do
    if ← holds left then pure true else holds right
  | e => I.ask e

/-- Goes on in one of two ways, as a condition decides. -/
def fork (test : Expr) (onTrue onFalse : StateT (List Expr) m Control) :
    StateT (List Expr) m Control := do
  if ← I.holds test then onTrue else onFalse

/-- Runs the statements of a block. -/
def run : List Stmt → StateT (List Expr) m Control
  | [] => pure .next
  | .label _ :: rest => run rest
  | .goto target :: _ => pure (.arrives target)
  | .condGoto test target :: rest => I.fork test (pure (.arrives target)) (run rest)
  | s :: rest => do
    (← I.perform s).val.andThen (run rest)

/-- Goes to `target` where a condition holds, and to `other` where it does not. -/
def branch (test : Expr) (target other : LabelId) : StateT (List Expr) m Control :=
  I.fork test (pure (.arrives target)) (pure (.arrives other))

variable [LawfulMonad m]

/-! ### Conditions -/

/-- Asking the inverse of a comparison is asking the comparison and turning the answer. -/
lemma ask_inverse {op inverse : BinaryOp} (h : op.inverse? = some inverse) (left right : Expr) :
    I.ask (.binary inverse left right) = Bool.not <$> I.ask (.binary op left right) := by
  simp only [ask, Expr.polarity_inverse h, I.answer_inverse h, map_bind, liftM_map]

omit [LawfulMonad m] in
/-- A comparison is atomic. -/
lemma holds_comparison {op inverse : BinaryOp} (h : op.inverse? = some inverse) (left right : Expr) :
    I.holds (.binary op left right) = I.ask (.binary op left right) := by
  cases op with
  | and | or => cases h
  | _ => rfl

/-- Negating a condition turns its answer. -/
theorem holds_negate (e : Expr) : I.holds e.negate = Bool.not <$> I.holds e := by
  unfold Expr.negate
  split
  · rename_i op left right
    cases hinv : op.inverse? with
    | none => rfl
    | some inverse =>
      have hback := BinaryOp.inverse?_inverse? hinv
      simp only [I.holds_comparison hinv, I.holds_comparison hback, I.ask_inverse hinv]
  · rename_i operand
    rw [holds, not_map_not_map]
  · rfl

omit [LawfulMonad m] in
/-- The short-circuit operators ask their right operand unless the left one decides. -/
lemma holds_logical {op : BinaryOp} (h : op.isLogical = true) (left right : Expr) :
    I.holds (.binary op left right) = joined (op == .or) (I.holds left) (I.holds right) := by
  cases op with
  | and =>
    simp only [holds, joined]
    refine bind_congr fun answer => ?_
    cases answer <;> rfl
  | or =>
    simp only [holds, joined]
    refine bind_congr fun answer => ?_
    cases answer <;> rfl
  | _ => cases h

/-- A logical chain that leans to the left evaluates like the chain before. -/
theorem holds_leftAssociate (e : Expr) : I.holds e.leftAssociate = I.holds e :=
  question_leftAssociate (fun _ left right h => I.holds_logical h left right) e

/-! ### Branches -/

variable (c d : Expr) (onTrue onFalse : StateT (List Expr) m Control)

/-- A negated condition exchanges the two ways. -/
lemma fork_negate : I.fork c.negate onTrue onFalse = I.fork c onFalse onTrue := by
  simp only [fork, holds_negate, bind_map_left]
  refine bind_congr fun answer => ?_
  cases answer <;> rfl

/-- On `&&` the second condition decides where the first one holds. -/
lemma fork_and :
    I.fork (.binary .and c d) onTrue onFalse = I.fork c (I.fork d onTrue onFalse) onFalse := by
  simp only [fork, holds, bind_assoc]
  refine bind_congr fun answer => ?_
  cases answer
  · exact pure_bind _ _
  · rfl

/-- On `||` the second condition decides where the first one fails. -/
lemma fork_or :
    I.fork (.binary .or c d) onTrue onFalse = I.fork c onTrue (I.fork d onTrue onFalse) := by
  simp only [fork, holds, bind_assoc]
  refine bind_congr fun answer => ?_
  cases answer
  · rfl
  · exact pure_bind _ _

/-- What follows a decision follows each of its two ways. -/
lemma fork_bind (next : Control → StateT (List Expr) m Control) :
    I.fork c onTrue onFalse >>= next = I.fork c (onTrue >>= next) (onFalse >>= next) := by
  simp only [fork, bind_assoc]
  refine bind_congr fun answer => ?_
  cases answer <;> rfl

variable {c d}

/-- Two branches, the second of which is made where the first condition fails, are the branch on the
fused condition. -/
theorem branch_fuseElse? {e : Expr} {t t' f' : LabelId}
    (h : ShortCircuit.fuseElse? c t d t' f' = some e) :
    I.branch e t' f' = I.fork c (pure (.arrives t)) (I.branch d t' f') := by
  unfold ShortCircuit.fuseElse? at h
  split at h
  · rename_i hshared
    cases h
    rw [hshared, branch, fork_or, branch]
  · split at h
    · rename_i hshared
      cases h
      rw [hshared, branch, fork_and, fork_negate, branch]
    · cases h

/-- Two branches, the second of which is made where the first condition holds, are the branch on the
fused condition. -/
theorem branch_fuseThen? {e : Expr} {f t' f' : LabelId}
    (h : ShortCircuit.fuseThen? c f d t' f' = some e) :
    I.branch e t' f' = I.fork c (I.branch d t' f') (pure (.arrives f)) := by
  unfold ShortCircuit.fuseThen? at h
  split at h
  · rename_i hshared
    cases h
    rw [hshared, branch, fork_and, branch]
  · split at h
    · rename_i hshared
      cases h
      rw [hshared, branch, fork_or, fork_negate, branch]
    · cases h

/-- The branch on a condition is the branch on the chain that leans to the left. -/
lemma branch_leftAssociate (e : Expr) (target other : LabelId) :
    I.branch e.leftAssociate target other = I.branch e target other := by
  rw [branch, fork, holds_leftAssociate, branch, fork]

/-! ### Blocks -/

omit [LawfulMonad m] in
/-- A branch and the jump after it go to one of two labels. -/
lemma run_branch (test : Expr) (target other : LabelId) :
    I.run [.condGoto test target, .goto other] = I.branch test target other := rfl

/-- Statements in a row are run until control goes elsewhere. -/
lemma run_append (a b : List Stmt) :
    I.run (a ++ b) = I.run a >>= fun control => control.andThen (I.run b) := by
  induction a using run.induct with
  | case1 => simp only [List.nil_append, run, pure_bind, Control.andThen]
  | case2 label rest ih => simpa only [List.cons_append, run] using ih
  | case3 target rest => simp only [List.cons_append, run, pure_bind, Control.andThen]
  | case4 test target rest ih =>
    rw [List.cons_append, run, run, fork_bind, pure_bind, ih]
    rfl
  | case5 s rest h₁ h₂ h₃ ih =>
    rw [List.cons_append, run, run, bind_assoc]
    · refine bind_congr fun control => ?_
      obtain ⟨control, -⟩ := control
      cases control with
      | next => exact ih
      | arrives label => simp only [pure_bind, Control.andThen]
      | leaves => simp only [pure_bind, Control.andThen]
    all_goals assumption

/-- Control arrives only at labels that the statements name, and so it does not matter what would happen
at another one. -/
lemma run_bind_congr {list : List Stmt} {f g : Control → StateT (List Expr) m Control}
    (h : ∀ control : Control, control.Among (Stmt.targetsOfList list) → f control = g control) :
    I.run list >>= f = I.run list >>= g := by
  induction list using run.induct with
  | case1 => simpa only [run, pure_bind] using h .next trivial
  | case2 label rest ih =>
    rw [run]
    exact ih h
  | case3 target rest =>
    simp only [run, pure_bind]
    exact h _ List.mem_cons_self
  | case4 test target rest ih =>
    have hrest := ih fun control hcontrol => h control (hcontrol.append_left _)
    rw [run, fork_bind, fork_bind, pure_bind, pure_bind, hrest, h _ List.mem_cons_self]
  | case5 s rest h₁ h₂ h₃ ih =>
    rw [run, bind_assoc, bind_assoc]
    · refine bind_congr fun control => ?_
      obtain ⟨control, hcontrol⟩ := control
      cases control with
      | next => exact ih fun control hcontrol => h control (hcontrol.append_left _)
      | arrives label =>
        simpa only [Control.andThen, pure_bind] using h _ (List.mem_append_left _ hcontrol)
      | leaves => simpa only [Control.andThen, pure_bind] using h .leaves trivial
    all_goals assumption

/-- Goes on with the statements under a label, if control is there. -/
def onwards (inner : LabelId) (stmts : List Stmt) (control : Control) :
    StateT (List Expr) m Control :=
  if control = .arrives inner then I.run stmts else pure control

omit [LawfulMonad m] in
/-- Control that has gone elsewhere stays there. -/
lemma onwards_of_ne {inner label : LabelId} (h : label ≠ inner) (stmts : List Stmt) :
    I.onwards inner stmts (.arrives label) = pure (.arrives label) :=
  if_neg fun heq => h (Control.arrives.inj heq)

/-- A branch behind some statements can be exchanged for what it leads to, where the statements do not
name the label that control goes on from. -/
lemma run_append_onwards {init old new stmts : List Stmt} {inner : LabelId}
    (hinit : inner ∉ Stmt.targetsOfList init) (h : I.run old >>= I.onwards inner stmts = I.run new) :
    I.run (init ++ old) >>= I.onwards inner stmts = I.run (init ++ new) := by
  rw [run_append, run_append, bind_assoc, ← h]
  refine I.run_bind_congr fun control hcontrol => ?_
  cases control with
  | next => rfl
  | arrives label =>
    have hne : label ≠ inner := fun heq => hinit (heq ▸ hcontrol)
    simp only [Control.andThen, pure_bind, I.onwards_of_ne hne]
  | leaves => exact pure_bind _ _

end Evaluation

/-! ### Fused blocks -/

namespace ShortCircuit

/-- In the list `after` the block `fused` stands for the blocks `head` and `second` of another list. -/
structure Fuses (blocks after : List BasicBlock) (head second fused : BasicBlock) (inner : LabelId) :
    Prop where
  second_mem : second ∈ blocks
  second_label : second.entryLabel? = some inner
  head_label : head.entryLabel? ≠ some inner
  fused_label : fused.entryLabel? = head.entryLabel?
  mem_after : ∀ block, block ∈ after ↔ block = fused ∨
    block ∈ blocks ∧ block.entryLabel? ≠ head.entryLabel? ∧ block.entryLabel? ≠ some inner

/-- The fused branch asks what the two branches ask and goes where they go. -/
lemma run_branch_onwards {m : Type → Type} [Monad m] [LawfulMonad m] (I : Evaluation m) {c d e : Expr}
    {t f t' f' inner l : LabelId} (htf : t ≠ f)
    (h : inner = f ∧ fuseElse? c t d t' f' = some e ∨ inner = t ∧ fuseThen? c f d t' f' = some e) :
    I.run [.condGoto c t, .goto f] >>= I.onwards inner [.label l, .condGoto d t', .goto f'] =
      I.run [.condGoto e.leftAssociate t', .goto f'] := by
  have hsecond : I.onwards inner [.label l, .condGoto d t', .goto f'] (.arrives inner) =
      I.branch d t' f' := by
    rw [Evaluation.onwards, if_pos rfl, Evaluation.run, I.run_branch]
  rw [I.run_branch, I.run_branch, I.branch_leftAssociate, Evaluation.branch, I.fork_bind, pure_bind,
    pure_bind]
  obtain ⟨rfl, hfuse⟩ | ⟨rfl, hfuse⟩ := h
  · rw [I.branch_fuseElse? hfuse, I.onwards_of_ne htf, hsecond]
  · rw [I.branch_fuseThen? hfuse, I.onwards_of_ne htf.symm, hsecond]

/-- A label that a list names once, and the branch at the end of the head with it, is not named before
the branch nor by its other side. -/
lemma named_once {site : Site} {blocks : List BasicBlock} {init : List Stmt} {c : Expr}
    {t f inner : LabelId} (hsite : site.IsAt blocks)
    (hbody : site.head.body = init ++ [.condGoto c t, .goto f]) (hinner : inner = t ∨ inner = f)
    (hcount : site.refcount inner = 1) : inner ∉ Stmt.targetsOfList init ∧ t ≠ f := by
  have hle := (WellFormed.targets_subperm (List.nodup_singleton site.head)
    (List.cons_subset.mpr ⟨hsite.head_mem, List.nil_subset _⟩)).count_le inner
  rw [← hsite.map_eq, ← BlockMap.refcount, ← Site.refcount, hcount, List.flatMap_singleton, hbody,
    Stmt.targetsOfList_append, List.count_append] at hle
  simp only [Stmt.targetsOfList, Stmt.targets, Stmt.branchTargets, List.append_nil,
    List.cons_append, List.nil_append, List.count_cons, List.count_nil] at hle
  refine ⟨fun hmem => ?_, ?_⟩
  · have hpos := List.count_pos_iff.mpr hmem
    rcases hinner with rfl | rfl <;> simp at hle <;> omega
  · rintro rfl
    rcases hinner with rfl | rfl <;> simp at hle

/-- Where the rule for short-circuit conditions fires on a well-formed list, its edit is carried out, and
it leaves one block for two.  Started before, the head may go on to the second block.  Started after,
the fused block asks the same atomic conditions in the same order, with the same effects, and control
arrives at the same label. -/
theorem run_fused {m : Type → Type} [Monad m] [LawfulMonad m] (I : Evaluation m) {bound : Nat}
    {blocks : List BasicBlock} (hwf : WellFormed bound blocks) {pos : Nat} {head : BasicBlock}
    (hhead : blocks[pos]? = some head) {context context' : Context} {edit : Edit}
    (hedit : Rule.shortCircuit.edit? ⟨.ofBlocks blocks, pos, head⟩ context = (some edit, context')) :
    ∃ after resume second fused inner, edit.apply blocks pos = .ok (after, resume) ∧
      WellFormed bound after ∧ Fuses blocks after head second fused inner ∧
      I.run fused.body = I.run head.body >>= I.onwards inner second.body := by
  have hsite : Site.IsAt ⟨.ofBlocks blocks, pos, head⟩ blocks := ⟨rfl, hhead⟩
  have hedit : edit? ⟨.ofBlocks blocks, pos, head⟩ = some edit := congrArg Prod.fst hedit
  obtain ⟨label, -, hshaped⟩ := hwf.shaped head (List.mem_of_getElem? hhead)
  have hlabel := hshaped.entryLabel?
  have hfits := fits hwf hsite hlabel hedit
  obtain ⟨after, resume, happly⟩ := hfits.apply_ok hwf hhead hlabel
  obtain ⟨replaced, removed, happ⟩ := Edit.apply_eq_ok happly
  obtain ⟨init, c, t, f, inner, second, l, d, t', f', e, -, hbody, hside, hcount, hother, hsecond,
    rfl⟩ := edit?_eq_fusedEdit hedit
  obtain ⟨hmem, hsecondLabel⟩ := hsite.other_mem hother
  obtain ⟨hinit, htf⟩ :=
    named_once hsite hbody (hside.symm.imp And.left And.left) hcount
  let fused := Site.headWith ⟨.ofBlocks blocks, pos, head⟩ 2
    [.condGoto e.leftAssociate t', .goto f']
  refine ⟨after, resume, second, fused, inner, happly, happ.wellFormed hwf hfits hhead hlabel,
    ⟨hmem, hsecondLabel, ?_, ?_, fun block => ?_⟩, ?_⟩
  · rw [hlabel]
    exact fun heq => hsite.other_ne hwf hlabel hother (Option.some.inj heq).symm
  · rw [hlabel]
    exact (hfits.head _ rfl).entryLabel?
  · rw [happ.mem_after_iff hwf hfits hhead hlabel List.nodup_nil]
    simp [fusedEdit, fused, hlabel]
  · have hhead : head.body = init ++ [.condGoto c t, .goto f] := hbody
    have hfused : fused.body = init ++ [.condGoto e.leftAssociate t', .goto f'] :=
      Site.body_headWith hbody _
    rw [hfused, hhead, hsecond]
    exact (I.run_append_onwards hinit (run_branch_onwards I htf hside)).symm

/-- Counts the questions that are asked, and affirms every other one. -/
def counting : Evaluation (StateM Nat) where
  answer e := do
    let asked ← get
    set (asked + 1)
    return e.polarity.2 != (asked % 2 == 0)
  perform s := pure (if s.isUnconditional then ⟨.leaves, trivial⟩ else ⟨.next, trivial⟩)
  answer_inverse h left right := by
    simp only [Expr.polarity_inverse h, map_bind, map_pure, Bool.not_bne]

/-- A block that goes on to a second test where its number is not negative. -/
def signTest : BasicBlock :=
  { body := [.label 0, .assign (Variable.temporary "a") (.call "read" []),
      .condGoto (.binary .lt (.var (Variable.temporary "a")) (.int 0)) 3, .goto 1] }

/-- The second test is a chain that leans to the right once it is fused. -/
def signTests : List BasicBlock :=
  [signTest,
    { body := [.label 1, .condGoto (.binary .and (.var (Variable.temporary "b"))
        (.var (Variable.temporary "c"))) 2, .goto 3] },
    { body := [.label 2, .exit] },
    { body := [.label 3, .exit] }]

/-- Names for the four labels. -/
def signTestLabels : Context where
  labels := { names := ["L0", "L1", "L2", "L3"] }
  diagnostics := { unit := "unit" }

/-- The two tests are fused into `a >= 0 && b && c`. -/
theorem signTests_run :
    WellFormed 4 signTests ∧ ∃ edit,
      Rule.shortCircuit.edit? ⟨.ofBlocks signTests, 0, signTest⟩ signTestLabels =
        (some edit, signTestLabels) ∧
      ∃ after resume second fused inner, edit.apply signTests 0 = .ok (after, resume) ∧
        WellFormed 4 after ∧ Fuses signTests after signTest second fused inner ∧
        counting.run fused.body =
          counting.run signTest.body >>= counting.onwards inner second.body := by
  have hwf : WellFormed 4 signTests := by decide
  have hedit : Rule.shortCircuit.edit? ⟨.ofBlocks signTests, 0, signTest⟩ signTestLabels =
      (some _, signTestLabels) := rfl
  exact ⟨hwf, _, hedit, run_fused counting hwf rfl hedit⟩

end ShortCircuit

end Decompiler
