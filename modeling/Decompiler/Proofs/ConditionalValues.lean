import Decompiler.Proofs.ValuedExpressions

/-!
# Conditional values

A branch whose two arms each push a value and meet again becomes one value.  Blocks are run with the
values that were carried in, and leave values for the next block (`Valuation.run`); the arms and the
meeting block are run where control arrives at them (`Valuation.follow`).  The rule puts one block in the
place of all of them (`Ternary.Parts.Resolves`).

If the value is pushed, the new head does exactly what the old one did with the arm that it reached.  If
the meeting block takes the value at once, the value is put into its condition.  Then the condition
evaluates it wherever it takes it; the operands are the same in the same order if it takes it once and
first, and the new head arrives at the same label with the same store whenever calls leave the store as
it is (`Ternary.run_resolved`).
-/

namespace Decompiler

open Bytecode

namespace Valuation

variable {I : Valuation}

/-! ### Blocks -/

section Blocks

variable (I)

/-- Where control is after some statements, and the values that they leave for the next block. -/
abbrev Reached := Control × List I.Value

/-- Runs the statements of a block that was entered with some values; `left` are those that were pushed
so far. -/
def run (entry : List I.Value) : List Stmt → List I.Value → I.Action I.Reached
  | [], left => pure (.next, left)
  | .label _ :: rest, left => run entry rest left
  | .push e :: rest, left => do run entry rest (left ++ [← I.eval (I.carried entry) e])
  | .goto target :: _, left => pure (.arrives target, left)
  | .condGoto test target :: rest, left => do
    if ← I.truth (I.carried entry) test then pure (.arrives target, left) else run entry rest left
  | s :: rest, left => do
    match (← I.perform s entry).val with
    | .next => run entry rest left
    | control => pure (control, left)

/-- Goes on with the rest of the statements, if control is there. -/
def resume (entry : List I.Value) (rest : List Stmt) : I.Reached → I.Action I.Reached
  | (.next, left) => I.run entry rest left
  | reached => pure reached

/-- Goes on with a block, if control has arrived there, with the values that were left for it. -/
def enter (block : BasicBlock) (reached : I.Reached) : I.Action I.Reached :=
  if block.entryLabel?.map Control.arrives = some reached.1 then I.run reached.2 block.body []
  else pure reached

/-- Goes on with one block after the other, where control arrives there. -/
def follow (path : List BasicBlock) (reached : I.Reached) : I.Action I.Reached :=
  path.foldlM (fun reached block => I.enter block reached) reached

variable {I} (entry : List I.Value)

/-- Statements in a row are run until control goes elsewhere. -/
lemma run_append (a b : List Stmt) (left : List I.Value) :
    I.run entry (a ++ b) left = I.run entry a left >>= I.resume entry b := by
  induction a, left using run.induct (I := I) with
  | case1 left => simp only [List.nil_append, run, pure_bind, resume]
  | case2 label rest left ih => simpa only [List.cons_append, run] using ih
  | case3 e rest left ih =>
    simp only [List.cons_append, run, bind_assoc]
    exact bind_congr fun v => ih v
  | case4 target rest left => simp only [List.cons_append, run, pure_bind, resume]
  | case5 test target rest left ih =>
    simp only [List.cons_append, run, bind_assoc]
    refine bind_congr fun answer => ?_
    cases answer
    · exact ih
    · exact (pure_bind _ _).symm
  | case6 s rest left h₁ h₂ h₃ h₄ ih =>
    rw [List.cons_append, run, run, bind_assoc]
    · refine bind_congr fun control => ?_
      obtain ⟨control, -⟩ := control
      cases control with
      | next => exact ih
      | arrives label => exact (pure_bind _ _).symm
      | leaves => exact (pure_bind _ _).symm
    all_goals assumption

/-- Statements that push nothing leave what was pushed before, and control arrives only at labels that
they name. -/
lemma run_reaches {list : List Stmt} (left : List I.Value)
    (hpush : ∀ s ∈ list, s.isPush = false) (r : Progress I.Value I.Store) :
    ((I.run entry list left).run r).1.2 = left ∧
      ((I.run entry list left).run r).1.1.Among (Stmt.targetsOfList list) := by
  induction list, left using run.induct (I := I) generalizing r with
  | case1 left => exact ⟨rfl, trivial⟩
  | case2 label rest left ih => exact ih (fun s hs => hpush s (List.mem_cons_of_mem _ hs)) r
  | case3 e rest left ih => exact absurd (hpush _ List.mem_cons_self) (by simp [Stmt.isPush])
  | case4 target rest left => exact ⟨rfl, List.mem_cons_self⟩
  | case5 test target rest left ih =>
    have hrest := ih (fun s hs => hpush s (List.mem_cons_of_mem _ hs))
    rw [run, StateT.run_bind]
    cases (I.truth (I.carried entry) test).run r with
    | mk answer r' =>
      cases answer with
      | false => exact ⟨(hrest r').1, (hrest r').2.append_left _⟩
      | true => exact ⟨rfl, List.mem_cons_self⟩
  | case6 s rest left h₁ h₂ h₃ h₄ ih =>
    have hrest := ih (fun s hs => hpush s (List.mem_cons_of_mem _ hs))
    rw [run, StateT.run_bind]
    · cases (I.perform s entry).run r with
      | mk control r' =>
        obtain ⟨control, hamong⟩ := control
        cases control with
        | next => exact ⟨(hrest r').1, (hrest r').2.append_left _⟩
        | arrives label => exact ⟨rfl, List.mem_append_left _ hamong⟩
        | leaves => exact ⟨rfl, trivial⟩
    all_goals assumption

/-- Control that has not arrived at a block does not enter it. -/
lemma enter_of_ne {block : BasicBlock} {reached : I.Reached}
    (h : block.entryLabel?.map Control.arrives ≠ some reached.1) :
    I.enter block reached = pure reached :=
  if_neg h

/-- Control that has not arrived at any block of a path stays where it is. -/
lemma follow_of_ne {path : List BasicBlock} {reached : I.Reached}
    (h : ∀ block ∈ path, block.entryLabel?.map Control.arrives ≠ some reached.1) :
    I.follow path reached = pure reached := by
  induction path with
  | nil => rfl
  | cons block rest ih =>
    rw [List.forall_mem_cons] at h
    rw [follow, List.foldlM_cons, enter_of_ne h.1, pure_bind]
    exact ih h.2

/-- What statements do at the end of a block, with the blocks that they lead to, is all that has to be
compared where the statements before them push nothing and do not lead to these blocks. -/
lemma run_append_follow {init old new : List Stmt} {path : List BasicBlock}
    (hpush : ∀ s ∈ init, s.isPush = false)
    (hpath : ∀ block ∈ path, ∀ label, block.entryLabel? = some label →
      label ∉ Stmt.targetsOfList init)
    {alike : I.Reached × Progress I.Value I.Store → I.Reached × Progress I.Value I.Store → Prop}
    (hrefl : ∀ p, alike p p) (r : Progress I.Value I.Store)
    (h : ∀ r₁, (I.run entry init []).run r = ((.next, []), r₁) →
      alike ((I.run entry old [] >>= I.follow path).run r₁) ((I.run entry new []).run r₁)) :
    alike ((I.run entry (init ++ old) [] >>= I.follow path).run r)
      ((I.run entry (init ++ new) []).run r) := by
  obtain ⟨hleft, hamong⟩ := run_reaches entry [] hpush r
  rw [run_append, run_append, bind_assoc, StateT.run_bind, StateT.run_bind]
  revert h hleft hamong
  cases (I.run entry init []).run r with
  | mk reached r₁ =>
    obtain ⟨control, left⟩ := reached
    rintro h rfl hamong
    cases control with
    | next => exact h r₁ rfl
    | arrives label =>
      have hstays : I.follow path (.arrives label, []) = pure (.arrives label, []) := by
        refine follow_of_ne fun block hblock heq => ?_
        obtain ⟨l, hl, hcontrol⟩ := Option.map_eq_some_iff.mp heq
        obtain rfl := Control.arrives.inj hcontrol
        exact hpath block hblock l hl hamong
      change alike ((I.follow path (.arrives label, [])).run r₁) ((.arrives label, []), r₁)
      rw [hstays]
      exact hrefl _
    | leaves =>
      have hstays : I.follow path (.leaves, []) = pure (.leaves, []) := by
        refine follow_of_ne fun block _ heq => ?_
        obtain ⟨l, -, hcontrol⟩ := Option.map_eq_some_iff.mp heq
        cases hcontrol
      change alike ((I.follow path (.leaves, [])).run r₁) ((.leaves, []), r₁)
      rw [hstays]
      exact hrefl _

/-- Control that has arrived at another block does not enter a block. -/
lemma enter_other {block : BasicBlock} {label other : LabelId} {left : List I.Value}
    (hlabel : block.entryLabel? = some label) (hne : other ≠ label) :
    I.enter block (.arrives other, left) = pure (.arrives other, left) := by
  refine enter_of_ne fun heq => hne ?_
  rw [hlabel, Option.map_some, Option.some.injEq] at heq
  exact (Control.arrives.inj heq).symm

/-- Control that has arrived at a block runs it with the values that were left for it. -/
lemma enter_self {block : BasicBlock} {label : LabelId} {left : List I.Value}
    (hlabel : block.entryLabel? = some label) :
    I.enter block (.arrives label, left) = I.run left block.body [] := by
  refine if_pos ?_
  rw [hlabel, Option.map_some]

/-- A path is followed block by block. -/
lemma follow_cons (block : BasicBlock) (path : List BasicBlock) (reached : I.Reached) :
    I.follow (block :: path) reached = I.enter block reached >>= I.follow path := by
  rw [follow, List.foldlM_cons]
  rfl

/-- A branch with two arms leaves the value of the arm that it leads to. -/
lemma run_arms {test x y : Expr} {t f fall l l' : LabelId} {arm arm' : BasicBlock}
    (harm : arm.entryLabel? = some t) (hbody : arm.body = [.label l, .push x, .goto fall])
    (harm' : arm'.entryLabel? = some f) (hbody' : arm'.body = [.label l', .push y, .goto fall])
    (htf : t ≠ f) (hf : fall ≠ f) (path : List BasicBlock) :
    I.run entry [.condGoto test t, .goto f] [] >>= I.follow (arm :: arm' :: path) =
      I.truth (I.carried entry) test >>= fun answer =>
        I.eval (I.carried []) (if answer then x else y) >>= fun v =>
          I.follow path (.arrives fall, [v]) := by
  rw [run, bind_assoc]
  refine bind_congr fun answer => ?_
  cases answer with
  | true =>
    rw [if_pos rfl, if_pos rfl, pure_bind, follow_cons, enter_self harm, hbody]
    simp only [run, List.nil_append, bind_assoc, pure_bind, follow_cons, enter_other harm' hf]
  | false =>
    rw [if_neg Bool.false_ne_true, if_neg Bool.false_ne_true, run, pure_bind, follow_cons,
      enter_other harm htf.symm, pure_bind, follow_cons, enter_self harm', hbody']
    simp only [run, List.nil_append, bind_assoc, pure_bind]

/-- A branch and the jump behind it lead to one of two labels. -/
lemma run_branch (d : Expr) (target other : LabelId) :
    I.run entry [.condGoto d target, .goto other] [] =
      (fun answer => (.arrives (if answer then target else other), [])) <$>
        I.truth (I.carried entry) d := by
  rw [run, map_eq_pure_bind]
  refine bind_congr fun answer => ?_
  cases answer <;> rfl

/-! ### Values for the branch that they lead to -/

/-- A computation goes on alike after computations that do the same at some point of the run. -/
lemma run_bind_congr {α β : Type} {x y : I.Action α} {r : Progress I.Value I.Store}
    (h : x.run r = y.run r) (f : α → I.Action β) : (x >>= f).run r = (y >>= f).run r := by
  rw [StateT.run_bind, StateT.run_bind, h]

/-- The value that is put for the two arms of a branch is the one of the arm that is reached, where that
is zero or one. -/
lemma eval_value (hI : I.Lawful) {test x y value : Expr} (hx : x.Below 0) (hy : y.Below 0)
    (hvalue : Ternary.fold? test x y = some value) {r : Progress I.Value I.Store}
    (hbit : ∃ b, ((I.truth (I.carried entry) test >>= fun answer =>
      I.eval (I.carried []) (if answer then x else y)).run r).1 = I.bit b) :
    (I.eval (I.carried entry) value).run r =
      (I.truth (I.carried entry) test >>= fun answer =>
        I.eval (I.carried []) (if answer then x else y)).run r := by
  have harm : ∀ answer : Bool, I.eval (I.carried entry) (if answer then x else y) =
      I.eval (I.carried []) (if answer then x else y) := by
    intro answer
    have hbelow : (if answer then x else y).Below 0 := by
      cases answer
      · exact hy
      · exact hx
    exact (Similarity.equality I).eval_rel_of_below (fun i hi => absurd hi (Nat.not_lt_zero i)) hbelow
  have hfold : I.eval (I.carried entry) value = (fun v => I.bit (I.truthy v)) <$>
      (I.truth (I.carried entry) test >>= fun answer =>
        I.eval (I.carried []) (if answer then x else y)) := by
    simp only [eval_fold hI _ hvalue, truth, harm, map_eq_pure_bind, bind_assoc, pure_bind]
  rw [hfold, StateT.run_map]
  obtain ⟨b, hb⟩ := hbit
  refine Prod.ext ?_ rfl
  change I.bit (I.truthy _) = _
  rw [hb, hI.truthy_bit]

/-- A condition that is given the value of an expression evaluates the expression wherever it takes the
value. -/
lemma eval_substitute_singleton {d : Expr} (hd : d.Below 1) (value : Expr) :
    I.eval (I.carried entry) (d.substitute [value]) =
      I.eval (fun _ => I.eval (I.carried entry) value) d := by
  rw [eval_substitute]
  refine (Similarity.equality I).eval_rel_of_below (fun i hi => ?_) hd
  obtain rfl : i = 0 := by omega
  rfl

/-- A condition that is entered with one value takes that value. -/
lemma eval_carried_singleton {d : Expr} (hd : d.Below 1) (v : I.Value) :
    I.eval (I.carried [v]) d = I.eval (fun _ => pure v) d := by
  refine (Similarity.equality I).eval_rel_of_below (fun i hi => ?_) hd
  obtain rfl : i = 0 := by omega
  rfl

/-- A branch on a condition that is entered with one value. -/
lemma run_branch_singleton {d : Expr} (hd : d.Below 1) (target other : LabelId) (v : I.Value) :
    I.run [v] [.condGoto d target, .goto other] [] =
      (fun answer => (.arrives (if answer then target else other), [])) <$> I.truthy <$>
        I.eval (fun _ => pure v) d := by
  rw [run_branch, truth, eval_carried_singleton hd]

end Blocks

end Valuation

/-! ### Conditional values of a list -/

/-- A list of simulated blocks with the right depths: the incoming values that a block mentions lie below
its depth, and before a branch stand as many values as the depth of the block that it goes to. -/
structure DepthConsistent (blocks : List BasicBlock) : Prop where
  simulated : ∀ block ∈ blocks, ∀ s ∈ block.body, s.stackOp? = none
  below : ∀ block ∈ blocks, ∀ s ∈ block.body, ∀ e ∈ s.exprs, e.Below block.entryDepth
  leaves : ∀ block ∈ blocks, ∀ before s rest target, block.body = before ++ s :: rest →
    target ∈ s.branchTargets → ∀ next ∈ blocks, next.entryLabel? = some target →
      next.entryDepth = before.countP Stmt.isPush

/-- Depths may be checked branch by branch. -/
lemma DepthConsistent.of_forall {blocks : List BasicBlock}
    (hstmts : ∀ block ∈ blocks, ∀ s ∈ block.body, s.stackOp? = none ∧
      ∀ e ∈ s.exprs, StackMachine.mentions (Expr.isIncomingFrom block.entryDepth) e = false)
    (hleaves : ∀ block ∈ blocks, ∀ i < block.body.length,
      ∀ target ∈ (block.body[i]?.map Stmt.branchTargets).getD [], ∀ next ∈ blocks,
        next.entryLabel? = some target →
          next.entryDepth = (block.body.take i).countP Stmt.isPush) : DepthConsistent blocks where
  simulated block hblock s hs := (hstmts block hblock s hs).1
  below block hblock s hs := (hstmts block hblock s hs).2
  leaves block hblock before s rest target hbody htarget next hnext hlabel := by
    have hat : block.body[before.length]? = some s := by rw [hbody]; simp
    have hbefore : block.body.take before.length = before := by rw [hbody, List.take_left]
    rw [← hbefore]
    refine hleaves block hblock before.length ?_ target ?_ next hnext hlabel
    · exact (List.getElem?_eq_some_iff.mp hat).1
    · rw [hat]
      exact htarget

namespace Ternary

/-- What a conditional value is made of. -/
structure Parts where
  /-- The statements of the head before its branch. -/
  init : List Stmt
  test : Expr
  /-- The labels of the arms, and their values. -/
  t : LabelId
  f : LabelId
  onTrue : Expr
  onFalse : Expr
  /-- Where the arms meet. -/
  fall : LabelId
  /-- The branch of the meeting block, where it does nothing but branch on the value. -/
  meeting : Option (Expr × LabelId × LabelId)
  value : Expr

namespace Parts

variable (p : Parts)

/-- The blocks that the head leads through: an arm and, where it takes the value at once, the meeting
block. -/
def path : List BasicBlock :=
  { body := [.label p.t, .push p.onTrue, .goto p.fall] } ::
  { body := [.label p.f, .push p.onFalse, .goto p.fall] } ::
  p.meeting.toList.map fun (d, target, other) =>
    { entryDepth := 1, body := [.label p.fall, .condGoto d target, .goto other] }

/-- How the new head ends. -/
def ending : List Stmt :=
  match p.meeting with
  | some (d, target, other) => [.condGoto (d.substitute [p.value]) target, .goto other]
  | none => [.push p.value, .goto p.fall]

/-- In the list `after` one block stands for the head and the blocks of the path of another list. -/
structure Resolves (blocks after : List BasicBlock) (head : BasicBlock) : Prop where
  body_eq : head.body = p.init ++ [.condGoto p.test p.t, .goto p.f]
  path_mem : ∀ block ∈ p.path, block ∈ blocks
  mem_after : ∀ block, block ∈ after ↔ block = { head with body := p.init ++ p.ending } ∨
    block ∈ blocks ∧ ∀ old ∈ head :: p.path, block.entryLabel? ≠ old.entryLabel?

/-- The arm that the head leads to has the value zero or one. -/
def LeavesBit (I : Valuation) (entry : List I.Value) (head : BasicBlock)
    (r : Progress I.Value I.Store) : Prop :=
  let reached := (I.run entry head.body []).run r
  (reached.1.1 = .arrives p.t → ∃ b, ((I.eval (I.carried []) p.onTrue).run reached.2).1 = I.bit b) ∧
    (reached.1.1 = .arrives p.f →
      ∃ b, ((I.eval (I.carried []) p.onFalse).run reached.2).1 = I.bit b)

/-- What the rule has found where it asks for an edit. -/
structure Fires (site : Site) : Prop where
  body_eq : site.head.body = p.init ++ [.condGoto p.test p.t, .goto p.f]
  t_ne_f : p.t ≠ p.f
  fall_ne_t : p.fall ≠ p.t
  fall_ne_f : p.fall ≠ p.f
  fold_eq : fold? p.test p.onTrue p.onFalse = some p.value
  count_t : site.refcount p.t = 1
  count_f : site.refcount p.f = 1
  count_fall : p.meeting ≠ none → site.refcount p.fall = 2
  other : ∀ block ∈ p.path, ∃ label, block.entryLabel? = some label ∧ site.other? label = some block

end Parts

/-- Another block that starts with a label is the one under that label. -/
lemma other?_eq_some_label {site : Site} {blocks : List BasicBlock} (hsite : site.IsAt blocks)
    {label l : LabelId} {block : BasicBlock} {depth : Nat} {rest : List Stmt}
    (hother : site.other? label = some block) (hdepth : block.entryDepth = depth)
    (hbody : block.body = .label l :: rest) :
    site.other? label = some { entryDepth := depth, body := .label label :: rest } := by
  have hlabel := (hsite.other_mem hother).2
  rw [BasicBlockOf.entryLabel?_eq, hbody] at hlabel
  obtain rfl : l = label := Option.some.inj hlabel
  rw [hother, ← hdepth, ← hbody]

/-- The parts of an edit that the rule asks for. -/
lemma exists_parts {site : Site} {blocks : List BasicBlock} (hsite : site.IsAt blocks) {edit : Edit}
    (h : edit? site = some edit) :
    ∃ p : Parts, p.Fires site ∧
      edit.head = some { site.head with body := p.init ++ p.ending } ∧ edit.replace = [] ∧
      edit.insert = [] ∧ edit.remove.map some = p.path.map BasicBlockOf.entryLabel? := by
  obtain ⟨init, test, t, f, onTrue, onFalse, fall, value, hinit, hbody, htf, hthen, helse, hft, hff,
    hfold, hedit⟩ := edit?_eq_some h
  obtain ⟨htCount, thenBlock, lt, hthenBlock, hthenDepth, hthenBody⟩ := arm?_eq_some hthen
  obtain ⟨hfCount, elseBlock, lf, helseBlock, helseDepth, helseBody⟩ := arm?_eq_some helse
  have hthenOther := other?_eq_some_label hsite hthenBlock hthenDepth hthenBody
  have helseOther := other?_eq_some_label hsite helseBlock helseDepth helseBody
  have hhead : ∀ stmts, site.headWith 2 stmts = { site.head with body := init ++ stmts } := by
    intro stmts
    have hwith : (site.headWith 2 stmts).body = init ++ stmts := Site.body_headWith hbody stmts
    rw [← hwith]
    rfl
  obtain ⟨next, target, other, hmeet, rfl⟩ | rfl := hedit
  · obtain ⟨hmCount, meetBlock, lm, hmeetBlock, hmeetDepth, hmeetBody⟩ := meeting?_eq_some hmeet
    have hmeetOther := other?_eq_some_label hsite hmeetBlock hmeetDepth hmeetBody
    let p : Parts := ⟨init, test, t, f, onTrue, onFalse, fall, some (next, target, other), value⟩
    refine ⟨p, ⟨hbody, htf, hft, hff, hfold, htCount, hfCount, fun _ => hmCount, ?_⟩,
      congrArg some (hhead _), rfl, rfl, rfl⟩
    simp only [p, Parts.path, Option.toList_some, List.map_cons, List.map_nil, List.forall_mem_cons]
    exact ⟨⟨t, rfl, hthenOther⟩, ⟨f, rfl, helseOther⟩, ⟨fall, rfl, hmeetOther⟩, by simp⟩
  · let p : Parts := ⟨init, test, t, f, onTrue, onFalse, fall, none, value⟩
    refine ⟨p, ⟨hbody, htf, hft, hff, hfold, htCount, hfCount, fun hne => absurd rfl hne, ?_⟩,
      congrArg some (hhead _), rfl, rfl, rfl⟩
    simp only [p, Parts.path, Option.toList_none, List.map_nil, List.forall_mem_cons]
    exact ⟨⟨t, rfl, hthenOther⟩, ⟨f, rfl, helseOther⟩, by simp⟩

namespace Parts

variable {p : Parts} {site : Site} {blocks : List BasicBlock} {bound : Nat} (hp : p.Fires site)
  (hsite : site.IsAt blocks)
include hp hsite

/-- The blocks of the path are blocks of the list. -/
lemma Fires.path_mem : ∀ block ∈ p.path, block ∈ blocks := by
  intro block hblock
  obtain ⟨label, -, hother⟩ := hp.other block hblock
  exact (hsite.other_mem hother).1

omit hsite in
/-- The arms are the blocks under their labels. -/
lemma Fires.other_arms :
    site.other? p.t = some { body := [.label p.t, .push p.onTrue, .goto p.fall] } ∧
      site.other? p.f = some { body := [.label p.f, .push p.onFalse, .goto p.fall] } := by
  obtain ⟨_, hlabel, ht⟩ := hp.other _ List.mem_cons_self
  obtain ⟨_, hlabel', hf⟩ := hp.other _ (List.mem_cons_of_mem _ List.mem_cons_self)
  cases hlabel
  cases hlabel'
  exact ⟨ht, hf⟩

/-- Before its branch the head pushes nothing, since its arms are entered with an empty stack. -/
lemma Fires.isPush_init (hdepths : DepthConsistent blocks) : ∀ s ∈ p.init, s.isPush = false := by
  have hcount := hdepths.leaves site.head hsite.head_mem p.init _ _ p.t hp.body_eq
    (List.mem_singleton_self _) _ (hp.path_mem hsite _ List.mem_cons_self) rfl
  exact fun s hs => by simpa using List.countP_eq_zero.mp hcount.symm s hs

/-- The values of the arms mention nothing that is carried in, and the branch of the meeting block only
the value that is pushed for it. -/
lemma Fires.below (hdepths : DepthConsistent blocks) :
    p.onTrue.Below 0 ∧ p.onFalse.Below 0 ∧
      ∀ d target other, p.meeting = some (d, target, other) → d.Below 1 := by
  have hsecond : ∀ {block : BasicBlock} {first s : Stmt} {rest : List Stmt} {e : Expr},
      block ∈ p.path → block.body = first :: s :: rest → e ∈ s.exprs → e.Below block.entryDepth := by
    intro block first s rest e hblock hbody he
    exact hdepths.below _ (hp.path_mem hsite _ hblock) s (by rw [hbody]; simp) e he
  refine ⟨?_, ?_, fun d target other hmeeting => ?_⟩
  · exact hsecond List.mem_cons_self rfl (List.mem_singleton_self _)
  · exact hsecond (List.mem_cons_of_mem _ List.mem_cons_self) rfl (List.mem_singleton_self _)
  · have hblock : { entryDepth := 1, body := [.label p.fall, .condGoto d target, .goto other] } ∈
        p.path := by
      rw [path, hmeeting]
      simp
    exact hsecond hblock rfl (List.mem_singleton_self _)

/-- Before its branch the head does not lead to a block of the path, as each of them is named no more
often than the head and the arms name it. -/
lemma Fires.label_notMem (hwf : WellFormed bound blocks) : ∀ block ∈ p.path, ∀ label,
    block.entryLabel? = some label → label ∉ Stmt.targetsOfList p.init := by
  have ht := (ShortCircuit.named_once hsite hp.body_eq (.inl rfl) hp.count_t).1
  have hf := (ShortCircuit.named_once hsite hp.body_eq (.inr rfl) hp.count_f).1
  have hfall : p.meeting ≠ none → p.fall ∉ Stmt.targetsOfList p.init := by
    intro hmeeting hmem
    obtain ⟨headLabel, -, hshaped⟩ := hwf.shaped site.head hsite.head_mem
    have hother : [p.t, p.f].filterMap site.other? =
        [{ body := [.label p.t, .push p.onTrue, .goto p.fall] },
          { body := [.label p.f, .push p.onFalse, .goto p.fall] }] := by
      simp only [List.filterMap_cons, hp.other_arms.1, hp.other_arms.2, List.filterMap_nil]
    have harms : [p.t, p.f].Nodup := by simp [hp.t_ne_f]
    have hnodup := hsite.touched_nodup hwf hshaped.entryLabel? harms
    have hle := (WellFormed.targets_subperm hnodup (hsite.touched_subset _)).count_le p.fall
    rw [← hsite.map_eq, ← BlockMap.refcount, ← Site.refcount, hp.count_fall hmeeting, hother] at hle
    have hpos := List.count_pos_iff.mpr hmem
    simp only [List.flatMap_cons, List.flatMap_nil, hp.body_eq, Stmt.targetsOfList_append,
      Stmt.targetsOfList, Stmt.targets, Stmt.branchTargets, List.append_nil, List.nil_append,
      List.count_append, List.count_cons, List.count_nil, beq_self_eq_true, if_true] at hle
    omega
  intro block hblock label hlabel
  rw [path] at hblock
  obtain rfl | hblock := List.mem_cons.mp hblock
  · cases hlabel
    exact ht
  obtain rfl | hblock := List.mem_cons.mp hblock
  · cases hlabel
    exact hf
  obtain ⟨branch, hmeeting, rfl⟩ := List.mem_map.mp hblock
  cases hlabel
  refine hfall fun hnone => ?_
  rw [hnone] at hmeeting
  cases hmeeting

end Parts

open Decompiler.Valuation in
/-- If the head is left to an arm, the value of the arm is zero or one. -/
lemma Parts.LeavesBit.exists_bit {I : Valuation} {p : Parts} {entry : List I.Value}
    {head : BasicBlock} {r r₁ : Progress I.Value I.Store} (h : p.LeavesBit I entry head r)
    (hbody : head.body = p.init ++ [.condGoto p.test p.t, .goto p.f])
    (hinit : (I.run entry p.init []).run r = ((.next, []), r₁)) :
    ∃ b, ((I.truth (I.carried entry) p.test >>= fun answer =>
      I.eval (I.carried []) (if answer then p.onTrue else p.onFalse)).run r₁).1 = I.bit b := by
  have hhead : (I.run entry head.body []).run r =
      (I.run entry [.condGoto p.test p.t, .goto p.f] []).run r₁ := by
    rw [hbody, run_append, StateT.run_bind, hinit]
    rfl
  obtain ⟨hTrue, hFalse⟩ := h
  rw [hhead, run, StateT.run_bind] at hTrue hFalse
  rw [StateT.run_bind]
  revert hTrue hFalse
  cases (I.truth (I.carried entry) p.test).run r₁ with
  | mk answer r₂ =>
    intro hTrue hFalse
    cases answer with
    | true => exact hTrue rfl
    | false => exact hFalse rfl

section Tails

open Decompiler.Valuation

variable {I : Valuation} (hI : I.Lawful) {p : Parts} {site : Site} (hp : p.Fires site)
  (entry : List I.Value) {r : Progress I.Value I.Store} (hTrue : p.onTrue.Below 0)
  (hFalse : p.onFalse.Below 0)
  (hbit : ∃ b, ((I.truth (I.carried entry) p.test >>= fun answer =>
    I.eval (I.carried []) (if answer then p.onTrue else p.onFalse)).run r).1 = I.bit b)
include hI hp hTrue hFalse hbit

/-- The branch of the head and the arms leave the value that is put for them. -/
lemma run_head_follow (path : List BasicBlock) :
    (I.run entry [.condGoto p.test p.t, .goto p.f] [] >>= I.follow
      ({ body := [.label p.t, .push p.onTrue, .goto p.fall] } ::
        { body := [.label p.f, .push p.onFalse, .goto p.fall] } :: path)).run r =
      (I.eval (I.carried entry) p.value >>= fun v => I.follow path (.arrives p.fall, [v])).run r := by
  rw [run_arms entry rfl rfl rfl rfl hp.t_ne_f hp.fall_ne_f, ← bind_assoc]
  exact run_bind_congr (eval_value entry hI hTrue hFalse hp.fold_eq hbit).symm _

/-- Where the value is pushed, the new head pushes what the arm pushes. -/
lemma run_pushed (hmeeting : p.meeting = none) :
    (I.run entry [.condGoto p.test p.t, .goto p.f] [] >>= I.follow p.path).run r =
      (I.run entry p.ending []).run r := by
  rw [Parts.path, Parts.ending, hmeeting]
  exact run_head_follow hI hp entry hTrue hFalse hbit []

variable {d : Expr} {target other : LabelId} (hmeeting : p.meeting = some (d, target, other))
  (hd : d.Below 1)
include hmeeting

/-- The branch of the head, the arms and the meeting block. -/
lemma run_head_meeting :
    (I.run entry [.condGoto p.test p.t, .goto p.f] [] >>= I.follow p.path).run r =
      (I.eval (I.carried entry) p.value >>= fun v =>
        I.run [v] [.condGoto d target, .goto other] []).run r := by
  have hmeet : ∀ v : I.Value, I.follow
      [{ entryDepth := 1, body := [.label p.fall, .condGoto d target, .goto other] }]
        (.arrives p.fall, [v]) = I.run [v] [.condGoto d target, .goto other] [] := by
    intro v
    rw [follow_cons, enter_self rfl]
    exact bind_pure _
  rw [Parts.path, hmeeting]
  refine (run_head_follow hI hp entry hTrue hFalse hbit _).trans ?_
  simp only [Option.toList_some, List.map_cons, List.map_nil, hmeet]

include hd

/-- Where the meeting block takes the value first and once, the new head branches as it does. -/
lemma run_threaded (hfirst : d.takesFirst = true) :
    (I.run entry [.condGoto p.test p.t, .goto p.f] [] >>= I.follow p.path).run r =
      (I.run entry p.ending []).run r := by
  rw [run_head_meeting hI hp entry hTrue hFalse hbit hmeeting, Parts.ending, hmeeting]
  simp only [run_branch_singleton hd]
  rw [run_branch, truth, eval_substitute_singleton entry hd, eval_of_takesFirst _ hfirst, map_bind,
    map_bind]

/-- Where calls leave the store as it is, the new head arrives where the meeting block does. -/
lemma run_threaded_store (hcall : ∀ name args store, (I.call name args store).2 = store) :
    ((I.run entry [.condGoto p.test p.t, .goto p.f] [] >>= I.follow p.path).run r).1 =
        ((I.run entry p.ending []).run r).1 ∧
      ((I.run entry [.condGoto p.test p.t, .goto p.f] [] >>= I.follow p.path).run r).2.store =
        ((I.run entry p.ending []).run r).2.store := by
  let value := I.eval (I.carried entry) p.value
  -- Evaluated again where the condition takes it, the value is the one that was found the first time.
  have hvalue : ∀ r', r'.store = r.store →
      (value.run r').1 = (value.run r).1 ∧ (value.run r').2.store = r.store := by
    intro r' hr'
    have hagain := (Similarity.atStore I hcall r.store).eval_rel (e := p.value)
      (fun i _ => (Similarity.atStore I hcall r.store).pure_rel ((entry[i]?).getD I.undefined))
      r' r hr' rfl
    exact ⟨hagain.1, hagain.2.1⟩
  have htaken : (Similarity.atStore I hcall r.store).rel
      (I.eval (fun _ => value) d) (I.eval (fun _ => pure (value.run r).1) d) := by
    refine (Similarity.atStore I hcall r.store).eval_rel fun _ _ r' r'' hr' hr'' => ?_
    obtain ⟨hsame, hstore⟩ := hvalue r' hr'
    exact ⟨hsame, hstore, hr''⟩
  obtain ⟨hsame, hstore, hstore'⟩ := htaken r (value.run r).2 rfl (hvalue r rfl).2
  rw [run_head_meeting hI hp entry hTrue hFalse hbit hmeeting, Parts.ending, hmeeting]
  simp only [run_branch_singleton hd]
  rw [run_branch, truth, eval_substitute_singleton entry hd]
  refine ⟨?_, hstore'.trans hstore.symm⟩
  exact congrArg (fun v => (Control.arrives (if I.truthy v then target else other), ([] : List I.Value)))
    hsame.symm

end Tails

/-- Where the rule asks for an edit, it is carried out, and leaves one block for the head and the path. -/
lemma exists_resolves {bound : Nat} {blocks : List BasicBlock} (hwf : WellFormed bound blocks) {pos : Nat}
    {head : BasicBlock} (hhead : blocks[pos]? = some head) {edit : Edit}
    (hedit : edit? ⟨.ofBlocks blocks, pos, head⟩ = some edit) :
    ∃ (p : Parts) (after : List BasicBlock) (resume : Nat), p.Fires ⟨.ofBlocks blocks, pos, head⟩ ∧
      edit.apply blocks pos = .ok (after, resume) ∧ WellFormed bound after ∧
      p.Resolves blocks after head := by
  have hsite : Site.IsAt ⟨.ofBlocks blocks, pos, head⟩ blocks := ⟨rfl, hhead⟩
  obtain ⟨label, -, hshaped⟩ := hwf.shaped head (List.mem_of_getElem? hhead)
  have hlabel := hshaped.entryLabel?
  have hfits := fits hwf hsite hlabel hedit
  obtain ⟨after, resume, happly⟩ := hfits.apply_ok hwf hhead hlabel
  obtain ⟨replaced, removed, happ⟩ := Edit.apply_eq_ok happly
  obtain ⟨p, hp, hnew, hreplace, hinsert, hremove⟩ := exists_parts hsite hedit
  refine ⟨p, after, resume, hp, happly, happ.wellFormed hwf hfits hhead hlabel, ?_⟩
  refine ⟨hp.body_eq, hp.path_mem hsite, fun block => ?_⟩
  have hgone : (∀ l ∈ edit.remove, block.entryLabel? ≠ some l) ↔
      ∀ old ∈ p.path, block.entryLabel? ≠ old.entryLabel? := by
    rw [← List.forall_mem_map (l := p.path), ← hremove, List.forall_mem_map]
  rw [happ.mem_after_iff hwf hfits hhead hlabel (by simp [hreplace]), hnew, hreplace, hinsert,
    List.forall_mem_cons, List.forall_mem_cons, hgone, hlabel]
  simp

/-- Where the rule for conditional values fires on a list with the right depths, its edit is carried out,
and one block takes the place of the head, its arms and, if that does nothing but branch on their value,
the meeting block.  Started before, the head may go on to an arm and from there to the meeting block.
Started after, the new head arrives at the same label with the same values, having asked for the same
operands in the same order, if the meeting block takes the value first and once.  If calls leave the store
as it is, only the operands may depend on that. -/
theorem run_resolved (I : Valuation) (hI : I.Lawful) {bound : Nat} {blocks : List BasicBlock}
    (hwf : WellFormed bound blocks) (hdepths : DepthConsistent blocks) {pos : Nat}
    {head : BasicBlock} (hhead : blocks[pos]? = some head) {context context' : Context} {edit : Edit}
    (hedit : Rule.ternary.edit? ⟨.ofBlocks blocks, pos, head⟩ context = (some edit, context')) :
    ∃ after resume p, edit.apply blocks pos = .ok (after, resume) ∧ WellFormed bound after ∧
      Parts.Resolves p blocks after head ∧
      ∀ entry r, p.LeavesBit I entry head r →
        ((∀ d target other, p.meeting = some (d, target, other) → d.takesFirst = true) →
          (I.run entry head.body [] >>= I.follow p.path).run r =
            (I.run entry (p.init ++ p.ending) []).run r) ∧
        ((∀ name args store, (I.call name args store).2 = store) →
          ((I.run entry head.body [] >>= I.follow p.path).run r).1 =
              ((I.run entry (p.init ++ p.ending) []).run r).1 ∧
            ((I.run entry head.body [] >>= I.follow p.path).run r).2.store =
              ((I.run entry (p.init ++ p.ending) []).run r).2.store) := by
  have hsite : Site.IsAt ⟨.ofBlocks blocks, pos, head⟩ blocks := ⟨rfl, hhead⟩
  obtain ⟨p, after, resume, hp, happly, hafter, hresolves⟩ :=
    exists_resolves hwf hhead (congrArg Prod.fst hedit)
  obtain ⟨hTrue, hFalse, hd⟩ := hp.below hsite hdepths
  have hpush := hp.isPush_init hsite hdepths
  have hlabels := hp.label_notMem hsite hwf
  refine ⟨after, resume, p, happly, hafter, hresolves, fun entry r hbit => ?_⟩
  rw [hp.body_eq]
  constructor
  · intro hfirst
    refine Valuation.run_append_follow entry hpush hlabels (fun _ => rfl) r fun r₁ hinit => ?_
    have hbit₁ := hbit.exists_bit hp.body_eq hinit
    cases hmeeting : p.meeting with
    | none => exact run_pushed hI hp entry hTrue hFalse hbit₁ hmeeting
    | some meeting =>
      obtain ⟨d, target, other⟩ := meeting
      exact run_threaded hI hp entry hTrue hFalse hbit₁ hmeeting (hd _ _ _ hmeeting)
        (hfirst _ _ _ hmeeting)
  · intro hcall
    let alike := fun a b : I.Reached × Progress I.Value I.Store =>
      a.1 = b.1 ∧ a.2.store = b.2.store
    have hrefl : ∀ a, alike a a := fun _ => ⟨rfl, rfl⟩
    refine Valuation.run_append_follow entry hpush hlabels hrefl r fun r₁ hinit => ?_
    have hbit₁ := hbit.exists_bit hp.body_eq hinit
    cases hmeeting : p.meeting with
    | none =>
      rw [run_pushed hI hp entry hTrue hFalse hbit₁ hmeeting]
      exact hrefl _
    | some meeting =>
      obtain ⟨d, target, other⟩ := meeting
      exact run_threaded_store hI hp entry hTrue hFalse hbit₁ hmeeting (hd _ _ _ hmeeting) hcall

/-- Variables that are true or false.  The store is the names of those that are true, and a call answers
like a variable. -/
def flags : Valuation where
  Value := Bool
  Store := List String
  undefined := false
  bit := id
  truthy := id
  constant c := c.integer? == some 1
  unary _ v := !v
  binary op a b := match op with
    | .eq => a == b
    | .ne => a != b
    | .lt => !a && b
    | .ge => a || !b
    | .gt => a && !b
    | .le => !a || b
    | _ => false
  read v store := store.contains v.name
  call name _ store := (store.contains name, store)
  perform _ _ := pure ⟨.leaves, trivial⟩

/-- Truth values tell truth. -/
lemma flags_lawful : flags.Lawful where
  truthy_bit _ := rfl
  constant_eq_bit c b h := by
    change (c.integer? == some 1) = b
    rw [h]
    cases b <;> rfl
  unary_not _ := rfl
  truthy_inverse op inverse a b h := by
    cases op <;> cases h <;> cases a <;> cases b <;> rfl

/-- A variable of the current instance. -/
def flag (name : String) : Expr :=
  .var ⟨name, .named "self", none⟩

/-- What is recorded when a variable of the current instance is read. -/
def asked (name : String) : Operand Bool :=
  .read ⟨name, .named "self", none⟩

/-- The parts of a branch whose arms push a literal and a variable, and meet in a block with a condition
on the value. -/
def flagParts (d : Expr) : Parts where
  init := [.label 0]
  test := flag "c"
  t := 1
  f := 2
  onTrue := .int 1
  onFalse := flag "x"
  fall := 3
  meeting := some (d, 4, 5)
  value := .binary .or (flag "c") (flag "x")

/-- The head of the branch. -/
def flagHead : BasicBlock :=
  { body := [.label 0, .condGoto (flag "c") 1, .goto 2] }

/-- The branch and the two blocks that it leads to in the end. -/
def flagBlocks (d : Expr) : List BasicBlock :=
  flagHead :: (flagParts d).path ++ [{ body := [.label 4, .exit] }, { body := [.label 5, .exit] }]

/-- Names for the labels. -/
def flagLabels : Context where
  labels := { names := ["L0", "L1", "L2", "L3", "L4", "L5"] }
  diagnostics := { unit := "unit" }

/-- The blocks of a branch as the machine has them, where the meeting block compares the value with a
copy of it. -/
def copiedFlag : List BasicBlock :=
  [{ body := [.label 0, .raw 0 (.pushVar ⟨"c", -1, false⟩), .raw 2 (.branchTrue 1), .goto 2] },
    { body := [.label 1, .raw 3 (.push (.int 1)), .goto 3] },
    { body := [.label 2, .raw 5 (.pushVar ⟨"x", -1, false⟩), .goto 3] },
    { body := [.label 3, .raw 7 (.dup 0), .raw 8 (.binary .eq), .raw 9 (.branchTrue 4), .goto 5] },
    { body := [.label 4, .exit] },
    { body := [.label 5, .exit] }]

/-- The rule asks for the edit that threads the value of the branch. -/
lemma flagBlocks_edit? (d : Expr) :
    Rule.ternary.edit? ⟨.ofBlocks (flagBlocks d), 0, flagHead⟩ flagLabels =
      (some { head := some { flagHead with body := (flagParts d).init ++ (flagParts d).ending }
              remove := [1, 2, 3] }, flagLabels) :=
  rfl

/-- The condition that the operations make of the value and its copy takes the value twice, and so the new
head asks for its operands twice; a condition that takes the value late asks for them late. -/
theorem copiedFlag_asksTwice :
    let copied : Expr := .binary .eq (.incoming 0) (.incoming 0)
    let late : Expr := .binary .eq (flag "y") (.incoming 0)
    let before d := (flags.run [] flagHead.body [] >>= flags.follow (flagParts d).path).run ⟨[], []⟩
    let after d := (flags.run [] ((flagParts d).init ++ (flagParts d).ending) []).run ⟨[], []⟩
    (simulate {} {} copiedFlag = .ok (flagBlocks copied) ∧ flags.Lawful ∧
      ∀ d, (flagParts d).LeavesBit flags [] flagHead ⟨[], []⟩ ∧
        Rule.ternary.edit? ⟨.ofBlocks (flagBlocks d), 0, flagHead⟩ flagLabels =
          (some { head := some { flagHead with body := (flagParts d).init ++ (flagParts d).ending }
                  remove := [1, 2, 3] }, flagLabels)) ∧
    (WellFormed 6 (flagBlocks copied) ∧ DepthConsistent (flagBlocks copied) ∧
      (before copied).2.operands = [asked "c", asked "x"] ∧
      (after copied).2.operands = [asked "c", asked "x", asked "c", asked "x"]) ∧
    (WellFormed 6 (flagBlocks late) ∧ DepthConsistent (flagBlocks late) ∧
      (before late).2.operands = [asked "c", asked "x", asked "y"] ∧
      (after late).2.operands = [asked "y", asked "c", asked "x"]) := by
  have hbit : ∀ d, (flagParts d).LeavesBit flags [] flagHead ⟨[], []⟩ :=
    fun d => ⟨fun _ => ⟨_, rfl⟩, fun _ => ⟨_, rfl⟩⟩
  refine ⟨⟨rfl, flags_lawful, fun d => ⟨hbit d, flagBlocks_edit? d⟩⟩, ⟨by decide, ?_, rfl, rfl⟩,
    ⟨by decide, ?_, rfl, rfl⟩⟩
  · exact .of_forall (by decide) (by decide)
  · exact .of_forall (by decide) (by decide)

/-- A meeting block that negates the value takes it first and once. -/
theorem negatedFlag_run :
    let negated : Expr := .unary .not (.incoming 0)
    WellFormed 6 (flagBlocks negated) ∧ DepthConsistent (flagBlocks negated) ∧ flags.Lawful ∧
      ∃ edit after resume p, Rule.ternary.edit? ⟨.ofBlocks (flagBlocks negated), 0, flagHead⟩
          flagLabels = (some edit, flagLabels) ∧
        edit.apply (flagBlocks negated) 0 = .ok (after, resume) ∧
        Parts.Resolves p (flagBlocks negated) after flagHead ∧
        p.LeavesBit flags [] flagHead ⟨["x"], []⟩ ∧
        (∀ d target other, p.meeting = some (d, target, other) → d.takesFirst = true) ∧
        (flags.run [] flagHead.body [] >>= flags.follow p.path).run ⟨["x"], []⟩ =
          (flags.run [] (p.init ++ p.ending) []).run ⟨["x"], []⟩ ∧
        ((flags.run [] flagHead.body [] >>= flags.follow p.path).run ⟨["x"], []⟩).1 =
          ((flags.run [] (p.init ++ p.ending) []).run ⟨["x"], []⟩).1 := by
  intro negated
  have hwf : WellFormed 6 (flagBlocks negated) := by decide
  have hdepths : DepthConsistent (flagBlocks negated) := .of_forall (by decide) (by decide)
  obtain ⟨after, resume, p, happly, -, hresolves, hrun⟩ :=
    run_resolved flags flags_lawful hwf hdepths rfl (flagBlocks_edit? negated)
  have hbit : p.LeavesBit flags [] flagHead ⟨["x"], []⟩ := ⟨fun _ => ⟨_, rfl⟩, fun _ => ⟨_, rfl⟩⟩
  have hfirst : ∀ d target other, p.meeting = some (d, target, other) → d.takesFirst = true := by
    intro d target other hmeeting
    have hmem := hresolves.path_mem
      { entryDepth := 1, body := [.label p.fall, .condGoto d target, .goto other] }
      (by rw [Parts.path, hmeeting]; simp)
    obtain ⟨-, ⟨rfl, -⟩, -⟩ : p.fall = 3 ∧ (d = negated ∧ target = 4) ∧ other = 5 := by
      simpa [flagBlocks, flagParts, flagHead, Parts.path] using hmem
    rfl
  obtain ⟨hsame, hlabel⟩ := hrun [] ⟨["x"], []⟩ hbit
  exact ⟨hwf, hdepths, flags_lawful, _, after, resume, p, flagBlocks_edit? negated, happly, hresolves,
    hbit, hfirst, hsame hfirst, (hlabel fun _ _ _ => rfl).1⟩

end Ternary

end Decompiler
