import Decompiler.Proofs.ConditionRecovery
import Decompiler.Proofs.KeptCode
import Decompiler.Proofs.SplicedTrees

/-!
# Code that the recovery of conditions keeps

A condition counts for its branch and the two jumps to its arms, and a switch for its dispatch and the
jumps to its cases.  Tests that respect this (`Balanced`) are passed as often by an arrangement, once it
is spliced, as by the items that it is made of (`Arranges.countList_splice`).  Statements, labels and
jumps are instances: each of them is kept, and none is copied (`balanced_of_seesStatements`,
`balanced_isLabel`, `balanced_leadsTo`).
-/

namespace Decompiler

namespace Stmt

/-- What a statement itself adds to the number of those that pass a test. -/
def mark (test : Stmt → Bool) (s : Stmt) : Nat :=
  if test s then 1 else 0

/-- Whether the statement is a jump to the given label, or a branch that may go there. -/
def leadsTo (target : LabelId) : Stmt → Bool
  | .goto id | .condGoto _ id | .pushEnv _ id | .popEnv id => id == target
  | .dispatch _ cases _ => (cases.map Prod.snd).contains target
  | _ => false

/-- A test for statements that takes a branch for the condition or switch that it becomes, does not look
into bodies, and passes no jump, label or basic block. -/
structure SeesStatements (test : Stmt → Bool) : Prop where
  label : ∀ id, test (.label id) = false
  goto : ∀ target, test (.goto target) = false
  breakOut : test .breakOut = false
  basic : ∀ block, test (.basic block) = false
  cond : ∀ e target a b, test (.cond e a b) = test (.condGoto e target)
  switch : ∀ value cases default list, test (.switch value list) = test (.dispatch value cases default)
  loop : ∀ e a b, test (.loop e a) = test (.loop e b)
  scope : ∀ env a b stop, test (.scope env a stop) = test (.scope env b stop)
  seq : ∀ a, test (.seq a) = false

lemma countCases_eq_sum (test : Stmt → Bool) (cases : List SwitchCase) :
    countCases test cases = (cases.map fun c => countList test c.body.body).sum := by
  induction cases with
  | nil => rfl
  | cons c rest ih => rw [countCases, ih, List.map_cons, List.sum_cons]

end Stmt

namespace Conditions

open Stmt Flatten

/-- A test to which a branch counts as much as what it becomes: a condition or switch, and the jumps to its
arms or cases. -/
structure Balanced (bound : Nat) (test : Stmt → Bool) : Prop where
  cond : ∀ e target a b,
    mark test (.condGoto e target) = mark test (.cond e a b) + mark test (.goto target)
  switch : ∀ value cases default list, mark test (.dispatch value cases default) =
    mark test (.switch value list) + ((groups cases []).map fun g => mark test (.goto g.1)).sum
  loop : ∀ e a b, mark test (.loop e a) = mark test (.loop e b)
  scope : ∀ env a b stop, mark test (.scope env a stop) = mark test (.scope env b stop)
  fresh : ∀ label, bound ≤ label → test (.label label) = false
  breakOut : test .breakOut = false

variable {bound : Nat} {test : Stmt → Bool}

/-- Tests for statements are balanced. -/
lemma balanced_of_seesStatements (h : SeesStatements test) : Balanced bound test where
  cond e target a b := by simp [mark, h.cond e target, h.goto]
  switch value cases default list := by simp [mark, h.switch value cases default, h.goto]
  loop e a b := by rw [mark, mark, h.loop e a b]
  scope env a b stop := by rw [mark, mark, h.scope env a b stop]
  fresh label _ := h.label label
  breakOut := h.breakOut

/-- A label that is not new is balanced. -/
lemma balanced_isLabel {id : LabelId} (h : id < bound) : Balanced bound (isLabel id) where
  cond _ _ _ _ := rfl
  switch _ cases _ _ := by simp [mark, isLabel]
  loop _ _ _ := rfl
  scope _ _ _ _ := rfl
  fresh label hlabel := by simp [isLabel, Nat.ne_of_gt (Nat.lt_of_lt_of_le h hlabel)]
  breakOut := rfl

/-- The groups of one target: one if there is a case for it. -/
lemma sum_groups (cases : List (Expr × LabelId)) (target : LabelId) :
    ((groups cases []).map fun g => if g.1 = target then 1 else 0).sum =
      if target ∈ cases.map Prod.snd then 1 else 0 := by
  have hmap : ((groups cases []).map fun g => if g.1 = target then 1 else 0) =
      ((groups cases []).map Prod.fst).map fun l => if l = target then 1 else 0 := by
    simp [Function.comp_def]
  have hcount : ∀ list : List LabelId,
      (list.map fun l => if l = target then 1 else 0).sum = list.count target := by
    intro list
    induction list with
    | nil => rfl
    | cons l rest ih =>
      rw [List.map_cons, List.sum_cons, ih, List.count_cons, Nat.add_comm]
      simp
  have hnodup : ((groups cases []).map Prod.fst).Nodup := nodup_groups List.nodup_nil
  have hmem : target ∈ (groups cases []).map Prod.fst ↔ target ∈ cases.map Prod.snd := by
    simp [mem_map_groups]
  rw [hmap, hcount, hnodup.count]
  exact if_congr hmem rfl rfl

/-- Jumps to a label are balanced. -/
lemma balanced_leadsTo (target : LabelId) : Balanced bound (leadsTo target) where
  cond e id a b := by simp [mark, leadsTo]
  switch value cases default list := by
    simp only [mark, leadsTo, beq_iff_eq, List.contains_iff_mem, sum_groups cases target]
    simp
  loop _ _ _ := rfl
  scope _ _ _ _ := rfl
  fresh _ _ := rfl
  breakOut := rfl

/-! ### Counting what is spliced -/

lemma countList_entryJump (test : Stmt → Bool) (entry : Option LabelId) :
    countList test (entryJump entry) = (entry.toList.map fun id => mark test (.goto id)).sum := by
  cases entry with
  | none => rfl
  | some id => simp [entryJump, countList, count, mark]

lemma countList_spliced (test : Stmt → Bool) (block : Block) :
    countList test (spliced block) =
      countList test (entryJump block.entry) + countList test (splice block.body) := by
  rw [spliced, countList_append]

/-- A test that does not look into bodies and passes no jump and no basic block. -/
structure IgnoresBlocks (test : Stmt → Bool) : Prop where
  goto : ∀ target, test (.goto target) = false
  basic : ∀ block, test (.basic block) = false
  seq : ∀ block, test (.seq block) = false
  cond : ∀ e a b a' b', test (.cond e a b) = test (.cond e a' b')
  loop : ∀ e a b, test (.loop e a) = test (.loop e b)
  scope : ∀ env a b stop, test (.scope env a stop) = test (.scope env b stop)
  switch : ∀ value list list', test (.switch value list) = test (.switch value list')

lemma ignoresBlocks_of_seesStatements (h : SeesStatements test) : IgnoresBlocks test where
  goto := h.goto
  basic := h.basic
  seq := h.seq
  cond e a b a' b' := (h.cond e 0 a b).trans (h.cond e 0 a' b').symm
  loop := h.loop
  scope := h.scope
  switch value list list' := (h.switch value [] 0 list).trans (h.switch value [] 0 list').symm

lemma ignoresBlocks_isLabel (id : LabelId) : IgnoresBlocks (isLabel id) := by
  constructor <;> intros <;> rfl

/-- The jump to an entry does not count. -/
lemma IgnoresBlocks.countList_spliced (h : IgnoresBlocks test) (block : Block) :
    countList test (spliced block) = countList test (splice block.body) := by
  have hentry : countList test (entryJump block.entry) = 0 := by
    cases hid : block.entry <;> simp [entryJump, countList, count, h.goto]
  rw [Conditions.countList_spliced, hentry, Nat.zero_add]

mutual

lemma count_spliceStmt (h : IgnoresBlocks test) : (s : Stmt) → (spliceStmt s).count test = s.count test
  | .cond e a b => by
    have ha := (h.countList_spliced a).trans (countList_splice h a.body)
    have hb := (h.countList_spliced b).trans (countList_splice h b.body)
    rw [spliceStmt, count, count, h.cond e _ _ a b]
    exact congrArg₂ _ (congrArg _ ha) hb
  | .loop e block => by
    have hblock := (h.countList_spliced block).trans (countList_splice h block.body)
    rw [spliceStmt, count, count, h.loop e _ block]
    exact congrArg _ hblock
  | .scope env block stop => by
    have hblock := (h.countList_spliced block).trans (countList_splice h block.body)
    rw [spliceStmt, count, count, h.scope env _ block]
    exact congrArg _ hblock
  | .seq block => by
    have hblock := (h.countList_spliced block).trans (countList_splice h block.body)
    rw [spliceStmt, count, count, h.seq, h.seq]
    exact congrArg _ hblock
  | .basic block => by
    rw [spliceStmt, count, count, h.seq, h.basic, countList_spliceStmts h block.body]
  | .switch value list => by
    rw [spliceStmt, count, count, h.switch value _ list, countCases_spliceCases h list]
  | .label _ | .raw _ _ | .push _ | .assign _ _ | .call _ _ | .discard _ | .goto _ | .condGoto _ _
  | .pushEnv _ _ | .popEnv _ | .dispatch _ _ _ | .ret _ | .exit | .breakOut | .continueLoop => by
    simp [spliceStmt]

lemma countList_spliceStmts (h : IgnoresBlocks test) : (list : List Stmt) →
    countList test (spliceStmts list) = countList test list
  | [] => rfl
  | s :: rest => by
    rw [spliceStmts, countList, countList, count_spliceStmt h s, countList_spliceStmts h rest]

/-- Splicing keeps the number of statements that pass a test which ignores blocks. -/
lemma countList_splice (h : IgnoresBlocks test) : (list : List Stmt) →
    countList test (splice list) = countList test list
  | [] => rfl
  | s :: rest => by
    have ih := countList_splice h rest
    have hs := count_spliceStmt h s
    cases s with
    | basic block =>
      have hbody : countList test (spliceStmts block.body) = countList test block.body := by
        simpa [spliceStmt, count, h.seq, h.basic] using hs
      simp [splice, countList_append, countList, count, h.basic, hbody, ih]
    | _ => rw [splice_cons (by simp), countList, countList, hs, ih]

lemma countCases_spliceCases (h : IgnoresBlocks test) : (list : List SwitchCase) →
    countCases test (spliceCases list) = countCases test list
  | [] => rfl
  | c :: rest => by
    have hc := (h.countList_spliced c.body).trans (countList_splice h c.body.body)
    rw [spliceCases, countCases, countCases, countCases_spliceCases h rest]
    exact congrArg₂ _ hc rfl

end

variable {items : List Stmt} {i : Nat}

/-- The sum over the cases of a switch does not depend on how they have been sorted. -/
lemma sum_sortCases (f : Block → Nat) (cases : List SwitchCase) :
    ((sortCases cases).map fun c => f c.body).sum = (cases.map fun c => f c.body).sum := by
  obtain ⟨g, hg, hperm⟩ := sortCases_perm cases
  have hmap : ((cases.map g).map fun c => f c.body) = cases.map fun c => f c.body := by
    rw [List.map_map]
    exact List.map_congr_left fun c _ => congrArg f (hg c).body
  rw [(hperm.map _).sum_nat, hmap]

/-- The jumps to the cases of the groups, and the code of these cases. -/
lemma sum_ofGroup (test : Stmt → Bool) {list : List (LabelId × List Expr)} {own : List SwitchCase}
    (h : List.Forall₂ OfGroup list own) :
    (own.map fun c => countList test (spliced c.body)).sum =
      (list.map fun g => mark test (.goto g.1)).sum +
        (own.map fun c => countList test (splice c.body.body)).sum := by
  induction h with
  | nil => rfl
  | @cons g c _ _ hgroup _ ih =>
    have hfirst : countList test (spliced c.body) =
        mark test (.goto g.1) + countList test (splice c.body.body) := by
      simp [countList_spliced, countList_entryJump, hgroup.entry]
    simp only [List.map_cons, List.sum_cons, ih, hfirst]
    omega

/-- A block that has taken the place of an item counts for the item and for its arms or cases. -/
lemma Reshaped.countList_splice (htest : Balanced bound test) {block : BasicBlock}
    {bodies : List (List Stmt)} (h : Reshaped items i block bodies) :
    countList test (spliceStmts block.body) =
      Loops.share items (fun s => countList test (splice [s])) i +
        (bodies.map fun body => countList test (splice body)).sum := by
  have hshare : ∀ {block : BasicBlock}, items[i]? = some (.basic block) →
      Loops.share items (fun s => countList test (splice [s])) i =
        countList test (spliceStmts block.body) := by
    intro block hitem
    simp [Loops.share, hitem, splice]
  cases h with
  | same hitem => simp [hshare hitem]
  | @cond head init thenBody elseBody e target other hitem hbody hinit =>
    have hcond := htest.cond e target ⟨none, entryJump (some target) ++ splice thenBody⟩
      ⟨none, entryJump (some other) ++ splice elseBody⟩
    have hitem' : countList test (spliceStmts head.body) = countList test (spliceStmts init) +
        (mark test (.condGoto e target) + mark test (.goto other)) := by
      rw [hbody, spliceStmts_append, countList_append]
      rfl
    have hnew : countList test [.cond e ⟨none, entryJump (some target) ++ splice thenBody⟩
          ⟨none, entryJump (some other) ++ splice elseBody⟩] =
        mark test (.cond e ⟨none, entryJump (some target) ++ splice thenBody⟩
            ⟨none, entryJump (some other) ++ splice elseBody⟩) +
          (mark test (.goto target) + countList test (splice thenBody)) +
          (mark test (.goto other) + countList test (splice elseBody)) := by
      simp only [countList, count, countList_append, Nat.add_zero]
      rfl
    rw [hshare hitem, hitem', hcond]
    simp only [spliceStmts_append, spliceStmts, spliceStmt, countList_append, hnew, List.map_cons,
      List.map_nil, List.sum_cons, List.sum_nil]
    omega
  | @switch head init value cases default fall own last hitem hbody hinit hown =>
    have hitem' : countList test (spliceStmts head.body) = countList test (spliceStmts init) +
        (mark test (.dispatch value cases default) + mark test (.goto fall)) := by
      rw [hbody, spliceStmts_append, countList_append]
      rfl
    have hlast : countCases test (spliceCases (defaultCase fall last)) +
        countList test (spliceStmts (fallJump fall last)) = mark test (.goto fall) +
          (last.toList.map fun body => countList test (splice body)).sum := by
      cases last with
      | none => simp [defaultCase, fallJump, spliceCases, spliceStmts, spliceStmt, countCases,
          countList, count, mark]
      | some body => simp [defaultCase, fallJump, spliceCases, spliceStmts, countCases,
          countList, countList_append, countList_entryJump]
    have hcases : countCases test (spliceCases (sortCases own)) =
        ((groups cases []).map fun g => mark test (.goto g.1)).sum +
          (own.map fun c => countList test (splice c.body.body)).sum := by
      rw [← sum_ofGroup test hown, ← sum_sortCases (fun b => countList test (spliced b)) own,
        countCases_eq_sum, spliceCases_eq_map, List.map_map]
      rfl
    have happend : ∀ a b : List SwitchCase, countCases test (spliceCases (a ++ b)) =
        countCases test (spliceCases a) + countCases test (spliceCases b) := by
      intro a b
      simp only [countCases_eq_sum, spliceCases_eq_map, List.map_append, List.sum_append]
    have hswitch := htest.switch value cases default
      (spliceCases (sortCases own ++ defaultCase fall last))
    have hnew : (Stmt.switch value (spliceCases (sortCases own ++ defaultCase fall last))).count test =
        mark test (.switch value (spliceCases (sortCases own ++ defaultCase fall last))) +
          countCases test (spliceCases (sortCases own ++ defaultCase fall last)) := by
      rw [count, mark]
    have hbodies : ((own.map fun c => c.body.body).map fun body => countList test (splice body)) =
        own.map fun c => countList test (splice c.body.body) := by
      rw [List.map_map]
      rfl
    rw [hshare hitem, hitem', hswitch]
    simp only [spliceStmts_append, spliceStmts, spliceStmt, countList_append, countList, hnew,
      happend, hcases, List.map_append, List.sum_append, hbodies]
    omega

/-- The shares of what has been arranged in several lists. -/
lemma sum_parts {f : Nat → Nat} {g : List Stmt → Nat} {parts : List (List Stmt × Multiset Nat)}
    (h : ∀ part ∈ parts, g part.1 = (part.2.map f).sum) :
    (((parts.map Prod.snd).sum).map f).sum = ((parts.map Prod.fst).map g).sum := by
  induction parts with
  | nil => rfl
  | cons part later ih =>
    have hlater := ih fun p hp => h p (List.mem_cons_of_mem _ hp)
    simp only [List.map_cons, List.sum_cons, Multiset.map_add, Multiset.sum_add, hlater,
      h part List.mem_cons_self]

/-- An arrangement of items counts for them. -/
theorem Arranges.countList_splice (htest : Balanced bound test) {list : List Stmt}
    {ids : Multiset Nat} (h : Arranges items bound list ids) :
    countList test (splice list) =
      (ids.map (Loops.share items fun s => countList test (splice [s]))).sum := by
  induction h with
  | nil => rfl
  | @block i block parts rest ids hblock _ _ ihParts ih =>
    have hsum := sum_parts (g := fun body => countList test (splice body)) ihParts
    rw [splice, countList_append, hblock.countList_splice htest, ih, Multiset.map_cons,
      Multiset.sum_cons, Multiset.map_add, Multiset.sum_add, hsum]
    omega
  | caseEnd hfresh _ ih =>
    have hlabel := htest.fresh _ hfresh
    rw [splice, countList_append, ih]
    simp [spliceStmts, spliceStmt, countList, count, hlabel, htest.breakOut]

/-- The recovery of the conditions of a list keeps what the list counts for. -/
theorem Recovered.countList_spliced (htest : Balanced bound test) {block result : Block}
    (h : Recovered bound block result) :
    countList test (spliced result) = countList test (spliced block) := by
  have hitems : ∀ list : List Stmt, (list.map fun s => countList test (splice [s])).sum =
      countList test (splice list) := by
    intro list
    induction list with
    | nil => rfl
    | cons s rest ih =>
      rw [List.map_cons, List.sum_cons, ih, ← countList_append, ← splice_append, List.singleton_append]
  rw [Conditions.countList_spliced, Conditions.countList_spliced, h.entry,
    h.arranges.countList_splice htest, Loops.sum_share, hitems]

end Conditions

end Decompiler
