import Decompiler.Proofs.CarriedConditions

/-!
# Trees run alike before and after the recovery of their conditions

The recovery of conditions works from the inside out: it first carries the lists in the loops and scopes
of a list, and then arranges the blocks of the list itself.  So each statement is carried to what becomes
of it (`yields_inLoop_carried`), and the whole tree is carried to the spliced one.  What is carried runs
alike under every judge to whom no two constants of a dispatch match the same value
(`judgedAlike_findConditions`).

Where a block goes, and what is kept, does not depend on the judge.
-/

namespace Decompiler

namespace Conditions

open Execution Flatten

variable {V : Type} {bound : Nat} {fits : V → Expr → Bool}

/-- No label has been given back. -/
abbrev Grown (context context' : Context) : Prop :=
  context.labels.names.length ≤ context'.labels.names.length

/-! ### Settled code -/

/-- A statement leads to labels below `bound`, and no two constants of a dispatch in it match the same
value. -/
structure Settled (bound : Nat) (fits : V → Expr → Bool) (s : Stmt) : Prop where
  targets : ∀ id ∈ s.targets, id < bound
  distinct : ∀ cases ∈ s.dispatches, Distinct fits cases

/-- A list leads to labels below `bound`, and no two constants of a dispatch in it match the same
value. -/
structure SettledList (bound : Nat) (fits : V → Expr → Bool) (list : List Stmt) : Prop where
  targets : ∀ id ∈ Stmt.targetsOfList list, id < bound
  distinct : ∀ cases ∈ Stmt.dispatchesOfList list, Distinct fits cases

section Settled

variable {s : Stmt} {rest : List Stmt} {block : Block} {test : Option Expr} {env : Expr}
  {stop : Option LabelId}

lemma SettledList.head (h : SettledList bound fits (s :: rest)) : Settled bound fits s where
  targets id hid := h.targets id (List.mem_append_left _ hid)
  distinct cases hcases := h.distinct cases (List.mem_append_left _ hcases)

lemma SettledList.tail (h : SettledList bound fits (s :: rest)) : SettledList bound fits rest where
  targets id hid := h.targets id (List.mem_append_right _ hid)
  distinct cases hcases := h.distinct cases (List.mem_append_right _ hcases)

lemma Settled.basic {block : BasicBlock} (h : Settled bound fits (.basic block)) :
    SettledList bound fits block.body where
  targets id hid := h.targets id (by rwa [Stmt.targets])
  distinct cases hcases := h.distinct cases (by rwa [Stmt.dispatches])

lemma Settled.loop (h : Settled bound fits (.loop test block)) :
    (∀ id ∈ block.entry, id < bound) ∧ SettledList bound fits block.body := by
  refine ⟨fun id hid => h.targets id ?_, fun id hid => h.targets id ?_, fun cases hcases =>
    h.distinct cases (by rwa [Stmt.dispatches])⟩
  · rw [Stmt.targets]
    exact List.mem_append_left _ (Option.mem_toList.mpr hid)
  · rw [Stmt.targets]
    exact List.mem_append_right _ hid

lemma Settled.scope (h : Settled bound fits (.scope env block stop)) :
    (∀ id ∈ block.entry, id < bound) ∧ SettledList bound fits block.body := by
  have hloop : Settled bound fits (.loop none block) :=
    ⟨fun id hid => h.targets id (by simpa only [Stmt.targets] using hid),
      fun cases hcases => h.distinct cases (by simpa only [Stmt.dispatches] using hcases)⟩
  exact hloop.loop

/-- An elementary statement is carried to itself. -/
lemma Settled.carried (h : Settled bound fits s) (hs : s.isElementary = true) :
    Carried bound fits s s := by
  refine .elementary hs (fun id hid => h.targets id ?_) h.distinct
  cases s with
  | basic | seq | cond | loop | scope | switch | breakOut | continueLoop => cases hs
  | _ => simpa [Stmt.targets] using hid

end Settled

/-! ### Straight-line code -/

/-- Straight-line code holds no blocks. -/
lemma splice_of_straightList {list : List Stmt} (h : Stmt.straightList list = true) :
    splice list = spliceStmts list := by
  induction list with
  | nil => rfl
  | cons s rest ih =>
    rw [Stmt.straightList, Bool.and_eq_true] at h
    have hs : ∀ block, s ≠ .basic block := by
      rintro block rfl
      cases h.1
    rw [splice_cons hs, spliceStmts, ih h.2]

/-- A straight-line list whose statements are carried to themselves is carried to itself. -/
lemma carries_of_straightList {entry : Option LabelId} {list : List Stmt}
    (hstraight : Stmt.straightList list = true) (h : List.Forall₂ (Carried bound fits) list list)
    (hentry : ∀ id ∈ entry, id < bound) : Carries bound fits ⟨entry, list⟩ ⟨entry, list⟩ where
  turns := by
    cases entry with
    | none =>
      have hturns := turns_append h (.nil : Turns bound fits false [] [])
      rw [List.append_nil, List.append_nil, ← splice_of_straightList hstraight] at hturns
      exact ⟨false, hturns⟩
    | some id =>
      refine ⟨true, .final rfl rfl ?_⟩
      simpa [Stmt.branchTargets] using hentry
  meets unit unit' frames frames' hplace hplace' hframes := by
    have hbody : IsPlace unit (list ++ []) frames := by
      rw [List.append_nil]
      exact hplace.of_code
    have hbody' : IsPlace unit' (spliceStmts list ++ []) frames' := by
      rw [List.append_nil, ← splice_of_straightList hstraight]
      exact hplace'.of_append
    exact meets_append h .nil hbody hbody' hframes
  counts _ _ := rfl

mutual

lemma carried_of_isStraight : (s : Stmt) → s.isStraight = true → Settled bound fits s →
    Carried bound fits s s
  | .scope _ body _, h, hs =>
    .scope (carries_of_straightList h (carried_of_straightList body.body h hs.scope.2) hs.scope.1)
  | .basic _, h, _ | .seq _, h, _ | .cond _ _ _, h, _ | .loop _ _, h, _ | .switch _ _, h, _
  | .breakOut, h, _ | .continueLoop, h, _ => by cases h
  | .label _, _, hs | .raw _ _, _, hs | .push _, _, hs | .assign _ _, _, hs | .call _ _, _, hs
  | .discard _, _, hs | .goto _, _, hs | .condGoto _ _, _, hs | .pushEnv _ _, _, hs
  | .popEnv _, _, hs | .dispatch _ _ _, _, hs | .ret _, _, hs | .exit, _, hs => hs.carried rfl

/-- The statements of straight-line code are carried to themselves. -/
lemma carried_of_straightList : (list : List Stmt) → Stmt.straightList list = true →
    SettledList bound fits list → List.Forall₂ (Carried bound fits) list list
  | [], _, _ => .nil
  | s :: rest, h, hs => by
    rw [Stmt.straightList, Bool.and_eq_true] at h
    exact .cons (carried_of_isStraight s h.1 hs.head) (carried_of_straightList rest h.2 hs.tail)

end

/-- The recovery leaves the statements of straight-line code as they are. -/
lemma yields_inItems_of_straightList {list : List Stmt} (h : Stmt.straightList list = true)
    (context : Context) :
    Yields (inItems list) context fun items context' => items = list ∧ context' = context := by
  induction list with
  | nil => exact .pure ⟨rfl, rfl⟩
  | cons s rest ih =>
    rw [Stmt.straightList, Bool.and_eq_true] at h
    have hs : Yields (inItem s) context fun s' context' => s' = s ∧ context' = context := by
      cases s with
      | basic => cases h.1
      | _ => exact .pure ⟨rfl, rfl⟩
    rw [inItems]
    refine hs.bind ?_
    rintro _ _ ⟨rfl, rfl⟩
    refine (ih h.2).bind ?_
    rintro _ _ ⟨rfl, rfl⟩
    exact .pure ⟨rfl, rfl⟩

/-- There is nothing to recover in straight-line code. -/
lemma yields_recoverBlockStep_of_straightList (entry : Option LabelId) {list : List Stmt}
    (h : Stmt.straightList list = true) (context : Context) :
    Yields (recoverBlockStep entry list) context fun block context' =>
      block = ⟨entry, list⟩ ∧ context' = context := by
  have hguard : (list.isEmpty || !list.all isBasic) = true := by
    cases list with
    | nil => rfl
    | cons s rest =>
      rw [Stmt.straightList, Bool.and_eq_true] at h
      cases s with
      | basic => cases h.1
      | _ => rfl
  exact ⟨_, _, @recoverBlock_of_guard ⟨entry, list⟩ hguard context, rfl, rfl⟩

/-! ### Loops and scopes -/

/-- Items that have been carried are blocks. -/
lemma exists_basic_of_carriedItems {blocks items : List Stmt}
    (h : List.Forall₂ (CarriedItem bound fits) blocks items) :
    ∀ s ∈ items, ∃ block, s = .basic block := by
  induction h with
  | nil => exact List.forall_mem_nil _
  | cons hitem _ ih =>
    obtain ⟨block, block', rfl, rfl, -⟩ := hitem
    exact List.forall_mem_cons.mpr ⟨⟨block', rfl⟩, ih⟩

/-- Recovering the conditions of a list of blocks whose statements have been carried. -/
lemma yields_recoverBlockStep_carries {entry : Option LabelId} {blocks items : List Stmt}
    (h : List.Forall₂ (CarriedItem bound fits) blocks items) (hentry : ∀ id ∈ entry, id < bound)
    {context : Context} (hbound : bound ≤ context.labels.names.length) :
    Yields (recoverBlockStep entry items) context fun result context' =>
      Carries bound fits ⟨entry, blocks⟩ result ∧ Grown context context' := by
  by_cases hne : items = []
  · subst hne
    cases h
    refine (yields_recoverBlockStep_of_straightList entry rfl context).mono ?_
    rintro _ _ ⟨rfl, rfl⟩
    exact ⟨carries_of_straightList rfl .nil hentry, Nat.le_refl _⟩
  · refine (yields_recoverBlockStep (exists_basic_of_carriedItems h) hne hbound).mono ?_
    rintro result context' ⟨hresult, hgrown⟩
    exact ⟨carries_of_recovered h hentry hresult, hgrown⟩

mutual

/-- Recovering the conditions of a loop or scope carries it. -/
lemma yields_inLoop_carried : (s : Stmt) → s.isNested = true → Settled bound fits s →
    ∀ context : Context, bound ≤ context.labels.names.length →
      Yields (inLoop s) context fun s' context' => Carried bound fits s s' ∧ Grown context context'
  | .loop test body, h, hs, context, hbound => by
    rw [inLoop]
    refine (yields_inItems_carried body.body h hs.loop.2 context hbound).bind ?_
    rintro items t ⟨hitems, hgrown⟩
    refine (yields_recoverBlockStep_carries hitems hs.loop.1 (hbound.trans hgrown)).bind ?_
    rintro block u ⟨hcarries, hgrown'⟩
    exact .pure ⟨.loop hcarries, hgrown.trans hgrown'⟩
  | .scope env body stop, h, hs, context, hbound => by
    rw [Stmt.isNested, Bool.or_eq_true] at h
    rw [inLoop]
    rcases h with h | h
    · refine (yields_inItems_carried body.body h hs.scope.2 context hbound).bind ?_
      rintro items t ⟨hitems, hgrown⟩
      refine (yields_recoverBlockStep_carries hitems hs.scope.1 (hbound.trans hgrown)).bind ?_
      rintro block u ⟨hcarries, hgrown'⟩
      exact .pure ⟨.scope hcarries, hgrown.trans hgrown'⟩
    · have hlist := carried_of_straightList body.body h hs.scope.2
      refine (yields_inItems_of_straightList h context).bind ?_
      rintro _ t ⟨rfl, rfl⟩
      refine (yields_recoverBlockStep_of_straightList body.entry h t).bind ?_
      rintro _ _ ⟨rfl, rfl⟩
      exact .pure ⟨.scope (carries_of_straightList h hlist hs.scope.1), Nat.le_refl _⟩
  | .basic _, h, _, _, _ | .seq _, h, _, _, _ | .cond _ _ _, h, _, _, _ | .switch _ _, h, _, _, _
  | .breakOut, h, _, _, _ | .continueLoop, h, _, _, _ => by cases h
  | .label _, _, hs, _, _ | .raw _ _, _, hs, _, _ | .push _, _, hs, _, _ | .assign _ _, _, hs, _, _
  | .call _ _, _, hs, _, _ | .discard _, _, hs, _, _ | .goto _, _, hs, _, _
  | .condGoto _ _, _, hs, _, _ | .pushEnv _ _, _, hs, _, _ | .popEnv _, _, hs, _, _
  | .dispatch _ _ _, _, hs, _, _ | .ret _, _, hs, _, _ | .exit, _, hs, _, _ =>
    .pure ⟨hs.carried rfl, Nat.le_refl _⟩

/-- Recovering the conditions in the statements of a block carries them. -/
lemma yields_inBasicBlock_carried : (list : List Stmt) → Stmt.nestedList list = true →
    SettledList bound fits list → ∀ context : Context, bound ≤ context.labels.names.length →
      Yields (inBasicBlock list) context fun list' context' =>
        List.Forall₂ (Carried bound fits) list list' ∧ Grown context context'
  | [], _, _, _, _ => .pure ⟨.nil, Nat.le_refl _⟩
  | s :: rest, h, hs, context, hbound => by
    rw [Stmt.nestedList, Bool.and_eq_true] at h
    rw [inBasicBlock]
    refine (yields_inLoop_carried s h.1 hs.head context hbound).bind ?_
    rintro s' t ⟨hcarried, hgrown⟩
    refine (yields_inBasicBlock_carried rest h.2 hs.tail t (hbound.trans hgrown)).bind ?_
    rintro rest' u ⟨hrest, hgrown'⟩
    exact .pure ⟨.cons hcarried hrest, hgrown.trans hgrown'⟩

/-- Recovering the conditions in the blocks of a list carries their statements. -/
lemma yields_inItems_carried : (list : List Stmt) → Stmt.isBlocks list = true →
    SettledList bound fits list → ∀ context : Context, bound ≤ context.labels.names.length →
      Yields (inItems list) context fun items context' =>
        List.Forall₂ (CarriedItem bound fits) list items ∧ Grown context context'
  | [], _, _, _, _ => .pure ⟨.nil, Nat.le_refl _⟩
  | .basic block :: rest, h, hs, context, hbound => by
    simp only [Stmt.isBlocks, Bool.and_eq_true] at h
    obtain ⟨⟨⟨hlabel, horder⟩, hnested⟩, hrest⟩ := h
    have hitem : Yields (inItem (.basic block)) context fun item context' =>
        CarriedItem bound fits (.basic block) item ∧ Grown context context' := by
      rw [inItem]
      refine (yields_inBasicBlock_carried block.body hnested hs.head.basic context hbound).bind ?_
      rintro body t ⟨hbody, hgrown⟩
      exact .pure ⟨⟨block, _, rfl, rfl, BasicBlockOf.exists_body_of_isSome hlabel, horder, hbody⟩, hgrown⟩
    rw [inItems]
    refine hitem.bind ?_
    rintro item t ⟨hcarried, hgrown⟩
    refine (yields_inItems_carried rest hrest hs.tail t (hbound.trans hgrown)).bind ?_
    rintro later u ⟨hlater, hgrown'⟩
    exact .pure ⟨.cons hcarried hlater, hgrown.trans hgrown'⟩

end

/-- The recovery of conditions carries a tree of loops. -/
theorem yields_findConditions {block : Block} {context : Context}
    (h : LoopTree context.labels.names.length block)
    (hdistinct : ∀ cases ∈ Stmt.dispatchesOfList block.body, Distinct fits cases) :
    ∃ tree context', findConditions block context = (.ok tree, context') ∧
      Carries context.labels.names.length fits block tree := by
  have hstep : Yields (do
      let items ← inItems block.body
      recoverBlockStep block.entry items) context fun tree _ =>
        Carries context.labels.names.length fits block tree := by
    refine (yields_inItems_carried block.body h.shape ⟨h.targets, hdistinct⟩ context
      (Nat.le_refl _)).bind ?_
    rintro items t ⟨hitems, hgrown⟩
    refine (yields_recoverBlockStep_carries hitems h.entry hgrown).mono ?_
    exact fun tree u hu => hu.1
  exact hstep

/-! ### Carried units -/

section Unit

variable {block tree : Block}

/-- A label that is not new is there as often as before. -/
lemma Carries.count_label (h : Carries bound fits block tree) {id : LabelId} (hid : id < bound) :
    (Stmt.labelsOfList (spliced tree)).count id = (Stmt.labelsOfList block.body).count id := by
  have hignores := ignoresBlocks_isLabel id
  rw [← Stmt.countList_isLabel, ← Stmt.countList_isLabel, h.counts _ (balanced_isLabel hid),
    hignores.countList_spliced, countList_splice hignores]

/-- Jumps land alike in a unit and in what it is carried to. -/
theorem Carries.landsAlike (h : Carries bound fits block tree)
    (hnodup : (Stmt.labelsOfList block.body).Nodup) :
    LandsAlike bound fits block.body (spliced tree) := by
  intro target htarget
  have hcount := h.count_label htarget
  by_cases hmem : target ∈ Stmt.labelsOfList block.body
  · have hmeets := h.meets block ⟨none, spliced tree⟩ [] [] .start .start .nil target hmem
    obtain ⟨rest, rest', frames, frames', hplace, hplace', hmirrors⟩ := hmeets
    have hone : (Stmt.labelsOfList (spliced tree)).count target ≤ 1 := by
      rw [hcount]
      exact List.nodup_iff_count_le_one.mp hnodup target
    rw [hplace.find_label hnodup, hplace'.find_label_of_count hone]
    exact .some hmirrors
  · have hmem' : target ∉ Stmt.labelsOfList (spliced tree) := by
      rw [← List.count_eq_zero, hcount, List.count_eq_zero]
      exact hmem
    rw [(findInList_eq_none_iff _ _ _).mpr hmem, (findInList_eq_none_iff _ _ _).mpr hmem']
    exact .none

/-- A unit runs like what it is carried to. -/
theorem Carries.judgedAlike {judge : Judge V} (h : Carries bound judge.fits block tree)
    (hnodup : (Stmt.labelsOfList block.body).Nodup) :
    JudgedAlike judge block ⟨none, spliced tree⟩ := by
  obtain ⟨closed, hturns⟩ := h.turns
  have hlands : LandsAlike bound judge.fits block.body (spliced tree) := h.landsAlike hnodup
  refine (simulation_of_landsAlike hlands).sameTraces ?_
  exact ⟨hturns, Around.nil.weaken⟩

/-- Labels, statements and jumps of a list are in the tree that has taken its place, and none of them is
there twice. -/
structure KeepsStatements (block : Block) (flat : List Stmt) : Prop where
  labels : ∀ id ∈ Stmt.labelsOfList block.body, (Stmt.labelsOfList flat).count id = 1
  statements : ∀ test, Stmt.SeesStatements test →
    Stmt.countList test flat = Stmt.countList test block.body
  /-- A tree that is entered at a label starts with a jump there as soon as it is spliced. -/
  jumps : ∀ target, Stmt.countList (Stmt.leadsTo target) flat =
    Stmt.countList (Stmt.leadsTo target) (spliced block)

/-- A unit is kept in what it is carried to. -/
theorem Carries.keepsStatements (h : Carries bound fits block tree)
    (hnodup : (Stmt.labelsOfList block.body).Nodup)
    (hlabels : ∀ id ∈ Stmt.labelsOfList block.body, id < bound) :
    KeepsStatements block (spliced tree) where
  labels id hid := by
    rw [h.count_label (hlabels id hid)]
    exact List.count_eq_one_of_mem hnodup hid
  statements test htest := by
    have hignores := ignoresBlocks_of_seesStatements htest
    rw [h.counts _ (balanced_of_seesStatements htest), hignores.countList_spliced,
      countList_splice hignores]
  jumps target := h.counts _ (balanced_leadsTo target)

end Unit

/-- The conditions of a tree of loops can be recovered, and the tree can be flattened afterwards.  The
result keeps all labels, statements and jumps, and it runs like the tree under each judge to whom no two
constants of a dispatch match the same value. -/
theorem judgedAlike_findConditions {block : Block} {context : Context}
    (h : LoopTree context.labels.names.length block) :
    ∃ tree context' flat, findConditions block context = (.ok tree, context') ∧
      flatten tree = .ok flat ∧ FlatUnit flat ∧ KeepsStatements block flat.body ∧
      ∀ (V : Type) (judge : Judge V),
        (∀ cases ∈ Stmt.dispatchesOfList block.body, Distinct judge.fits cases) →
          JudgedAlike judge block flat := by
  obtain ⟨tree, context', hrun, hsound⟩ :=
    findConditions_ok (Stmt.soundList_of_isBlocks block.body h.shape) context
  have hcarries : ∀ {V : Type} (fits : V → Expr → Bool),
      (∀ cases ∈ Stmt.dispatchesOfList block.body, Distinct fits cases) →
        Carries context.labels.names.length fits block tree := by
    intro V fits hdistinct
    obtain ⟨tree', context'', hrun', hcarries⟩ := yields_findConditions h hdistinct
    rw [hrun] at hrun'
    cases hrun'
    exact hcarries
  refine ⟨tree, context', ⟨none, spliced tree⟩, hrun, flatten_eq_ok hsound, flatUnit_splice tree, ?_,
    fun V judge hdistinct => (hcarries judge.fits hdistinct).judgedAlike h.nodup⟩
  -- What is kept does not depend on the judge; this one matches nothing.
  have hnothing : ∀ cases ∈ Stmt.dispatchesOfList block.body,
      Distinct (fun (_ : Unit) _ => false) cases :=
    fun cases _ => List.pairwise_of_forall fun _ _ _ hboth => Bool.false_ne_true hboth.1
  exact (hcarries _ hnothing).keepsStatements h.nodup h.labels

/-- Names for nine labels. -/
def nineLabels : Context where
  labels := { names := ["L0", "L1", "L2", "L3", "L4", "L5", "L6", "L7", "L8"] }
  diagnostics := { unit := "unit" }

/-- A test in front of a dispatch, and a loop with a test and a scope in it. -/
def guardedDispatch : Block where
  entry := some 0
  body :=
    [.basic { body := [.label 0, .condGoto (.var (Variable.temporary "c")) 1, .goto 3] },
      .basic { body := [.label 1,
        .dispatch (.var (Variable.temporary "v"))
          [(.const (.int 2), 5), (.const (.int 1), 4), (.const (.int 3), 5)] 3, .goto 3] },
      .basic { body := [.label 4, .call "f" [], .goto 3] },
      .basic { body := [.label 5, .call "g" [], .goto 3] },
      .basic { body := [.label 3, .loop none { entry := some 7, body :=
        [.basic { body := [.label 7, .condGoto (.var (Variable.temporary "d")) 8, .goto 2] },
          .basic { body := [.label 8,
            .scope (.const (.int 4)) { body := [.call "h" []] } none, .goto 7] }] }] },
      .basic { body := [.label 2, .exit] }]

/-- Both tests become conditions and the dispatch becomes a switch, and the tree runs as before when
values are integers. -/
theorem guardedDispatch_judgedAlike :
    LoopTree 9 guardedDispatch ∧
      ∃ tree context' flat, findConditions guardedDispatch nineLabels = (.ok tree, context') ∧
        flatten tree = .ok flat ∧ FlatUnit flat ∧ KeepsStatements guardedDispatch flat.body ∧
        (Stmt.countList (fun s => s matches .cond _ _ _) flat.body = 2 ∧
          Stmt.countList (fun s => s matches .switch _ _) flat.body = 1) ∧
        ∀ judge : Judge Int, judge.fits = (fun v e => e.isLiteral v) →
          JudgedAlike judge guardedDispatch flat := by
  have htree : LoopTree nineLabels.labels.names.length guardedDispatch :=
    ⟨by decide, by decide, by decide, by decide, by decide⟩
  obtain ⟨tree, context', flat, hrun, hflat, hunit, hkeeps, halike⟩ := judgedAlike_findConditions htree
  refine ⟨htree, tree, context', flat, hrun, hflat, hunit, hkeeps, ?_, ?_⟩
  · have hcounts : (findConditions guardedDispatch nineLabels).1.toOption.bind (fun tree =>
        (flatten tree).toOption.map fun flat =>
          (Stmt.countList (fun s => s matches .cond _ _ _) flat.body,
            Stmt.countList (fun s => s matches .switch _ _) flat.body)) = some (2, 1) := by
      decide +kernel
    simpa [hrun, hflat, Except.toOption] using hcounts
  · intro judge hfits
    refine halike Int judge ?_
    have hdispatches : Stmt.dispatchesOfList guardedDispatch.body =
        [[(.const (.int 2), 5), (.const (.int 1), 4), (.const (.int 3), 5)]] := rfl
    rw [hdispatches, hfits]
    simp [Distinct, Expr.isLiteral, Bytecode.Constant.integer?]

end Conditions

end Decompiler
