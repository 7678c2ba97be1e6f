import Decompiler.Proofs.BuiltStatements
import Decompiler.Proofs.ClosedCases

/-!
# Targets of jumps

No pass makes up the target of a jump.  Where a jump of the final tree of a unit leads, some block led
before the recovery of loops, or some block stood (`leads_findLoops`): the recovery makes new jumps only
into the loops and scopes that it builds and out of them, and takes their targets from the branches and
from the label of the header.  The steps of the recovery are followed with what the items in their slots
lead to as an invariant.

After that, plain jumps come from branches and from the entries of blocks, so that their targets are
those of the tree of loops.  All other branches are only moved: what they lead to is a property of
statements that each later pass keeps (`branchesTo`).  Both together are what the final tree leads to
(`leads_treeOf`).
-/

namespace Decompiler

open Bytecode

/-! ### Statements -/

namespace Stmt

variable {P : LabelId → Prop}

/-- What a jump in a statement leads to is one of the targets of the statement. -/
lemma jumpTargets_subset (s : Stmt) : s.jumpTargets ⊆ s.branchTargets := by
  cases s <;> simp [jumpTargets, branchTargets]

mutual

/-- The jumps in a statement lead to its targets. -/
lemma target_mem_of_jumps {jump : PlacedJump} : (s : Stmt) → ∀ round : Option LabelId,
    jump ∈ s.jumps jumpTargets round → jump.target ∈ s.targets
  | .basic block, round => by
    rw [jumps, targets]
    exact target_mem_of_jumpsOfList block.body round
  | .seq block, round => by
    rw [jumps, targets, List.mem_append, List.mem_append, mem_placed]
    exact Or.imp And.right (target_mem_of_jumpsOfList block.body round)
  | .cond _ thenBlock elseBlock, round => by
    simp only [jumps, targets, List.mem_append, mem_placed]
    exact Or.imp (Or.imp And.right (target_mem_of_jumpsOfList thenBlock.body round))
      (Or.imp And.right (target_mem_of_jumpsOfList elseBlock.body round))
  | .loop _ block, _ => by
    rw [jumps, targets, List.mem_append, List.mem_append, mem_placed]
    exact Or.imp And.right (target_mem_of_jumpsOfList block.body none)
  | .scope _ block stop, _ => by
    rw [jumps, targets, List.mem_append, List.mem_append, mem_placed]
    exact Or.imp And.right (target_mem_of_jumpsOfList block.body stop)
  | .switch _ cases, round => by
    rw [jumps, targets]
    exact target_mem_of_jumpsOfCases cases round
  | .label _, _ | .raw _ _, _ | .push _, _ | .assign _ _, _ | .call _ _, _ | .discard _, _
  | .goto _, _ | .condGoto _ _, _ | .pushEnv _ _, _ | .popEnv _, _ | .dispatch _ _ _, _ | .ret _, _
  | .exit, _ | .breakOut, _ | .continueLoop, _ => by
    intro hjump
    exact jumpTargets_subset _ (mem_placed.mp hjump).2

/-- The jumps in a list lead to its targets. -/
lemma target_mem_of_jumpsOfList {jump : PlacedJump} : (list : List Stmt) → ∀ round : Option LabelId,
    jump ∈ jumpsOfList jumpTargets round list → jump.target ∈ targetsOfList list
  | [], _ => by simp [jumpsOfList]
  | s :: rest, round => by
    rw [jumpsOfList, targetsOfList, List.mem_append, List.mem_append]
    exact Or.imp (target_mem_of_jumps s round) (target_mem_of_jumpsOfList rest round)

/-- The jumps in the cases of a switch lead to their targets. -/
lemma target_mem_of_jumpsOfCases {jump : PlacedJump} :
    (cases : List SwitchCase) → ∀ round : Option LabelId,
      jump ∈ jumpsOfCases jumpTargets round cases → jump.target ∈ targetsOfCases cases
  | [], _ => by simp [jumpsOfCases]
  | c :: rest, round => by
    simp only [jumpsOfCases, targetsOfCases, List.mem_append, mem_placed]
    exact Or.imp (Or.imp And.right (target_mem_of_jumpsOfList c.body.body round))
      (target_mem_of_jumpsOfCases rest round)

end

/-- Replacing the end of a block by another one that does not start with a label adds no label in front.
-/
lemma entryLabel?_of_take {block : BasicBlock} {n : Nat} {s : Stmt} {rest : List Stmt}
    {label : LabelId} (hs : s.label? = none)
    (h : BasicBlockOf.entryLabel? { block with body := block.body.take n ++ s :: rest } = some label) :
    block.entryLabel? = some label := by
  rw [BasicBlockOf.entryLabel?_eq] at h ⊢
  cases hbody : block.body with
  | nil => simp [hbody, hs] at h
  | cons first later =>
    cases n with
    | zero => simp [hs] at h
    | succ n => simpa [hbody] using h

end Stmt

/-! ### Loops and scopes -/

namespace Loops

open Conditions (AllSlots upholds_take upholds_basicBlock? upholds_remove upholds_claimAll upholds_drain)

variable {P : LabelId → Prop} {layout : Layout} {inner : Inner}

/-- All items in their slots lead to labels with a property. -/
abbrev SlotsLead (P : LabelId → Prop) : RecoveryState → Prop :=
  AllSlots (Stmt.LeadsFrom P)

lemma upholds_fresh (stem : String) :
    Upholds (SlotsLead P) (Recovery.fresh stem) fun _ => True := by
  intro s label t hs hrun
  cases hrun
  exact ⟨hs, trivial⟩

lemma upholds_reportError (message : String) (item : Stmt) :
    Upholds (SlotsLead P) (Recovery.reportError message item) fun _ => True := by
  intro s label t hs hrun
  cases hrun
  exact ⟨hs, trivial⟩

lemma upholds_setSlot {item : Stmt} (h : item.LeadsFrom P) (i : Nat) :
    Upholds (SlotsLead P) (Recovery.setSlot i item) fun _ => True := by
  intro s label t hs hrun
  cases hrun
  refine ⟨fun j found hfound => ?_, trivial⟩
  rw [Recovery.slot_setIfInBounds] at hfound
  split at hfound
  · cases hfound
    exact h
  · exact hs j found hfound

/-- The end of a scope leads to what comes after it. -/
lemma upholds_scopeParts? (region : Region) (item : Nat) (env : Expr) (skip : LabelId)
    {enter : LabelId} (henter : P enter) :
    Upholds (SlotsLead P) (scopeParts? layout region item env skip enter) fun found =>
      ∀ parts, found = some parts → P parts.enter ∧ P parts.after := by
  unfold scopeParts?
  split
  · split
    · exact .pure (by rintro _ ⟨⟩)
    · refine (upholds_basicBlock? _).bind fun found hfound => ?_
      split
      · rename_i back after hbody
        split
        · refine .pure ?_
          rintro parts ⟨⟩
          obtain ⟨block, rfl, hstmts⟩ := Option.map_eq_some_iff.mp hbody
          have hleads := Stmt.leads_basic.mp (hfound block rfl).leads (.goto after)
          exact ⟨henter, Stmt.leads_goto.mp (hleads (by simp [hstmts]))⟩
        · exact .pure (by rintro _ ⟨⟩)
      · exact .pure (by rintro _ ⟨⟩)
  · exact .pure (by rintro _ ⟨⟩)

/-- A head with its scope leads where the head and the scope lead. -/
lemma upholds_closeScope (item : Nat) {parts : ScopeParts} (hparts : P parts.enter ∧ P parts.after)
    {body : List Stmt} (hbody : ∀ s ∈ body, s.Leads P) :
    Upholds (SlotsLead P) (closeScope item parts body) fun _ => True := by
  refine (upholds_basicBlock? item).bind fun found hfound => ?_
  split
  · rename_i head
    have hhead := hfound head rfl
    refine upholds_setSlot ⟨Stmt.leads_basic.mpr ?_, ?_⟩ item
    · intro s hs
      simp only [List.mem_append, List.mem_cons, List.not_mem_nil, or_false] at hs
      rcases hs with hs | rfl | rfl
      · exact Stmt.leads_basic.mp hhead.leads s (List.mem_of_mem_take hs)
      · exact Stmt.leads_scope hparts.1 hbody
      · exact Stmt.leads_goto.mpr hparts.2
    · rintro block ⟨⟩ label hlabel
      exact hhead.entry head rfl label (Stmt.entryLabel?_of_take rfl hlabel)
  · exact .pure trivial

/-- What a recovery of loops gives leads to labels with a property. -/
def Leading (P : LabelId → Prop) (inner : Inner) : Prop :=
  ∀ region entry excludeEntry, Upholds (SlotsLead P) (inner region entry excludeEntry)
    fun list => ∀ s ∈ list, s.Leads P

/-- What has been placed leads to labels with a property. -/
def Progress.Leads (P : LabelId → Prop) (progress : Progress) : Prop :=
  ∀ p ∈ progress.placed, p.2.Leads P

lemma upholds_recoverScope (hinner : Leading P inner) (region : Region) (item : Nat) :
    Upholds (SlotsLead P) (recoverScope inner layout region item) fun _ => True := by
  refine (upholds_basicBlock? item).bind fun found hfound => ?_
  split
  · exact .pure trivial
  · rename_i env skip enter hstart
    obtain ⟨head, rfl, hstart⟩ := Option.bind_eq_some_iff.mp hstart
    obtain ⟨init, -, hbody⟩ := scopeStart?_eq_some hstart
    have henter := Stmt.leads_goto.mp
      (Stmt.leads_basic.mp (hfound head rfl).leads (.goto enter) (by simp [hbody]))
    refine (upholds_scopeParts? region item env skip henter).bind fun parts hparts => ?_
    cases parts with
    | none => exact (upholds_reportError _ _).bind fun _ _ => .pure trivial
    | some parts =>
      refine (upholds_claimAll _).bind fun region _ => (upholds_remove _).bind fun region _ => ?_
      refine (upholds_take _).bind fun _ _ => (hinner _ _ _).bind fun body hbody => ?_
      exact (upholds_closeScope item (hparts parts rfl) hbody).bind fun _ _ => .pure trivial

/-- A loop with a test leads where its header and its body lead. -/
lemma upholds_testedLoop (item : Nat) {test : Test} (htest : P test.enter ∧ P test.exit)
    {body : List Stmt} (hbody : ∀ s ∈ body, s.Leads P) :
    Upholds (SlotsLead P) (testedLoop item test body) fun s => s.Leads P := by
  refine (upholds_take item).bind fun s hs => ?_
  split
  · rename_i header
    refine .pure (Stmt.leads_basic.mpr fun s hmem => ?_)
    simp only [List.mem_append, List.mem_cons, List.not_mem_nil, or_false] at hmem
    rcases hmem with hmem | rfl | rfl
    · exact Stmt.leads_basic.mp hs.leads s (List.mem_of_mem_take hmem)
    · exact Stmt.leads_loop htest.1 hbody
    · exact Stmt.leads_goto.mpr htest.2
  · exact .throw

lemma upholds_endlessLoop {head : LabelId} (hhead : P head) {body : List Stmt}
    (hbody : ∀ s ∈ body, s.Leads P) :
    Upholds (SlotsLead P) (endlessLoop head body) fun s => s.Leads P := by
  refine (upholds_fresh stem).bind fun label _ => .pure (Stmt.leads_basic.mpr ?_)
  simp only [List.forall_mem_cons, List.not_mem_nil, false_implies, implies_true, and_true]
  exact ⟨Stmt.leads_label label, Stmt.leads_loop hhead hbody⟩

lemma upholds_recoverLoop (hinner : Leading P inner) {progress : Progress}
    (hprogress : progress.Leads P) (item : Nat) :
    Upholds (SlotsLead P) (recoverLoop inner layout progress item) (Progress.Leads P) := by
  have hplace : ∀ loop, loop.Leads P → ∀ region : Region,
      Progress.Leads P ⟨region, progress.placed ++ [(item, loop)]⟩ := by
    intro loop hloop region
    exact List.forall_mem_append.mpr ⟨hprogress, List.forall_mem_singleton.mpr hloop⟩
  refine (upholds_basicBlock? item).bind fun found hfound => ?_
  split
  · rename_i test htest
    obtain ⟨header, rfl, htest⟩ := Option.bind_eq_some_iff.mp htest
    obtain ⟨label, e, target, other, hbody, hsides⟩ := exists_body_of_test? htest
    have hleads := Stmt.leads_basic.mp (hfound header rfl).leads
    have htarget := Stmt.leads_condGoto.mp (hleads (.condGoto e target) (by simp [hbody]))
    have hother := Stmt.leads_goto.mp (hleads (.goto other) (by simp [hbody]))
    have hexits : P test.enter ∧ P test.exit := by
      rcases hsides with rfl | rfl
      · exact ⟨htarget, hother⟩
      · exact ⟨hother, htarget⟩
    refine (upholds_remove _).bind fun content _ => (upholds_remove _).bind fun region _ => ?_
    refine (upholds_claimAll _).bind fun region _ => (hinner _ _ _).bind fun body hbody => ?_
    exact (upholds_testedLoop item hexits hbody).bind fun loop hloop => .pure (hplace loop hloop _)
  · split
    · exact .throw
    · rename_i label hlabel
      obtain ⟨header, rfl, hlabel⟩ := Option.bind_eq_some_iff.mp hlabel
      have hhead := (hfound header rfl).entry header rfl label hlabel
      refine (upholds_claimAll _).bind fun region _ => (hinner _ _ _).bind fun body hbody => ?_
      exact (upholds_endlessLoop hhead hbody).bind fun loop hloop => .pure (hplace loop hloop _)

lemma upholds_recoverAt (hinner : Leading P inner) (withoutLoop : Nat → Bool) {progress : Progress}
    (hprogress : progress.Leads P) (node : Nat) :
    Upholds (SlotsLead P) (recoverAt inner layout withoutLoop progress node) (Progress.Leads P) := by
  unfold recoverAt
  split
  · split
    · refine (upholds_recoverScope hinner _ _).bind fun region _ => ?_
      have hregion : Progress.Leads P { progress with region } := hprogress
      split
      · exact upholds_recoverLoop hinner hregion _
      · exact .pure hprogress
    · exact .pure hprogress
  · exact .pure hprogress

/-- Putting what was placed in list order adds nothing. -/
lemma leads_inListOrder {placed : List (Nat × Stmt)} (h : ∀ p ∈ placed, p.2.Leads P) :
    ∀ s ∈ inListOrder placed, s.Leads P := by
  intro s hs
  obtain ⟨p, hp, rfl⟩ := List.mem_map.mp hs
  exact h p ((perm_stableSort _ _).mem_iff.mp hp)

/-- The recovery of loops and scopes leads where the items lead. -/
lemma leading_recover (fuel : Nat) : Leading P (recover layout fuel) := by
  induction fuel with
  | zero =>
    intro region entry excludeEntry
    refine upholds_drain.bind fun placed hplaced => .pure ?_
    exact leads_inListOrder fun p hp => (hplaced p hp).leads
  | succ fuel ih =>
    intro region entry excludeEntry
    have hwalk : Upholds (SlotsLead P) ((layout.tree.breadthFirst entry).foldlM
        (recoverAt (recover layout fuel) layout fun node => node == entry && excludeEntry) { region })
        (Progress.Leads P) :=
      .foldlM (fun progress node hprogress => upholds_recoverAt ih _ hprogress node)
        (List.forall_mem_nil _)
    refine hwalk.bind fun progress hprogress => upholds_drain.bind fun placed hplaced => .pure ?_
    exact leads_inListOrder
      (List.forall_mem_append.mpr ⟨hprogress, fun p hp => (hplaced p hp).leads⟩)

end Loops

/-- The tree of loops leads where the items of the list lead or start. -/
lemma leads_findLoops {P : LabelId → Prop} {block loops : Block} {context context' : Context}
    (hitems : ∀ s ∈ block.body, s.LeadsFrom P) (hentry : ∀ label, block.entry = some label → P label)
    (h : findLoops block context = (.ok loops, context')) : ∀ jump ∈ loops.jumps, P jump.target := by
  have hstart : Loops.SlotsLead P (.start block.body context) := by
    intro i item hitem
    rw [RecoveryState.slot_start] at hitem
    exact hitems item (List.mem_of_getElem? hitem)
  simp only [findLoops, Recovery.run_eq] at h
  generalize hrun : exec _ (RecoveryState.start block.body context) = outcome at h
  obtain ⟨result, t⟩ := outcome
  cases result with
  | error e => cases h
  | ok body =>
    cases h
    obtain ⟨-, hbody⟩ := Loops.leading_recover _ _ _ _ _ _ _ hstart hrun
    intro jump hjump
    rcases List.mem_append.mp hjump with hjump | hjump
    · rw [Stmt.mem_placed, Option.mem_toList] at hjump
      exact hentry _ hjump.2
    · exact Stmt.leads_list.mpr hbody _ (Stmt.target_mem_of_jumpsOfList body none hjump)

/-! ### Final trees -/

namespace Execution

/-- Every branch is a plain jump or leads to labels with a property. -/
def branchesTo (P : LabelId → Prop) : Property where
  stmt s := ∀ label ∈ s.branchTargets, label ∈ s.gotoTargets ∨ P label
  entry _ := True
  goto _ _ _ hlabel := .inl hlabel

variable {P : LabelId → Prop}

/-- The branches of a statement lead where the statement leads. -/
lemma every_branchesTo {s : Stmt} (h : s.Leads P) : Every (branchesTo P) s :=
  (every_targetsIn s fun _ hlabel => hlabel).mono
    (fun _ ht label hlabel => .inr (h label (ht label hlabel))) (fun _ _ => trivial) s

/-- A statement with blocks does not branch itself. -/
lemma branchesTo_of_isStructured {s : Stmt} (h : s.isStructured = true) : (branchesTo P).stmt s := by
  cases s with
  | cond | loop | scope | switch | seq => exact List.forall_mem_nil _
  | _ => cases h

/-- The recovery of conditions makes no branches but plain jumps. -/
lemma recoverable_branchesTo : Recoverable (fun _ : Unit => Every (branchesTo P)) id :=
  Conditions.recoverable_every (fun _ => trivial) (fun _ => List.forall_mem_nil _)
    (fun _ => List.forall_mem_nil _) (List.forall_mem_nil _) fun _ hs _ => branchesTo_of_isStructured hs

/-- Splicing makes plain jumps of the entries, and leaves the other branches as they are. -/
lemma spliceable_branchesTo :
    Flatten.Spliceable (fun _ : Unit => Every (branchesTo P)) (fun _ => Every (branchesTo P)) id id := by
  refine Flatten.spliceable_every (fun _ _ _ hlabel => .inl hlabel) fun s hs => ?_
  cases s with
  | cond | loop | scope | switch | seq | basic => exact List.forall_mem_nil _
  | _ => exact hs

/-- Cleaning up makes no branches. -/
lemma branchesTo_stays : (branchesTo P).Stays where
  structured _ hs _ := branchesTo_of_isStructured hs
  breakOut := List.forall_mem_nil _
  continueLoop := List.forall_mem_nil _
  newCases _ _ _ _ _ := List.forall_mem_nil _
  inCases _ _ _ _ _ := List.forall_mem_nil _

end Execution

open Execution

namespace Stmt

variable {P : LabelId → Prop}

/-- Where placed jumps lead. -/
lemma forall_mem_placed {round : Option LabelId} {targets : List LabelId} :
    (∀ jump ∈ placed round targets, P jump.target) ↔ ∀ label ∈ targets, P label :=
  List.forall_mem_map

mutual

/-- A statement leads where its plain jumps and its other branches lead. -/
lemma leads_of_gotos : (s : Stmt) → ∀ round : Option LabelId, Every (branchesTo P) s →
    (∀ jump ∈ s.jumps gotoTargets round, P jump.target) → ∀ label ∈ s.targets, P label
  | .basic block, round, h, hjumps => by
    rw [Every] at h
    exact leads_of_gotosOfList block.body round h.2 hjumps
  | .seq block, round, h, hjumps => by
    rw [Every] at h
    rw [jumps, List.forall_mem_append, forall_mem_placed] at hjumps
    exact List.forall_mem_append.mpr ⟨hjumps.1, leads_of_gotosOfList block.body round h.2.2 hjumps.2⟩
  | .cond _ thenBlock elseBlock, round, h, hjumps => by
    rw [Every] at h
    simp only [jumps, List.forall_mem_append, forall_mem_placed] at hjumps
    exact List.forall_mem_append.mpr
      ⟨List.forall_mem_append.mpr
        ⟨hjumps.1.1, leads_of_gotosOfList thenBlock.body round h.2.1.2 hjumps.1.2⟩,
      List.forall_mem_append.mpr
        ⟨hjumps.2.1, leads_of_gotosOfList elseBlock.body round h.2.2.2 hjumps.2.2⟩⟩
  | .loop _ block, _, h, hjumps => by
    rw [Every] at h
    rw [jumps, List.forall_mem_append, forall_mem_placed] at hjumps
    exact List.forall_mem_append.mpr ⟨hjumps.1, leads_of_gotosOfList block.body none h.2.2 hjumps.2⟩
  | .scope _ block stop, _, h, hjumps => by
    rw [Every] at h
    rw [jumps, List.forall_mem_append, forall_mem_placed] at hjumps
    exact List.forall_mem_append.mpr ⟨hjumps.1, leads_of_gotosOfList block.body stop h.2.2 hjumps.2⟩
  | .switch _ cases, round, h, hjumps => by
    rw [Every] at h
    exact leads_of_gotosOfCases cases round h.2 hjumps
  | .label _, _, h, hjumps | .raw _ _, _, h, hjumps | .push _, _, h, hjumps | .assign _ _, _, h, hjumps
  | .call _ _, _, h, hjumps | .discard _, _, h, hjumps | .goto _, _, h, hjumps
  | .condGoto _ _, _, h, hjumps | .pushEnv _ _, _, h, hjumps | .popEnv _, _, h, hjumps
  | .dispatch _ _ _, _, h, hjumps | .ret _, _, h, hjumps | .exit, _, h, hjumps
  | .breakOut, _, h, hjumps | .continueLoop, _, h, hjumps =>
    fun label hlabel => (h.self label hlabel).elim (forall_mem_placed.mp hjumps label) id

/-- A list leads where its plain jumps and its other branches lead. -/
lemma leads_of_gotosOfList : (list : List Stmt) → ∀ round : Option LabelId,
    EveryIn (branchesTo P) list → (∀ jump ∈ jumpsOfList gotoTargets round list, P jump.target) →
      ∀ label ∈ targetsOfList list, P label
  | [], _, _, _ => List.forall_mem_nil _
  | s :: rest, round, h, hjumps => by
    rw [EveryIn] at h
    rw [jumpsOfList, List.forall_mem_append] at hjumps
    exact List.forall_mem_append.mpr
      ⟨leads_of_gotos s round h.1 hjumps.1, leads_of_gotosOfList rest round h.2 hjumps.2⟩

/-- The cases of a switch lead where their plain jumps and their other branches lead. -/
lemma leads_of_gotosOfCases : (cases : List SwitchCase) → ∀ round : Option LabelId,
    EveryCase (branchesTo P) cases → (∀ jump ∈ jumpsOfCases gotoTargets round cases, P jump.target) →
      ∀ label ∈ targetsOfCases cases, P label
  | [], _, _, _ => List.forall_mem_nil _
  | c :: rest, round, h, hjumps => by
    rw [EveryCase] at h
    simp only [jumpsOfCases, List.forall_mem_append, forall_mem_placed] at hjumps
    exact List.forall_mem_append.mpr
      ⟨List.forall_mem_append.mpr
        ⟨hjumps.1.1, leads_of_gotosOfList c.body.body round h.1.2 hjumps.1.2⟩,
      leads_of_gotosOfCases rest round h.2 hjumps.2⟩

end

end Stmt

/-- The branches of a recovered tree that are no plain jumps lead where the items led. -/
lemma Loops.Arranges.branchesTo_findConditions {P : LabelId → Prop} {items : List Stmt}
    {loops tree : Block} {bound : Nat} {ids : Multiset Nat} {context context' : Context}
    (hitems : ∀ s ∈ items, s.Leads P) (h : Loops.Arranges items bound loops.body ids)
    (hrun : findConditions loops context = (.ok tree, context')) :
    ∀ s ∈ tree.body, Every (branchesTo P) s := by
  have hloops := h.forall_mem recoverable_branchesTo
    (fun s hs (_ : Unit) => every_branchesTo (hitems s hs)) ()
  exact recoverable_branchesTo.findConditions (i := ()) hloops hrun

/-- The final tree leads where the items of the list lead or start, and it is entered there: its plain
jumps come from the tree of loops, and its other branches have stayed where they were. -/
theorem leads_treeOf {P : LabelId → Prop} {blocks : List BasicBlock}
    (hsound : SoundBlocks (blocks.map Stmt.basic))
    (hitems : ∀ s ∈ blocks.map Stmt.basic, s.LeadsFrom P)
    (hentry : ∀ label, (blockOfBasicBlocks blocks).entry = some label → P label)
    {context : Context} {tree : Block} (h : (exec (treeOf blocks) context).1 = .ok tree) :
    ∀ label ∈ tree.entry.toList ++ Stmt.targetsOfList tree.body, P label := by
  have hgotos : ∀ jump ∈ tree.gotos, P jump.target := by
    obtain ⟨loops, context', hloops, hgotos⟩ := gotos_treeOf hsound h
    exact fun jump hjump => leads_findLoops hitems hentry hloops jump (hgotos jump hjump).1
  rw [BlockOf.gotos, List.forall_mem_append, Stmt.forall_mem_placed] at hgotos
  obtain ⟨loops, t, built, recovered, u, -, hbuilt, hconditions, hsimplified⟩ := treeOf_eq_ok hsound h
  have hrecovered := hbuilt.branchesTo_findConditions (fun s hs => (hitems s hs).leads) hconditions
  have hspliced : EveryIn (branchesTo P) (Flatten.spliced recovered) :=
    everyIn_iff.mpr (spliceable_branchesTo.spliced (i := ()) (fun _ _ _ hlabel => .inl hlabel) hrecovered)
  have hbranches := branchesTo_stays.simplify hsimplified hspliced
  exact List.forall_mem_append.mpr
    ⟨hgotos.1, Stmt.leads_of_gotosOfList tree.body none hbranches hgotos.2⟩

end Decompiler
