import Decompiler.Flow.Conditions
import Decompiler.Proofs.ConditionArrangements
import Decompiler.Proofs.RecoverySteps

/-!
# Recovering conditions without a fault

The recovery of conditions takes each item of its region out of its slot once, and what it claims for an
arm or a case it hands on as a whole.  So it never finds a slot empty, and what it makes of a region is an
arrangement of the items of the region (`yields_recover`).  From a sound list it gives a sound list
(`findConditions_ok`).
-/

namespace Decompiler

namespace Conditions

/-! ### Claims -/

/-- The block in a slot is the item that it was. -/
abbrev Original (items : List Stmt) (i : Nat) (block : BasicBlock) : Prop :=
  items[i]? = some (.basic block)

/-- What is left of a region `outer` on the way from `s₀` to `s`: its slots hold the items that they
were, and no slot outside of `outer` has changed. -/
structure Left (items : List Stmt) (bound : Nat) (outer : Region) (s₀ : RecoveryState)
    (region : Region) (s : RecoveryState) : Prop where
  within : Within region outer
  holds : Holds (Original items) region s
  keeps : Keeps outer s₀ s
  minted : bound ≤ s.minted

namespace Left

variable {items : List Stmt} {bound : Nat} {outer region rest content : Region}
  {s₀ s t : RecoveryState}

/-- Nothing is claimed yet. -/
lemma start (h : Holds (Original items) region s) (hbound : bound ≤ s.minted) :
    Left items bound region s region s :=
  ⟨fun _ hi => hi, h, .refl, hbound⟩

/-- A part of the region is claimed, and only its slots change. -/
lemma claim (h : Left items bound outer s₀ region s) (hcontent : Within content region)
    (hrest : ∀ i, rest.mem i = (region.mem i && !content.mem i)) (hkeeps : Keeps content s t) :
    Left items bound outer s₀ rest t where
  within := by
    intro i hi
    rw [hrest, Bool.and_eq_true] at hi
    exact h.within i hi.1
  holds := by
    intro i hi
    rw [hrest, Bool.and_eq_true, Bool.not_eq_true'] at hi
    rw [hkeeps.slots i hi.2]
    exact h.holds i hi.1
  keeps := h.keeps.trans (hkeeps.mono fun i hi => h.within i (hcontent i hi))
  minted := Nat.le_trans h.minted hkeeps.minted

/-- One item is claimed, and only its slot changes. -/
lemma take (h : Left items bound outer s₀ region s) {i : Nat} (hi : region.mem i = true)
    (hkeeps : Keeps (.only i) s t) : Left items bound outer s₀ (region.erase i) t :=
  h.claim (within_only hi) (by simp) hkeeps

/-- Names and messages do not matter. -/
lemma congr (h : Left items bound outer s₀ region s) (hkeeps : Keeps .empty s t) :
    Left items bound outer s₀ region t :=
  h.claim within_empty (by simp) hkeeps

end Left

/-- On the way, some items of a region have been arranged in some lists, and the others are left. -/
def Claims (items : List Stmt) (bound : Nat) (outer : Region) (s₀ : RecoveryState) (region : Region)
    (bodies : List (List Stmt)) (rest : Region) (s : RecoveryState) : Prop :=
  ∃ parts : List (List Stmt × Multiset Nat), parts.map Prod.fst = bodies ∧
    (∀ part ∈ parts, Arranges items bound part.1 part.2) ∧
    Region.members region = (parts.map Prod.snd).sum + Region.members rest ∧
    Left items bound outer s₀ rest s

namespace Claims

variable {items : List Stmt} {bound : Nat} {outer region rest rest' : Region}
  {bodies bodies' : List (List Stmt)} {s₀ s t : RecoveryState}

lemma left (h : Claims items bound outer s₀ region bodies rest s) :
    Left items bound outer s₀ rest s :=
  h.choose_spec.2.2.2

/-- Nothing is claimed yet. -/
lemma nil (h : Left items bound outer s₀ region s) : Claims items bound outer s₀ region [] region s :=
  ⟨[], rfl, by simp, by simp, h⟩

/-- Nothing is claimed for an empty list. -/
lemma empty (h : Left items bound outer s₀ region s) :
    Claims items bound outer s₀ region [[]] region s :=
  ⟨[([], 0)], rfl, by simp [Arranges.nil], by simp, h⟩

/-- One claim after the other. -/
lemma append (h : Claims items bound outer s₀ region bodies rest s)
    (h' : Claims items bound outer s₀ rest bodies' rest' t) :
    Claims items bound outer s₀ region (bodies ++ bodies') rest' t := by
  obtain ⟨parts, rfl, hparts, hmembers, -⟩ := h
  obtain ⟨parts', rfl, hparts', hmembers', hleft⟩ := h'
  refine ⟨parts ++ parts', List.map_append, ?_, ?_, hleft⟩
  · intro part hpart
    rcases List.mem_append.mp hpart with hpart | hpart
    · exact hparts part hpart
    · exact hparts' part hpart
  · rw [hmembers, hmembers', List.map_append, List.sum_append, add_assoc]

/-- What is claimed for one list. -/
lemma singleton_iff {list : List Stmt} : Claims items bound outer s₀ region [list] rest s ↔
    ∃ ids, Arranges items bound list ids ∧ Region.members region = ids + Region.members rest ∧
      Left items bound outer s₀ rest s := by
  constructor
  · rintro ⟨parts, hparts, harranges, hmembers, hleft⟩
    obtain ⟨part, rfl, rfl⟩ := List.map_eq_singleton_iff.mp hparts
    refine ⟨part.2, harranges part List.mem_cons_self, ?_, hleft⟩
    rwa [List.map_singleton, List.sum_singleton] at hmembers
  · rintro ⟨ids, harranges, hmembers, hleft⟩
    exact ⟨[(list, ids)], rfl, by simpa using harranges, by simpa using hmembers, hleft⟩

/-- A block takes the place of an item, with what has been claimed for its arms or cases. -/
lemma block {item : Nat} {block : BasicBlock} (hitem : region.mem item = true)
    (h : Claims items bound outer s₀ (region.erase item) bodies rest s)
    (hblock : Reshaped items item block bodies) :
    Claims items bound outer s₀ region [[.basic block]] rest s := by
  obtain ⟨parts, rfl, hparts, hmembers, hleft⟩ := h
  refine singleton_iff.mpr ⟨_, .block hblock hparts .nil, ?_, hleft⟩
  rw [Region.members_eq_cons hitem, hmembers, add_zero, Multiset.cons_add]

/-- One list behind the other. -/
lemma join {list list' : List Stmt} (h : Claims items bound outer s₀ region [list] rest s)
    (h' : Claims items bound outer s₀ rest [list'] rest' t) :
    Claims items bound outer s₀ region [list ++ list'] rest' t := by
  obtain ⟨ids, harranges, hmembers, -⟩ := singleton_iff.mp h
  obtain ⟨ids', harranges', hmembers', hleft⟩ := singleton_iff.mp h'
  refine singleton_iff.mpr ⟨ids + ids', harranges.append harranges', ?_, hleft⟩
  rw [hmembers, hmembers', add_assoc]

/-- The block that ends a case is put behind a list. -/
lemma caseEnd {list : List Stmt} {label : LabelId}
    (h : Claims items bound outer s₀ region [list] rest s) (hlabel : bound ≤ label)
    (hkeeps : Keeps .empty s t) :
    Claims items bound outer s₀ region [list ++ [.basic { body := [.label label, .breakOut] }]]
      rest t := by
  obtain ⟨ids, harranges, hmembers, hleft⟩ := singleton_iff.mp h
  have hend := harranges.append (.caseEnd hlabel .nil)
  rw [add_zero] at hend
  exact singleton_iff.mpr ⟨ids, hend, hmembers, hleft.congr hkeeps⟩

end Claims

/-- A recovery of arms that arranges the items of its region and changes only their slots. -/
def Arranging (items : List Stmt) (bound : Nat) (inner : Inner) : Prop :=
  ∀ region entry s, Holds (Original items) region s → bound ≤ s.minted →
    Yields (inner region entry) s fun body t =>
      Arranges items bound body (Region.members region) ∧ Keeps region s t

/-! ### Conditions -/

variable {items : List Stmt} {bound : Nat} {inner : Inner} {layout : Layout} {outer region : Region}
  {s₀ s : RecoveryState}

/-- Taking a basic block out of its slot. -/
lemma yields_takeBlock {item : Nat} {block : BasicBlock}
    (hslot : s.slot item = some (.basic block)) :
    Yields (takeBlock item) s fun taken t =>
      taken = block ∧ Keeps (.only item) s t := by
  refine (Recovery.yields_take hslot).bind ?_
  rintro _ t ⟨rfl, -, hkeeps⟩
  exact .pure ⟨rfl, hkeeps⟩

/-- The head of a branch without its branch. -/
lemma yields_openBlock (h : Left items bound outer s₀ region s) {item : Nat}
    (hitem : region.mem item = true) {block : BasicBlock}
    (hslot : s.slot item = some (.basic block)) {init : List Stmt} {x y : Stmt}
    (hbody : block.body = init ++ [x, y]) :
    Yields (openBlock region item) s fun opened t =>
      opened = ({ block with body := init }, region.erase item) ∧
        Left items bound outer s₀ (region.erase item) t := by
  refine (Recovery.yields_remove hitem s).bind ?_
  rintro _ _ ⟨rfl, rfl⟩
  refine (yields_takeBlock hslot).bind ?_
  rintro taken t ⟨rfl, hkeeps⟩
  refine .pure ⟨?_, h.take hitem hkeeps⟩
  simp [hbody]

/-- What a node dominates is claimed and recovered. -/
lemma yields_claimDominated (hinner : Arranging items bound inner)
    (h : Left items bound outer s₀ region s) (node : Nat) :
    Yields (claimDominated inner layout region node) s fun claimed t =>
      Claims items bound outer s₀ region [claimed.1] claimed.2 t := by
  have hwithin : Within (layout.dominated region node) region :=
    fun _ hi => (Layout.mem_dominated hi).1
  refine (Recovery.yields_claimAll hwithin s).bind ?_
  rintro rest _ ⟨rfl, hrest⟩
  refine (hinner _ node _ (h.holds.mono hwithin) h.minted).bind ?_
  rintro body t ⟨hbody, hkeeps⟩
  refine .pure (Claims.singleton_iff.mpr ⟨_, hbody, ?_, h.claim hwithin hrest hkeeps⟩)
  exact Region.members_eq_add hwithin hrest

/-- The code under one side of a branch. -/
lemma yields_arm (hinner : Arranging items bound inner) (h : Left items bound outer s₀ region s)
    (label : LabelId) :
    Yields (arm inner layout region label) s fun side t =>
      ∃ body, side.1 = ⟨some label, body⟩ ∧ Claims items bound outer s₀ region [body] side.2 t := by
  unfold arm
  split
  · exact .pure ⟨[], rfl, .empty h⟩
  · split
    · refine (yields_claimDominated hinner h _).bind ?_
      rintro ⟨body, rest⟩ t hclaims
      exact .pure ⟨body, rfl, hclaims⟩
    · exact .pure ⟨[], rfl, .empty h⟩

/-- A statement has taken the place of an item of a region. -/
def Places (items : List Stmt) (bound : Nat) (outer : Region) (s₀ : RecoveryState) (region : Region)
    (item : Nat) (placed : Stmt) (rest : Region) (s : RecoveryState) : Prop :=
  (∃ block bodies, placed = .basic block ∧ Reshaped items item block bodies) ∧
    Claims items bound outer s₀ region [[placed]] rest s

/-- Recovering a branch. -/
lemma yields_recoverCondition (hinner : Arranging items bound inner)
    (h : Left items bound outer s₀ region s) {item : Nat} (hitem : region.mem item = true) :
    Yields (recoverCondition inner layout region item) s fun found t =>
      match found with
      | none => Left items bound outer s₀ region t
      | some (placed, rest) => Places items bound outer s₀ region item placed rest t := by
  obtain ⟨block, hslot, horiginal⟩ := h.holds item hitem
  refine (Recovery.yields_basicBlock? item s).bind ?_
  rintro _ _ ⟨rfl, rfl⟩
  simp only [hslot, Recovery.basicOf?, Option.bind_some]
  cases hbranch : finalBranch? block with
  | none => exact .pure h
  | some branch =>
    obtain ⟨test, target, other⟩ := branch
    obtain ⟨init, hinit, hbody⟩ := finalBranch?_eq_some hbranch
    refine (yields_openBlock h hitem hslot hbody).bind ?_
    rintro _ t ⟨rfl, hopened⟩
    refine (yields_arm hinner hopened target).bind ?_
    rintro ⟨_, rest⟩ u ⟨thenBody, rfl, hthen⟩
    refine (yields_arm hinner hthen.left other).bind ?_
    rintro ⟨_, rest'⟩ v ⟨elseBody, rfl, helse⟩
    have hblock : Reshaped items item _ [thenBody, elseBody] := .cond horiginal hbody hinit
    exact .pure ⟨⟨_, _, rfl, hblock⟩, .block hitem (hthen.append helse) hblock⟩

/-! ### Switches -/

/-- The statements of a block at whose end a dispatch stands. -/
lemma dispatch?_eq_some {block : BasicBlock} {dispatch : Dispatch}
    (h : dispatch? block = some dispatch) :
    ∃ init default, init ≠ [] ∧ block.body =
      init ++ [.dispatch dispatch.value dispatch.cases default, .goto dispatch.fall] := by
  unfold dispatch? at h
  split at h
  · rename_i htail
    obtain ⟨init, hinit, hbody, -⟩ := BasicBlockOf.tail?_eq_some htail
    cases h
    exact ⟨init, _, hinit, hbody⟩
  · cases h

/-- The block that ends a case. -/
lemma yields_caseEnd (s : RecoveryState) :
    Yields caseEnd s fun last t => ∃ label, last = .basic { body := [.label label, .breakOut] } ∧
      s.minted ≤ label ∧ Keeps .empty s t := by
  refine (Recovery.yields_fresh stem s).bind ?_
  rintro label t ⟨rfl, hkeeps⟩
  exact .pure ⟨_, rfl, Nat.le_refl _, hkeeps⟩

/-- Recovering one case. -/
lemma yields_recoverCase (hinner : Arranging items bound inner) (joins : List Nat)
    (cases : List SwitchCase) (h : Left items bound outer s₀ region s)
    (group : LabelId × List Expr) :
    Yields (recoverCase inner layout joins (cases, region) group) s fun progress t =>
      ∃ c, progress.1 = cases ++ [c] ∧ OfGroup group c ∧
        Claims items bound outer s₀ region [c.body.body] progress.2 t := by
  unfold recoverCase
  dsimp only
  split
  · exact .pure ⟨_, rfl, ⟨rfl, rfl, rfl⟩, .empty h⟩
  · refine (yields_claimDominated hinner h _).bind ?_
    rintro ⟨body, rest⟩ t hclaims
    refine (yields_caseEnd t).bind ?_
    rintro last u ⟨label, rfl, hlabel, hkeeps⟩
    have hbound := Nat.le_trans hclaims.left.minted hlabel
    exact .pure ⟨_, rfl, ⟨rfl, rfl, rfl⟩, hclaims.caseEnd hbound hkeeps⟩

/-- Recovering the cases of a switch, one for each group. -/
lemma yields_recoverCases (hinner : Arranging items bound inner) (joins : List Nat)
    (list : List (LabelId × List Expr)) (cases : List SwitchCase)
    (h : Left items bound outer s₀ region s) :
    Yields (list.foldlM (recoverCase inner layout joins) (cases, region)) s fun progress t =>
      ∃ own, progress.1 = cases ++ own ∧ List.Forall₂ OfGroup list own ∧
        Claims items bound outer s₀ region (own.map fun c => c.body.body) progress.2 t := by
  induction list generalizing cases region s with
  | nil => exact .pure ⟨[], (List.append_nil _).symm, .nil, .nil h⟩
  | cons group later ih =>
    rw [List.foldlM_cons]
    refine (yields_recoverCase hinner joins cases h group).bind ?_
    rintro ⟨_, rest⟩ t ⟨c, rfl, hgroup, hclaims⟩
    refine (ih (cases ++ [c]) hclaims.left).mono ?_
    rintro ⟨_, rest'⟩ u ⟨own, rfl, hown, hclaims'⟩
    exact ⟨c :: own, by simp, .cons hgroup hown, hclaims.append hclaims'⟩

/-- Recovering the default case. -/
lemma yields_recoverDefault (hinner : Arranging items bound inner) (joins : List Nat)
    (h : Left items bound outer s₀ region s) (fall : LabelId) :
    Yields (recoverDefault inner layout joins region fall) s fun found t =>
      match found with
      | none => Left items bound outer s₀ region t
      | some (c, rest) => ∃ body, defaultCase fall (some body) = [c] ∧
          Claims items bound outer s₀ region [body] rest t := by
  unfold recoverDefault
  split
  · exact .pure h
  · split
    · exact .pure h
    · refine (yields_claimDominated hinner h _).bind ?_
      rintro ⟨body, rest⟩ t hclaims
      refine (yields_caseEnd t).bind ?_
      rintro last u ⟨label, rfl, hlabel, hkeeps⟩
      have hbound := Nat.le_trans hclaims.left.minted hlabel
      exact .pure ⟨_, rfl, hclaims.caseEnd hbound hkeeps⟩

/-- Recovering the dispatch at the end of a block. -/
lemma yields_recoverSwitch_of_dispatch (hinner : Arranging items bound inner)
    (h : Left items bound outer s₀ region s) {item : Nat} (hitem : region.mem item = true)
    {block : BasicBlock} (hslot : s.slot item = some (.basic block)) {init : List Stmt} {value : Expr}
    {cases : List (Expr × LabelId)} {default fall : LabelId} (hinit : init ≠ [])
    (hbody : block.body = init ++ [.dispatch value cases default, .goto fall]) :
    Yields (recoverSwitch inner layout region item) s fun found t => ∃ own last rest,
      found = some (.basic { block with
        body := init ++ .switch value (sortCases own ++ defaultCase fall last) :: fallJump fall last },
        rest) ∧
      List.Forall₂ OfGroup (groups cases []) own ∧
      Claims items bound outer s₀ (region.erase item) ((own.map fun c => c.body.body) ++ last.toList)
        rest t := by
  have hdispatch : dispatch? block = some ⟨value, cases, fall⟩ := by
    have htail : block.tail? 2 = some [.dispatch value cases default, .goto fall] := by
      simp only [BasicBlockOf.tail?, hbody, List.length_append, List.length_cons, List.length_nil]
      rw [if_neg (by have := List.length_pos_iff.mpr hinit; omega)]
      simp
    simp only [dispatch?, htail]
  refine (Recovery.yields_basicBlock? item s).bind ?_
  rintro _ _ ⟨rfl, rfl⟩
  simp only [hslot, Recovery.basicOf?, Option.bind_some, hdispatch]
  refine (yields_openBlock h hitem hslot hbody).bind ?_
  rintro _ t ⟨rfl, hopened⟩
  refine (yields_recoverCases hinner _ _ [] hopened).bind ?_
  rintro ⟨own, rest⟩ u ⟨_, rfl, hown, hclaims⟩
  refine (yields_recoverDefault hinner _ hclaims.left fall).bind ?_
  intro found v hfound
  cases found with
  | some result =>
    obtain ⟨c, rest'⟩ := result
    obtain ⟨body, hc, hlast⟩ := hfound
    refine .pure ⟨own, some body, rest', ?_, hown, hclaims.append hlast⟩
    rw [hc]
    rfl
  | none =>
    refine .pure ⟨own, none, rest, ?_, hown, ?_⟩
    · rw [defaultCase, List.append_nil]
      rfl
    · simpa using hclaims.append (.nil hfound)

/-- Recovering a dispatch. -/
lemma yields_recoverSwitch (hinner : Arranging items bound inner)
    (h : Left items bound outer s₀ region s) {item : Nat} (hitem : region.mem item = true) :
    Yields (recoverSwitch inner layout region item) s fun found t =>
      match found with
      | none => Left items bound outer s₀ region t
      | some (placed, rest) => Places items bound outer s₀ region item placed rest t := by
  obtain ⟨block, hslot, horiginal⟩ := h.holds item hitem
  cases hdispatch : dispatch? block with
  | none =>
    refine (Recovery.yields_basicBlock? item s).bind ?_
    rintro _ _ ⟨rfl, rfl⟩
    simp only [hslot, Recovery.basicOf?, Option.bind_some, hdispatch]
    exact .pure h
  | some dispatch =>
    obtain ⟨init, default, hinit, hbody⟩ := dispatch?_eq_some hdispatch
    refine (yields_recoverSwitch_of_dispatch hinner h hitem hslot hinit hbody).mono ?_
    rintro _ t ⟨own, last, rest, rfl, hown, hclaims⟩
    have hblock : Reshaped items item _ ((own.map fun c => c.body.body) ++ last.toList) :=
      .switch horiginal hbody hinit hown
    exact ⟨⟨_, _, rfl, hblock⟩, .block hitem hclaims hblock⟩

/-! ### Lists -/

/-- Recovering what is at one node. -/
lemma yields_recoverAt (hinner : Arranging items bound inner) (placed : List Stmt)
    (h : Left items bound outer s₀ region s) (node : Nat) :
    Yields (recoverAt inner layout (placed, region) node) s fun progress t =>
      ∃ new, progress.1 = placed ++ new ∧
        Claims items bound outer s₀ region [new] progress.2 t ∧
        ∀ item, FlowNode.ofIndex node = .item item → region.mem item = true →
          ∃ block bodies, new = [.basic block] ∧ Reshaped items item block bodies := by
  have hplaces : ∀ {item : Nat} {s : Stmt} {rest : Region} {t : RecoveryState},
      FlowNode.ofIndex node = .item item → Places items bound outer s₀ region item s rest t →
      ∃ new, placed ++ [s] = placed ++ new ∧ Claims items bound outer s₀ region [new] rest t ∧
        ∀ item, FlowNode.ofIndex node = .item item → region.mem item = true →
          ∃ block bodies, new = [.basic block] ∧ Reshaped items item block bodies := by
    rintro item _ rest t hnode ⟨⟨block, bodies, rfl, hblock⟩, hclaims⟩
    refine ⟨_, rfl, hclaims, fun item' hnode' _ => ?_⟩
    rw [hnode] at hnode'
    cases hnode'
    exact ⟨block, bodies, rfl, hblock⟩
  unfold recoverAt
  dsimp only
  split
  · rename_i item hnode
    split
    · rename_i hitem
      refine (yields_recoverSwitch hinner h hitem).bind ?_
      intro found t hfound
      cases found with
      | some result => exact .pure (hplaces hnode hfound)
      | none =>
        refine (yields_recoverCondition hinner hfound hitem).bind ?_
        intro found u hfound
        cases found with
        | some result => exact .pure (hplaces hnode hfound)
        | none =>
          obtain ⟨block, hslot, horiginal⟩ := hfound.holds item hitem
          refine (Recovery.yields_remove hitem u).bind ?_
          rintro _ _ ⟨rfl, rfl⟩
          refine (Recovery.yields_take hslot).bind ?_
          rintro _ v ⟨rfl, -, hkeeps⟩
          have hblock : Reshaped items item block [] := .same horiginal
          have hclaims := Claims.block hitem (.nil (hfound.take hitem hkeeps)) hblock
          exact .pure (hplaces hnode ⟨⟨block, [], rfl, hblock⟩, hclaims⟩)
    · rename_i hitem
      refine .pure ⟨[], (List.append_nil _).symm, .empty h, fun item' hnode' hitem' => ?_⟩
      rw [hnode] at hnode'
      cases hnode'
      exact absurd hitem' hitem
  · rename_i hnode
    exact .pure ⟨[], (List.append_nil _).symm, .empty h, fun item hitem _ => absurd hitem (hnode item)⟩

/-- Items that have been drained are arranged as they were. -/
lemma arranges_of_original {placed : List (Nat × Stmt)}
    (h : ∀ p ∈ placed, ∃ block, p.2 = .basic block ∧ Original items p.1 block) :
    Arranges items bound (placed.map Prod.snd) ↑(placed.map Prod.fst) := by
  induction placed with
  | nil => exact .nil
  | cons p rest ih =>
    obtain ⟨block, hp, horiginal⟩ := h p List.mem_cons_self
    have hrest := ih fun q hq => h q (List.mem_cons_of_mem _ hq)
    have hitem : Arranges items bound [.basic block] {p.1} := .item horiginal
    simpa [hp] using hitem.append hrest

/-- Placing what is left of a region. -/
lemma yields_drainItems {placed : List Stmt} {rest : Region}
    (h : Claims items bound region s₀ region [placed] rest s) :
    Yields (do return placed ++ (← Recovery.drain rest).map Prod.snd) s fun body t =>
      Arranges items bound body (Region.members region) ∧ Keeps region s₀ t ∧ placed <+: body := by
  obtain ⟨ids, harranges, hmembers, hleft⟩ := Claims.singleton_iff.mp h
  refine (Recovery.yields_drain hleft.holds).bind ?_
  rintro drained t ⟨hfst, hdrained, -, hkeeps⟩
  refine .pure ⟨?_, hleft.keeps.trans (hkeeps.mono hleft.within), List.prefix_append _ _⟩
  have hrest : Arranges items bound (drained.map Prod.snd) ↑(drained.map Prod.fst) :=
    arranges_of_original hdrained
  rw [hfst] at hrest
  rw [hmembers]
  exact harranges.append hrest

/-- The first node of a walk is the one at which it starts. -/
lemma depthFirst_eq_cons {tree : DominatorTree} (h : tree.graph.size ≠ 0) (n : Nat) :
    ∃ rest, tree.depthFirst n = n :: rest := by
  obtain ⟨fuel, hfuel⟩ := Nat.exists_eq_succ_of_ne_zero h
  rw [DominatorTree.depthFirst, hfuel]
  exact ⟨_, rfl⟩

/-- The walk through a region keeps what it has placed in front. -/
lemma yields_walk (hinner : Arranging items bound inner) (nodes : List Nat) (first : List Stmt)
    {rest : Region} (h : Claims items bound region s₀ region [first] rest s) :
    Yields (nodes.foldlM (recoverAt inner layout) (first, rest)) s fun progress t =>
      first <+: progress.1 ∧ Claims items bound region s₀ region [progress.1] progress.2 t := by
  refine Yields.foldlM (fun progress node _ t ht => ?_) ⟨List.prefix_rfl, h⟩
  obtain ⟨placed, rest⟩ := progress
  refine (yields_recoverAt hinner placed ht.2.left node).mono ?_
  rintro ⟨_, rest'⟩ u ⟨new, rfl, hclaims, -⟩
  exact ⟨ht.1.trans (List.prefix_append _ _), ht.2.join hclaims⟩

/-- The recovery of conditions arranges the items of its region. -/
theorem arranging_recover (layout : Layout) (fuel : Nat) :
    Arranging items bound (recover layout fuel) := by
  induction fuel with
  | zero =>
    intro region entry s h hbound
    have hdrained := yields_drainItems (.empty (.start h hbound))
    simp only [List.nil_append] at hdrained
    rw [recover]
    exact hdrained.mono fun body t ht => ⟨ht.1, ht.2.1⟩
  | succ fuel ih =>
    intro region entry s h hbound
    rw [recover]
    refine (yields_walk ih _ [] (.empty (.start h hbound))).bind ?_
    rintro ⟨placed, rest⟩ t ⟨-, hclaims⟩
    exact (yields_drainItems hclaims).mono fun body t ht => ⟨ht.1, ht.2.1⟩

/-- The recovery of conditions that starts at an item of its region puts that item first. -/
theorem yields_recover {layout : Layout} (hsize : layout.tree.graph.size ≠ 0) (fuel : Nat)
    (h : Holds (Original items) region s) (hbound : bound ≤ s.minted) {item : Nat}
    (hitem : region.mem item = true) :
    Yields (recover layout (fuel + 1) region (FlowNode.item item).index) s fun body t =>
      Arranges items bound body (Region.members region) ∧ Keeps region s t ∧
        ∃ block bodies rest, body = .basic block :: rest ∧ Reshaped items item block bodies := by
  obtain ⟨nodes, hnodes⟩ := depthFirst_eq_cons hsize (FlowNode.item item).index
  rw [recover, hnodes, List.foldlM_cons, bind_assoc]
  refine (yields_recoverAt (arranging_recover layout fuel) [] (.start h hbound) _).bind ?_
  rintro ⟨_, rest⟩ t ⟨new, rfl, hclaims, hfirst⟩
  obtain ⟨block, bodies, rfl, hblock⟩ := hfirst item rfl hitem
  refine (yields_walk (arranging_recover layout fuel) nodes _ hclaims).bind ?_
  rintro ⟨placed, rest'⟩ u ⟨hfront, hclaims'⟩
  refine (yields_drainItems hclaims').mono ?_
  rintro body v ⟨harranges, hkeeps, hfront'⟩
  obtain ⟨later, rfl⟩ := hfront.trans hfront'
  exact ⟨harranges, hkeeps, block, bodies, later, rfl, hblock⟩

/-- What becomes of a list of blocks: its items are arranged, and a list that is entered at its first item
still is. -/
structure Recovered (bound : Nat) (block result : Block) : Prop where
  entry : result.entry = block.entry
  arranges : Arranges block.body bound result.body (.range block.body.length)
  first : block.entry = none →
    ∃ first bodies rest, result.body = .basic first :: rest ∧ Reshaped block.body 0 first bodies

/-- A list in which there is nothing to recover stays as it is. -/
lemma recoverBlock_of_guard {block : Block}
    (h : (block.body.isEmpty || !block.body.all isBasic) = true) (context : Context) :
    recoverBlock block context = (.ok block, context) := by
  rw [recoverBlock, if_pos h]

/-- Any other list consists of basic blocks. -/
lemma basic_of_not_guard {body : List Stmt} (h : ¬ (body.isEmpty || !body.all isBasic) = true) :
    (∀ s ∈ body, ∃ block, s = .basic block) ∧ body ≠ [] := by
  simp only [Bool.or_eq_true, not_or, List.isEmpty_iff, Bool.not_eq_true', Bool.not_eq_false,
    List.all_eq_true] at h
  refine ⟨fun s hs => ?_, h.1⟩
  have hs' := h.2 s hs
  cases s with
  | basic block => exact ⟨block, rfl⟩
  | _ => cases hs'

/-- The recovery of conditions of a list of blocks. -/
lemma yields_recoverBlockStep {entry : Option LabelId} {body : List Stmt} {context : Context}
    (hbasic : ∀ s ∈ body, ∃ block, s = .basic block) (hne : body ≠ [])
    (hbound : bound ≤ context.labels.names.length) :
    Yields (recoverBlockStep entry body) context fun result context' =>
      Recovered bound ⟨entry, body⟩ result ∧
        context.labels.names.length ≤ context'.labels.names.length := by
  have hguard : ¬ (body.isEmpty || !body.all isBasic) = true := by
    simp only [Bool.or_eq_true, List.isEmpty_iff, Bool.not_eq_true', hne, false_or,
      Bool.not_eq_false, List.all_eq_true]
    intro s hs
    obtain ⟨block, rfl⟩ := hbasic s hs
    rfl
  have hholds : Holds (Original body) (Layout.ofBlock ⟨entry, body⟩).fullRegion
      (.start body context) := by
    refine holds_fullRegion (fun i item hitem => ?_) context
    obtain ⟨block, rfl⟩ := hbasic item (List.mem_of_getElem? hitem)
    exact ⟨block, rfl, hitem⟩
  have hrecover : Yields (recover (Layout.ofBlock ⟨entry, body⟩) (body.length + 1)
      (Layout.ofBlock ⟨entry, body⟩).fullRegion (Layout.ofBlock ⟨entry, body⟩).flow.first.index)
      (.start body context) fun result t =>
        Recovered bound ⟨entry, body⟩ ⟨entry, result⟩ ∧ (RecoveryState.start body context).minted ≤ t.minted := by
    have hmembers := members_fullRegion ⟨entry, body⟩
    cases entry with
    | some label =>
      refine (arranging_recover _ _ _ _ _ hholds hbound).mono ?_
      rintro result t ⟨harranges, hkeeps⟩
      rw [hmembers] at harranges
      exact ⟨⟨rfl, harranges, fun h => by cases h⟩, hkeeps.minted⟩
    | none =>
      have hfirst : (Layout.ofBlock ⟨none, body⟩).flow.first = .item 0 := by
        simp [Layout.ofBlock, FlowGraph.build, FlowGraph.first, hne]
      have hitem : (Layout.ofBlock ⟨none, body⟩).fullRegion.mem 0 = true := by
        simpa [Layout.fullRegion, Layout.ofBlock, FlowGraph.build, List.length_pos_iff] using hne
      have hsize : (Layout.ofBlock ⟨none, body⟩).tree.graph.size ≠ 0 := Nat.succ_ne_zero _
      rw [hfirst]
      refine (yields_recover hsize _ hholds hbound hitem).mono ?_
      rintro result t ⟨harranges, hkeeps, hstart⟩
      rw [hmembers] at harranges
      exact ⟨⟨rfl, harranges, fun _ => hstart⟩, hkeeps.minted⟩
  obtain ⟨result, t, hrun, hresult, hminted⟩ := hrecover
  refine ⟨{ entry, body := result }, t.context, ?_, hresult, hminted⟩
  change recoverBlock { entry, body } context = _
  rw [recoverBlock, if_neg hguard]
  simp only [Recovery.run_eq, hrun]
  rfl

/-- The recovery of conditions of a sound list gives a sound list. -/
lemma soundList_recoverBlockStep (entry : Option LabelId) {body : List Stmt}
    (h : Stmt.soundList body = true) (context : Context) :
    Yields (recoverBlockStep entry body) context fun block _ =>
      Stmt.soundList block.body = true := by
  by_cases hguard : (body.isEmpty || !body.all isBasic) = true
  · exact ⟨_, _, @recoverBlock_of_guard ⟨entry, body⟩ hguard context, h⟩
  · obtain ⟨hbasic, hne⟩ := basic_of_not_guard hguard
    have hsound : SoundBlocks body := by
      intro s hs
      obtain ⟨block, rfl⟩ := hbasic s hs
      exact ⟨block, rfl, Stmt.soundList_eq_true_iff.mp h _ hs⟩
    refine (yields_recoverBlockStep hbasic hne (Nat.zero_le _)).mono ?_
    rintro result context' ⟨hresult, -⟩
    exact (hresult.arranges.soundBlocks hsound).soundList

/-! ### Nested lists -/

/-- Two statements that start or end a block alike. -/
structure SameKind (s t : Stmt) : Prop where
  label? : t.label? = s.label?
  isUnconditional : t.isUnconditional = s.isUnconditional
  isStructured : t.isStructured = s.isStructured

/-- Blocks with statements of the same kinds have the same shape. -/
lemma fault?_congr {a b : BasicBlock} (h : List.Forall₂ SameKind a.body b.body) :
    b.fault? = a.fault? := by
  have hlabel : b.entryLabel? = a.entryLabel? := by
    rw [BasicBlockOf.entryLabel?_eq, BasicBlockOf.entryLabel?_eq]
    generalize a.body = l at h
    generalize b.body = l' at h
    cases h with
    | nil => rfl
    | cons hs _ => exact hs.label?
  have hlast : Option.Rel SameKind a.body.getLast? b.body.getLast? := by
    generalize a.body = l at h
    generalize b.body = l' at h
    induction h with
    | nil => exact .none
    | cons hs hrest ih =>
      cases hrest with
      | nil => exact .some hs
      | cons _ _ => simpa [List.getLast?_cons_cons] using ih
  unfold BasicBlockOf.fault?
  rw [hlabel]
  generalize a.body.getLast? = x at hlast
  generalize b.body.getLast? = y at hlast
  cases hlast with
  | none => rfl
  | some hs => simp only [hs.isUnconditional, hs.isStructured]

mutual

/-- Recovering the conditions in an item of a sound list. -/
lemma yields_inItem : (s : Stmt) → s.isSound = true → ∀ context : Context,
    Yields (inItem s) context fun s' _ => s'.isSound = true
  | .basic block, h, context => by
    rw [Stmt.isSound, Bool.and_eq_true] at h
    rw [inItem]
    refine (yields_inBasicBlock block.body h.2 context).bind ?_
    rintro body t ⟨hkind, hsound⟩
    refine .pure ?_
    have hfault : BasicBlockOf.fault? { block with body } = block.fault? := fault?_congr hkind
    rw [Stmt.isSound, hfault, h.1, hsound]
    rfl
  | .label _, h, _ | .raw _ _, h, _ | .push _, h, _ | .assign _ _, h, _ | .call _ _, h, _
  | .discard _, h, _ | .goto _, h, _ | .condGoto _ _, h, _ | .pushEnv _ _, h, _ | .popEnv _, h, _
  | .dispatch _ _ _, h, _ | .ret _, h, _ | .exit, h, _ | .breakOut, h, _ | .continueLoop, h, _
  | .seq _, h, _ | .cond _ _ _, h, _ | .loop _ _, h, _ | .switch _ _, h, _ | .scope _ _ _, h, _ =>
    .pure h

/-- Recovering the conditions in the items of a sound list. -/
lemma yields_inItems : (list : List Stmt) → Stmt.soundList list = true → ∀ context : Context,
    Yields (inItems list) context fun list' _ => Stmt.soundList list' = true
  | [], _, _ => .pure rfl
  | s :: rest, h, context => by
    rw [Stmt.soundList, Bool.and_eq_true] at h
    rw [inItems]
    refine (yields_inItem s h.1 context).bind ?_
    intro s' t hs
    refine (yields_inItems rest h.2 t).bind ?_
    intro rest' u hrest
    refine .pure ?_
    rw [Stmt.soundList, hs, hrest]
    rfl

/-- Recovering the conditions of a sound loop or scope. -/
lemma yields_inLoop : (s : Stmt) → s.isSound = true → ∀ context : Context,
    Yields (inLoop s) context fun s' _ => SameKind s s' ∧ s'.isSound = true
  | .loop test body, h, context => by
    rw [inLoop]
    refine (yields_inItems body.body h context).bind ?_
    intro items t hitems
    refine (soundList_recoverBlockStep body.entry hitems t).bind ?_
    intro block u hblock
    exact .pure ⟨⟨rfl, rfl, rfl⟩, hblock⟩
  | .scope env body stop, h, context => by
    rw [inLoop]
    refine (yields_inItems body.body h context).bind ?_
    intro items t hitems
    refine (soundList_recoverBlockStep body.entry hitems t).bind ?_
    intro block u hblock
    exact .pure ⟨⟨rfl, rfl, rfl⟩, hblock⟩
  | .label _, h, _ | .raw _ _, h, _ | .push _, h, _ | .assign _ _, h, _ | .call _ _, h, _
  | .discard _, h, _ | .goto _, h, _ | .condGoto _ _, h, _ | .pushEnv _ _, h, _ | .popEnv _, h, _
  | .dispatch _ _ _, h, _ | .ret _, h, _ | .exit, h, _ | .breakOut, h, _ | .continueLoop, h, _
  | .basic _, h, _ | .seq _, h, _ | .cond _ _ _, h, _ | .switch _ _, h, _ =>
    .pure ⟨⟨rfl, rfl, rfl⟩, h⟩

/-- Recovering the conditions in the statements of a sound block. -/
lemma yields_inBasicBlock : (list : List Stmt) → Stmt.soundList list = true → ∀ context : Context,
    Yields (inBasicBlock list) context fun list' _ =>
      List.Forall₂ SameKind list list' ∧ Stmt.soundList list' = true
  | [], _, _ => .pure ⟨.nil, rfl⟩
  | s :: rest, h, context => by
    rw [Stmt.soundList, Bool.and_eq_true] at h
    rw [inBasicBlock]
    refine (yields_inLoop s h.1 context).bind ?_
    rintro s' t ⟨hkind, hs⟩
    refine (yields_inBasicBlock rest h.2 t).bind ?_
    rintro rest' u ⟨hkinds, hrest⟩
    refine .pure ⟨.cons hkind hkinds, ?_⟩
    rw [Stmt.soundList, hs, hrest]
    rfl

end

end Conditions

/-- The recovery of conditions of a sound list succeeds and gives a sound list. -/
theorem findConditions_ok {block : Block} (h : Stmt.soundList block.body = true)
    (context : Context) :
    ∃ tree context', findConditions block context = (.ok tree, context') ∧
      Stmt.soundList tree.body = true := by
  have hstep : Yields (do
      let items ← Conditions.inItems block.body
      Conditions.recoverBlockStep block.entry items) context fun tree _ =>
        Stmt.soundList tree.body = true := by
    refine (Conditions.yields_inItems block.body h context).bind ?_
    intro items t hitems
    exact Conditions.soundList_recoverBlockStep block.entry hitems t
  exact hstep

end Decompiler
