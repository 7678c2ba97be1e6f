import Decompiler.Proofs.DominanceFrontiers
import Decompiler.Proofs.DominatorWalks
import Decompiler.Proofs.LoopExecution

/-!
# The headers of loops

The recovery of loops makes one loop for each header in its region (`finds_recoverOver`).  What the
placed loops are headed by, and the headers that are still to be claimed, make up the headers that the
region had, before and after each loop (`agree_recoverLoop`).  At the end no header is left, since the
walk down the tree comes to each of them.

The region of a body has fewer items than that of its loop, or else it is that of an endless loop and the
header is left out, so that the loops in the body are smaller again (`depth`).  So the recursion comes to
an end before its levels are used up, and what would be done below the last of them does not matter:
`recoverOver` leaves that open.
-/

namespace Decompiler

namespace Stmt

/-! ### Loops of a tree -/

/-- Whether the statement is a loop. -/
def isLoop : Stmt → Bool
  | .loop _ _ => true
  | _ => false

/-- The label that the statement is, if it is one. -/
def ownLabel? : Stmt → Option LabelId
  | .label id => some id
  | _ => none

mutual

/-- The header of each loop in a statement, where `before` is the label right before the statement: the
label before a loop with a test, and the label at which the body of an endless loop is entered. -/
def loopHeaders (before : Option LabelId) : Stmt → List (Option LabelId)
  | .loop (some _) body => before :: loopHeadersOfList none body.body
  | .loop none body => body.entry :: loopHeadersOfList none body.body
  | .basic block => loopHeadersOfList none block.body
  | .seq block => loopHeadersOfList none block.body
  | .cond _ thenBlock elseBlock =>
    loopHeadersOfList none thenBlock.body ++ loopHeadersOfList none elseBlock.body
  | .scope _ body _ => loopHeadersOfList none body.body
  | .switch _ cases => loopHeadersOfCases cases
  | _ => []

/-- The header of each loop in a list. -/
def loopHeadersOfList (before : Option LabelId) : List Stmt → List (Option LabelId)
  | [] => []
  | s :: rest => s.loopHeaders before ++ loopHeadersOfList s.ownLabel? rest

/-- The header of each loop in the cases of a switch. -/
def loopHeadersOfCases : List SwitchCase → List (Option LabelId)
  | [] => []
  | c :: rest => loopHeadersOfList none c.body.body ++ loopHeadersOfCases rest

end

mutual

/-- Every loop has one header. -/
lemma length_loopHeaders (before : Option LabelId) :
    (s : Stmt) → (s.loopHeaders before).length = s.count isLoop
  | .loop test body => by
    cases test <;>
      simp [loopHeaders, count, isLoop, length_loopHeadersOfList none body.body, Nat.add_comm]
  | .basic block | .seq block => by
    simp [loopHeaders, count, isLoop, length_loopHeadersOfList none block.body]
  | .cond _ thenBlock elseBlock => by
    simp [loopHeaders, count, isLoop, length_loopHeadersOfList none thenBlock.body,
      length_loopHeadersOfList none elseBlock.body]
  | .scope _ body _ => by
    simp [loopHeaders, count, isLoop, length_loopHeadersOfList none body.body]
  | .switch _ cases => by
    simp [loopHeaders, count, isLoop, length_loopHeadersOfCases cases]
  | .label _ | .raw _ _ | .push _ | .assign _ _ | .call _ _ | .discard _ | .goto _ | .condGoto _ _
  | .pushEnv _ _ | .popEnv _ | .dispatch _ _ _ | .ret _ | .exit | .breakOut | .continueLoop => by
    simp [loopHeaders, count, isLoop]

/-- Every loop of a list has one header. -/
lemma length_loopHeadersOfList (before : Option LabelId) :
    (list : List Stmt) → (loopHeadersOfList before list).length = countList isLoop list
  | [] => rfl
  | s :: rest => by
    simp [loopHeadersOfList, countList, length_loopHeaders before s,
      length_loopHeadersOfList s.ownLabel? rest]

/-- Every loop in the cases of a switch has one header. -/
lemma length_loopHeadersOfCases :
    (cases : List SwitchCase) → (loopHeadersOfCases cases).length = countCases isLoop cases
  | [] => rfl
  | c :: rest => by
    simp [loopHeadersOfCases, countCases, length_loopHeadersOfList none c.body.body,
      length_loopHeadersOfCases rest]

end

/-- A block has no loops before they are recovered. -/
lemma count_isLoop_of_isSimple {s : Stmt} (h : s.isSimple = true) : s.count isLoop = 0 := by
  refine count_eq_zero_of_isSimple (fun s hs => ?_) h
  cases s with
  | loop _ _ => cases hs
  | _ => rfl

/-- The headers of the loops in a list of blocks, one block after the other. -/
lemma loopHeadersOfList_eq_flatMap {list : List Stmt} (h : ∀ s ∈ list, ∃ block, s = .basic block) :
    loopHeadersOfList none list = list.flatMap (loopHeaders none) := by
  induction list with
  | nil => rfl
  | cons s rest ih =>
    rw [List.forall_mem_cons] at h
    obtain ⟨⟨block, rfl⟩, hrest⟩ := h
    rw [List.flatMap_cons, ← ih hrest]
    rfl

end Stmt

namespace Loops

/-! ### The recursion with its last level left open -/

/-- Whether the loop of a node is left out, as that of the entry on demand. -/
abbrev leftOut (entry : Nat) (excludeEntry : Bool) (node : Nat) : Bool :=
  node == entry && excludeEntry

/-- As `recover`, with `deepest` below the last level. -/
def recoverOver (deepest : Inner) (layout : Layout) : Nat → Inner
  | 0 => deepest
  | fuel + 1 => fun region entry excludeEntry => do
    let progress ← (layout.tree.breadthFirst entry).foldlM
      (recoverAt (recoverOver deepest layout fuel) layout (leftOut entry excludeEntry)) { region }
    return inListOrder (progress.placed ++ (← Recovery.drain progress.region))

/-- The recovery leaves all loops below the last level as they are. -/
lemma recover_eq_recoverOver (layout : Layout) (fuel : Nat) :
    recover layout fuel = recoverOver (recover layout 0) layout fuel := by
  induction fuel with
  | zero => rfl
  | succ fuel ih =>
    funext region entry excludeEntry
    rw [recover, recoverOver, ih]

/-- Two steps that succeed alike. -/
abbrev Agree {α : Type} (x y : Recovery α) (s : RecoveryState) (post : α → RecoveryState → Prop) :
    Prop :=
  Tracks headerGone False x y s post

/-- Two steps that agree succeed. -/
lemma Agree.exists_ok {α : Type} {x y : Recovery α} {s : RecoveryState}
    {post : α → RecoveryState → Prop} (h : Agree x y s post) :
    ∃ a t, exec x s = (.ok a, t) ∧ exec y s = (.ok a, t) ∧ post a t := by
  rcases h with h | ⟨_, _, _, hfalse⟩
  · exact h
  · exact hfalse.elim

/-- A pair of loops over the elements of a list, with what is known once some of them have been met. -/
lemma Agree.foldlM_met {α β : Type} {f f' : β → α → Recovery β}
    (inv : List α → β → RecoveryState → Prop) (list : List α)
    (hstep : ∀ met b a s, inv met b s → Agree (f b a) (f' b a) s (inv (met ++ [a])))
    {met : List α} {b : β} {s : RecoveryState} (h : inv met b s) :
    Agree (list.foldlM f b) (list.foldlM f' b) s (inv (met ++ list)) := by
  induction list generalizing met b s with
  | nil =>
    rw [List.append_nil]
    exact .of_yields (.pure h)
  | cons a rest ih =>
    rw [List.foldlM_cons, List.foldlM_cons]
    refine (hstep met b a s h).bind fun b t hb => ?_
    have hrest := ih hb
    rwa [List.append_assoc] at hrest

/-! ### Headers of a region -/

/-- Whether an item is the header of a loop. -/
def isHeader (layout : Layout) (i : Nat) : Bool :=
  layout.tree.inFrontier (FlowNode.item i).index (FlowNode.item i).index

/-- The headers in a region, apart from those whose loop is left out. -/
def awaited (layout : Layout) (withoutLoop : Nat → Bool) (region : Region) : Multiset Nat :=
  (Region.members region).filter fun i => isHeader layout i && !withoutLoop (FlowNode.item i).index

/-- The label of an item. -/
def labelOf (items : List Stmt) (i : Nat) : Option LabelId :=
  items[i]?.bind FlowGraph.headLabel?

section Awaited

variable {layout : Layout} {withoutLoop withoutLoop' : Nat → Bool} {region content rest : Region}
  {i : Nat}

/-- The headers in a part of a region and in the rest. -/
lemma awaited_eq_add (hcontent : Within content region)
    (hrest : ∀ i, rest.mem i = (region.mem i && !content.mem i)) :
    awaited layout withoutLoop region =
      awaited layout withoutLoop content + awaited layout withoutLoop rest := by
  rw [awaited, Region.members_eq_add hcontent hrest, Multiset.filter_add]
  rfl

/-- A header in a region and those in the rest of it. -/
lemma awaited_eq_cons (hi : region.mem i = true) (hheader : isHeader layout i = true)
    (hin : withoutLoop (FlowNode.item i).index = false) :
    awaited layout withoutLoop region = i ::ₘ awaited layout withoutLoop (region.erase i) := by
  rw [awaited, Region.members_eq_cons hi, Multiset.filter_cons_of_pos]
  · rfl
  · simp [hheader, hin]

/-- A header whose loop is left out does not count. -/
lemma awaited_erase (hi : region.mem i = true) (hout : withoutLoop (FlowNode.item i).index = true) :
    awaited layout withoutLoop region = awaited layout withoutLoop (region.erase i) := by
  rw [awaited, Region.members_eq_cons hi, Multiset.filter_cons_of_neg]
  · rfl
  · simp [hout]

/-- What is left out elsewhere does not matter. -/
lemma awaited_congr (h : ∀ i, region.mem i = true →
    withoutLoop (FlowNode.item i).index = withoutLoop' (FlowNode.item i).index) :
    awaited layout withoutLoop region = awaited layout withoutLoop' region := by
  refine Multiset.filter_congr fun i hi => ?_
  rw [Region.members, Multiset.mem_coe, NodeSet.mem_toList] at hi
  rw [h i hi]

/-- All headers have been met. -/
lemma awaited_eq_zero (h : ∀ i, region.mem i = true → isHeader layout i = true →
    withoutLoop (FlowNode.item i).index = true) : awaited layout withoutLoop region = 0 := by
  refine Multiset.filter_eq_nil.mpr fun i hi => ?_
  rw [Region.members, Multiset.mem_coe, NodeSet.mem_toList] at hi
  rw [Bool.and_eq_true, Bool.not_eq_true', not_and, Bool.not_eq_false]
  exact h i hi

end Awaited

/-! ### Regions and their entries -/

/-- What the recovery of loops relies on in a dominator tree: nodes that dominate each other are one, and
the walk from a node comes to all headers that the node dominates. -/
structure Walked (layout : Layout) : Prop where
  antisymm : ∀ a b, layout.tree.dominates a b = true → layout.tree.dominates b a = true → a = b
  met : ∀ entry i, isHeader layout i = true →
    layout.tree.dominates entry (FlowNode.item i).index = true →
    (FlowNode.item i).index ∈ layout.tree.breadthFirst entry

/-- A region is entered at a node that dominates the headers in it.  The node is in the region itself
when its loop is left out. -/
structure Entered (layout : Layout) (region : Region) (entry : Nat) (excludeEntry : Bool) : Prop where
  dominates : ∀ i, region.mem i = true → isHeader layout i = true →
    layout.tree.dominates entry (FlowNode.item i).index = true
  own : excludeEntry = true → ∃ i, region.mem i = true ∧ (FlowNode.item i).index = entry

/-- How many levels the recovery of a region may go down. -/
def depth (region : Region) (excludeEntry : Bool) : Nat :=
  2 * (Region.members region).card + if excludeEntry then 0 else 1

/-- A part of a region has as many items or fewer. -/
lemma card_members_le {region content : Region} (h : Within content region) :
    (Region.members content).card ≤ (Region.members region).card := by
  rw [Region.members_eq_add h (NodeSet.mem_filter (fun i => !content.mem i) region),
    Multiset.card_add]
  exact Nat.le_add_right _ _

/-- A part of a region without one of its items has fewer. -/
lemma card_members_lt {region content : Region} {i : Nat} (h : Within content region)
    (hi : region.mem i = true) (hout : content.mem i = false) :
    (Region.members content).card < (Region.members region).card := by
  have hrest : Within content (region.erase i) := by
    intro j hj
    rw [NodeSet.mem_erase, h j hj, Bool.true_and, decide_eq_true_eq]
    rintro rfl
    rw [hout] at hj
    cases hj
  rw [Region.members_eq_cons hi, Multiset.card_cons]
  exact Nat.lt_succ_of_le (card_members_le hrest)

/-- The body of a loop with a test, which is without the header, has fewer levels. -/
lemma depth_lt_of_notMem {region content : Region} {excludeEntry excludeEntry' : Bool} {i : Nat}
    (h : Within content region) (hi : region.mem i = true) (hout : content.mem i = false) :
    depth content excludeEntry' < depth region excludeEntry := by
  have hcard := card_members_lt h hi hout
  unfold depth
  split <;> omega

/-- The body of an endless loop has fewer levels, when the loop that is left out is another one. -/
lemma depth_lt_of_leftOut {region content : Region} {excludeEntry : Bool} (h : Within content region)
    (hout : excludeEntry = true → ∃ i, region.mem i = true ∧ content.mem i = false) :
    depth content true < depth region excludeEntry := by
  cases hexclude : excludeEntry with
  | false =>
    have hcard := card_members_le h
    simp only [depth, if_true, Bool.false_eq_true, if_false]
    omega
  | true =>
    obtain ⟨i, hi, hout⟩ := hout hexclude
    exact depth_lt_of_notMem h hi hout

/-! ### Recovering loops -/

/-- The slots of a region hold the items as they were. -/
abbrev Untouched (items : List Stmt) (region : Region) (s : RecoveryState) : Prop :=
  Holds (fun i block => items[i]? = some (.basic block)) region s

/-- Two ways to recover a body that agree on all regions with less than `levels` levels, and make one
loop for each header. -/
def FindsHeaders (layout : Layout) (items : List Stmt) (levels : Nat) (inner inner' : Inner) : Prop :=
  ∀ region entry excludeEntry s, Untouched items region s →
    Entered layout region entry excludeEntry → depth region excludeEntry < levels →
    Agree (inner region entry excludeEntry) (inner' region entry excludeEntry) s fun body t =>
      (Stmt.loopHeadersOfList none body : Multiset (Option LabelId)) =
          (awaited layout (leftOut entry excludeEntry) region).map (labelOf items) ∧
        Keeps region s t

section Recovering

variable {layout : Layout} {items : List Stmt} {levels : Nat} {inner inner' : Inner}
  {withoutLoop : Nat → Bool} {progress : Progress} {item : Nat} {s : RecoveryState}

/-- What a loop leaves: the loop itself is placed, its header is claimed, and the headers of the loops in
it and those in the rest of the region make up those that the region had. -/
def LoopPlaced (layout : Layout) (items : List Stmt) (withoutLoop : Nat → Bool) (progress : Progress)
    (item : Nat) (s : RecoveryState) (next : Progress) (t : RecoveryState) : Prop :=
  ∃ loop : BasicBlock, next.placed = progress.placed ++ [(item, .basic loop)] ∧
    Within next.region progress.region ∧ next.region.mem item = false ∧
    Untouched items next.region t ∧ Keeps progress.region s t ∧
    (Stmt.loopHeadersOfList none loop.body : Multiset (Option LabelId)) +
        (awaited layout withoutLoop next.region).map (labelOf items) =
      (awaited layout withoutLoop progress.region).map (labelOf items)

/-- A loop that has claimed a part of the region, with a header for each one in that part. -/
lemma loopPlaced_of_claimed {next : Progress} {t : RecoveryState} {claimed : Region} {loop : BasicBlock}
    (huntouched : Untouched items progress.region s) (hclaimed : Within claimed progress.region)
    (hitem : claimed.mem item = true)
    (hrest : ∀ i, next.region.mem i = (progress.region.mem i && !claimed.mem i))
    (hplaced : next.placed = progress.placed ++ [(item, .basic loop)]) (hkeeps : Keeps claimed s t)
    (hheaders : (Stmt.loopHeadersOfList none loop.body : Multiset (Option LabelId)) =
      (awaited layout withoutLoop claimed).map (labelOf items)) :
    LoopPlaced layout items withoutLoop progress item s next t := by
  have hnext : ∀ i, next.region.mem i = true → progress.region.mem i = true ∧ claimed.mem i = false := by
    intro i hi
    rwa [hrest, Bool.and_eq_true, Bool.not_eq_true'] at hi
  refine ⟨loop, hplaced, fun i hi => (hnext i hi).1, ?_, ?_, hkeeps.mono hclaimed, ?_⟩
  · simp [hrest, hitem]
  · exact (huntouched.mono fun i hi => (hnext i hi).1).keep hkeeps fun i hi => (hnext i hi).2
  · rw [hheaders, awaited_eq_add hclaimed hrest, Multiset.map_add]

/-- The body of a loop with a test lies in the region, without the header, and the header dominates it. -/
lemma of_mem_testedBody {region content : Region} {exit : LabelId} {i : Nat}
    (hcontent : ∀ i, content.mem i = true → region.mem i = true ∧
      layout.tree.dominates (FlowNode.item item).index (FlowNode.item i).index = true)
    (hi : ((content.erase item).union
      (pulled layout (region.erase item) (FlowNode.item item).index exit)).mem i = true) :
    (region.erase item).mem i = true ∧
      layout.tree.dominates (FlowNode.item item).index (FlowNode.item i).index = true := by
  rw [NodeSet.mem_union, Bool.or_eq_true] at hi
  rcases hi with hi | hi
  · rw [NodeSet.mem_erase, Bool.and_eq_true] at hi ⊢
    exact ⟨⟨(hcontent i hi.1).1, hi.2⟩, (hcontent i hi.1).2⟩
  · exact of_mem_pulled hi

/-- The recovery of one loop makes a loop for its header and for each header in its body. -/
lemma agree_recoverLoop (hinner : FindsHeaders layout items levels inner inner')
    (hlabels : ∀ block, items[item]? = some (.basic block) → ∃ label, block.entryLabel? = some label)
    (huntouched : Untouched items progress.region s) (hitem : progress.region.mem item = true)
    (hheader : isHeader layout item = true)
    (hin : ∀ i, progress.region.mem i = true →
      layout.tree.dominates (FlowNode.item item).index (FlowNode.item i).index = true →
      withoutLoop (FlowNode.item i).index = false)
    (hlevels : ∀ content : Region, (∀ i, content.mem i = true → progress.region.mem i = true ∧
        layout.tree.dominates (FlowNode.item item).index (FlowNode.item i).index = true) →
      depth content true < levels ∧ (content.mem item = false → depth content false < levels)) :
    Agree (recoverLoop inner layout progress item) (recoverLoop inner' layout progress item) s
      (LoopPlaced layout items withoutLoop progress item s) := by
  obtain ⟨header, hslot, horiginal⟩ := huntouched item hitem
  obtain ⟨label, hlabel⟩ := hlabels header horiginal
  have hlabelOf : labelOf items item = some label := by
    simp [labelOf, horiginal, FlowGraph.headLabel?, hlabel]
  have hown := hin item hitem (layout.tree.dominates_self _)
  have hcontent : ∀ i,
      (layout.loopContent progress.region (FlowNode.item item).index).mem i = true →
      progress.region.mem i = true ∧
        layout.tree.dominates (FlowNode.item item).index (FlowNode.item i).index = true :=
    fun i hi => Layout.of_mem_loopContent hi
  have hhead : (layout.loopContent progress.region (FlowNode.item item).index).mem item = true :=
    Layout.mem_loopContent hitem
  unfold recoverLoop
  dsimp only
  generalize layout.loopContent progress.region (FlowNode.item item).index = content
    at hcontent hhead
  refine Tracks.bind (.of_yields (Recovery.yields_basicBlock? item s)) ?_
  rintro _ t ⟨rfl, rfl⟩
  simp only [hslot, Recovery.basicOf?, Option.bind_some]
  cases htest : test? layout content header with
  | some test =>
    obtain ⟨label', e, target, other, hbody, -⟩ := exists_body_of_test? htest
    obtain rfl : label' = label := by
      simpa [BasicBlockOf.entryLabel?, hbody] using hlabel
    dsimp only
    refine Tracks.bind (.of_yields (Recovery.yields_remove hhead t)) ?_
    rintro _ _ ⟨rfl, rfl⟩
    refine Tracks.bind (.of_yields (Recovery.yields_remove hitem _)) ?_
    rintro _ t ⟨rfl, rfl⟩
    -- The body is what is left of the loop without its header, and what is pulled in.
    have hinside := fun i => @of_mem_testedBody layout item progress.region content test.exit i hcontent
    generalize (content.erase item).union
      (pulled layout (progress.region.erase item) (FlowNode.item item).index test.exit) = body
      at hinside
    have hwithin : Within body (progress.region.erase item) := fun i hi => (hinside i hi).1
    have hpart : ∀ i, body.mem i = true → (progress.region.mem i = true ∧ i ≠ item) ∧
        layout.tree.dominates (FlowNode.item item).index (FlowNode.item i).index = true := by
      intro i hi
      have hmem := hinside i hi
      rwa [NodeSet.mem_erase, Bool.and_eq_true, decide_eq_true_eq, ne_comm] at hmem
    have hout : body.mem item = false := Bool.eq_false_iff.mpr fun hi => (hpart item hi).1.2 rfl
    refine Tracks.bind (.of_yields (Recovery.yields_claimAll hwithin t)) ?_
    rintro rest _ ⟨rfl, hrest⟩
    have hentered : Entered layout body (FlowNode.item item).index false :=
      ⟨fun i hi _ => (hpart i hi).2, by simp⟩
    refine Tracks.bind (hinner body _ false _ (huntouched.mono fun i hi => (hpart i hi).1.1) hentered
      ((hlevels body fun i hi => ⟨(hpart i hi).1.1, (hpart i hi).2⟩).2 hout)) ?_
    rintro stmts u ⟨hheaders, hkept⟩
    have hslot' : u.slot item = some (.basic header) := by
      rw [hkept.slots item hout, hslot]
    refine Tracks.bind (.of_yields (yields_testedLoop hslot' hbody)) ?_
    rintro _ v ⟨rfl, -, hkeeps⟩
    have hclaimed : Within (body.insert item) progress.region := by
      intro i hi
      rw [NodeSet.mem_insert, Bool.or_eq_true, decide_eq_true_eq] at hi
      rcases hi with hi | rfl
      · exact (hpart i hi).1.1
      · exact hitem
    refine .of_yields (.pure (loopPlaced_of_claimed huntouched hclaimed (by simp) ?_ rfl ?_ ?_))
    · intro i
      rw [hrest, NodeSet.mem_erase, NodeSet.mem_insert]
      cases progress.region.mem i <;> cases body.mem i <;> simp
    · exact (hkept.mono fun i hi => by simp [hi]).trans (hkeeps.mono (within_only (by simp)))
    · have herase : (body.insert item).erase item = body := by
        refine Region.ext fun i => ?_
        rw [NodeSet.mem_erase, NodeSet.mem_insert]
        by_cases hi : item = i
        · simp [← hi, hout]
        · simp [hi]
      have hsame : awaited layout withoutLoop body =
          awaited layout (leftOut (FlowNode.item item).index false) body := by
        refine awaited_congr fun i hi => ?_
        rw [hin i (hpart i hi).1.1 (hpart i hi).2, leftOut, Bool.and_false]
      rw [awaited_eq_cons (by simp) hheader hown, herase, hsame, Multiset.map_cons, ← hheaders,
        hlabelOf]
      simp [Stmt.loopHeadersOfList, Stmt.loopHeaders, Stmt.ownLabel?]
  | none =>
    simp only [hlabel]
    have hwithin : Within content progress.region := fun i hi => (hcontent i hi).1
    refine Tracks.bind (.of_yields (Recovery.yields_claimAll hwithin t)) ?_
    rintro rest _ ⟨rfl, hrest⟩
    have hentered : Entered layout content (FlowNode.item item).index true :=
      ⟨fun i hi _ => (hcontent i hi).2, fun _ => ⟨item, hhead, rfl⟩⟩
    refine Tracks.bind (hinner content _ true _ (huntouched.mono hwithin) hentered
      (hlevels content hcontent).1) ?_
    rintro stmts u ⟨hheaders, hkept⟩
    refine Tracks.bind (.of_yields (yields_endlessLoop label stmts u)) ?_
    rintro _ v ⟨rfl, hkeeps⟩
    refine .of_yields (.pure (loopPlaced_of_claimed huntouched hwithin hhead hrest rfl
      (hkept.trans (hkeeps.mono within_empty)) ?_))
    -- The header is left out in the body, and it is the header of the new loop.
    have hsame : awaited layout withoutLoop (content.erase item) =
        awaited layout (leftOut (FlowNode.item item).index true) content := by
      rw [awaited_erase hhead (by simp)]
      refine awaited_congr fun i hi => ?_
      rw [NodeSet.mem_erase, Bool.and_eq_true, decide_eq_true_eq] at hi
      rw [hin i (hcontent i hi.1).1 (hcontent i hi.1).2, leftOut, Bool.and_true, eq_comm,
        beq_eq_false_iff_ne]
      simpa [FlowNode.index] using Ne.symm hi.2
    rw [awaited_eq_cons hhead hheader hown, hsame, Multiset.map_cons, ← hheaders, hlabelOf]
    simp [Stmt.loopHeadersOfList, Stmt.loopHeaders]

/-- The recovery of scopes does nothing at a block at whose end no scope starts. -/
lemma exec_recoverScope_of_none {region : Region} {block : BasicBlock}
    (hslot : s.slot item = some (.basic block)) (hnone : scopeStart? block = none) :
    exec (recoverScope inner layout region item) s = (.ok region, s) := by
  unfold recoverScope
  rw [exec_bind_of_ok (Recovery.exec_basicBlock? item s), hslot, Recovery.basicOf?, Option.bind_some,
    hnone]
  rfl

/-- What is known on the way down the tree, once the nodes `met` have been met: the headers of the loops
that have been placed and those that are still to be claimed make up those of the region, and no header
that has been met is still to be claimed. -/
structure Descending (layout : Layout) (items : List Stmt) (withoutLoop : Nat → Bool) (outer : Region)
    (s₀ : RecoveryState) (met : List Nat) (progress : Progress) (s : RecoveryState) : Prop where
  within : Within progress.region outer
  untouched : Untouched items progress.region s
  keeps : Keeps outer s₀ s
  blocks : ∀ p ∈ progress.placed, ∃ block, p.2 = .basic block
  headers : ((progress.placed.flatMap fun p => p.2.loopHeaders none : List (Option LabelId)) :
        Multiset (Option LabelId)) + (awaited layout withoutLoop progress.region).map (labelOf items) =
      (awaited layout withoutLoop outer).map (labelOf items)
  claimed : ∀ i, progress.region.mem i = true → (FlowNode.item i).index ∈ met →
    isHeader layout i = true → withoutLoop (FlowNode.item i).index = true

/-- One more node has been met, and nothing has been done there. -/
lemma Descending.meet {outer : Region} {s₀ : RecoveryState} {met : List Nat} {node : Nat}
    (h : Descending layout items withoutLoop outer s₀ met progress s)
    (hnode : ∀ i, progress.region.mem i = true → (FlowNode.item i).index = node →
      isHeader layout i = true → withoutLoop (FlowNode.item i).index = true) :
    Descending layout items withoutLoop outer s₀ (met ++ [node]) progress s where
  within := h.within
  untouched := h.untouched
  keeps := h.keeps
  blocks := h.blocks
  headers := h.headers
  claimed := by
    intro i hi hmet hheader
    rcases List.mem_append.mp hmet with hmet | hmet
    · exact h.claimed i hi hmet hheader
    · exact hnode i hi (List.mem_singleton.mp hmet) hheader

/-- A loop has been placed at the node that has been met. -/
lemma Descending.place {outer : Region} {s₀ t : RecoveryState} {met : List Nat} {next : Progress}
    (h : Descending layout items withoutLoop outer s₀ met progress s)
    (hnext : LoopPlaced layout items withoutLoop progress item s next t) :
    Descending layout items withoutLoop outer s₀ (met ++ [(FlowNode.item item).index]) next t := by
  obtain ⟨loop, hplaced, hwithin, hout, huntouched, hkeeps, hheaders⟩ := hnext
  refine ⟨fun i hi => h.within i (hwithin i hi), huntouched, h.keeps.trans (hkeeps.mono h.within), ?_, ?_,
    ?_⟩
  · rw [hplaced]
    intro p hp
    rcases List.mem_append.mp hp with hp | hp
    · exact h.blocks p hp
    · exact ⟨loop, by rw [List.mem_singleton.mp hp]⟩
  · rw [← h.headers, ← hheaders, hplaced, List.flatMap_append, ← Multiset.coe_add, add_assoc]
    simp [Stmt.loopHeaders]
  · intro i hi hmet hheader
    rcases List.mem_append.mp hmet with hmet | hmet
    · exact h.claimed i (hwithin i hi) hmet hheader
    · have hsame : i = item := by simpa [FlowNode.index] using hmet
      rw [hsame, hout] at hi
      cases hi

/-- What holds of the items before loops are recovered: they are simple blocks with labels, and no scope
starts in them. -/
structure Plain (items : List Stmt) : Prop where
  labels : ∀ (i : Nat) block, items[i]? = some (.basic block) → ∃ label, block.entryLabel? = some label
  scopes : ∀ (i : Nat) block, items[i]? = some (.basic block) → scopeStart? block = none
  loops : ∀ (i : Nat) block, items[i]? = some (.basic block) → Stmt.countList Stmt.isLoop block.body = 0

/-- The recovery at one header claims it. -/
lemma agree_recoverHeader (htree : Walked layout) (hitems : Plain items)
    (hinner : FindsHeaders layout items levels inner inner') {outer : Region} {entry : Nat}
    {excludeEntry : Bool} (hentered : Entered layout outer entry excludeEntry)
    (hdepth : depth outer excludeEntry ≤ levels) {s₀ : RecoveryState} {met : List Nat}
    (h : Descending layout items (leftOut entry excludeEntry) outer s₀ met progress s)
    (hitem : progress.region.mem item = true) (hheader : isHeader layout item = true)
    (hnot : leftOut entry excludeEntry (FlowNode.item item).index = false) :
    Agree (recoverLoop inner layout progress item) (recoverLoop inner' layout progress item) s
      (Descending layout items (leftOut entry excludeEntry) outer s₀
        (met ++ [(FlowNode.item item).index])) := by
  have habove := hentered.dominates item (h.within item hitem) hheader
  -- The header is below the entry and another node, so it does not dominate the entry.
  have hapart : excludeEntry = true → ¬ layout.tree.dominates (FlowNode.item item).index entry := by
    intro hexclude hbelow
    rw [leftOut, htree.antisymm _ _ hbelow habove, hexclude] at hnot
    simp at hnot
  refine (agree_recoverLoop hinner (hitems.labels item) h.untouched hitem hheader
    (fun i _ hi => ?_) fun content hcontent => ?_).mono fun next t hnext => h.place hnext
  · rw [leftOut, Bool.and_eq_false_imp, beq_iff_eq]
    rintro rfl
    exact Bool.eq_false_iff.mpr fun hexclude => hapart hexclude hi
  · have hle : Within content outer := fun i hi => h.within i (hcontent i hi).1
    refine ⟨(depth_lt_of_leftOut hle fun hexclude => ?_).trans_le hdepth,
      fun hout => (depth_lt_of_notMem hle (h.within item hitem) hout).trans_le hdepth⟩
    obtain ⟨i, hi, hown⟩ := hentered.own hexclude
    refine ⟨i, hi, Bool.eq_false_iff.mpr fun hmem => hapart hexclude ?_⟩
    exact hown ▸ (hcontent i hmem).2

/-- The recovery at one node claims the header there. -/
lemma agree_recoverAt (htree : Walked layout) (hitems : Plain items)
    (hinner : FindsHeaders layout items levels inner inner') {outer : Region} {entry : Nat}
    {excludeEntry : Bool} (hentered : Entered layout outer entry excludeEntry)
    (hdepth : depth outer excludeEntry ≤ levels) {s₀ : RecoveryState} {met : List Nat}
    (h : Descending layout items (leftOut entry excludeEntry) outer s₀ met progress s) (node : Nat) :
    Agree (recoverAt inner layout (leftOut entry excludeEntry) progress node)
      (recoverAt inner' layout (leftOut entry excludeEntry) progress node) s
      (Descending layout items (leftOut entry excludeEntry) outer s₀ (met ++ [node])) := by
  unfold recoverAt
  cases hnode : FlowNode.ofIndex node with
  | entry | exit =>
    refine .of_yields (.pure (h.meet fun i _ hi => ?_))
    rw [← hi] at hnode
    cases hnode
  | item item =>
    obtain rfl := FlowNode.index_of_ofIndex hnode
    have hone : ∀ i, (FlowNode.item i).index = (FlowNode.item item).index → i = item := by
      simp [FlowNode.index]
    dsimp only
    by_cases hitem : progress.region.mem item = true
    · rw [if_pos hitem, if_pos hitem]
      obtain ⟨block, hslot, horiginal⟩ := h.untouched item hitem
      have hnone := hitems.scopes item block horiginal
      have hscope : Agree (recoverScope inner layout progress.region item)
          (recoverScope inner' layout progress.region item) s
          fun region t => region = progress.region ∧ t = s :=
        .inl ⟨_, _, exec_recoverScope_of_none hslot hnone, exec_recoverScope_of_none hslot hnone, rfl,
          rfl⟩
      refine Tracks.bind hscope ?_
      rintro _ _ ⟨rfl, rfl⟩
      by_cases hloop : (layout.tree.inFrontier (FlowNode.item item).index (FlowNode.item item).index &&
          !leftOut entry excludeEntry (FlowNode.item item).index) = true
      · rw [if_pos hloop, if_pos hloop]
        rw [Bool.and_eq_true, Bool.not_eq_true'] at hloop
        exact agree_recoverHeader htree hitems hinner hentered hdepth h hitem hloop.1 hloop.2
      · rw [if_neg hloop, if_neg hloop]
        refine .of_yields (.pure (h.meet fun i hi hsame hheader => ?_))
        obtain rfl := hone i hsame
        rw [isHeader] at hheader
        simpa [hheader] using hloop
    · rw [if_neg hitem, if_neg hitem]
      refine .of_yields (.pure (h.meet fun i hi hsame => ?_))
      rw [hone i hsame] at hi
      exact absurd hi hitem

/-- At the end of the walk no header is left to be claimed, and what is left of the region is placed. -/
lemma yields_drainPlain (htree : Walked layout) (hitems : Plain items) {outer : Region} {entry : Nat}
    {excludeEntry : Bool} (hentered : Entered layout outer entry excludeEntry) {s₀ : RecoveryState}
    (h : Descending layout items (leftOut entry excludeEntry) outer s₀
      (layout.tree.breadthFirst entry) progress s) :
    Yields (do return inListOrder (progress.placed ++ (← Recovery.drain progress.region))) s
      fun body t =>
        (Stmt.loopHeadersOfList none body : Multiset (Option LabelId)) =
          (awaited layout (leftOut entry excludeEntry) outer).map (labelOf items) ∧
        Keeps outer s₀ t := by
  refine (Recovery.yields_drain h.untouched).bind ?_
  rintro drained t ⟨-, hdrained, -, hkeeps⟩
  refine .pure ⟨?_, h.keeps.trans (hkeeps.mono h.within)⟩
  have hnone : awaited layout (leftOut entry excludeEntry) progress.region = 0 := by
    refine awaited_eq_zero fun i hi hheader => h.claimed i hi ?_ hheader
    exact htree.met entry i hheader (hentered.dominates i (h.within i hi) hheader)
  have hsorted : (inListOrder (progress.placed ++ drained)).Perm
      ((progress.placed ++ drained).map Prod.snd) :=
    (perm_stableSort _ _).map Prod.snd
  have hblocks : ∀ s ∈ inListOrder (progress.placed ++ drained), ∃ block, s = .basic block := by
    intro s hs
    obtain ⟨p, hp, rfl⟩ := List.mem_map.mp (hsorted.mem_iff.mp hs)
    rcases List.mem_append.mp hp with hp | hp
    · exact h.blocks p hp
    · exact (hdrained p hp).imp fun block hblock => hblock.1
  have hplain : (drained.flatMap fun p => p.2.loopHeaders none) = [] := by
    refine List.flatMap_eq_nil_iff.mpr fun p hp => ?_
    obtain ⟨block, heq, horiginal⟩ := hdrained p hp
    rw [heq, ← List.length_eq_zero_iff]
    exact (Stmt.length_loopHeadersOfList none block.body).trans (hitems.loops p.1 block horiginal)
  have hheaders := h.headers
  rw [hnone, Multiset.map_zero, add_zero] at hheaders
  rw [Stmt.loopHeadersOfList_eq_flatMap hblocks, ← hheaders, Multiset.coe_eq_coe]
  refine (hsorted.flatMap_right _).trans ?_
  rw [List.flatMap_map, List.flatMap_append, hplain, List.append_nil]

end Recovering

/-- The recovery of loops makes one loop for each header, and what is below its last level does not
matter. -/
theorem finds_recoverOver {layout : Layout} {items : List Stmt} (htree : Walked layout)
    (hitems : Plain items) (deepest deepest' : Inner) (levels : Nat) :
    FindsHeaders layout items levels (recoverOver deepest layout levels)
      (recoverOver deepest' layout levels) := by
  induction levels with
  | zero => exact fun _ _ _ _ _ _ hdepth => absurd hdepth (Nat.not_lt_zero _)
  | succ levels ih =>
    intro region entry excludeEntry s huntouched hentered hdepth
    have hstart : Descending layout items (leftOut entry excludeEntry) region s []
        { region } s :=
      ⟨fun _ hi => hi, huntouched, .refl, by simp, by simp, by simp⟩
    have hwalk := Agree.foldlM_met
      (Descending layout items (leftOut entry excludeEntry) region s)
      (layout.tree.breadthFirst entry) (fun met progress node t h =>
        agree_recoverAt htree hitems ih hentered (Nat.le_of_lt_succ hdepth) h node) hstart
    exact hwalk.bind fun progress t h => .of_yields (yields_drainPlain htree hitems hentered h)

end Loops

/-! ### Whole lists -/

/-- The block at position `i` is the header of a loop: control comes to it from the entry, and an edge
leads to it from a block that it dominates. -/
def IsLoopHeader (blocks : List BasicBlock) (i : Nat) : Prop :=
  let block := blockOfBasicBlocks blocks
  let graph := (FlowGraph.build block.body block.entry).graph
  graph.Reaches FlowNode.entry.index (FlowNode.item i).index ∧
    ∃ j, ((FlowNode.item j).index, (FlowNode.item i).index) ∈ graph.edges ∧
      graph.Dominates FlowNode.entry.index (FlowNode.item i).index (FlowNode.item j).index

/-- As `findLoops`, but with `deepest` for the recovery of bodies that are nested deeper than the
recovery goes. -/
def findLoopsOver (deepest : Loops.Inner) (block : Block) (context : Context) :
    Except Error Block × Context :=
  let layout := Layout.ofBlock block
  let recovery := Loops.recoverOver deepest layout (2 * block.body.length + 2) layout.fullRegion
    layout.flow.first.index false
  let (result, context) := recovery.run block.body context
  (result.map fun body => { block with body }, context)

/-- The recovery of loops leaves bodies that are nested too deep as they are. -/
lemma findLoops_eq_findLoopsOver (block : Block) (context : Context) :
    findLoops block context =
      findLoopsOver (Loops.recover (Layout.ofBlock block) 0) block context := by
  rw [findLoops, findLoopsOver, Loops.recover_eq_recoverOver]

namespace Loops

open DominatorTree

variable {bound : Nat} {block : Block} {blocks : List BasicBlock} {i : Nat}

/-- The tree of a list has the immediate dominators. -/
lemma immediate_ofBlock (block : Block) : Immediate (Layout.ofBlock block).flow.graph
    FlowNode.entry.index (Layout.ofBlock block).tree := by
  have hg := FlowGraph.proper_build block.body block.entry
  have hroot : FlowNode.entry.index < (FlowGraph.build block.body block.entry).graph.size :=
    Nat.zero_lt_succ _
  exact immediate_ofOrder hg hroot (Digraph.isReversePostorder_reversePostorder hg hroot)

/-- The tree of a list has the frontiers. -/
lemma hasFrontiers_ofBlock (block : Block) : HasFrontiers (Layout.ofBlock block).flow.graph
    FlowNode.entry.index (Layout.ofBlock block).tree :=
  (immediate_ofBlock block).hasFrontiers
    (FlowGraph.notMem_edges_build_entry block.body block.entry)

/-- Control comes to every header. -/
lemma reaches_of_isHeader (h : isHeader (Layout.ofBlock block) i = true) :
    (Layout.ofBlock block).flow.graph.Reaches FlowNode.entry.index (FlowNode.item i).index :=
  (((hasFrontiers_ofBlock block).inFrontier_iff _ _).mp h).1

/-- The tree of a list is walked as the recovery of loops needs it. -/
lemma walked_ofBlock (block : Block) : Walked (Layout.ofBlock block) where
  antisymm _ _ := (immediate_ofBlock block).eq_of_dominates_dominates
  met _ _ hheader := (immediate_ofBlock block).mem_breadthFirst
    (FlowGraph.proper_build block.body block.entry) (Nat.zero_lt_succ _) (reaches_of_isHeader hheader)

/-- A list is entered at a node that dominates all headers. -/
lemma entered_fullRegion (block : Block) : Entered (Layout.ofBlock block)
    (Layout.ofBlock block).fullRegion (Layout.ofBlock block).flow.first.index false where
  dominates i _ hheader := by
    have hreach := reaches_of_isHeader hheader
    refine (immediate_ofBlock block).dominates_iff.mpr (.inr ⟨hreach, ?_⟩)
    exact FlowGraph.guards_first (by simp [FlowNode.index])
  own := by simp

/-- The headers of the program are the headers of loops. -/
lemma isHeader_iff :
    isHeader (Layout.ofBlock (blockOfBasicBlocks blocks)) i = true ↔ IsLoopHeader blocks i := by
  have hfrontiers := hasFrontiers_ofBlock (blockOfBasicBlocks blocks)
  constructor
  · intro h
    have hreach := reaches_of_isHeader h
    obtain ⟨p, hedge, hdom⟩ := (hfrontiers.inFrontier_self_iff _ hreach).mp h
    refine ⟨hreach, ?_⟩
    rcases (FlowGraph.of_mem_edges_build hedge).1 with rfl | ⟨j, -, rfl⟩
    · -- no block dominates the entry
      have hsame := ((Digraph.Reaches.refl _ _).dominates_iff.mp hdom).eq_root
      exact absurd hsame (by simp [FlowNode.index])
    · exact ⟨j, hedge, hdom⟩
  · rintro ⟨hreach, j, hedge, hdom⟩
    exact (hfrontiers.inFrontier_self_iff _ hreach).mpr ⟨_, hedge, hdom⟩

/-- The headers of a list have their positions in it. -/
lemma lt_of_isLoopHeader (h : IsLoopHeader blocks i) : i < blocks.length := by
  obtain ⟨-, j, hedge, -⟩ := h
  rcases (FlowGraph.of_mem_edges_build hedge).2 with heq | ⟨k, hk, heq⟩
  · cases heq
  · obtain rfl : i = k := by simpa [FlowNode.index] using heq
    simpa [blockOfBasicBlocks] using hk

/-- The label of a block of a list. -/
lemma labelOf_basic (blocks : List BasicBlock) (i : Nat) :
    labelOf (blockOfBasicBlocks blocks).body i = blocks[i]?.bind BasicBlockOf.entryLabel? := by
  rw [labelOf, blockOfBasicBlocks, List.getElem?_map]
  cases blocks[i]? <;> rfl

/-- The blocks of a well-formed list in which no scope starts are plain. -/
lemma plain_basic (hwf : WellFormed bound blocks) (hsimple : AllStmts (Stmt.isSimple · = true) blocks)
    (hscopes : AllStmts (fun s => ∀ env skip, s ≠ .pushEnv env skip) blocks) :
    Plain (blockOfBasicBlocks blocks).body where
  labels i block h := by
    obtain ⟨label, -, hshaped⟩ := hwf.shaped block (List.mem_of_getElem? (getElem?_of_basic h))
    exact ⟨label, hshaped.entryLabel?⟩
  scopes i block h := by
    rw [Option.eq_none_iff_forall_ne_some]
    rintro ⟨env, skip, enter⟩ hstart
    obtain ⟨init, -, hbody⟩ := scopeStart?_eq_some hstart
    refine hscopes block (List.mem_of_getElem? (getElem?_of_basic h)) (.pushEnv env skip) ?_ env skip rfl
    simp [hbody]
  loops i block h := by
    refine Stmt.countList_eq_zero fun s hs => Stmt.count_isLoop_of_isSimple ?_
    exact hsimple block (List.mem_of_getElem? (getElem?_of_basic h)) s hs

/-- The headers of a whole list. -/
lemma awaited_fullRegion (blocks : List BasicBlock) (entry : Nat) :
    awaited (Layout.ofBlock (blockOfBasicBlocks blocks)) (leftOut entry false)
        (Layout.ofBlock (blockOfBasicBlocks blocks)).fullRegion =
      ((List.range blocks.length).filter (isHeader (Layout.ofBlock (blockOfBasicBlocks blocks))) :
        List Nat) := by
  rw [awaited, members_fullRegion]
  simp [blockOfBasicBlocks, Multiset.range]

/-- The recovery of a list makes one loop for each header, whatever is below its last level. -/
lemma exists_findLoopsOver (context : Context) (hitems : Plain (blockOfBasicBlocks blocks).body) :
    ∃ body context',
      (Stmt.loopHeadersOfList none body).Perm (((List.range blocks.length).filter
        (isHeader (Layout.ofBlock (blockOfBasicBlocks blocks)))).map
          fun i => blocks[i]?.bind BasicBlockOf.entryLabel?) ∧
      ∀ deepest, findLoopsOver deepest (blockOfBasicBlocks blocks) context =
        (.ok { blockOfBasicBlocks blocks with body }, context') := by
  have huntouched : Untouched (blockOfBasicBlocks blocks).body
      (Layout.ofBlock (blockOfBasicBlocks blocks)).fullRegion
      (.start (blockOfBasicBlocks blocks).body context) := by
    refine holds_fullRegion (fun i item hitem => ?_) context
    obtain ⟨b, -, rfl⟩ := List.mem_map.mp (List.mem_of_getElem? hitem)
    exact ⟨b, rfl, hitem⟩
  have hdepth : depth (Layout.ofBlock (blockOfBasicBlocks blocks)).fullRegion false <
      2 * (blockOfBasicBlocks blocks).body.length + 2 := by
    rw [depth, members_fullRegion, Multiset.card_range]
    exact Nat.lt_succ_self _
  have hruns := fun deepest => (finds_recoverOver (walked_ofBlock (blockOfBasicBlocks blocks)) hitems
    deepest (recover (Layout.ofBlock (blockOfBasicBlocks blocks)) 0) _ _ _ false _ huntouched
    (entered_fullRegion _) hdepth).exists_ok
  obtain ⟨body, t, -, hrun, hheaders, -⟩ :=
    hruns (recover (Layout.ofBlock (blockOfBasicBlocks blocks)) 0)
  refine ⟨body, t.context, ?_, fun deepest => ?_⟩
  · rw [← Multiset.coe_eq_coe, hheaders, awaited_fullRegion, Multiset.map_coe]
    exact congrArg _ (List.map_congr_left fun i _ => labelOf_basic blocks i)
  · obtain ⟨body', t', hover, hrun', -⟩ := hruns deepest
    rw [hrun] at hrun'
    cases hrun'
    simp only [findLoopsOver, Recovery.run_eq, hover]
    rfl

/-- In a well-formed list of simulated blocks in which no scope starts, the recovery of loops succeeds
and makes exactly one loop for each header.  The header of a loop with a test is the label before it, and
that of an endless loop is the label at which its body is entered.  The recursion comes to an end: what
would be done below its last level does not matter. -/
theorem oneLoopPerHeader_findLoops {blocks : List BasicBlock} {context : Context}
    (hwf : WellFormed context.labels.names.length blocks)
    (hsimple : AllStmts (Stmt.isSimple · = true) blocks)
    (hscopes : AllStmts (fun s => ∀ env skip, s ≠ .pushEnv env skip) blocks) :
    ∃ (tree : Block) (context' : Context) (headers : List Nat),
      findLoops (blockOfBasicBlocks blocks) context = (.ok tree, context') ∧
      headers.Nodup ∧ (∀ i, i ∈ headers ↔ IsLoopHeader blocks i) ∧
      Stmt.countList Stmt.isLoop tree.body = headers.length ∧
      (Stmt.loopHeadersOfList none tree.body).Nodup ∧
      (Stmt.loopHeadersOfList none tree.body).Perm
        (headers.map fun i => blocks[i]?.bind BasicBlockOf.entryLabel?) ∧
      ∀ deepest, findLoopsOver deepest (blockOfBasicBlocks blocks) context = (.ok tree, context') := by
  obtain ⟨body, context', hperm, hover⟩ :=
    exists_findLoopsOver context (plain_basic hwf hsimple hscopes)
  generalize hheaders : (List.range blocks.length).filter
    (isHeader (Layout.ofBlock (blockOfBasicBlocks blocks))) = headers at hperm
  have hnodup : headers.Nodup := hheaders ▸ List.nodup_range.filter _
  have hmem : ∀ i, i ∈ headers ↔ IsLoopHeader blocks i := by
    intro i
    rw [← hheaders, List.mem_filter, List.mem_range, isHeader_iff]
    exact ⟨fun h => h.2, fun h => ⟨lt_of_isLoopHeader h, h⟩⟩
  have hdistinct : (headers.map fun i => blocks[i]?.bind BasicBlockOf.entryLabel?).Nodup := by
    refine hnodup.map_on fun i hi j hj hsame => ?_
    have hi' := lt_of_isLoopHeader ((hmem i).mp hi)
    have hj' := lt_of_isLoopHeader ((hmem j).mp hj)
    rw [List.getElem?_eq_getElem hi', List.getElem?_eq_getElem hj'] at hsame
    exact hwf.position_eq (List.getElem?_eq_getElem hi') (List.getElem?_eq_getElem hj') hsame
  refine ⟨_, context', headers, ?_, hnodup, hmem, ?_, hperm.nodup_iff.mpr hdistinct, hperm, hover⟩
  · rw [findLoops_eq_findLoopsOver, hover]
  · rw [← Stmt.length_loopHeadersOfList none, hperm.length_eq, List.length_map]

/-- A block that is repeated within a loop with a test: two headers, and two loops. -/
theorem nestedLoops_oneLoopPerHeader :
    WellFormed fiveLabels.labels.names.length Execution.nestedLoops ∧
      ∃ (tree : Block) (context' : Context) (headers : List Nat),
        findLoops (blockOfBasicBlocks Execution.nestedLoops) fiveLabels = (.ok tree, context') ∧
        (∀ i, i ∈ headers ↔ IsLoopHeader Execution.nestedLoops i) ∧
        Stmt.loopHeadersOfList none tree.body = [some 0, some 1] ∧ headers.length = 2 := by
  have hwf : WellFormed fiveLabels.labels.names.length Execution.nestedLoops := by decide
  obtain ⟨tree, context', headers, hrun, -, hmem, hcount, -, hperm, -⟩ := oneLoopPerHeader_findLoops hwf
    (by simp [AllStmts, Execution.nestedLoops, Stmt.isSimple, Stmt.isInner])
    (by simp [AllStmts, Execution.nestedLoops])
  have hfound : (findLoops (blockOfBasicBlocks Execution.nestedLoops) fiveLabels).1.toOption.map
      (fun tree => Stmt.loopHeadersOfList none tree.body) = some [some 0, some 1] := by
    decide +kernel
  rw [hrun] at hfound
  have htree : Stmt.loopHeadersOfList none tree.body = [some 0, some 1] := Option.some.inj hfound
  refine ⟨hwf, tree, context', headers, hrun, hmem, htree, ?_⟩
  rw [← hcount, ← Stmt.length_loopHeadersOfList none, htree]
  rfl

end Loops

end Decompiler
