import Decompiler.Proofs.KeptCode
import Decompiler.Proofs.TreeExecution

/-!
# Recovered loops run like the blocks they are made of

A list of blocks and the tree that the recovery of loops makes of it run alike, as long as no scope is
recovered.  Control is always inside of a block and never runs off its end, so that what stands around
the block does not matter (`Inside`, `machine_of_inside`); it leaves the block by a jump, and a jump lands
at the same block on both sides, or at the header of a loop with the test of that block
(`Loops.Arranges.land`).  The test of a loop asks what the branch of its header asked, and control then
goes to the same label.
-/

namespace Decompiler

namespace Execution

open Loops

variable {blocks : List BasicBlock} {bound : Nat}

/-! ### Negated tests -/

/-- A test and its negation ask the same question. -/
lemma question_not (e : Expr) : question e.negate = ((question e).1, !(question e).2) :=
  Expr.polarity_simplifyNot_negate e

/-- A test and its negation leave the same record. -/
lemma Oracle.asking_not (oracle : Oracle) (history : List Event) (e : Expr) :
    oracle.asking history e.negate = oracle.asking history e := by
  rw [asking, question_not]
  rfl

/-- The negation of a test holds exactly when the test does not. -/
lemma Oracle.decides_not (oracle : Oracle) (history : List Event) (e : Expr) :
    oracle.decides history e.negate = !oracle.decides history e := by
  rw [decides, question_not, decides]
  exact Bool.bne_not _ _

/-! ### Inside of a block -/

/-- The code at a place inside of a block, and the frames between the place and the block: what is left of
the block, or what is left of the body of a scope in it. -/
inductive Inside (blocks : List BasicBlock) : List Stmt → List Frame → Prop where
  | top {block : BasicBlock} {code : List Stmt} (hblock : block ∈ blocks) (hne : code ≠ [])
      (hcode : code <:+ block.body) : Inside blocks code []
  | scope {env : Expr} {code body rest : List Stmt} {inner : List Frame}
      (hcode : Stmt.innerList code = true) (hbody : Stmt.innerList body = true)
      (hrest : Inside blocks rest inner) : Inside blocks code (.scope env body none rest :: inner)

/-- The label of some block. -/
def IsEntry (blocks : List BasicBlock) (label : LabelId) : Prop :=
  ∃ block ∈ blocks, block.entryLabel? = some label

/-- How control goes on from inside of a block, whatever the unit and the frames around the block are: it
stays inside, jumps to the label of a block, or ends. -/
inductive Goes (blocks : List BasicBlock) (oracle : Oracle) (history : List Event) (code : List Stmt)
    (inner : List Frame) : Prop where
  | on (events : List Event) (code' : List Stmt) (inner' : List Frame)
      (hinside : Inside blocks code' inner')
      (hstep : ∀ unit frames, machine oracle unit history ⟨code, inner ++ frames⟩ =
        .go events ⟨code', inner' ++ frames⟩)
  | jump (events : List Event) (target : LabelId) (htarget : IsEntry blocks target)
      (hstep : ∀ unit frames, machine oracle unit history ⟨code, inner ++ frames⟩ =
        goOr (.lost target) events (land? unit.body (inner ++ frames) target))
  | stop (events : List Event) (ending : Ending)
      (hstep : ∀ unit frames, machine oracle unit history ⟨code, inner ++ frames⟩ =
        .stop events ending)

/-- Every branch of a well-formed list goes to the label of a block. -/
lemma isEntry_of_mem_targets (hwf : WellFormed bound blocks) {block : BasicBlock}
    (hblock : block ∈ blocks) {s : Stmt} (hs : s ∈ block.body) {target : LabelId}
    (htarget : target ∈ s.targets) : IsEntry blocks target := by
  have hmem : target ∈ (BlockMap.ofBlocks blocks).mentions := by
    rw [mentions_ofBlocks]
    exact List.mem_flatten.mpr ⟨_, List.mem_map_of_mem hblock, Stmt.mem_targetsOfList.mpr ⟨s, hs, htarget⟩⟩
  obtain ⟨entry, hentry, hlabel⟩ := List.mem_map.mp (hwf.closed target hmem)
  exact ⟨entry, hentry, hlabel⟩

/-- The last statement of a block is a jump or the end of the unit. -/
lemma exists_last {label : LabelId} {block : BasicBlock} (hshaped : block.Shaped label) :
    ∃ init last, block.body = init ++ [last] ∧ last.endsBlock = true := by
  obtain ⟨middle, ending, hbody, -, -, hending⟩ := hshaped
  match ending, hending with
  | [last], hlast => exact ⟨.label label :: middle, last, by simp [hbody], hlast⟩
  | [branch, last], hlast =>
    obtain ⟨target, rfl⟩ : ∃ target, last = .goto target := by
      cases last with
      | goto target => exact ⟨target, rfl⟩
      | _ => simp [isEnding, Stmt.isGoto] at hlast
    exact ⟨.label label :: (middle ++ [branch]), .goto target, by simp [hbody], rfl⟩

/-- A statement that control may pass is not the last one of its block. -/
lemma ne_nil_of_suffix {label : LabelId} {block : BasicBlock} (hshaped : block.Shaped label) {s : Stmt}
    {rest : List Stmt} (hsuffix : s :: rest <:+ block.body) (hs : s.endsBlock = false) : rest ≠ [] := by
  rintro rfl
  obtain ⟨init, hinit⟩ := hsuffix
  obtain ⟨init', last, hlast, hends⟩ := exists_last hshaped
  have htail := (List.append_inj' (hinit.trans hlast) rfl).2
  cases htail
  rw [hs] at hends
  cases hends

/-- The step of a statement that may stand in the body of a scope. -/
lemma stmtStep_of_isInner {s : Stmt} (hs : s.isInner = true) :
    (∀ oracle root history frames rest, stmtStep oracle root history frames rest s =
        .go [.ran s] ⟨rest, frames⟩) ∨
      ∃ env body, Stmt.innerList body = true ∧ ∀ oracle root history frames rest,
        stmtStep oracle root history frames rest s = .go [] ⟨[], .scope env body none rest :: frames⟩ := by
  cases s with
  | assign _ _ | call _ _ | discard _ => exact .inl fun _ _ _ _ _ => rfl
  | scope env block stop =>
    obtain ⟨entry, body⟩ := block
    simp only [Stmt.isInner, Bool.and_eq_true, Option.isNone_iff_eq_none] at hs
    obtain ⟨⟨rfl, rfl⟩, hbody⟩ := hs
    exact .inr ⟨env, body, hbody, fun _ _ _ _ _ => rfl⟩
  | _ => cases hs

/-- A branch that is no test takes one of its targets, or none. -/
lemma goes_of_branch {oracle : Oracle} {history : List Event} {s : Stmt} {rest : List Stmt}
    (hstep : ∀ root frames, stmtStep oracle root history frames rest s =
      plainStep oracle root history frames rest s) (hs : s.isConditional = true)
    (hrest : Inside blocks rest []) (hentry : ∀ target ∈ s.branchTargets, IsEntry blocks target) :
    Goes blocks oracle history (s :: rest) [] := by
  cases htarget : s.branchTargets[oracle.branch history s]? with
  | none =>
    refine .on [.branched s (oracle.branch history s)] rest [] hrest fun unit frames => ?_
    rw [machine, hstep, plainStep, if_pos hs, htarget]
  | some target =>
    refine .jump [.branched s (oracle.branch history s)] target
      (hentry target (List.mem_of_getElem? htarget)) fun unit frames => ?_
    rw [machine, hstep, plainStep, if_pos hs, htarget]

/-- Control inside of a block goes on without regard to what is around the block. -/
lemma goes_of_inside (hwf : WellFormed bound blocks)
    (hsimple : AllStmts (Stmt.isSimple · = true) blocks) (oracle : Oracle) (history : List Event)
    {code : List Stmt} {inner : List Frame} (h : Inside blocks code inner) :
    Goes blocks oracle history code inner := by
  cases h with
  | @scope env _ body rest inner hcode hbody hrest =>
    cases code with
    | nil =>
      by_cases hanother : oracle.another history env = true
      · refine .on [.asked env (oracle.another history env)] body (.scope env body none rest :: inner)
          (.scope hbody hbody hrest) fun unit frames => ?_
        simp only [machine, endStep, List.cons_append, if_pos hanother]
      · refine .on [.asked env (oracle.another history env)] rest inner hrest fun unit frames => ?_
        simp only [machine, endStep, List.cons_append, if_neg hanother]
    | cons s code =>
      rw [Stmt.innerList, Bool.and_eq_true] at hcode
      rcases stmtStep_of_isInner hcode.1 with hran | ⟨env', body', hbody', hscope⟩
      · exact .on _ _ _ (.scope hcode.2 hbody hrest) fun unit frames => hran _ _ _ _ _
      · exact .on _ _ _ (.scope rfl hbody' (.scope hcode.2 hbody hrest)) fun unit frames =>
          hscope _ _ _ _ _
  | @top block _ hblock hne hcode =>
    obtain ⟨s, rest, rfl⟩ := List.exists_cons_of_ne_nil hne
    obtain ⟨label, -, hshaped⟩ := hwf.shaped block hblock
    have hmem : s ∈ block.body := hcode.subset List.mem_cons_self
    have hrest : s.endsBlock = false → Inside blocks rest [] := fun hs =>
      .top hblock (ne_nil_of_suffix hshaped hcode hs) ((List.suffix_cons s rest).trans hcode)
    have hs := hsimple block hblock s hmem
    have hentry : ∀ {target : LabelId}, target ∈ s.targets → IsEntry blocks target :=
      isEntry_of_mem_targets hwf hblock hmem
    cases s with
    | label _ => exact .on [] rest [] (hrest rfl) fun _ _ => rfl
    | push value => exact .on [.ran (.push value)] rest [] (hrest rfl) fun _ _ => rfl
    | goto target =>
      exact .jump [] target (hentry List.mem_cons_self) fun _ _ => rfl
    | condGoto e target =>
      by_cases hdecides : oracle.decides history e = true
      · refine .jump [oracle.asking history e] target (hentry List.mem_cons_self) fun _ _ => ?_
        simp only [machine, stmtStep, leafStep, if_pos hdecides]
      · refine .on [oracle.asking history e] rest [] (hrest rfl) fun _ _ => ?_
        simp only [machine, stmtStep, leafStep, if_neg hdecides, List.nil_append]
    | ret value => exact .stop [.ran (.ret value)] .returned fun _ _ => rfl
    | exit => exact .stop [] .finished fun _ _ => rfl
    | assign _ _ | call _ _ | discard _ | scope _ _ _ =>
      rcases stmtStep_of_isInner hs with hran | ⟨env, body, hbody, hscope⟩
      · exact .on _ rest [] (hrest rfl) fun unit frames => hran oracle unit.body history frames rest
      · exact .on _ _ _ (.scope rfl hbody (hrest rfl)) fun unit frames =>
          hscope oracle unit.body history frames rest
    | pushEnv _ _ | popEnv _ | dispatch _ _ _ => 
      exact goes_of_branch (fun _ _ => rfl) rfl (hrest rfl) fun _ htarget => hentry htarget
    | _ => cases hs

/-! ### Landing -/

/-- The search for a label in the first block of a list. -/
lemma findInList_basic (target : LabelId) (frames : List Frame) (block : BasicBlock)
    (rest : List Stmt) : findInList target frames (.basic block :: rest) =
      (findInList target (.after rest :: frames) block.body).or (findInList target frames rest) := by
  rw [findInList, findInStmt]
  simp

/-- The search for a label in a block. -/
lemma findInList_of_shaped {block : BasicBlock} {label : LabelId} (h : block.Shaped label)
    (target : LabelId) (frames : List Frame) :
    findInList target frames block.body = if label = target then some ⟨block.body, frames⟩ else none := by
  obtain ⟨middle, ending, hbody, hmiddle, hending⟩ := h
  have hnone : findInList target frames (middle ++ ending) = none := by
    rw [findInList_eq_none_iff, Stmt.labelsOfList_append, hmiddle.labels, hending.labels]
    simp
  rw [hbody, findInList, hnone]

/-- What a jump to a block finds in a tree: the block, or the loop of which it is the test. -/
inductive Recovered : List Stmt → List Stmt → Prop where
  | same (code : List Stmt) : Recovered code code
  | header (label target other : LabelId) (e : Expr) (test : Test) (body : List Stmt)
      (htest : test = ⟨e, target, other⟩ ∨ test = ⟨e.negate, other, target⟩) :
      Recovered [.label label, .condGoto e target, .goto other]
        [.label label, .loop (some test.condition) ⟨some test.enter, body⟩, .goto test.exit]

section Landing

variable {target : LabelId} {frames : List Frame} {place : Place}

/-- A jump lands at the block with the label. -/
lemma land_of_blocks (hshaped : ∀ block ∈ blocks, ∃ label, block.Shaped label)
    (h : findInList target frames (blocks.map Stmt.basic) = some place) :
    ∃ block ∈ blocks, block.entryLabel? = some target ∧ place.code = block.body := by
  induction blocks with
  | nil => cases h
  | cons block rest ih =>
    obtain ⟨label, hblock⟩ := hshaped block List.mem_cons_self
    rw [List.map_cons, findInList_basic, findInList_of_shaped hblock, Option.or_eq_some_iff] at h
    by_cases hlabel : label = target
    · subst hlabel
      simp only [if_true, Option.some.injEq, reduceCtorEq, false_and, or_false] at h
      subst h
      exact ⟨block, List.mem_cons_self, hblock.entryLabel?, rfl⟩
    · simp only [if_neg hlabel, reduceCtorEq, true_and, false_or] at h
      obtain ⟨found, hfound, hspec⟩ := ih (fun b hb => hshaped b (List.mem_cons_of_mem _ hb)) h
      exact ⟨found, List.mem_cons_of_mem _ hfound, hspec⟩

/-- A jump into an arrangement lands at the block with the label, or at the loop of which it is the test.
-/
lemma land_of_arranges (hwf : WellFormed bound blocks)
    (hscopes : AllStmts (fun s => ∀ env skip, s ≠ .pushEnv env skip) blocks) {list : List Stmt}
    {ids : Multiset Nat} (h : Arranges (blocks.map Stmt.basic) bound list ids) (htarget : target < bound)
    (hfind : findInList target frames list = some place) :
    ∃ block ∈ blocks, block.entryLabel? = some target ∧ Recovered block.body place.code := by
  induction h generalizing frames with
  | nil => cases hfind
  | @item i block rest ids hitem _ ih =>
    have hblock := List.mem_of_getElem? (getElem?_of_basic hitem)
    obtain ⟨label, -, hshaped⟩ := hwf.shaped block hblock
    rw [findInList_basic, findInList_of_shaped hshaped, Option.or_eq_some_iff] at hfind
    by_cases hlabel : label = target
    · subst hlabel
      simp only [if_true, Option.some.injEq, reduceCtorEq, false_and, or_false] at hfind
      subst hfind
      exact ⟨block, hblock, hshaped.entryLabel?, .same _⟩
    · simp only [if_neg hlabel, reduceCtorEq, true_and, false_or] at hfind
      exact ih hfind
  | @scope _ _ head _ _ _ _ env skip _ _ _ _ hhead hbody =>
    have hmem := List.mem_of_getElem? (getElem?_of_basic hhead)
    refine absurd rfl (hscopes head hmem (.pushEnv env skip) ?_ env skip)
    rw [hbody]
    simp
  | @tested i header body rest label goal other e test _ _ hheader hbody htest _ _ ihInner ih =>
    have hmem := List.mem_of_getElem? (getElem?_of_basic hheader)
    rw [findInList_basic] at hfind
    by_cases hlabel : label = target
    · subst hlabel
      simp only [findInList, if_true, Option.some_or, Option.some.injEq] at hfind
      subst hfind
      refine ⟨header, hmem, ?_, ?_⟩
      · rw [BasicBlockOf.entryLabel?_eq, hbody]
        rfl
      · rw [hbody]
        exact .header label goal other e test body htest
    · simp only [findInList, findInStmt, if_neg hlabel, Option.or_none, Option.or_eq_some_iff] at hfind
      rcases hfind with hfind | ⟨-, hfind⟩
      · exact ihInner hfind
      · exact ih hfind
  | @endless fresh head body rest _ _ hfresh _ _ ihInner ih =>
    have hne : fresh ≠ target := Nat.ne_of_gt (Nat.lt_of_lt_of_le htarget hfresh)
    rw [findInList_basic] at hfind
    simp only [findInList, findInStmt, if_neg hne, Option.or_none, Option.or_eq_some_iff] at hfind
    rcases hfind with hfind | ⟨-, hfind⟩
    · exact ihInner hfind
    · exact ih hfind

end Landing

/-! ### Following the blocks -/

/-- Where control is in the list and in the tree: at the same place of a block, in front of the same jump,
or at the test of a block and of the loop that it has become. -/
inductive Follows (blocks : List BasicBlock) : Place → Place → Prop where
  | inside {code : List Stmt} {inner frames frames' : List Frame} (h : Inside blocks code inner) :
      Follows blocks ⟨code, inner ++ frames⟩ ⟨code, inner ++ frames'⟩
  | jump {target : LabelId} {rest rest' : List Stmt} {frames frames' : List Frame}
      (h : IsEntry blocks target) :
      Follows blocks ⟨.goto target :: rest, frames⟩ ⟨.goto target :: rest', frames'⟩
  | header {label target other : LabelId} {e : Expr} {test : Test} {body : List Stmt}
      {frames frames' : List Frame}
      (htest : test = ⟨e, target, other⟩ ∨ test = ⟨e.negate, other, target⟩)
      (htarget : IsEntry blocks target) (hother : IsEntry blocks other) :
      Follows blocks ⟨[.label label, .condGoto e target, .goto other], frames⟩
        ⟨[.label label, .loop (some test.condition) ⟨some test.enter, body⟩, .goto test.exit], frames'⟩
  | test {target other : LabelId} {e : Expr} {test : Test} {body : List Stmt}
      {frames frames' : List Frame}
      (htest : test = ⟨e, target, other⟩ ∨ test = ⟨e.negate, other, target⟩)
      (htarget : IsEntry blocks target) (hother : IsEntry blocks other) :
      Follows blocks ⟨[.condGoto e target, .goto other], frames⟩
        ⟨[.loop (some test.condition) ⟨some test.enter, body⟩, .goto test.exit], frames'⟩

/-- Jumps to the label of a block land alike in two units, from wherever. -/
def Lands (blocks : List BasicBlock) (a b : List Stmt) : Prop :=
  ∀ target, IsEntry blocks target → ∃ p q, (∀ frames, land? a frames target = some p) ∧
    (∀ frames, land? b frames target = some q) ∧ Follows blocks p q

/-- Jumps land alike in a list of blocks and in an arrangement of it that has all their labels. -/
lemma lands_of_arranges (hwf : WellFormed bound blocks)
    (hscopes : AllStmts (fun s => ∀ env skip, s ≠ .pushEnv env skip) blocks) {tree : List Stmt}
    {ids : Multiset Nat} (h : Arranges (blocks.map Stmt.basic) bound tree ids)
    (hlabels : ∀ label, IsEntry blocks label → label ∈ Stmt.labelsOfList tree) :
    Lands blocks (blocks.map Stmt.basic) tree := by
  rintro target ⟨block, hblock, hlabel⟩
  have hshaped : ∀ block ∈ blocks, ∃ label, block.Shaped label := fun b hb =>
    (hwf.shaped b hb).imp fun _ hb => hb.2
  have hmem : target ∈ Stmt.labelsOfList (blocks.map Stmt.basic) :=
    hwf.mem_labels_iff.mpr ⟨block, hblock, hlabel⟩
  obtain ⟨p, hp⟩ := Option.ne_none_iff_exists'.mp
    (mt (findInList_eq_none_iff target [] (blocks.map Stmt.basic)).mp (not_not.mpr hmem))
  obtain ⟨q, hq⟩ := Option.ne_none_iff_exists'.mp
    (mt (findInList_eq_none_iff target [] tree).mp (not_not.mpr (hlabels target ⟨block, hblock, hlabel⟩)))
  refine ⟨p, q, land?_of_find hp, land?_of_find hq, ?_⟩
  obtain ⟨a, ha, halabel, hpcode⟩ := land_of_blocks hshaped hp
  obtain ⟨b, hb, hblabel, hqcode⟩ :=
    land_of_arranges hwf hscopes h (hwf.shaped_of_label hblock hlabel).1 hq
  obtain ⟨i, hi⟩ := List.mem_iff_getElem?.mp ha
  obtain ⟨j, hj⟩ := List.mem_iff_getElem?.mp hb
  obtain rfl := hwf.position_eq hi hj (halabel.trans hblabel.symm)
  rw [hi] at hj
  cases hj
  obtain ⟨code, frames⟩ := p
  obtain ⟨code', frames'⟩ := q
  dsimp only at hpcode hqcode
  subst hpcode
  generalize hbody : a.body = body at hqcode
  cases hqcode with
  | same =>
    subst hbody
    have hinside : Inside blocks a.body [] := by
      obtain ⟨label, hshape⟩ := hshaped a ha
      obtain ⟨init, last, hlast, -⟩ := exists_last hshape
      exact .top ha (by simp [hlast]) List.suffix_rfl
    exact .inside hinside
  | header label target' other e test inner htest =>
    have htargets : ∀ s ∈ a.body, ∀ label ∈ s.targets, IsEntry blocks label := fun s hs label =>
      isEntry_of_mem_targets hwf ha hs
    rw [hbody] at htargets
    exact .header htest (htargets (.condGoto e target') (by simp) _ List.mem_cons_self)
      (htargets (.goto other) (by simp) _ List.mem_cons_self)

/-- A loop whose test is that of its header asks what the header asks, and goes to the same label. -/
lemma run_tested (oracle : Oracle) (unit : Block) (history : List Event) {target other : LabelId}
    {e : Expr} {test : Test} (body : List Stmt) (frames : List Frame)
    (htest : test = ⟨e, target, other⟩ ∨ test = ⟨e.negate, other, target⟩) :
    ∃ rest frames', (machine oracle unit).run 2
        (.at history ⟨[.loop (some test.condition) ⟨some test.enter, body⟩, .goto test.exit], frames⟩) =
      .at (history ++ [oracle.asking history e])
        ⟨.goto (if oracle.decides history e then target else other) :: rest, frames'⟩ := by
  have hfirst : (machine oracle unit).run 1
      (.at history ⟨[.loop (some test.condition) ⟨some test.enter, body⟩, .goto test.exit], frames⟩) =
      .at history ⟨[], .loop (some test.condition) (.goto test.enter :: body) [.goto test.exit] ::
        frames⟩ := run_silent rfl
  have hsecond : (machine oracle unit).run 1 (.at history ⟨[], .loop (some test.condition)
      (.goto test.enter :: body) [.goto test.exit] :: frames⟩) =
      .at (history ++ [oracle.asking history test.condition])
        (if oracle.decides history test.condition then ⟨.goto test.enter :: body,
          .loop (some test.condition) (.goto test.enter :: body) [.goto test.exit] :: frames⟩
        else ⟨[.goto test.exit], frames⟩) := run_one rfl
  rw [Trace.Machine.run_add _ 1 1, hfirst, hsecond]
  rcases htest with rfl | rfl
  · by_cases hdecides : oracle.decides history e = true
    · exact ⟨_, _, by rw [if_pos hdecides, if_pos hdecides]⟩
    · exact ⟨_, _, by rw [if_neg hdecides, if_neg hdecides]⟩
  · dsimp only
    rw [oracle.asking_not, oracle.decides_not]
    by_cases hdecides : oracle.decides history e = true
    · exact ⟨[], frames, by simp [hdecides]⟩
    · exact ⟨body, _, by simp [hdecides]; rfl⟩

/-- A unit follows another as long as jumps land alike in both. -/
theorem simulation_of_lands (hwf : WellFormed bound blocks)
    (hsimple : AllStmts (Stmt.isSimple · = true) blocks) {a b : Block}
    (hlands : Lands blocks a.body b.body) (oracle : Oracle) :
    Trace.Simulation (machine oracle a) (machine oracle b) (Follows blocks) (fun _ => 0) := by
  refine ⟨?_, ?_⟩
  · intro history s t events next hst hstep
    refine .inr ?_
    cases hst with
    | inside hinside =>
      cases goes_of_inside hwf hsimple oracle history hinside with
      | on events' code' inner' hinside' hgo =>
        rw [hgo] at hstep
        cases hstep
        exact ⟨0, _, run_one (hgo b _), .inside hinside'⟩
      | jump events' target hentry hgo =>
        obtain ⟨p, q, hp, hq, hpq⟩ := hlands target hentry
        rw [hgo, hp] at hstep
        cases hstep
        refine ⟨0, q, run_one ?_, hpq⟩
        rw [hgo, hq]
        rfl
      | stop events' ending hgo =>
        rw [hgo] at hstep
        cases hstep
    | @jump target _ _ frames frames' hentry =>
      obtain ⟨p, q, hp, hq, hpq⟩ := hlands target hentry
      simp only [machine, stmtStep, leafStep, hp] at hstep
      cases hstep
      refine ⟨0, q, run_one ?_, hpq⟩
      simp only [machine, stmtStep, leafStep, hq]
      rfl
    | header htest htarget hother =>
      cases hstep
      exact ⟨0, _, run_one rfl, .test htest htarget hother⟩
    | @test target other e test body frames frames' htest htarget hother =>
      obtain ⟨rest, frames'', hrun⟩ := run_tested oracle b history body frames' htest
      simp only [machine, stmtStep, leafStep] at hstep
      by_cases hdecides : oracle.decides history e = true
      · obtain ⟨p, q, hp, hq, hpq⟩ := hlands target htarget
        rw [if_pos hdecides, hp] at hstep
        cases hstep
        refine ⟨2, q, ?_, hpq⟩
        rw [if_pos hdecides] at hrun
        have hland : machine oracle b (history ++ [oracle.asking history e])
            ⟨.goto target :: rest, frames''⟩ = .go [] q := by
          simp only [machine, stmtStep, leafStep, hq]
          rfl
        rw [Trace.Machine.run_add _ 2 1, hrun, run_silent hland]
      · rw [if_neg hdecides] at hstep hrun
        cases hstep
        exact ⟨1, _, hrun, .jump hother⟩
  · intro history s t events ending hst hstep
    cases hst with
    | inside hinside =>
      cases goes_of_inside hwf hsimple oracle history hinside with
      | on events' code' inner' hinside' hgo =>
        rw [hgo] at hstep
        cases hstep
      | jump events' target hentry hgo =>
        obtain ⟨p, q, hp, hq, hpq⟩ := hlands target hentry
        rw [hgo, hp] at hstep
        cases hstep
      | stop events' ending' hgo =>
        rw [hgo] at hstep
        cases hstep
        refine ⟨1, ?_⟩
        rw [Trace.Machine.run_succ, Trace.Machine.run_zero, Trace.Machine.advance_stop (hgo b _)]
    | @jump target _ _ frames frames' hentry =>
      obtain ⟨p, q, hp, -⟩ := hlands target hentry
      simp only [machine, stmtStep, leafStep, hp] at hstep
      cases hstep
    | header => cases hstep
    | @test target other e test body frames frames' htest htarget hother =>
      obtain ⟨p, q, hp, -⟩ := hlands target htarget
      simp only [machine, stmtStep, leafStep, hp] at hstep
      split at hstep
      · cases hstep
      · cases hstep

/-- A list of blocks and the tree that has taken its place are entered at the same label. -/
lemma follows_start (hwf : WellFormed bound blocks) (body : List Stmt) :
    Follows blocks (start (blockOfBasicBlocks blocks))
      (start { blockOfBasicBlocks blocks with body }) := by
  obtain ⟨first, rest, rfl⟩ := List.exists_cons_of_ne_nil hwf.nonempty
  obtain ⟨label, -, hshaped⟩ := hwf.shaped first List.mem_cons_self
  have hentry : (blockOfBasicBlocks (first :: rest)).entry = some label := hshaped.entryLabel?
  simp only [start, code, Flatten.entryJump, hentry]
  exact .jump ⟨first, List.mem_cons_self, hshaped.entryLabel?⟩

/-- The blocks of a well-formed list without the start or the end of a scope run like the tree that the
recovery of their loops gives, and it does give one. -/
theorem runAlike_findLoops {blocks : List BasicBlock} {context : Context}
    (hwf : WellFormed context.labels.names.length blocks)
    (hsimple : AllStmts (Stmt.isSimple · = true) blocks)
    (hscopes : AllStmts (fun s => (∀ env skip, s ≠ .pushEnv env skip) ∧ ∀ back, s ≠ .popEnv back)
      blocks) :
    ∃ tree context', findLoops (blockOfBasicBlocks blocks) context = (.ok tree, context') ∧
      RunAlike (blockOfBasicBlocks blocks) tree := by
  have hpush : AllStmts (fun s => ∀ env skip, s ≠ .pushEnv env skip) blocks := fun block hblock s hs =>
    (hscopes block hblock s hs).1
  have hnone : ∀ item, ¬ ScopeOverHead (Layout.ofBlock (blockOfBasicBlocks blocks))
      (blocks.map Stmt.basic) item := by
    rintro item ⟨head, _, env, skip, _, _, _, _, _, hhead, hstart, -⟩
    obtain ⟨init, -, hbody⟩ := scopeStart?_eq_some hstart
    refine hpush head (List.mem_of_getElem? (getElem?_of_basic hhead)) (.pushEnv env skip) ?_ env skip rfl
    rw [hbody]
    simp
  have hsound : SoundBlocks (blockOfBasicBlocks blocks).body := hwf.soundBlocks_of_isSimple hsimple
  rcases findLoops_cases hsound headerGone context with
    ⟨body, context', built, lost, hrun, -, hids, hbuilt, hlost⟩ | ⟨_, -, -, item, hover, -⟩
  · refine ⟨_, context', hrun, fun oracle => ?_⟩
    obtain rfl : lost = 0 := hlost.resolve_right fun ⟨item, _, hover⟩ => hnone item hover
    rw [add_zero] at hids
    rw [← hids] at hbuilt
    have hkept := keepsCode_of_arranges hwf hsimple hbuilt
    have hlabels : ∀ label, IsEntry blocks label → label ∈ Stmt.labelsOfList body := by
      intro label hentry
      have hone := hkept.labels label (hwf.mem_labels_iff.mpr hentry)
      have hstops : Stmt.countList (Stmt.stopsAt label) body = 0 := by
        by_contra hstop
        obtain ⟨block, hblock, back, after, hbody⟩ := hkept.stops label hstop
        refine (hscopes block hblock (.popEnv back) ?_).2 back rfl
        rw [hbody]
        simp
      rw [hstops, Nat.add_zero] at hone
      exact List.count_pos_iff.mp (by omega)
    have hlands : Lands blocks (blockOfBasicBlocks blocks).body body :=
      lands_of_arranges hwf hpush hbuilt hlabels
    refine (simulation_of_lands hwf hsimple hlands oracle).sameTraces ?_
    exact follows_start hwf body
  · exact absurd hover (hnone item)

/-- A loop with a test around a block that repeats itself. -/
def nestedLoops : List BasicBlock :=
  [{ body := [.label 0, .condGoto (.var (Variable.temporary "c")) 2, .goto 1] },
    { body := [.label 1, .assign (Variable.temporary "z") (.const (.int 1)),
        .condGoto (.var (Variable.temporary "d")) 1, .goto 0] },
    { body := [.label 2, .exit] }]

/-- Both loops are recovered, and the tree runs like the blocks. -/
theorem nestedLoops_runAlike :
    WellFormed 5 nestedLoops ∧
      ∃ tree context', findLoops (blockOfBasicBlocks nestedLoops) fiveLabels = (.ok tree, context') ∧
        Stmt.countList Stmt.isStructured tree.body = 2 ∧
        RunAlike (blockOfBasicBlocks nestedLoops) tree := by
  have hwf : WellFormed fiveLabels.labels.names.length nestedLoops := by decide
  obtain ⟨tree, context', hrun, halike⟩ := runAlike_findLoops hwf
    (by simp [AllStmts, nestedLoops, Stmt.isSimple, Stmt.isInner]) (by simp [AllStmts, nestedLoops])
  refine ⟨hwf, tree, context', hrun, ?_, halike⟩
  have hcount : (findLoops (blockOfBasicBlocks nestedLoops) fiveLabels).1.toOption.map
      (fun tree => Stmt.countList Stmt.isStructured tree.body) = some 2 := by
    decide +kernel
  rw [hrun] at hcount
  exact Option.some.inj hcount

end Execution

end Decompiler
