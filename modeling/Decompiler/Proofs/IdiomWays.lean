import Decompiler.Proofs.CountedCode

/-!
# The ways through recognised idioms

A counted loop keeps its counter on the stack, and a switch the value it tests.  The edits that recognise
them say for a few blocks what becomes of them (`CountedLoop.Rewrites`, `SwitchDispatch.Rewrites`); every
other block stays.  So the ways through the new list are those through the old one: a loop gets a block
of its own for the test, in whose place the body stood, and the tests of a switch are gone, in whose place
the dispatch goes to the cases at once (`CountedLoop.Rewrites.reroutes`,
`SwitchDispatch.Rewrites.reroutes`).
-/

namespace Decompiler

open Bytecode
open StackMachine (RawBody)

/-! ### Counted loops -/

/-- The branches of a test on a copy of the top value, which stays on the stack. -/
lemma Depth.mem_branches_test {n a b c d left : Nat} {value : Constant} {op : BinaryOp}
    {target other l : LabelId} :
    (l, left) ∈ branches n [.raw a (.dup 0), .raw b (.push value), .raw c (.binary op),
      .raw d (.branchTrue target), .goto other] ↔ n ≠ 0 ∧ (l = target ∨ l = other) ∧ left = n := by
  cases n with
  | zero => simp [branches, StackOp.effect?]
  | succ n => simp [branches, StackOp.effect?, StackOp.targets, or_and_right]

/-- A test on a copy of the top value needs a value. -/
lemma Depth.enough_test {n a b c d : Nat} {value : Constant} {op : BinaryOp} {target other : LabelId} :
    Stmt.enough n [.raw a (.dup 0), .raw b (.push value), .raw c (.binary op),
      .raw d (.branchTrue target), .goto other] = true ↔ n ≠ 0 := by
  simp [Stmt.enough, Stmt.finds, Stmt.depthAfter, Stmt.stackOp?, StackOp.effect?]
  omega

namespace CountedLoop

open Depth

/-- What the edit of a counted loop changes: the ends of its head and its tail, the `popz` of its exit,
and the new block. -/
structure Rewrites (before after : List BasicBlock) (head tail exit body minted : LabelId)
    (headInit tailInit exitRest : List Stmt) : Prop where
  inner : ∀ s ∈ headInit ++ tailInit, s.staysInside = true
  head_before : ∃ a b c d zero, BodyOf before head (headInit ++ [.raw a (.dup 0), .raw b (.push zero),
    .raw c (.binary .le), .raw d (.branchTrue exit), .goto body])
  tail_before : ∃ a b c d step, BodyOf before tail (tailInit ++ [.raw a (.push step),
    .raw b (.binary .sub), .raw c (.dup 0), .raw d (.branchTrue body), .goto exit])
  exit_before : ∃ a, BodyOf before exit (.label exit :: .raw a .popz :: exitRest)
  head_after : ∃ a counter, BodyOf after head (headInit ++ [.raw a (.popTemporary counter), .goto minted])
  test_after : ∃ a b c d counter, BodyOf after minted [.label minted, .raw a (.pushTemporary counter),
    .raw b (.push (.int 0)), .raw c (.binary .le), .raw d (.branchTrue exit), .goto body]
  tail_after : ∃ a b c d step counter, BodyOf after tail (tailInit ++ [.raw a (.pushTemporary counter),
    .raw b (.push step), .raw c (.binary .sub), .raw d (.popTemporary counter), .goto minted])
  exit_after : BodyOf after exit (.label exit :: exitRest)
  kept : ∀ label stmts, label ∉ [head, tail, exit, minted] →
    (BodyOf after label stmts ↔ BodyOf before label stmts)
  minted_new : ∀ stmts, ¬ BodyOf before minted stmts
  exit_ne_head : exit ≠ head
  tail_ne_head : tail ≠ head
  exit_ne_tail : exit ≠ tail

/-- The branches of a tail, which come with the counter still on the stack. -/
lemma mem_branches_tailEnd {n a b c d left : Nat} {step : Constant} {exit body l : LabelId} :
    (l, left) ∈ branches n [.raw a (.push step), .raw b (.binary .sub), .raw c (.dup 0),
      .raw d (.branchTrue body), .goto exit] ↔ n ≠ 0 ∧ (l = exit ∨ l = body) ∧ left = n := by
  cases n with
  | zero => simp [branches, StackOp.effect?, StackOp.targets]
  | succ n => simp [branches, StackOp.effect?, StackOp.targets, or_and_right, or_comm]

/-- A tail needs the counter. -/
lemma enough_tailEnd {n a b c d : Nat} {step : Constant} {exit body : LabelId} :
    Stmt.enough n [.raw a (.push step), .raw b (.binary .sub), .raw c (.dup 0),
      .raw d (.branchTrue body), .goto exit] = true ↔ n ≠ 0 := by
  simp [Stmt.enough, Stmt.finds, Stmt.depthAfter, Stmt.stackOp?, StackOp.effect?]
  omega

/-- The branch of a new head, which takes the counter. -/
lemma mem_branches_headEnd {n a left : Nat} {counter : String} {minted l : LabelId} :
    (l, left) ∈ branches n [.raw a (.popTemporary counter), .goto minted] ↔
      n ≠ 0 ∧ l = minted ∧ left = n - 1 := by
  cases n with
  | zero => simp [branches, StackOp.effect?]
  | succ n => simp [branches, StackOp.effect?, StackOp.targets]

/-- A new head needs the counter. -/
lemma enough_headEnd {n a : Nat} {counter : String} {minted : LabelId} :
    Stmt.enough n [.raw a (.popTemporary counter), .goto minted] = true ↔ n ≠ 0 := by
  simp [Stmt.enough, Stmt.finds, Stmt.stackOp?, StackOp.effect?]
  omega

/-- The branch of a new tail. -/
lemma mem_branches_tailBlock {n a b c d left : Nat} {step : Constant} {counter : String}
    {minted l : LabelId} :
    (l, left) ∈ branches n [.raw a (.pushTemporary counter), .raw b (.push step), .raw c (.binary .sub),
      .raw d (.popTemporary counter), .goto minted] ↔ l = minted ∧ left = n := by
  simp [branches, StackOp.effect?, StackOp.targets]

/-- A new tail needs no values. -/
lemma enough_tailBlock (n a b c d : Nat) (step : Constant) (counter : String) (minted : LabelId) :
    Stmt.enough n [.raw a (.pushTemporary counter), .raw b (.push step), .raw c (.binary .sub),
      .raw d (.popTemporary counter), .goto minted] = true := by
  simp [Stmt.enough, Stmt.finds, Stmt.depthAfter, Stmt.stackOp?, StackOp.effect?]

/-- The branches of the new block. -/
lemma mem_branches_testBlock {n a b c d left : Nat} {counter : String} {minted exit body l : LabelId} :
    (l, left) ∈ branches n [.label minted, .raw a (.pushTemporary counter), .raw b (.push (.int 0)),
      .raw c (.binary .le), .raw d (.branchTrue exit), .goto body] ↔
      (l = exit ∨ l = body) ∧ left = n := by
  simp [branches, StackOp.effect?, StackOp.targets, or_and_right]

/-- The new block needs no values. -/
lemma enough_testBlock (n a b c d : Nat) (counter : String) (minted exit body : LabelId) :
    Stmt.enough n [.label minted, .raw a (.pushTemporary counter), .raw b (.push (.int 0)),
      .raw c (.binary .le), .raw d (.branchTrue exit), .goto body] = true := by
  simp [Stmt.enough, Stmt.finds, Stmt.depthAfter, Stmt.stackOp?, StackOp.effect?]

section

variable {before after : List BasicBlock} {bound bound' : Nat} {head tail exit body minted : LabelId}
  {headInit tailInit exitRest : List Stmt}
  (h : Rewrites before after head tail exit body minted headInit tailInit exitRest)
include h

/-- The new block goes to the exit and to the body. -/
lemma Rewrites.enters_of_minted {left : Nat} {target : LabelId} (henters : Enters after minted left)
    (htarget : target = exit ∨ target = body) : Enters after target left := by
  obtain ⟨_, _, _, _, counter, htest⟩ := h.test_after
  exact .branch henters htest (mem_branches_testBlock.mpr ⟨htarget, rfl⟩)

/-- A block of the old list that the edit does not change. -/
lemma Rewrites.bodyOf_other {label : LabelId} {stmts : List Stmt} (hbody : BodyOf before label stmts)
    (hhead : label ≠ head) (htail : label ≠ tail) (hexit : label ≠ exit) : BodyOf after label stmts := by
  refine (h.kept label stmts ?_).mpr hbody
  have hminted : label ≠ minted := by
    rintro rfl
    exact h.minted_new stmts hbody
  simp [hhead, htail, hexit, hminted]

/-- The ways through a counted loop stay, without the counter. -/
lemma Rewrites.forth (hwf : WellFormed bound before) (hentry : firstLabel? after = firstLabel? before)
    (hsustained : Sustained after) {label : LabelId} {depth : Nat} {lack : Int}
    (hlack : Lacks before (takenBetween head exit) label depth lack) :
    ∃ left : Nat, left + lack = depth ∧ Enters after label left := by
  have hinner := List.forall_mem_append.mp h.inner
  induction hlack with
  | first hfirst => exact ⟨0, rfl, .first (hentry.trans hfirst)⟩
  | @branch label target depth value lack stmts hlack hbody hbranch ih =>
    obtain ⟨left, hleft, henters⟩ := ih
    by_cases hhead : label = head
    · subst hhead
      obtain ⟨_, _, _, _, zero, hold⟩ := h.head_before
      obtain ⟨_, counter, hnew⟩ := h.head_after
      rw [hwf.bodyOf_unique hbody hold] at hbranch
      obtain ⟨rest, rest', hrest, hbranch, hend, hgo⟩ :=
        henters.forth_end hleft hinner.1 hnew hsustained hbranch
      have hpos := enough_headEnd.mp hend
      have hminted := hgo minted (rest' - 1) (mem_branches_headEnd.mpr ⟨hpos, rfl, rfl⟩)
      obtain ⟨-, htarget, rfl⟩ := mem_branches_test.mp hbranch
      refine ⟨_, ?_, h.enters_of_minted hminted htarget⟩
      rw [takenBetween_head h.exit_ne_head]
      omega
    by_cases htail : label = tail
    · subst htail
      obtain ⟨_, _, _, _, step, hold⟩ := h.tail_before
      obtain ⟨_, _, _, _, step', counter, hnew⟩ := h.tail_after
      rw [hwf.bodyOf_unique hbody hold] at hbranch
      obtain ⟨rest, rest', hrest, hbranch, -, hgo⟩ :=
        henters.forth_end hleft hinner.2 hnew hsustained hbranch
      have hminted := hgo minted rest' (mem_branches_tailBlock.mpr ⟨rfl, rfl⟩)
      obtain ⟨-, htarget, rfl⟩ := mem_branches_tailEnd.mp hbranch
      refine ⟨rest', ?_, h.enters_of_minted hminted htarget⟩
      rw [takenBetween_other hhead h.exit_ne_tail.symm, add_zero]
      exact hrest
    by_cases hexit : label = exit
    · subst hexit
      obtain ⟨_, hold⟩ := h.exit_before
      rw [hwf.bodyOf_unique hbody hold] at hbranch
      rw [takenBetween_exit h.exit_ne_head]
      exact henters.forth_withoutPopz hleft h.exit_after hsustained hbranch
    · rw [takenBetween_other hhead hexit, add_zero]
      exact henters.forth hleft (h.bodyOf_other hbody hhead htail hexit) hsustained hbranch

/-- The ways through the new list come from the old one, where the new block stands for the exit and the
body. -/
lemma Rewrites.back (hwf : WellFormed bound before) (hwf' : WellFormed bound' after)
    (hentry : firstLabel? after = firstLabel? before) (hsustained : Sustained before) {label : LabelId}
    {left : Nat} (henters : Enters after label left) :
    ∃ (depth : Nat) (lack : Int), left + lack = depth ∧
      ∀ source ∈ if label = minted then [exit, body] else [label],
        Lacks before (takenBetween head exit) source depth lack := by
  have hinner := List.forall_mem_append.mp h.inner
  -- A block of the old list stands for itself.
  have hself : ∀ {label : LabelId} {left depth : Nat} {lack : Int}, left + lack = (depth : Int) →
      Lacks before (takenBetween head exit) label depth lack →
      ∃ (depth : Nat) (lack : Int), left + lack = depth ∧
        ∀ source ∈ if label = minted then [exit, body] else [label],
          Lacks before (takenBetween head exit) source depth lack := by
    intro label left depth lack hleft hlack
    have hne : label ≠ minted := by
      rintro rfl
      obtain ⟨stmts, hbody⟩ := hlack.enters.exists_bodyOf hwf
      exact h.minted_new stmts hbody
    exact ⟨depth, lack, hleft, by simpa [hne] using hlack⟩
  induction henters with
  | first hfirst => exact hself rfl (.first (hentry.symm.trans hfirst))
  | @branch label target left value' stmts henters hbody hbranch ih =>
    obtain ⟨depth, lack, hleft, hlacks⟩ := ih
    by_cases hminted : label = minted
    · subst hminted
      obtain ⟨_, _, _, _, counter, htest⟩ := h.test_after
      rw [hwf'.bodyOf_unique hbody htest, mem_branches_testBlock] at hbranch
      obtain ⟨htarget, rfl⟩ := hbranch
      rw [if_pos rfl] at hlacks
      exact hself hleft (hlacks target (by simpa using htarget))
    have hlack : Lacks before (takenBetween head exit) label depth lack := hlacks label (by simp [hminted])
    by_cases hhead : label = head
    · subst hhead
      obtain ⟨_, _, _, _, zero, hold⟩ := h.head_before
      obtain ⟨_, counter, hnew⟩ := h.head_after
      rw [hwf'.bodyOf_unique hbody hnew] at hbranch
      obtain ⟨rest, rest', hrest, hbranch, hend, hgo⟩ :=
        hlack.back_end hleft hinner.1 hold hsustained hbranch
      obtain ⟨hpos, rfl, rfl⟩ := mem_branches_headEnd.mp hbranch
      refine ⟨rest, lack + 1, by omega, ?_⟩
      intro source hsource
      rw [← takenBetween_head h.exit_ne_head]
      exact hgo source rest (mem_branches_test.mpr ⟨enough_test.mp hend, by simpa using hsource, rfl⟩)
    by_cases htail : label = tail
    · subst htail
      obtain ⟨_, _, _, _, step, hold⟩ := h.tail_before
      obtain ⟨_, _, _, _, step', counter, hnew⟩ := h.tail_after
      rw [hwf'.bodyOf_unique hbody hnew] at hbranch
      obtain ⟨rest, rest', hrest, hbranch, hend, hgo⟩ :=
        hlack.back_end hleft hinner.2 hold hsustained hbranch
      obtain ⟨rfl, rfl⟩ := mem_branches_tailBlock.mp hbranch
      refine ⟨rest, lack, hrest, ?_⟩
      intro source hsource
      have hnone := takenBetween_other hhead h.exit_ne_tail.symm
      rw [← add_zero lack, ← hnone]
      exact hgo source rest
        (mem_branches_tailEnd.mpr ⟨enough_tailEnd.mp hend, by simpa using hsource, rfl⟩)
    by_cases hexit : label = exit
    · subst hexit
      obtain ⟨_, hold⟩ := h.exit_before
      rw [hwf'.bodyOf_unique hbody h.exit_after] at hbranch
      obtain ⟨value, hvalue, hsum⟩ := hlack.back_withoutPopz hleft hold hsustained hbranch
      rw [takenBetween_exit h.exit_ne_head] at hvalue
      exact hself hsum hvalue
    · have hold := (h.kept label stmts (by simp [hhead, htail, hexit, hminted])).mp hbody
      obtain ⟨value, hvalue, hsum⟩ := hlack.back hleft hold hsustained hbranch
      rw [takenBetween_other hhead hexit, add_zero] at hvalue
      exact hself hsum hvalue

/-- The edit of a counted loop takes the counter off the stack and otherwise leaves the ways through the
list as they are. -/
lemma Rewrites.reroutes (hwf : WellFormed bound before) (hwf' : WellFormed bound' after)
    (hentry : firstLabel? after = firstLabel? before) (hbefore : Supplied before) :
    Reroutes before after (takenBetween head exit) id
      (fun label => if label = minted then body else label) where
  forth := fun hsustained _ _ _ hlack => h.forth hwf hentry hsustained hlack
  back := by
    intro label left henters
    obtain ⟨depth, lack, hleft, hlacks⟩ :=
      h.back hwf hwf' hentry hbefore.sustained henters
    refine ⟨depth, lack, hlacks _ ?_, hleft⟩
    split
    · simp
    · simp
  kept := fun _ _ _ => rfl
  fresh := by
    intro label stmts hbody
    by_cases hminted : label = minted
    · subst hminted
      obtain ⟨_, _, _, _, counter, htest⟩ := h.test_after
      rw [hwf'.bodyOf_unique hbody htest]
      exact .inr fun depth => enough_testBlock ..
    · exact .inl (if_neg hminted)
  unreached := by
    intro label stmts hbody hnever
    by_cases hminted : label = minted
    · subst hminted
      obtain ⟨_, _, _, _, counter, htest⟩ := h.test_after
      rw [hwf'.bodyOf_unique hbody htest]
      exact enough_testBlock ..
    by_cases hhead : label = head
    · subst hhead
      obtain ⟨_, _, _, _, zero, hold⟩ := h.head_before
      obtain ⟨_, counter, hnew⟩ := h.head_after
      obtain ⟨henough, hend⟩ := Stmt.enough_append.mp (hbefore.enough_of_unreached hold hnever)
      rw [hwf'.bodyOf_unique hbody hnew, Stmt.enough_append]
      exact ⟨henough, enough_headEnd.mpr (enough_test.mp hend)⟩
    by_cases htail : label = tail
    · subst htail
      obtain ⟨_, _, _, _, step, hold⟩ := h.tail_before
      obtain ⟨_, _, _, _, step', counter, hnew⟩ := h.tail_after
      obtain ⟨henough, -⟩ := Stmt.enough_append.mp (hbefore.enough_of_unreached hold hnever)
      rw [hwf'.bodyOf_unique hbody hnew, Stmt.enough_append]
      exact ⟨henough, enough_tailBlock ..⟩
    by_cases hexit : label = exit
    · subst hexit
      obtain ⟨_, hold⟩ := h.exit_before
      have hpos := (enough_of_popz (hbefore.enough_of_unreached hold hnever)).1
      exact absurd hpos (Nat.not_succ_le_zero 0)
    · have hold := (h.kept label stmts (by simp [hhead, htail, hexit, hminted])).mp hbody
      exact hbefore.enough_of_unreached hold hnever

/-- The blocks of a counted loop stay blocks of stack operations. -/
lemma Rewrites.rawBody (hwf' : WellFormed bound' after)
    (hraw : ∀ label stmts, BodyOf before label stmts → RawBody stmts) :
    ∀ label stmts, BodyOf after label stmts → RawBody stmts := by
  intro label stmts hbody
  have hinner := List.forall_mem_append.mp h.inner
  by_cases hminted : label = minted
  · subst hminted
    obtain ⟨_, _, _, _, _, hnew⟩ := h.test_after
    rw [hwf'.bodyOf_unique hbody hnew]
    change RawBody ([_, _, _, _] ++ [_, _])
    exact rawBody_append (by simp [Stmt.staysInside, StackOp.isConditional]) (.branch _ rfl rfl)
  by_cases hhead : label = head
  · subst hhead
    obtain ⟨_, _, hnew⟩ := h.head_after
    rw [hwf'.bodyOf_unique hbody hnew]
    exact rawBody_append hinner.1 (.op _ rfl (by simp) (.jump rfl))
  by_cases htail : label = tail
  · subst htail
    obtain ⟨_, _, _, _, _, _, hnew⟩ := h.tail_after
    rw [hwf'.bodyOf_unique hbody hnew]
    refine rawBody_append hinner.2 ?_
    change RawBody ([_, _, _, _] ++ [_])
    exact rawBody_append (by simp [Stmt.staysInside, StackOp.isConditional]) (.jump rfl)
  by_cases hexit : label = exit
  · subst hexit
    obtain ⟨_, hold⟩ := h.exit_before
    rw [hwf'.bodyOf_unique hbody h.exit_after]
    exact (hraw _ _ hold).of_popz
  · exact hraw label stmts ((h.kept label stmts (by simp [hhead, htail, hexit, hminted])).mp hbody)

/-- The blocks of a counted loop start and end the scopes that they did. -/
lemma Rewrites.scopeMarks_eq (hwf : WellFormed bound before) (hwf' : WellFormed bound' after)
    {label : LabelId} {stmts stmts' : List Stmt} (hold : BodyOf before label stmts)
    (hnew : BodyOf after label stmts') :
    stmts'.filterMap Stmt.scopeMark? = stmts.filterMap Stmt.scopeMark? := by
  have hinner := List.forall_mem_append.mp h.inner
  by_cases hhead : label = head
  · subst hhead
    obtain ⟨_, _, _, _, _, hbefore⟩ := h.head_before
    obtain ⟨_, _, hafter⟩ := h.head_after
    rw [hwf.bodyOf_unique hold hbefore, hwf'.bodyOf_unique hnew hafter, List.filterMap_append,
      List.filterMap_append, filterMap_scopeMark?_inner hinner.1]
    rfl
  by_cases htail : label = tail
  · subst htail
    obtain ⟨_, _, _, _, _, hbefore⟩ := h.tail_before
    obtain ⟨_, _, _, _, _, _, hafter⟩ := h.tail_after
    rw [hwf.bodyOf_unique hold hbefore, hwf'.bodyOf_unique hnew hafter, List.filterMap_append,
      List.filterMap_append, filterMap_scopeMark?_inner hinner.2]
    rfl
  by_cases hexit : label = exit
  · subst hexit
    obtain ⟨_, hbefore⟩ := h.exit_before
    rw [hwf.bodyOf_unique hold hbefore, hwf'.bodyOf_unique hnew h.exit_after]
    rfl
  · rw [hwf'.bodyOf_unique hnew (h.bodyOf_other hold hhead htail hexit)]

end

section

variable {site : Site} {blocks after : List BasicBlock} {label : LabelId} {edit : Edit} {resume : Nat}
  {context context' : Context} (hwf : WellFormed context.labels.names.length blocks)
  (hraw : ∀ block ∈ blocks, RawBody block.body) (hsite : site.IsAt blocks)
  (hlabel : site.head.entryLabel? = some label)
include hwf hraw hsite hlabel

/-- The edit that keeps a counter in a temporary. -/
lemma exists_rewrites (hedit : edit? site context = (some edit, context'))
    (happly : edit.apply blocks site.pos = .ok (after, resume)) :
    ∃ tail exit body headInit tailInit exitRest,
      Rewrites blocks after label tail exit body context.labels.names.length headInit tailInit exitRest ∧
        edit.head.bind BasicBlockOf.entryLabel? = some label ∧
        edit.replace.getLast?.bind BasicBlockOf.entryLabel? = some exit ∧
        edit.remove = [] ∧ ∀ block ∈ edit.insert, block.scopeMarks = [] := by
  obtain ⟨found, name, counters, hmatch, rfl, rfl⟩ := edit?_eq_countedEdit hedit
  obtain ⟨l, hl⟩ := exists_layout hwf hsite hmatch
  have h := hl.turns hwf hsite hmatch happly
  have hheadLabel := ((fits hwf hsite hlabel rfl hedit).head _ rfl).entryLabel?
  obtain rfl : label = l.head := Option.some.inj (hlabel.symm.trans hl.head)
  have hexitLabel : (withoutFirst found.exitBlock).entryLabel? = some l.loop.exit := by
    simp [withoutFirst, BasicBlockOf.entryLabel?, hl.exit_body]
  rw [← hl.minted] at hheadLabel ⊢
  obtain ⟨headBlock, hheadMem, -, hhead⟩ := h.head_before
  obtain ⟨tailBlock, htailMem, -, htail⟩ := h.tail_before
  refine ⟨l.tail, l.loop.exit, l.loop.body, l.headInit, l.tailInit, l.exitRest,
    { inner := ?_
      head_before := ⟨_, _, _, _, _, h.head_before⟩
      tail_before := ⟨_, _, _, _, _, h.tail_before⟩
      exit_before := ⟨_, h.exit_before⟩
      head_after := ⟨_, _, h.head_after⟩
      test_after := ⟨_, _, _, _, _, h.test_after⟩
      tail_after := ⟨_, _, _, _, _, _, h.tail_after⟩
      exit_after := h.exit_after
      kept := h.kept
      minted_new := h.minted_new
      exit_ne_head := h.exit_ne_head
      tail_ne_head := h.tail_ne_head
      exit_ne_tail := h.exit_ne_tail }, hheadLabel, hexitLabel, rfl, ?_⟩
  · rw [List.forall_mem_append]
    exact ⟨(RawBody.of_append (hhead ▸ hraw _ hheadMem) (by simp [Layout.oldHead])).1,
      (RawBody.of_append (htail ▸ hraw _ htailMem) (by simp [Layout.oldTail])).1⟩
  · intro block hblock
    rw [List.mem_singleton.mp hblock]
    rfl

end

end CountedLoop

/-! ### Dispatch chains -/

namespace SwitchDispatch

open Depth

/-- The labels of the blocks of a chain from a label on, and where they go: to the cases and to the
default. -/
inductive ChainOf (blocks : List BasicBlock) : LabelId → List LabelId → List LabelId → Prop where
  | last {next default l : LabelId} (hbody : BodyOf blocks next [.label l, .goto default]) :
      ChainOf blocks next [next] [default]
  | link {next case later l : LabelId} {labels targets : List LabelId} {a b c d : Nat} {value : Constant}
      (hbody : BodyOf blocks next [.label l, .raw a (.dup 0), .raw b (.push value), .raw c (.binary .eq),
        .raw d (.branchTrue case), .goto later])
      (hrest : ChainOf blocks later labels targets) :
      ChainOf blocks next (next :: labels) (case :: targets)

/-- The first label of a chain. -/
lemma ChainOf.mem {blocks : List BasicBlock} {next : LabelId} {labels targets : List LabelId}
    (h : ChainOf blocks next labels targets) : next ∈ labels := by
  cases h <;> exact List.mem_cons_self

/-- A block of a chain goes on to the next one, to a case or to the default, with as many values as it
was entered with. -/
lemma ChainOf.mem_branches {bound : Nat} {blocks : List BasicBlock} (hwf : WellFormed bound blocks)
    {next label target : LabelId} {labels targets : List LabelId} {stmts : List Stmt} {depth value : Nat}
    (h : ChainOf blocks next labels targets) (hlabel : label ∈ labels) (hbody : BodyOf blocks label stmts)
    (hbranch : (target, value) ∈ branches depth stmts) :
    value = depth ∧ (target ∈ targets ∨ target ∈ labels) := by
  induction h with
  | last hblock =>
    rw [List.mem_singleton.mp hlabel] at hbody
    rw [hwf.bodyOf_unique hbody hblock] at hbranch
    simp only [branches, List.mem_singleton, Prod.mk.injEq] at hbranch
    exact ⟨hbranch.2, .inl (List.mem_singleton.mpr hbranch.1)⟩
  | link hblock hrest ih =>
    rcases List.mem_cons.mp hlabel with rfl | hlabel
    · rw [hwf.bodyOf_unique hbody hblock] at hbranch
      change (target, value) ∈ branches depth [_, _, _, _, _] at hbranch
      obtain ⟨-, rfl | rfl, rfl⟩ := mem_branches_test.mp hbranch
      · exact ⟨rfl, .inl List.mem_cons_self⟩
      · exact ⟨rfl, .inr (List.mem_cons_of_mem _ hrest.mem)⟩
    · exact (ih hlabel).imp_right (Or.imp (List.mem_cons_of_mem _) (List.mem_cons_of_mem _))

/-- A way into a chain goes on to all its cases and the default. -/
lemma ChainOf.lacks {blocks : List BasicBlock} {taken : LabelId → Int} (hsustained : Sustained blocks)
    {next : LabelId} {labels targets : List LabelId} {depth : Nat} {lack : Int}
    (h : ChainOf blocks next labels targets) (htaken : ∀ label ∈ labels, taken label = 0)
    (hlack : Lacks blocks taken next depth lack) :
    ∀ target ∈ targets, Lacks blocks taken target depth lack := by
  induction h with
  | last hblock =>
    intro target htarget
    rw [List.mem_singleton.mp htarget]
    have hnone := htaken _ List.mem_cons_self
    rw [← add_zero lack, ← hnone]
    exact .branch hlack hblock List.mem_cons_self
  | @link next case later l labels targets a b c d value hblock hrest ih =>
    rw [List.forall_mem_cons] at htaken
    have hall : Stmt.enough depth ([_] ++ [_, _, _, _, _]) = true :=
      hsustained _ _ _ hblock hlack.enters
    have hpos : depth ≠ 0 := enough_test.mp (Stmt.enough_append.mp hall).2
    have hgo : ∀ target, target = case ∨ target = later → Lacks blocks taken target depth lack := by
      intro target htarget
      rw [← add_zero lack, ← htaken.1]
      refine .branch hlack hblock ?_
      change (target, depth) ∈ branches depth [_, _, _, _, _]
      exact mem_branches_test.mpr ⟨hpos, htarget, rfl⟩
    rw [List.forall_mem_cons]
    exact ⟨hgo _ (.inl rfl), ih htaken.2 (hgo _ (.inr rfl))⟩

/-- The blocks of a chain neither start nor end scopes. -/
lemma ChainOf.scopeMarks {bound : Nat} {blocks : List BasicBlock} (hwf : WellFormed bound blocks)
    {next label : LabelId} {labels targets : List LabelId} {stmts : List Stmt}
    (h : ChainOf blocks next labels targets) (hlabel : label ∈ labels) (hbody : BodyOf blocks label stmts) :
    stmts.filterMap Stmt.scopeMark? = [] := by
  induction h with
  | last hblock =>
    rw [List.mem_singleton.mp hlabel] at hbody
    rw [hwf.bodyOf_unique hbody hblock]
    rfl
  | link hblock _ ih =>
    rcases List.mem_cons.mp hlabel with rfl | hlabel
    · rw [hwf.bodyOf_unique hbody hblock]
      rfl
    · exact ih hlabel

/-- What the edit of a chain changes: the end of its head, where all of the chain is now, and the `popz`
of the block behind it. -/
structure Rewrites (before after : List BasicBlock) (head exit next case : LabelId)
    (labels targets : List LabelId) (init exitRest : List Stmt) : Prop where
  inner : ∀ s ∈ init, s.staysInside = true
  head_before : ∃ a b c d value, BodyOf before head (init ++ [.raw a (.dup 0), .raw b (.push value),
    .raw c (.binary .eq), .raw d (.branchTrue case), .goto next])
  chain : ChainOf before next labels targets
  exit_before : ∃ a, BodyOf before exit (.label exit :: .raw a .popz :: exitRest)
  head_after : ∃ a cases default, BodyOf after head (init ++ [.raw a (.dispatch cases default),
    .goto default]) ∧ cases.map Prod.snd ++ [default] = case :: targets
  exit_after : BodyOf after exit (.label exit :: exitRest)
  kept : ∀ label stmts, label ∉ head :: exit :: labels →
    (BodyOf after label stmts ↔ BodyOf before label stmts)
  gone : ∀ label ∈ labels, ∀ stmts, ¬ BodyOf after label stmts
  exit_ne_head : exit ≠ head
  head_kept : head ∉ labels
  exit_kept : exit ∉ labels
  targets_kept : ∀ target ∈ case :: targets, target ∉ labels
  apart : ∀ label stmts, BodyOf before label stmts → label ∉ head :: labels →
    ∀ target ∈ Stmt.targetsOfList stmts, target ∉ labels

/-- The branches of a dispatch, which takes the compared value. -/
lemma mem_branches_dispatch {n a value : Nat} {cases : List (Constant × LabelId)}
    {default target : LabelId} :
    (target, value) ∈ branches n [.raw a (.dispatch cases default), .goto default] ↔
      n ≠ 0 ∧ target ∈ cases.map Prod.snd ++ [default] ∧ value = n - 1 := by
  cases n with
  | zero => simp [branches, StackOp.effect?]
  | succ n =>
    have hcons : branches (n + 1) [.raw a (.dispatch cases default), .goto default] =
        (cases.map Prod.snd ++ [default]).map (·, n) ++ [(default, n)] := by
      simp [branches, StackOp.effect?, StackOp.targets]
    rw [hcons, List.mem_append, List.mem_map]
    constructor
    · rintro (⟨l, hl, heq⟩ | heq)
      · cases heq
        exact ⟨Nat.succ_ne_zero _, hl, rfl⟩
      · cases List.mem_singleton.mp heq
        exact ⟨Nat.succ_ne_zero _, by simp, rfl⟩
    · rintro ⟨-, htarget, rfl⟩
      exact .inl ⟨target, htarget, rfl⟩

/-- A dispatch needs the compared value. -/
lemma enough_dispatch {n a : Nat} {cases : List (Constant × LabelId)} {default : LabelId} :
    Stmt.enough n [.raw a (.dispatch cases default), .goto default] = true ↔ n ≠ 0 := by
  simp [Stmt.enough, Stmt.finds, Stmt.stackOp?, StackOp.effect?]
  omega

section

variable {before after : List BasicBlock} {bound bound' : Nat} {head exit next case : LabelId}
  {labels targets : List LabelId} {init exitRest : List Stmt}
  (h : Rewrites before after head exit next case labels targets init exitRest)
include h

/-- The ways through a chain stay, without the compared value; a block of the chain stands for all the
places where the chain can go. -/
lemma Rewrites.forth (hwf : WellFormed bound before) (hwf' : WellFormed bound' after)
    (hentry : firstLabel? after = firstLabel? before) (hsustained : Sustained after)
    {label : LabelId} {depth : Nat} {lack : Int}
    (hlack : Lacks before (takenBetween head exit) label depth lack) :
    ∃ left : Nat, left + lack = depth ∧
      ∀ seat ∈ if label ∈ labels then case :: targets else [label], Enters after seat left := by
  -- Another block of the list stands for itself.
  have hself : ∀ {label : LabelId}, label ∉ labels → ∀ {left depth : Nat} {lack : Int},
      left + lack = depth → Enters after label left → ∃ left : Nat, left + lack = depth ∧
        ∀ seat ∈ if label ∈ labels then case :: targets else [label], Enters after seat left := by
    intro label hkept left depth lack hleft henters
    exact ⟨left, hleft, by simpa [hkept] using henters⟩
  induction hlack with
  | first hfirst =>
    have henters := Enters.first (hentry.trans hfirst)
    obtain ⟨stmts, hbody⟩ := henters.exists_bodyOf hwf'
    exact hself (fun hmem => h.gone _ hmem stmts hbody) rfl henters
  | @branch label target depth value lack stmts hlack hbody hbranch ih =>
    obtain ⟨left, hleft, hseats⟩ := ih
    by_cases hchain : label ∈ labels
    · rw [if_pos hchain] at hseats
      obtain ⟨rfl, htarget⟩ := h.chain.mem_branches hwf hchain hbody hbranch
      have hhead : label ≠ head := fun heq => h.head_kept (heq ▸ hchain)
      have hexit : label ≠ exit := fun heq => h.exit_kept (heq ▸ hchain)
      rw [takenBetween_other hhead hexit, add_zero]
      rcases htarget with htarget | htarget
      · exact hself (h.targets_kept target (List.mem_cons_of_mem _ htarget)) hleft
          (hseats target (List.mem_cons_of_mem _ htarget))
      · exact ⟨left, hleft, by simpa [htarget] using hseats⟩
    have henters : Enters after label left := hseats label (by simp [hchain])
    by_cases hhead : label = head
    · subst hhead
      obtain ⟨_, _, _, _, _, hold⟩ := h.head_before
      obtain ⟨_, cases, default, hnew, htargets⟩ := h.head_after
      rw [hwf.bodyOf_unique hbody hold] at hbranch
      obtain ⟨rest, rest', hrest, hbranch, hend, hgo⟩ :=
        henters.forth_end hleft h.inner hnew hsustained hbranch
      have hpos := enough_dispatch.mp hend
      have hall : ∀ seat ∈ case :: targets, Enters after seat (rest' - 1) := by
        intro seat hseat
        rw [← htargets] at hseat
        exact hgo seat _ (mem_branches_dispatch.mpr ⟨hpos, hseat, rfl⟩)
      obtain ⟨-, htarget, rfl⟩ := mem_branches_test.mp hbranch
      rw [takenBetween_head h.exit_ne_head]
      rcases htarget with rfl | rfl
      · exact hself (h.targets_kept target List.mem_cons_self) (by omega) (hall target List.mem_cons_self)
      · refine ⟨_, ?_, by simpa [h.chain.mem] using hall⟩
        omega
    · have hkept : target ∉ labels :=
        h.apart label stmts hbody (by simp [hhead, hchain]) target (mem_targetsOfList hbranch)
      by_cases hexit : label = exit
      · subst hexit
        obtain ⟨_, hold⟩ := h.exit_before
        rw [hwf.bodyOf_unique hbody hold] at hbranch
        obtain ⟨value', hsum, hvalue'⟩ := henters.forth_withoutPopz hleft h.exit_after hsustained hbranch
        rw [takenBetween_exit h.exit_ne_head]
        exact hself hkept hsum hvalue'
      · have hnew := (h.kept label stmts (by simp [hhead, hexit, hchain])).mpr hbody
        obtain ⟨value', hsum, hvalue'⟩ := henters.forth hleft hnew hsustained hbranch
        rw [takenBetween_other hhead hexit, add_zero]
        exact hself hkept hsum hvalue'

/-- The ways through the new list come from the old one. -/
lemma Rewrites.back (hwf' : WellFormed bound' after) (hentry : firstLabel? after = firstLabel? before)
    (hsustained : Sustained before) {label : LabelId} {left : Nat} (henters : Enters after label left) :
    ∃ depth lack, Lacks before (takenBetween head exit) label depth lack ∧ left + lack = (depth : Int) := by
  induction henters with
  | first hfirst => exact ⟨0, 0, .first (hentry.symm.trans hfirst), rfl⟩
  | @branch label target left value' stmts henters hbody hbranch ih =>
    obtain ⟨depth, lack, hlack, hleft⟩ := ih
    by_cases hhead : label = head
    · subst hhead
      obtain ⟨_, _, _, _, _, hold⟩ := h.head_before
      obtain ⟨_, cases, default, hnew, htargets⟩ := h.head_after
      rw [hwf'.bodyOf_unique hbody hnew] at hbranch
      obtain ⟨rest, rest', hrest, hbranch, hend, hgo⟩ :=
        hlack.back_end hleft h.inner hold hsustained hbranch
      obtain ⟨hpos, htarget, rfl⟩ := mem_branches_dispatch.mp hbranch
      have htests : ∀ target, target = case ∨ target = next →
          Lacks before (takenBetween label exit) target rest (lack + 1) := by
        intro target htarget
        rw [← takenBetween_head h.exit_ne_head]
        exact hgo target rest (mem_branches_test.mpr ⟨enough_test.mp hend, htarget, rfl⟩)
      refine ⟨rest, lack + 1, ?_, ?_⟩
      · rw [htargets] at htarget
        rcases List.mem_cons.mp htarget with rfl | htarget
        · exact htests target (.inl rfl)
        · refine h.chain.lacks hsustained ?_ (htests next (.inr rfl)) target htarget
          intro l hl
          exact takenBetween_other (fun heq => h.head_kept (heq ▸ hl)) (fun heq => h.exit_kept (heq ▸ hl))
      · omega
    by_cases hexit : label = exit
    · subst hexit
      obtain ⟨_, hold⟩ := h.exit_before
      rw [hwf'.bodyOf_unique hbody h.exit_after] at hbranch
      obtain ⟨value, hvalue, hsum⟩ := hlack.back_withoutPopz hleft hold hsustained hbranch
      rw [takenBetween_exit h.exit_ne_head] at hvalue
      exact ⟨value, _, hvalue, hsum⟩
    · have hchain : label ∉ labels := fun hmem => h.gone label hmem stmts hbody
      have hold := (h.kept label stmts (by simp [hhead, hexit, hchain])).mp hbody
      obtain ⟨value, hvalue, hsum⟩ := hlack.back hleft hold hsustained hbranch
      rw [takenBetween_other hhead hexit, add_zero] at hvalue
      exact ⟨value, lack, hvalue, hsum⟩

/-- The edit of a chain takes the compared value off the stack and otherwise leaves the ways through the
list as they are. -/
lemma Rewrites.reroutes (hwf : WellFormed bound before) (hwf' : WellFormed bound' after)
    (hentry : firstLabel? after = firstLabel? before) (hbefore : Supplied before) :
    Reroutes before after (takenBetween head exit)
      (fun label => if label ∈ labels then case else label) id where
  forth := by
    intro hsustained label depth lack hlack
    obtain ⟨left, hleft, hseats⟩ := h.forth hwf hwf' hentry hsustained hlack
    refine ⟨left, hleft, hseats _ ?_⟩
    split
    · exact List.mem_cons_self
    · exact List.mem_cons_self
  back := fun label left henters =>
    h.back hwf' hentry hbefore.sustained henters
  kept := fun label stmts hbody => if_neg fun hmem => h.gone label hmem stmts hbody
  fresh := fun _ _ _ => .inl rfl
  unreached := by
    intro label stmts hbody hnever
    by_cases hhead : label = head
    · subst hhead
      obtain ⟨_, _, _, _, _, hold⟩ := h.head_before
      obtain ⟨_, cases, default, hnew, -⟩ := h.head_after
      obtain ⟨henough, hend⟩ := Stmt.enough_append.mp (hbefore.enough_of_unreached hold hnever)
      rw [hwf'.bodyOf_unique hbody hnew, Stmt.enough_append]
      exact ⟨henough, enough_dispatch.mpr (enough_test.mp hend)⟩
    by_cases hexit : label = exit
    · subst hexit
      obtain ⟨_, hold⟩ := h.exit_before
      have hpos := (enough_of_popz (hbefore.enough_of_unreached hold hnever)).1
      exact absurd hpos (Nat.not_succ_le_zero 0)
    · have hchain : label ∉ labels := fun hmem => h.gone label hmem stmts hbody
      have hold := (h.kept label stmts (by simp [hhead, hexit, hchain])).mp hbody
      exact hbefore.enough_of_unreached hold hnever

/-- The blocks that are left of a chain stay blocks of stack operations. -/
lemma Rewrites.rawBody (hwf' : WellFormed bound' after)
    (hraw : ∀ label stmts, BodyOf before label stmts → RawBody stmts) :
    ∀ label stmts, BodyOf after label stmts → RawBody stmts := by
  intro label stmts hbody
  by_cases hhead : label = head
  · subst hhead
    obtain ⟨_, _, _, hnew, -⟩ := h.head_after
    rw [hwf'.bodyOf_unique hbody hnew]
    exact rawBody_append h.inner (.branch _ rfl rfl)
  by_cases hexit : label = exit
  · subst hexit
    obtain ⟨_, hold⟩ := h.exit_before
    rw [hwf'.bodyOf_unique hbody h.exit_after]
    exact (hraw _ _ hold).of_popz
  · have hchain : label ∉ labels := fun hmem => h.gone label hmem stmts hbody
    exact hraw label stmts ((h.kept label stmts (by simp [hhead, hexit, hchain])).mp hbody)

/-- The blocks that are left of a chain start and end the scopes that they did. -/
lemma Rewrites.scopeMarks_eq (hwf : WellFormed bound before) (hwf' : WellFormed bound' after)
    {label : LabelId} {stmts stmts' : List Stmt} (hold : BodyOf before label stmts)
    (hnew : BodyOf after label stmts') :
    stmts'.filterMap Stmt.scopeMark? = stmts.filterMap Stmt.scopeMark? := by
  by_cases hhead : label = head
  · subst hhead
    obtain ⟨_, _, _, _, _, hbefore⟩ := h.head_before
    obtain ⟨_, _, _, hafter, -⟩ := h.head_after
    rw [hwf.bodyOf_unique hold hbefore, hwf'.bodyOf_unique hnew hafter, List.filterMap_append,
      List.filterMap_append, filterMap_scopeMark?_inner h.inner]
    rfl
  by_cases hexit : label = exit
  · subst hexit
    obtain ⟨_, hbefore⟩ := h.exit_before
    rw [hwf.bodyOf_unique hold hbefore, hwf'.bodyOf_unique hnew h.exit_after]
    rfl
  · have hchain : label ∉ labels := fun hmem => h.gone label hmem stmts' hnew
    rw [hwf'.bodyOf_unique hnew ((h.kept label stmts (by simp [hhead, hexit, hchain])).mpr hold)]

end

section

variable {site : Site} {blocks after : List BasicBlock} {label : LabelId} {edit : Edit} {resume bound : Nat}
  {context context' : Context} (hwf : WellFormed bound blocks)
  (hraw : ∀ block ∈ blocks, RawBody block.body) (hsite : site.IsAt blocks)
  (hlabel : site.head.entryLabel? = some label)
include hsite

/-- The blocks of a chain that has been followed. -/
lemma Chained.chainOf {next default : LabelId} {links : List Link} {labels : List LabelId}
    (h : Chained site next links labels default) :
    ChainOf blocks next labels (links.map Link.case ++ [default]) := by
  induction h with
  | last _ hblock hbody =>
    obtain ⟨hmem, hlabel⟩ := hsite.other_mem hblock
    exact .last ⟨_, hmem, hlabel, hbody⟩
  | link _ hblock hbody hlink _ _ ih =>
    obtain ⟨hmem, hlabel⟩ := hsite.other_mem hblock
    obtain ⟨a, b, c, rfl⟩ := link?_eq_some hlink
    exact .link ⟨_, hmem, hlabel, hbody⟩ ih

include hwf hraw hlabel

/-- The edit that makes one dispatch of a chain. -/
lemma exists_rewrites (hedit : edit? site context = (some edit, context'))
    (happly : edit.apply blocks site.pos = .ok (after, resume)) :
    ∃ exit next case labels targets init exitRest,
      Rewrites blocks after label exit next case labels targets init exitRest ∧
        edit.head.bind BasicBlockOf.entryLabel? = some label ∧
        edit.replace.getLast?.bind BasicBlockOf.entryLabel? = some exit ∧
        edit.remove = labels ∧ edit.insert = [] := by
  have hfits := fits hwf hsite hlabel hedit
  obtain ⟨replaced, removed, happ⟩ := Edit.apply_eq_ok happly
  obtain ⟨-, init, a, b, c, first, chain, last, endBlock, hinit, hbody, hchain, hlast, hother, hpopz, rfl⟩ :=
    edit?_eq_some hedit
  obtain ⟨hexitMem, hexitLabel⟩ := hsite.other_mem hother
  have hexitShaped := (hwf.shaped_of_label hexitMem hexitLabel).2
  obtain ⟨offset, rest, hexitBody, hexitBody'⟩ := hexitShaped.exists_popz hpopz
  have hexitLabel' := (hexitShaped.withoutFirst hpopz).entryLabel?
  have hheadLabel' := (hfits.head _ rfl).entryLabel?
  have hheadBody' := Site.body_headWith hbody [.raw first.offset (.dispatch
    ((first :: chain.links).map fun link => (link.value, link.case)) chain.default), .goto chain.default]
  have hnodup : ([withoutFirst endBlock].map BasicBlockOf.entryLabel?).Nodup := List.nodup_singleton _
  have hnew : ∀ {block : BasicBlock} {l : LabelId}, block ∈ [site.headWith 5 _, _] →
      block.entryLabel? = some l → BodyOf after l block.body :=
    fun hmem hl => happ.bodyOf_new hwf hfits hsite.head_eq hlabel hnodup hmem hl
  have hremove : ∀ l ∈ chain.labels, l ≠ label := fun l hl => (hfits.remove l hl).2
  refine ⟨last, first.next, first.case, chain.labels, chain.links.map Link.case ++ [chain.default], init,
    rest,
    { inner := (RawBody.of_append (hbody ▸ hraw _ hsite.head_mem) (by simp)).1
      head_before := ⟨_, _, _, _, _, site.head, hsite.head_mem, hlabel, hbody⟩
      chain := hchain.chainOf hsite
      exit_before := ⟨_, endBlock, hexitMem, hexitLabel, hexitBody⟩
      head_after := ⟨_, _, chain.default, hheadBody' ▸ hnew (by simp) hheadLabel', by simp⟩
      exit_after := hexitBody' ▸ hnew (by simp) hexitLabel'
      kept := ?_
      gone := ?_
      exit_ne_head := hsite.other_ne hwf hlabel hother
      head_kept := fun hmem => hremove label hmem rfl
      exit_kept := hlast
      targets_kept := ?_
      apart := ?_ }, hheadLabel', hexitLabel', rfl, rfl⟩
  · intro l stmts hl
    simp only [List.mem_cons, not_or] at hl
    refine happ.bodyOf_kept_iff hwf hfits hsite.head_eq hlabel hnodup (by simp [hl.1, hl.2.2]) ?_
    intro block hblock hl'
    simp only [Option.toList_some, List.append_nil, List.cons_append, List.nil_append, List.mem_cons,
      List.not_mem_nil, or_false] at hblock
    rcases hblock with rfl | rfl
    · exact hl.1 (Option.some.inj (hl'.symm.trans hheadLabel'))
    · exact hl.2.1 (Option.some.inj (hl'.symm.trans hexitLabel'))
  · rintro l hl stmts ⟨block, hblock, hl', -⟩
    rcases (happ.mem_after_iff hwf hfits hsite.head_eq hlabel hnodup).mp hblock with hmem | ⟨-, hnot, -⟩
    · simp only [Option.toList_some, List.append_nil, List.cons_append, List.nil_append, List.mem_cons,
        List.not_mem_nil, or_false] at hmem
      rcases hmem with rfl | rfl
      · exact hremove l hl (Option.some.inj (hl'.symm.trans hheadLabel'))
      · exact hlast (Option.some.inj (hl'.symm.trans hexitLabel') ▸ hl)
    · exact hnot l (List.mem_cons_of_mem _ hl) hl'
  · intro target htarget hmem
    refine (hfits.new_targets _ List.mem_cons_self target ?_).1 hmem
    refine (congrArg (target ∈ Stmt.targetsOfList ·) hheadBody').mpr ?_
    rw [Stmt.targetsOfList_append]
    refine List.mem_append_right _ ?_
    simpa [Stmt.targetsOfList, Stmt.targets, Stmt.branchTargets, StackOp.targets] using htarget
  · rintro l stmts ⟨block, hblock, hl, rfl⟩ hnot target htarget
    refine hfits.kept_targets block hblock ?_ target htarget
    intro m hm heq
    rw [hl] at heq
    cases heq
    exact hnot hm

end

end SwitchDispatch

end Decompiler
