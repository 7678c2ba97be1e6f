import Decompiler.Proofs.RuleSoundness
import Decompiler.Proofs.SparedValues

/-!
# The code of counted loops

What the edit of a counted loop makes of the code, statement by statement: the ends of the head and of the
tail change (`Layout.oldHead`, `Layout.newHead`, `Layout.oldTail`, `Layout.newTail`), the exit loses its
first operation, one block is new, and everything else stays (`Layout.Turns`).  On a well-formed list that
is what the edit does (`Layout.Of.turns`).
-/

namespace Decompiler.CountedLoop

open Bytecode

/-- The code of a counted loop. -/
structure Layout where
  /-- The label of the block with the head. -/
  head : LabelId
  /-- The label of the block with the tail. -/
  tail : LabelId
  /-- The label of the new block. -/
  minted : LabelId
  counter : String
  /-- The labels of the exit and the body. -/
  loop : Head
  /-- What is subtracted in each round. -/
  step : Tail
  /-- What the counter is compared with. -/
  zero : Constant
  headInit : List Stmt
  tailInit : List Stmt
  exitRest : List Stmt
  /-- The offsets of the operations that go. -/
  offset : Nat → Nat

namespace Layout

variable (l : Layout)

/-- The end of the head, which compares the counter on the stack. -/
def oldHead : List Stmt :=
  [.raw (l.offset 0) (.dup 0), .raw (l.offset 1) (.push l.zero), .raw (l.offset 2) (.binary .le),
    .raw l.loop.offset (.branchTrue l.loop.exit), .goto l.loop.body]

/-- The end of the tail, which counts down on the stack. -/
def oldTail : List Stmt :=
  [.raw l.step.offset (.push l.step.step), .raw (l.offset 3) (.binary .sub), .raw (l.offset 4) (.dup 0),
    .raw (l.offset 5) (.branchTrue l.loop.body), .goto l.loop.exit]

/-- The new end of the head. -/
def newHead : List Stmt :=
  headEnd l.loop l.counter l.minted

/-- The new end of the tail, which counts down in the temporary. -/
def newTail : List Stmt :=
  [.raw l.step.offset (.pushTemporary l.counter), .raw l.step.offset (.push l.step.step),
    .raw l.step.offset (.binary .sub), .raw l.step.offset (.popTemporary l.counter), .goto l.minted]

/-- What the edit changes. -/
structure Turns (before after : List BasicBlock) : Prop where
  zero : l.zero.integer? = some 0
  headInit : l.headInit ≠ []
  tailInit : l.tailInit ≠ []
  head_before : BodyOf before l.head (l.headInit ++ l.oldHead)
  head_after : BodyOf after l.head (l.headInit ++ l.newHead)
  tail_before : BodyOf before l.tail (l.tailInit ++ l.oldTail)
  tail_after : BodyOf after l.tail (l.tailInit ++ l.newTail)
  exit_before : BodyOf before l.loop.exit (.label l.loop.exit :: .raw (l.offset 6) .popz :: l.exitRest)
  exit_after : BodyOf after l.loop.exit (.label l.loop.exit :: l.exitRest)
  test_after : BodyOf after l.minted (testBlock l.loop l.counter l.minted).body
  kept : ∀ label stmts, label ∉ [l.head, l.tail, l.loop.exit, l.minted] →
    (BodyOf after label stmts ↔ BodyOf before label stmts)
  minted_new : ∀ stmts, ¬ BodyOf before l.minted stmts
  exit_ne_head : l.loop.exit ≠ l.head
  tail_ne_head : l.tail ≠ l.head
  exit_ne_tail : l.loop.exit ≠ l.tail
  exit_ne_body : l.loop.exit ≠ l.loop.body

/-- The code of a counted loop that the rule has found. -/
structure Of (site : Site) (found : Match) (context : Context) : Prop where
  head : site.head.entryLabel? = some l.head
  head_body : site.head.body = l.headInit ++ l.oldHead
  tail : found.tailBlock.entryLabel? = some l.tail
  tail_body : found.tailBlock.body = l.tailInit ++ l.oldTail
  exit_body : found.exitBlock.body = .label l.loop.exit :: .raw (l.offset 6) .popz :: l.exitRest
  loop : l.loop = found.head
  step : l.step = found.tail
  counter : l.counter = counterName context
  minted : l.minted = context.labels.names.length

end Layout

section

variable {site : Site} {blocks after : List BasicBlock} {context : Context} {found : Match} {resume : Nat}
  {l : Layout} (hwf : WellFormed context.labels.names.length blocks) (hsite : site.IsAt blocks)
  (hfound : match? site = some found)

/-- What is asked of the end of the head. -/
lemma Layout.Of.head_guard (hl : l.Of site found context) (hhead : head? site.head = some found.head) :
    l.headInit ≠ [] ∧ l.zero.integer? = some 0 ∧ l.loop.exit ≠ l.loop.body := by
  obtain ⟨init, zero, a, b, c, hinit, hbody, hzero, hexit⟩ := exists_headEnd hhead
  obtain ⟨rfl, hend⟩ := List.append_inj' (hl.head_body.symm.trans hbody) rfl
  simp only [Layout.oldHead, List.cons.injEq] at hend
  obtain ⟨-, hpush, -⟩ := hend
  cases hpush
  exact ⟨hinit, hzero, hl.loop ▸ hexit⟩

/-- What is asked of the end of the tail. -/
lemma Layout.Of.tail_guard (hl : l.Of site found context)
    (htail : tail? found.head found.tailBlock = some found.tail) : l.tailInit ≠ [] := by
  obtain ⟨init, a, b, c, hinit, hbody⟩ := tail?_eq_some htail
  obtain ⟨rfl, -⟩ := List.append_inj' (hl.tail_body.symm.trans hbody) rfl
  exact hinit

/-- The new head. -/
lemma Layout.Of.body_headWith (hl : l.Of site found context) :
    (site.headWith 5 (headEnd l.loop l.counter l.minted)).body = l.headInit ++ l.newHead :=
  Site.body_headWith hl.head_body l.newHead

/-- The new tail. -/
lemma Layout.Of.body_tailBlock (hl : l.Of site found context) :
    (CountedLoop.tailBlock found.tailBlock l.step l.counter l.minted).body = l.tailInit ++ l.newTail := by
  simp [CountedLoop.tailBlock, Layout.newTail, Layout.oldTail, hl.tail_body]

/-- The new exit. -/
lemma Layout.Of.body_withoutFirst (hl : l.Of site found context) :
    (withoutFirst found.exitBlock).body = .label l.loop.exit :: l.exitRest := by
  rw [withoutFirst, hl.exit_body]
  rfl

include hwf hsite hfound

/-- The places of the blocks of a counted loop. -/
lemma exists_places :
    ∃ tail tailAt, found.tailBlock.entryLabel? = some tail ∧ blocks[tailAt]? = some found.tailBlock ∧
      tailAt ≠ site.pos ∧ found.exitBlock ∈ blocks ∧
      found.exitBlock.entryLabel? = some found.head.exit ∧ found.head.exit ≠ tail ∧
      some found.head.exit ≠ site.head.entryLabel? ∧ startsWithPopz found.exitBlock = true := by
  obtain ⟨tailAt, exitAt, hhead, htail, htailEnd, hexitAt, hexit, htailPos, hexitPos, hexitTail, hpopz⟩ :=
    match?_eq_some hfound
  have hother := Site.other?_eq hexitAt hexitPos hexit
  obtain ⟨hexitMem, hexitLabel⟩ := hsite.other_mem hother
  obtain ⟨label, -, hshaped⟩ := hwf.shaped site.head hsite.head_mem
  have hexitHead : found.head.exit ≠ label := hsite.other_ne hwf hshaped.entryLabel? hother
  rw [Site.blocks, hsite.map_eq] at htail hexit
  obtain ⟨tail, -, htailShaped⟩ := hwf.shaped found.tailBlock (List.mem_of_getElem? htail)
  have htailLabel := htailShaped.entryLabel?
  refine ⟨tail, tailAt, htailLabel, htail, htailPos, hexitMem, hexitLabel, ?_, ?_, hpopz⟩
  · rintro rfl
    exact hexitTail (hwf.position_eq hexit htail (hexitLabel.trans htailLabel.symm))
  · rw [hshaped.entryLabel?]
    exact fun heq => hexitHead (Option.some.inj heq)

/-- A counted loop that the rule has found has its code. -/
theorem exists_layout : ∃ l : Layout, l.Of site found context := by
  obtain ⟨_, _, hhead, -, htail, -⟩ := match?_eq_some hfound
  obtain ⟨tail, -, htailLabel, -, -, hexitMem, hexitLabel, -, -, hpopz⟩ := exists_places hwf hsite hfound
  obtain ⟨label, -, hshaped⟩ := hwf.shaped site.head hsite.head_mem
  obtain ⟨init, zero, a, b, c, -, hbody, -⟩ := exists_headEnd hhead
  obtain ⟨init', a', b', c', -, hbody'⟩ := tail?_eq_some htail
  obtain ⟨offset, rest, hexit, -⟩ := (hwf.shaped_of_label hexitMem hexitLabel).2.exists_popz hpopz
  exact ⟨{ head := label, tail, minted := context.labels.names.length, counter := counterName context,
           loop := found.head, step := found.tail, zero, headInit := init, tailInit := init',
           exitRest := rest, offset := fun i => [a, b, c, a', b', c', offset].getD i 0 },
    { head := hshaped.entryLabel?, head_body := hbody, tail := htailLabel, tail_body := hbody',
      exit_body := hexit, loop := rfl, step := rfl, counter := rfl, minted := rfl }⟩

/-- The edit of a counted loop does what it is for. -/
theorem Layout.Of.turns (hl : l.Of site found context)
    (happly : (countedEdit site found (counterName context) context.labels.names.length).apply blocks
      site.pos = .ok (after, resume)) : l.Turns blocks after := by
  obtain ⟨name, counters, hedit⟩ := edit?_of_match? context hfound
  rw [← hl.counter, ← hl.minted] at happly hedit
  have hfits := fits hwf hsite hl.head rfl hedit
  obtain ⟨replaced, removed, happ⟩ := Edit.apply_eq_ok happly
  obtain ⟨_, _, hhead, -, htailEnd, -⟩ := match?_eq_some hfound
  obtain ⟨tail, tailAt, htail, htailAt, htailPos, hexitMem, hexitLabel, hexitTail, hexitHead, hpopz⟩ :=
    exists_places hwf hsite hfound
  obtain rfl : tail = l.tail := Option.some.inj (htail.symm.trans hl.tail)
  obtain ⟨hheadInit, hzero, hexitBody⟩ := hl.head_guard hhead
  have htailInit := hl.tail_guard htailEnd
  rw [← hl.loop] at hexitLabel hexitTail hexitHead
  have htailMem := List.mem_of_getElem? htailAt
  have hexitShaped := (hwf.shaped_of_label hexitMem hexitLabel).2
  have hexitLabel' := (hexitShaped.withoutFirst hpopz).entryLabel?
  have htailHead : l.tail ≠ l.head := fun heq =>
    htailPos (hwf.position_eq htailAt hsite.head_eq (hl.tail.trans (heq ▸ hl.head.symm)))
  have hheadLabel' := (hfits.head _ rfl).entryLabel?
  rw [← hl.loop] at hheadLabel'
  have htailLabel' :=
    (BasicBlockOf.entryLabel?_congr htailInit hl.body_tailBlock hl.tail_body).trans hl.tail
  rw [countedEdit, ← hl.loop, ← hl.step] at happ hfits
  have hnodup : ([CountedLoop.tailBlock found.tailBlock l.step l.counter l.minted,
      withoutFirst found.exitBlock].map BasicBlockOf.entryLabel?).Nodup := by
    simp [htailLabel', hexitLabel', hexitTail.symm]
  have hnew : ∀ {block : BasicBlock} {label : LabelId}, block ∈ [site.headWith 5 _, _, _, _] →
      block.entryLabel? = some label → BodyOf after label block.body :=
    fun hmem hlabel => happ.bodyOf_new hwf hfits hsite.head_eq hl.head hnodup hmem hlabel
  exact
    { zero := hzero
      headInit := hheadInit
      tailInit := htailInit
      head_before := ⟨site.head, hsite.head_mem, hl.head, hl.head_body⟩
      head_after := hl.body_headWith ▸ hnew (.head _) hheadLabel'
      tail_before := ⟨found.tailBlock, htailMem, hl.tail, hl.tail_body⟩
      tail_after := hl.body_tailBlock ▸ hnew (.tail _ (.head _)) htailLabel'
      exit_before := ⟨found.exitBlock, hexitMem, hexitLabel, hl.exit_body⟩
      exit_after := hl.body_withoutFirst ▸ hnew (.tail _ (.tail _ (.head _))) hexitLabel'
      test_after := hnew (.tail _ (.tail _ (.tail _ (.head _)))) rfl
      kept := by
        intro other stmts hother
        simp only [List.mem_cons, List.not_mem_nil, or_false, not_or] at hother
        refine happ.bodyOf_kept_iff hwf hfits hsite.head_eq hl.head hnodup
          (fun hmem => hother.1 (List.mem_singleton.mp hmem)) ?_
        intro block hblock heq
        simp only [Option.toList_some, List.cons_append, List.nil_append, List.mem_cons,
          List.not_mem_nil, or_false] at hblock
        rcases hblock with rfl | rfl | rfl | rfl
        · exact hother.1 (Option.some.inj (heq.symm.trans hheadLabel'))
        · exact hother.2.1 (Option.some.inj (heq.symm.trans htailLabel'))
        · exact hother.2.2.1 (Option.some.inj (heq.symm.trans hexitLabel'))
        · exact hother.2.2.2 (Option.some.inj heq).symm
      minted_new := by
        rintro stmts ⟨block, hblock, hlabel, -⟩
        exact Nat.lt_irrefl _ (hl.minted ▸ (hwf.shaped_of_label hblock hlabel).1)
      exit_ne_head := fun heq => hexitHead (heq ▸ hl.head.symm)
      tail_ne_head := htailHead
      exit_ne_tail := hexitTail
      exit_ne_body := hexitBody }

end

end Decompiler.CountedLoop
