import Decompiler.Proofs.ClosedCases

/-!
# Enclosed exits

A `break` needs a loop, a scope or a switch around it, and a `continue` a loop or a scope; otherwise it is
stray.  `Stmt.isEnclosed` says that no exit in a statement is stray, given what is around the statement
(`Enclosure`).

The removal of jumps makes new exits.  It makes a `break` only where its record of the surroundings says
what a `break` would leave, and a `continue` only where it says what round would end; conditions hand the
record on, and loops, scopes and switches make one of their own (`Jumps.Flow.Within`).  The cleaning moves
code out of no loop.  So no exit becomes stray, and since the only exits that the earlier steps make are
those at the ends of cases, no unit has a stray one (`enclosed_simplify`).
-/

namespace Decompiler

/-- What is around a statement, as far as exits need it: whether there is something that a `break` leaves,
and whether there is a loop or scope that a `continue` goes on with. -/
structure Enclosure where
  breaks : Bool := false
  continues : Bool := false
  /-- Whether a basic block may stand between a `continue` and its loop or scope. -/
  throughBasic : Bool := false

namespace Enclosure

/-- Inside of a loop or scope. -/
def round (around : Enclosure) : Enclosure :=
  { around with breaks := true, continues := true }

/-- Inside of a switch. -/
def case (around : Enclosure) : Enclosure :=
  { around with breaks := true }

/-- Inside of a basic block. -/
def basic (around : Enclosure) : Enclosure :=
  { around with continues := around.continues && around.throughBasic }

/-- The same surroundings, where basic blocks do not matter. -/
def transparent (around : Enclosure) : Enclosure :=
  { around with throughBasic := true }

@[simp] lemma basic_transparent (around : Enclosure) :
    around.transparent.basic = around.transparent := by
  simp [basic, transparent]

/-- Whether every exit that is enclosed by the one is enclosed by the other. -/
structure Le (a b : Enclosure) : Prop where
  breaks : a.breaks = true → b.breaks = true
  continues : a.continues = true → b.continues = true
  throughBasic : a.throughBasic = true → b.throughBasic = true

namespace Le

variable {a b : Enclosure}

lemma round (h : a.Le b) : a.round.Le b.round := ⟨fun _ => rfl, fun _ => rfl, h.throughBasic⟩

lemma case (h : a.Le b) : a.case.Le b.case := ⟨fun _ => rfl, h.continues, h.throughBasic⟩

lemma basic (h : a.Le b) : a.basic.Le b.basic where
  breaks := h.breaks
  continues := by
    simp only [Enclosure.basic, Bool.and_eq_true]
    exact fun ⟨hcontinues, hthrough⟩ => ⟨h.continues hcontinues, h.throughBasic hthrough⟩
  throughBasic := h.throughBasic

/-- More is enclosed inside of a switch. -/
lemma self_case (a : Enclosure) : a.Le a.case := ⟨fun _ => rfl, id, id⟩

end Le

end Enclosure

namespace Stmt

mutual

/-- Whether every exit in a statement has something around it to leave or to go on with. -/
def isEnclosed (around : Enclosure) : Stmt → Bool
  | .breakOut => around.breaks
  | .continueLoop => around.continues
  | .basic block => enclosedList around.basic block.body
  | .seq block => enclosedList around block.body
  | .cond _ thenBlock elseBlock =>
    enclosedList around thenBlock.body && enclosedList around elseBlock.body
  | .loop _ block => enclosedList around.round block.body
  | .scope _ block _ => enclosedList around.round block.body
  | .switch _ cases => enclosedCases around.case cases
  | _ => true

/-- Whether every exit in a list has something around it to leave or to go on with. -/
def enclosedList (around : Enclosure) : List Stmt → Bool
  | [] => true
  | s :: rest => s.isEnclosed around && enclosedList around rest

/-- Whether every exit in the cases of a switch has something around it to leave or to go on with. -/
def enclosedCases (around : Enclosure) : List SwitchCase → Bool
  | [] => true
  | c :: rest => enclosedList around c.body.body && enclosedCases around rest

end

variable {around : Enclosure}

lemma enclosedList_iff {list : List Stmt} :
    enclosedList around list = true ↔ ∀ s ∈ list, s.isEnclosed around = true := by
  induction list with
  | nil => simp [enclosedList]
  | cons s rest ih => simp [enclosedList, ih]

lemma enclosedCases_iff {cases : List SwitchCase} :
    enclosedCases around cases = true ↔ ∀ c ∈ cases, enclosedList around c.body.body = true := by
  induction cases with
  | nil => simp [enclosedCases]
  | cons c rest ih => simp [enclosedCases, ih]

lemma enclosedList_append {a b : List Stmt} :
    enclosedList around (a ++ b) = (enclosedList around a && enclosedList around b) := by
  induction a with
  | nil => rfl
  | cons s rest ih => rw [List.cons_append, enclosedList, ih, enclosedList, Bool.and_assoc]

/-- Part of a list with enclosed exits has enclosed exits. -/
lemma enclosedList_of_subset {a b : List Stmt} (hsub : a ⊆ b) (h : enclosedList around b = true) :
    enclosedList around a = true :=
  enclosedList_iff.mpr fun s hs => enclosedList_iff.mp h s (hsub hs)

mutual

/-- Exits stay enclosed where more is around them. -/
lemma isEnclosed_mono {a b : Enclosure} (hle : a.Le b) :
    (s : Stmt) → s.isEnclosed a = true → s.isEnclosed b = true
  | .breakOut, h => hle.breaks h
  | .continueLoop, h => hle.continues h
  | .basic block, h => enclosedList_mono hle.basic block.body h
  | .seq block, h => enclosedList_mono hle block.body h
  | .cond _ thenBlock elseBlock, h => by
    rw [isEnclosed, Bool.and_eq_true] at h ⊢
    exact ⟨enclosedList_mono hle thenBlock.body h.1, enclosedList_mono hle elseBlock.body h.2⟩
  | .loop _ block, h | .scope _ block _, h => enclosedList_mono hle.round block.body h
  | .switch _ cases, h => enclosedCases_mono hle.case cases h
  | .label _, _ | .raw _ _, _ | .push _, _ | .assign _ _, _ | .call _ _, _ | .discard _, _
  | .goto _, _ | .condGoto _ _, _ | .pushEnv _ _, _ | .popEnv _, _ | .dispatch _ _ _, _ | .ret _, _
  | .exit, _ => rfl

/-- Exits stay enclosed where more is around them. -/
lemma enclosedList_mono {a b : Enclosure} (hle : a.Le b) :
    (list : List Stmt) → enclosedList a list = true → enclosedList b list = true
  | [], _ => rfl
  | s :: rest, h => by
    rw [enclosedList, Bool.and_eq_true] at h ⊢
    exact ⟨isEnclosed_mono hle s h.1, enclosedList_mono hle rest h.2⟩

/-- Exits stay enclosed where more is around them. -/
lemma enclosedCases_mono {a b : Enclosure} (hle : a.Le b) :
    (cases : List SwitchCase) → enclosedCases a cases = true → enclosedCases b cases = true
  | [], _ => rfl
  | c :: rest, h => by
    rw [enclosedCases, Bool.and_eq_true] at h ⊢
    exact ⟨enclosedList_mono hle c.body.body h.1, enclosedCases_mono hle rest h.2⟩

end

end Stmt

open Stmt

/-! ### Cleaning -/

namespace Cleanup

variable {around : Enclosure} {named : List LabelId}

mutual

/-- Cleaning a statement makes no exit stray. -/
lemma isEnclosed_inStmt (around : Enclosure) (named : List LabelId) :
    (s : Stmt) → s.isEnclosed around = true → (inStmt named s).1.isEnclosed around = true
  | .cond test thenBlock elseBlock, h => by
    rw [isEnclosed, Bool.and_eq_true] at h
    have hthen := enclosedList_inList around named false thenBlock.body h.1
    have helse := enclosedList_inList around named false elseBlock.body h.2
    simp only [inStmt, orient]
    split <;> simp [isEnclosed, hthen, helse]
  | .loop _ block, h => by
    have hbody := enclosedList_inList around.round named false block.body h
    exact enclosedList_of_subset (dropTrailingContinue_isPrefix _).subset hbody
  | .scope _ block stop, h => by
    have hbody := enclosedList_inList around.round named false block.body h
    cases stop with
    | none => exact hbody
    | some stop => exact enclosedList_of_subset (dropTrailingContinue_isPrefix _).subset hbody
  | .switch _ cases, h => enclosedCases_inCases around.case named cases h
  | .seq block, h => enclosedList_inList around named false block.body h
  | .label _, h | .raw _ _, h | .push _, h | .assign _ _, h | .call _ _, h | .discard _, h
  | .goto _, h | .condGoto _ _, h | .pushEnv _ _, h | .popEnv _, h | .dispatch _ _ _, h | .ret _, h
  | .exit, h | .breakOut, h | .continueLoop, h | .basic _, h => h

/-- Cleaning a list makes no exit stray. -/
lemma enclosedList_inList (around : Enclosure) (named : List LabelId) (dead : Bool) :
    (list : List Stmt) → enclosedList around list = true →
      enclosedList around (inList named dead list).1 = true
  | [], h => h
  | s :: rest, h => by
    rw [enclosedList, Bool.and_eq_true] at h
    rw [inList]
    cases reach named dead s with
    | some dead => exact enclosedList_inList around named dead rest h.2
    | none =>
      exact Bool.and_eq_true_iff.mpr ⟨isEnclosed_inStmt around named s h.1,
        enclosedList_inList around named s.isUnconditional rest h.2⟩

/-- Cleaning the cases of a switch makes no exit stray. -/
lemma enclosedCases_inCases (around : Enclosure) (named : List LabelId) :
    (cases : List SwitchCase) → enclosedCases around cases = true →
      enclosedCases around (inCases named cases).1 = true
  | [], h => h
  | c :: rest, h => by
    rw [enclosedCases, Bool.and_eq_true] at h
    exact Bool.and_eq_true_iff.mpr ⟨enclosedList_inList around named false c.body.body h.1,
      enclosedCases_inCases around named rest h.2⟩

end

end Cleanup

/-! ### Removing jumps -/

namespace Jumps

/-- The labels that `break` and `continue` lead to are known only where there is something to leave or to
go on with. -/
structure Flow.Within (flow : Flow) (around : Enclosure) : Prop where
  breaks : ∀ labels ∈ flow.breakTo, around.breaks = true
  continues : ∀ labels ∈ flow.continueTo, around.continues = true

namespace Flow.Within

variable {flow : Flow} {around : Enclosure}

/-- Outside of everything, nothing is known. -/
lemma start (around : Enclosure) : Flow.Within {} around := ⟨by simp, by simp⟩

lemma inner (h : flow.Within around) (follow : List LabelId) : (flow.inner follow).Within around :=
  ⟨h.breaks, h.continues⟩

lemma round (around : Enclosure) (follow again : List LabelId) :
    (Flow.round follow again).Within around.round :=
  ⟨fun _ _ => rfl, fun _ _ => rfl⟩

/-- A switch has no rounds of its own. -/
lemma cases (h : flow.Within around) (follow : List LabelId) : (flow.cases follow).Within around.case :=
  ⟨fun _ _ => rfl, h.continues⟩

/-- What becomes of a jump is enclosed. -/
lemma enclosedList_jump (h : flow.Within around) (target : LabelId) (rest : List Stmt) :
    enclosedList around (jump flow target rest).1 = true := by
  rcases jump_cases flow target rest with
    ⟨-, hjump⟩ | ⟨labels, hlabels, -, hjump⟩ | ⟨labels, hlabels, -, hjump⟩ | hjump
  · rw [hjump]
    rfl
  · rw [hjump, enclosedList, isEnclosed, h.breaks labels hlabels]
    rfl
  · rw [hjump, enclosedList, isEnclosed, h.continues labels hlabels]
    rfl
  · rw [hjump]
    rfl

end Flow.Within

mutual

/-- Removing the jumps in a statement makes no exit stray. -/
lemma isEnclosed_newStmt {flow : Flow} {around : Enclosure} (hflow : flow.Within around)
    (follow preceding : List LabelId) :
    (s : Stmt) → s.isEnclosed around = true →
      (newStmt flow follow preceding s).isEnclosed around = true
  | .seq block, h => by
    rw [newStmt_seq]
    exact enclosedList_newList (hflow.inner follow) [] block.body h
  | .cond _ thenBlock elseBlock, h => by
    rw [isEnclosed, Bool.and_eq_true] at h
    rw [newStmt_cond, isEnclosed, Bool.and_eq_true]
    exact ⟨enclosedList_newList (hflow.inner follow) [] thenBlock.body h.1,
      enclosedList_newList (hflow.inner follow) [] elseBlock.body h.2⟩
  | .loop _ block, h => by
    rw [newStmt_loop]
    exact enclosedList_newList (.round around follow _) [] block.body h
  | .scope _ block _, h => by
    rw [newStmt_scope]
    exact enclosedList_newList (.round around follow _) [] block.body h
  | .switch _ cases, h => by
    rw [newStmt_switch]
    exact enclosedCases_newCases (hflow.cases follow) cases h
  | .label _, h | .raw _ _, h | .push _, h | .assign _ _, h | .call _ _, h | .discard _, h
  | .goto _, h | .condGoto _ _, h | .pushEnv _ _, h | .popEnv _, h | .dispatch _ _ _, h | .ret _, h
  | .exit, h | .breakOut, h | .continueLoop, h | .basic _, h => by rwa [newStmt_of_leaf rfl]

/-- Removing the jumps of a list makes no exit stray. -/
lemma enclosedList_newList {flow : Flow} {around : Enclosure} (hflow : flow.Within around)
    (preceding : List LabelId) :
    (list : List Stmt) → enclosedList around list = true →
      enclosedList around (newList flow preceding list) = true
  | [], _ => by
    rw [newList_nil]
    rfl
  | s :: rest, h => by
    rw [enclosedList, Bool.and_eq_true] at h
    by_cases hs : ∃ target, s = .goto target
    · obtain ⟨target, rfl⟩ := hs
      rw [newList_goto, enclosedList_append, Bool.and_eq_true]
      exact ⟨hflow.enclosedList_jump target rest, enclosedList_newList hflow [] rest h.2⟩
    · rw [newList_cons fun target h => hs ⟨target, h⟩, enclosedList, Bool.and_eq_true]
      exact ⟨isEnclosed_newStmt hflow _ preceding s h.1, enclosedList_newList hflow _ rest h.2⟩

/-- Removing the jumps of the cases of a switch makes no exit stray. -/
lemma enclosedCases_newCases {flow : Flow} {around : Enclosure} (hflow : flow.Within around) :
    (cases : List SwitchCase) → enclosedCases around cases = true →
      enclosedCases around (newCases flow cases) = true
  | [], _ => by
    rw [newCases_nil]
    rfl
  | c :: later, h => by
    rw [enclosedCases, Bool.and_eq_true] at h
    rw [newCases_cons, enclosedCases, Bool.and_eq_true]
    exact ⟨enclosedList_newList hflow [] c.body.body h.1, enclosedCases_newCases hflow later h.2⟩

end

end Jumps

namespace BlockOf

/-- No exit of a block is stray. -/
def ExitsEnclosed (block : Block) (around : Enclosure) : Prop :=
  enclosedList around block.body = true

namespace ExitsEnclosed

variable {block : Block} {around : Enclosure}

lemma removeRedundantCode (h : block.ExitsEnclosed around) :
    (removeRedundantCode block).1.ExitsEnclosed around := by
  have hlist := Cleanup.enclosedList_inList around (Stmt.targetsOfList block.body) false block.body h
  exact enclosedList_of_subset (Cleanup.dropFinalExit_isPrefix _).subset hlist

lemma removeGotos (h : block.ExitsEnclosed around) : (removeGotos block).1.ExitsEnclosed around :=
  Jumps.enclosedList_newList (.start around) [] block.body h

/-- Cleaning up makes no exit stray. -/
lemma simplify (h : block.ExitsEnclosed around) : (simplify block).ExitsEnclosed around :=
  h.removeRedundantCode.removeGotos.removeRedundantCode.removeGotos.removeRedundantCode

end ExitsEnclosed

end BlockOf

/-! ### Units -/

mutual

/-- What may stand in a scope before loops are recovered has no exits. -/
lemma isEnclosed_of_isInner (around : Enclosure) :
    (s : Stmt) → s.isInner = true → s.isEnclosed around = true
  | .scope _ body _, h => by
    simp only [Stmt.isInner, Bool.and_eq_true] at h
    exact enclosedList_of_innerList around.round body.body h.2
  | .assign _ _, _ | .call _ _, _ | .discard _, _ => rfl

/-- What may stand in a scope before loops are recovered has no exits. -/
lemma enclosedList_of_innerList (around : Enclosure) :
    (list : List Stmt) → Stmt.innerList list = true → enclosedList around list = true
  | [], _ => rfl
  | s :: rest, h => by
    rw [Stmt.innerList, Bool.and_eq_true] at h
    rw [enclosedList, isEnclosed_of_isInner around s h.1, enclosedList_of_innerList around rest h.2]
    rfl

end

/-- Simple blocks have no exits. -/
lemma isEnclosed_of_simpleBlocks {blocks : List BasicBlock}
    (h : AllStmts (Stmt.isSimple · = true) blocks) :
    ∀ s ∈ blocks.map Stmt.basic, ∀ around : Enclosure, s.isEnclosed around = true := by
  rintro s hs around
  obtain ⟨block, hblock, rfl⟩ := List.mem_map.mp hs
  refine enclosedList_iff.mpr fun s hs => ?_
  have hsimple := h block hblock s hs
  cases s with
  | assign | call | discard | scope => exact isEnclosed_of_isInner _ _ hsimple
  | raw | breakOut | continueLoop | basic | seq | cond | loop | switch => cases hsimple
  | _ => rfl

/-- The recovery of loops and conditions makes no exits but those at the ends of cases. -/
lemma recoverable_isEnclosed :
    Recoverable (fun (around : Enclosure) (s : Stmt) => s.isEnclosed around.transparent = true)
      Enclosure.round where
  label _ _ := rfl
  goto _ _ := rfl
  basic around block := by rw [isEnclosed, around.basic_transparent, enclosedList_iff]
  loop _ _ _ := enclosedList_iff
  scope _ _ _ _ := enclosedList_iff
  cond _ _ _ _ _ _ hthen helse :=
    Bool.and_eq_true_iff.mpr ⟨enclosedList_iff.mpr hthen, enclosedList_iff.mpr helse⟩
  switch around value cases h := by
    refine enclosedCases_iff.mpr fun c hc => enclosedList_iff.mpr fun s hs => ?_
    rcases (h c hc).2 s hs with hs | ⟨label, rfl⟩
    · exact isEnclosed_mono (.self_case _) s hs
    · -- The `break` at the end of a case leaves the switch.
      rfl

namespace Flatten

/-- In spliced statements there are no basic blocks that could matter, and the jump to the entry of a
block is no exit. -/
lemma spliceable_isEnclosed :
    Spliceable (fun (around : Enclosure) s => s.isEnclosed around.transparent = true)
      (fun around s => s.isEnclosed around = true) Enclosure.round Enclosure.case where
  children around s hs block hblock := by
    refine ⟨fun _ _ => rfl, ?_⟩
    cases s with
    | cond =>
      rw [isEnclosed, Bool.and_eq_true] at hs
      obtain rfl | rfl := List.mem_pair.mp hblock
      · exact enclosedList_iff.mp hs.1
      · exact enclosedList_iff.mp hs.2
    | loop | scope | seq =>
      obtain rfl := List.mem_singleton.mp hblock
      exact enclosedList_iff.mp hs
    | switch =>
      obtain ⟨c, hc, rfl⟩ := List.mem_map.mp hblock
      exact enclosedList_iff.mp (enclosedCases_iff.mp hs c hc)
    | _ => cases hblock
  basic around block hs := by
    rw [isEnclosed, around.basic_transparent] at hs
    exact enclosedList_iff.mp hs
  splice around s hs hblocks := by
    cases s with
    | cond =>
      obtain ⟨hthen, helse⟩ := List.forall_mem_cons.mp hblocks
      rw [spliceStmt, isEnclosed, Bool.and_eq_true]
      exact ⟨enclosedList_iff.mpr hthen, enclosedList_iff.mpr (List.forall_mem_singleton.mp helse)⟩
    | loop | scope | seq | basic => exact enclosedList_iff.mpr (List.forall_mem_singleton.mp hblocks)
    | switch =>
      exact enclosedCases_iff.mpr fun c hc => enclosedList_iff.mpr (hblocks _ (List.mem_map_of_mem hc))
    | _ => exact hs

end Flatten

/-- In the final tree of a unit no exit is stray. -/
lemma exitsEnclosed_recoverTree {names : Bytecode.Names} {options : Options} {name : String}
    {bytes : List UInt8} {tree : Block}
    (h : (exec (recoverTree names options bytes) { context := unitContext name }).1 = .ok tree) :
    tree.ExitsEnclosed {} := by
  obtain ⟨blocks, context, -, hwf, hsimple, htree⟩ := recoverTree_eq_ok h
  obtain ⟨loops, t, built, recovered, u, -, hbuilt, hconditions, rfl⟩ :=
    treeOf_eq_ok (hwf.soundBlocks_of_isSimple hsimple) htree
  have hloops : ∀ s ∈ loops.body, s.isEnclosed (Enclosure.transparent {}) = true :=
    hbuilt.forall_mem recoverable_isEnclosed
      (fun s hs _ => isEnclosed_of_simpleBlocks hsimple s hs _) {}
  have hrecovered := recoverable_isEnclosed.findConditions (i := {}) hloops hconditions
  have hspliced : (⟨none, Flatten.spliced recovered⟩ : Block).ExitsEnclosed {} :=
    enclosedList_iff.mpr (Flatten.spliceable_isEnclosed.spliced (i := {}) (fun _ _ => rfl) hrecovered)
  exact hspliced.simplify

/-- Cleaning up leaves no exit stray that was not, whatever is around the tree.  In the final tree of a unit
every `break` is inside of a loop, a scope or a switch, and every `continue` inside of a loop or a scope,
with nothing but switches, conditions and nested lists between. -/
theorem enclosed_simplify :
    (∀ (around : Enclosure) (block : Block),
      block.ExitsEnclosed around → (simplify block).ExitsEnclosed around) ∧
    ∀ (names : Bytecode.Names) (options : Options) (name : String) (bytes : List UInt8) (tree : Block),
      (exec (recoverTree names options bytes) { context := unitContext name }).1 = .ok tree →
        tree.ExitsEnclosed {} :=
  ⟨fun _ _ h => h.simplify, fun _ _ _ _ _ h => exitsEnclosed_recoverTree h⟩

/-- Whether the statement needs something around it. -/
def Stmt.isExit : Stmt → Bool
  | .breakOut | .continueLoop => true
  | _ => false

/-- A loop that is left by one jump and starts over by another. -/
def jumpingLoop : Block where
  body :=
    [.label 0,
      .loop none ⟨none,
        [.cond (.call "done" []) ⟨none, [.goto 1]⟩ ⟨none, []⟩,
          .cond (.call "skip" []) ⟨none, [.goto 0]⟩ ⟨none, []⟩,
          .call "work" [], .goto 0]⟩,
      .label 1, .call "finish" []]

/-- Code with a loop on `c` in which `e` ends a round early and `c` leaves. -/
def leftRound : List UInt8 :=
  [0xff, 0xff, 0x05, 0xc0, 0x01, 0, 0, 0xa0, 0x12, 0, 0, 0xb9, 0xff, 0xff, 0x05, 0xc0, 0x02, 0, 0,
    0xa0, 0x0b, 0, 0, 0xb9, 0xff, 0xff, 0x05, 0xc0, 0x03, 0, 0, 0xa0, 0xf8, 0xff, 0xff, 0xb8, 0xff,
    0xff, 0x05, 0xc0, 0x01, 0, 0, 0xa0, 0x09, 0, 0, 0xb8, 0x01, 0, 0x0f, 0xc0, 0xff, 0xff, 0x55, 0x41,
    0, 0, 0, 0xa0, 0x01, 0, 0, 0xb7, 0x02, 0, 0x0f, 0xc0, 0xff, 0xff, 0x55, 0x41, 0, 0, 0, 0xa0, 0xed,
    0xff, 0xff, 0xb7, 0x03, 0, 0x0f, 0xc0, 0xff, 0xff, 0x55, 0x41, 0, 0, 0, 0xa0, 0, 0, 0, 0x9e]

/-- The jumps become a `break` and a `continue`, and neither is stray. -/
theorem leftRound_enclosed :
    (jumpingLoop.ExitsEnclosed {} ∧ Stmt.countList Stmt.isExit jumpingLoop.body = 0 ∧
      Stmt.countList Stmt.isExit (simplify jumpingLoop).body = 2 ∧ (simplify jumpingLoop).ExitsEnclosed {}) ∧
    ∃ tree, (exec (recoverTree { strings := ["z", "c", "d", "e"] } {} leftRound)
        { context := unitContext "unit" }).1 = .ok tree ∧
      Stmt.countList Stmt.isExit tree.body = 2 ∧ tree.ExitsEnclosed {} := by
  refine ⟨⟨rfl, by decide, by decide +kernel, enclosed_simplify.1 {} jumpingLoop rfl⟩, ?_⟩
  have htree : (exec (recoverTree { strings := ["z", "c", "d", "e"] } {} leftRound)
      { context := unitContext "unit" }).1.toOption.any (fun tree =>
        Stmt.countList Stmt.isExit tree.body == 2) = true := by
    unfold recoverTree
    rw [Bytecode.decode_eq_decodeBounded]
    decide +kernel
  cases hrun : (exec (recoverTree { strings := ["z", "c", "d", "e"] } {} leftRound)
      { context := unitContext "unit" }).1 with
  | error e =>
    rw [hrun] at htree
    cases htree
  | ok tree =>
    rw [hrun] at htree
    exact ⟨tree, rfl, eq_of_beq htree, enclosed_simplify.2 _ _ _ _ tree hrun⟩

end Decompiler
