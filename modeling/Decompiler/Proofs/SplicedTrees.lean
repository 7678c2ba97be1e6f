import Decompiler.Proofs.BlockLists
import Decompiler.Proofs.TreeExecution

/-!
# Spliced trees

What flattening makes of a tree, as a function: it splices the basic blocks of a list into the list
(`splice`), and puts the jump to its entry in front of each block (`spliced`).  Flattening gives just that
when no basic block is refused (`flatten_eq_ok`).

What a spliced tree has is shown by one induction for all properties: it is enough to say what a single
statement has when the blocks in it have been spliced (`Spliceable`).  So what flattening gives has no basic
block and no entry (`flatUnit_splice`).
-/

namespace Decompiler

namespace Flatten

open Execution

mutual

/-- A statement with the lists in it spliced. -/
def spliceStmt : Stmt → Stmt
  | .cond test thenBlock elseBlock =>
    .cond test ⟨none, entryJump thenBlock.entry ++ splice thenBlock.body⟩
      ⟨none, entryJump elseBlock.entry ++ splice elseBlock.body⟩
  | .loop test block => .loop test ⟨none, entryJump block.entry ++ splice block.body⟩
  | .scope env block stop => .scope env ⟨none, entryJump block.entry ++ splice block.body⟩ stop
  | .switch value cases => .switch value (spliceCases cases)
  | .seq block => .seq ⟨none, entryJump block.entry ++ splice block.body⟩
  | .basic block => .seq ⟨none, spliceStmts block.body⟩
  | s => s

/-- The statements of a basic block with the lists in them spliced. -/
def spliceStmts : List Stmt → List Stmt
  | [] => []
  | s :: rest => spliceStmt s :: spliceStmts rest

/-- A list with its basic blocks spliced. -/
def splice : List Stmt → List Stmt
  | [] => []
  | .basic block :: rest => spliceStmts block.body ++ splice rest
  | s :: rest => spliceStmt s :: splice rest

/-- The cases of a switch with the lists in them spliced. -/
def spliceCases : List SwitchCase → List SwitchCase
  | [] => []
  | c :: rest =>
    { c with body := ⟨none, entryJump c.body.entry ++ splice c.body.body⟩ } :: spliceCases rest

end

/-- A block with its basic blocks spliced, behind the jump to its entry. -/
def spliced (block : Block) : List Stmt :=
  entryJump block.entry ++ splice block.body

@[simp] lemma spliceStmts_append (a b : List Stmt) :
    spliceStmts (a ++ b) = spliceStmts a ++ spliceStmts b := by
  induction a with
  | nil => rfl
  | cons s rest ih => rw [List.cons_append, spliceStmts, ih, spliceStmts, List.cons_append]

/-- A list without a basic block in front. -/
lemma splice_cons {s : Stmt} (hs : ∀ block, s ≠ .basic block) (rest : List Stmt) :
    splice (s :: rest) = spliceStmt s :: splice rest := by
  rw [splice]
  exact fun block h => hs block h

@[simp] lemma splice_append (a b : List Stmt) : splice (a ++ b) = splice a ++ splice b := by
  induction a with
  | nil => rfl
  | cons s rest ih =>
    by_cases hs : ∃ block, s = .basic block
    · obtain ⟨block, rfl⟩ := hs
      rw [List.cons_append, splice, splice, ih, List.append_assoc]
    · have hs' : ∀ block, s ≠ .basic block := fun block h => hs ⟨block, h⟩
      rw [List.cons_append, splice_cons hs', splice_cons hs', ih, List.cons_append]

lemma spliceCases_eq_map (cases : List SwitchCase) :
    spliceCases cases = cases.map fun c => { c with body := ⟨none, spliced c.body⟩ } := by
  induction cases with
  | nil => rfl
  | cons c rest ih => rw [spliceCases, ih, List.map_cons, spliced]

/-! ### Flattening splices -/

mutual

lemma stmt_eq_ok : (s : Stmt) → s.isSound = true → stmt s = .ok (spliceStmt s)
  | .cond _ thenBlock elseBlock, h => by
    rw [Stmt.isSound, Bool.and_eq_true] at h
    rw [stmt, items_eq_ok thenBlock.body h.1, items_eq_ok elseBlock.body h.2]
    rfl
  | .loop _ block, h => by
    rw [stmt, items_eq_ok block.body h]
    rfl
  | .scope _ block _, h => by
    rw [stmt, items_eq_ok block.body h]
    rfl
  | .switch _ list, h => by
    rw [stmt, cases_eq_ok list h]
    rfl
  | .seq block, h => by
    rw [stmt, items_eq_ok block.body h]
    rfl
  | .basic block, h => by
    rw [Stmt.isSound, Bool.and_eq_true, Option.isNone_iff_eq_none] at h
    rw [stmt, BasicBlockOf.check, h.1, stmts_eq_ok block.body h.2]
    rfl
  | .label _, _ | .raw _ _, _ | .push _, _ | .assign _ _, _ | .call _ _, _ | .discard _, _
  | .goto _, _ | .condGoto _ _, _ | .pushEnv _ _, _ | .popEnv _, _ | .dispatch _ _ _, _ | .ret _, _
  | .exit, _ | .breakOut, _ | .continueLoop, _ => rfl

lemma stmts_eq_ok : (list : List Stmt) → Stmt.soundList list = true →
    stmts list = .ok (spliceStmts list)
  | [], _ => rfl
  | s :: rest, h => by
    rw [Stmt.soundList, Bool.and_eq_true] at h
    rw [stmts, stmt_eq_ok s h.1, stmts_eq_ok rest h.2]
    rfl

lemma items_eq_ok : (list : List Stmt) → Stmt.soundList list = true → items list = .ok (splice list)
  | [], _ => rfl
  | s :: rest, h => by
    rw [Stmt.soundList, Bool.and_eq_true] at h
    have ih := items_eq_ok rest h.2
    have hs := stmt_eq_ok s h.1
    cases s with
    | basic block =>
      have hblock := h.1
      rw [Stmt.isSound, Bool.and_eq_true, Option.isNone_iff_eq_none] at hblock
      rw [items, BasicBlockOf.check, hblock.1, stmts_eq_ok block.body hblock.2, ih]
      rfl
    | _ =>
      rw [items, hs, ih]
      · rfl
      · simp

lemma cases_eq_ok : (list : List SwitchCase) → Stmt.soundCases list = true →
    cases list = .ok (spliceCases list)
  | [], _ => rfl
  | c :: rest, h => by
    rw [Stmt.soundCases, Bool.and_eq_true] at h
    rw [cases, items_eq_ok c.body.body h.1, cases_eq_ok rest h.2]
    rfl

end

/-- Flattening a sound list splices it. -/
theorem flatten_eq_ok {block : Block} (h : Stmt.soundList block.body = true) :
    flatten block = .ok { body := spliced block } := by
  rw [flatten, items_eq_ok block.body h]
  rfl

/-! ### Properties of spliced statements -/

/-- The place inside of a statement, for properties that depend on the place. -/
def inside {ι : Type} (inRound inCase : ι → ι) (i : ι) : Stmt → ι
  | .loop _ _ | .scope _ _ _ => inRound i
  | .switch _ _ => inCase i
  | _ => i

/-- Properties of statements at a place before and after they are spliced, `P i` and `Q i`: what is in a
statement with the one has it too, and a statement with the one has the other once it is spliced, when
all that is then in it has the other.  `inRound i` is the place in a loop or scope, and `inCase i` the one
in a switch. -/
structure Spliceable {ι : Type} (P Q : ι → Stmt → Prop) (inRound inCase : ι → ι) : Prop where
  children : ∀ i s, P i s → ∀ block ∈ s.childBlocks,
    (∀ id ∈ block.entry, Q (inside inRound inCase i s) (.goto id)) ∧
      ∀ t ∈ block.body, P (inside inRound inCase i s) t
  basic : ∀ i block, P i (.basic block) → ∀ t ∈ block.body, P i t
  splice : ∀ i s, P i s → (∀ block ∈ (spliceStmt s).childBlocks,
    ∀ t ∈ block.body, Q (inside inRound inCase i s) t) → Q i (spliceStmt s)

namespace Spliceable

variable {ι : Type} {P Q : ι → Stmt → Prop} {inRound inCase : ι → ι}

/-- A spliced block has the property if its statements have it and the jump to its entry. -/
lemma forall_mem_entryJump {i : ι} {block : Block} (hentry : ∀ id ∈ block.entry, Q i (.goto id))
    (hbody : ∀ t ∈ Flatten.splice block.body, Q i t) :
    ∀ t ∈ entryJump block.entry ++ Flatten.splice block.body, Q i t := by
  refine List.forall_mem_append.mpr ⟨fun t ht => ?_, hbody⟩
  obtain ⟨id, hid, rfl⟩ := List.mem_map.mp ht
  exact hentry id (Option.mem_toList.mp hid)

mutual

/-- A spliced statement. -/
lemma stmt (h : Spliceable P Q inRound inCase) (i : ι) : (s : Stmt) → P i s → Q i (spliceStmt s)
  | .cond test thenBlock elseBlock, hs => by
    obtain ⟨hthen, helse⟩ := List.forall_mem_cons.mp (h.children i _ hs)
    have helse := List.forall_mem_singleton.mp helse
    refine h.splice i _ hs (List.forall_mem_cons.mpr ⟨?_, List.forall_mem_singleton.mpr ?_⟩)
    · exact forall_mem_entryJump hthen.1 (h.items i thenBlock.body hthen.2)
    · exact forall_mem_entryJump helse.1 (h.items i elseBlock.body helse.2)
  | .loop _ block, hs | .scope _ block _, hs => by
    have hblock := List.forall_mem_singleton.mp (h.children i _ hs)
    exact h.splice i _ hs (List.forall_mem_singleton.mpr
      (forall_mem_entryJump hblock.1 (h.items (inRound i) block.body hblock.2)))
  | .seq block, hs => by
    have hblock := List.forall_mem_singleton.mp (h.children i _ hs)
    exact h.splice i _ hs (List.forall_mem_singleton.mpr
      (forall_mem_entryJump hblock.1 (h.items i block.body hblock.2)))
  | .switch value list, hs => by
    refine h.splice i _ hs (List.forall_mem_map.mpr ?_)
    exact h.cases (inCase i) list (List.forall_mem_map.mp (h.children i _ hs))
  | .basic block, hs =>
    h.splice i _ hs (List.forall_mem_singleton.mpr (h.stmts i block.body (h.basic i block hs)))
  | .label _, hs | .raw _ _, hs | .push _, hs | .assign _ _, hs | .call _ _, hs | .discard _, hs
  | .goto _, hs | .condGoto _ _, hs | .pushEnv _ _, hs | .popEnv _, hs | .dispatch _ _ _, hs
  | .ret _, hs | .exit, hs | .breakOut, hs | .continueLoop, hs =>
    h.splice i _ hs (List.forall_mem_nil _)

/-- The spliced statements of a basic block. -/
lemma stmts (h : Spliceable P Q inRound inCase) (i : ι) :
    (list : List Stmt) → (∀ s ∈ list, P i s) → ∀ s ∈ spliceStmts list, Q i s
  | [], _ => List.forall_mem_nil _
  | s :: rest, hlist => by
    obtain ⟨hs, hrest⟩ := List.forall_mem_cons.mp hlist
    exact List.forall_mem_cons.mpr ⟨h.stmt i s hs, h.stmts i rest hrest⟩

/-- A spliced list. -/
lemma items (h : Spliceable P Q inRound inCase) (i : ι) :
    (list : List Stmt) → (∀ s ∈ list, P i s) → ∀ s ∈ Flatten.splice list, Q i s
  | [], _ => List.forall_mem_nil _
  | s :: rest, hlist => by
    obtain ⟨hs, hrest⟩ := List.forall_mem_cons.mp hlist
    have hstmt := h.stmt i s hs
    have hitems := h.items i rest hrest
    cases s with
    | basic block => exact List.forall_mem_append.mpr ⟨h.stmts i block.body (h.basic i block hs), hitems⟩
    | _ =>
      rw [splice_cons (by simp)]
      exact List.forall_mem_cons.mpr ⟨hstmt, hitems⟩

/-- The spliced cases of a switch. -/
lemma cases (h : Spliceable P Q inRound inCase) (i : ι) : (list : List SwitchCase) →
    (∀ c ∈ list, (∀ id ∈ c.body.entry, Q i (.goto id)) ∧ ∀ t ∈ c.body.body, P i t) →
      ∀ c ∈ spliceCases list, ∀ t ∈ c.body.body, Q i t
  | [], _ => List.forall_mem_nil _
  | c :: rest, hlist => by
    obtain ⟨hc, hrest⟩ := List.forall_mem_cons.mp hlist
    exact List.forall_mem_cons.mpr
      ⟨forall_mem_entryJump hc.1 (h.items i c.body.body hc.2), h.cases i rest hrest⟩

end

/-- A spliced block. -/
lemma spliced (h : Spliceable P Q inRound inCase) {i : ι} {block : Block}
    (hentry : ∀ id ∈ block.entry, Q i (.goto id)) (hbody : ∀ t ∈ block.body, P i t) :
    ∀ t ∈ Flatten.spliced block, Q i t :=
  forall_mem_entryJump hentry (h.items i block.body hbody)

end Spliceable

/-- A block of a spliced statement is entered at no label. -/
lemma entry_of_mem_childBlocks {s : Stmt} {block : Block} (h : block ∈ (spliceStmt s).childBlocks) :
    block.entry = none := by
  cases s with
  | cond =>
    obtain rfl | rfl := List.mem_pair.mp h
    · rfl
    · rfl
  | loop | scope | seq | basic =>
    obtain rfl := List.mem_singleton.mp h
    rfl
  | switch value list =>
    rw [spliceStmt, spliceCases_eq_map] at h
    obtain ⟨_, hc, rfl⟩ := List.mem_map.mp h
    obtain ⟨c, _, rfl⟩ := List.mem_map.mp hc
    rfl
  | _ => cases h

/-- A property holds of a spliced statement with all that is nested in it when it holds of the statement
and of what is in its blocks. -/
lemma every_spliceStmt {P : Property} {s : Stmt} (hs : P.stmt (spliceStmt s))
    (hblocks : ∀ block ∈ (spliceStmt s).childBlocks, ∀ t ∈ block.body, Every P t) :
    Every P (spliceStmt s) := by
  refine (every_iff _).mpr ⟨hs, fun block hblock => ⟨?_, everyIn_iff.mpr (hblocks block hblock)⟩, ?_⟩
  · rw [entry_of_mem_childBlocks hblock]
    exact nofun
  · intro block hbasic
    cases s <;> cases hbasic

/-- A property of the statements of a tree, and what comes of it when they are spliced. -/
lemma spliceable_every {P Q : Property} (hentry : ∀ id, P.entry id → Q.stmt (.goto id))
    (hstmt : ∀ s, P.stmt s → Q.stmt (spliceStmt s)) :
    Spliceable (fun _ : Unit => Every P) (fun _ => Every Q) id id where
  children _ s hs block hblock := by
    obtain ⟨hblocks, hbody⟩ := ((every_iff s).mp hs).2.1 block hblock
    exact ⟨fun label hlabel => hentry label (hblocks label hlabel), everyIn_iff.mp hbody⟩
  basic _ block hs := everyIn_iff.mp (((every_iff _).mp hs).2.2 block rfl)
  splice _ s hs := every_spliceStmt (hstmt s hs.self)

/-- Whatever is spliced is flat. -/
lemma spliceable_isFlat :
    Spliceable (fun (_ : Unit) _ => True) (fun _ => Every isFlat) id id where
  children _ s _ block _ := ⟨fun label _ => by simp [Every, isFlat], fun _ _ => trivial⟩
  basic _ _ _ _ _ := trivial
  splice _ s _ := every_spliceStmt (by rintro block hblock; cases s <;> cases hblock)

/-- What flattening gives has no basic block and no entry. -/
theorem flatUnit_splice (block : Block) : FlatUnit { body := spliced block } where
  entry := rfl
  body := everyIn_iff.mpr (spliceable_isFlat.spliced (i := ()) (fun _ _ => by simp [Every, isFlat])
    fun _ _ => trivial)

end Flatten

/-- A sound list can be flattened. -/
theorem flatten_ok {block : Block} (h : Stmt.soundList block.body = true) :
    ∃ tree, flatten block = .ok tree :=
  ⟨_, Flatten.flatten_eq_ok h⟩

end Decompiler
