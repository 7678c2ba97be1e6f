import Decompiler.Proofs.LoopExecution
import Decompiler.Proofs.PartitionedCode

/-!
# Split code runs like the list it was split from

What splitting a list of statements into blocks does is said once, one case for each thing that can
happen at a statement (`Partition.Splits`); every fact about the blocks is an induction on that.  The
blocks are the statements in their order, with a label in front of some of them and a jump or an exit
behind some (`Partition.Splits.exists_parts`), and control leaves a block only at its end
(`Partition.Splits.isBlock`).

The list runs with fallthrough and the blocks with jumps.  The code that is left of a block carries on
with the rest of the list (`Partition.Continues`): it is that rest up to the end of the block, where a
jump leads to a block that carries on, through a label that may be new.  A list whose jumps name labels
that are minted on the way runs into blocks where it was lost before (`jumpNowhere_differs`), so that the
runs are compared for lists that name none of them (`Stmt.IsClosedListing`).
-/

namespace Decompiler

namespace Stmt

/-- Statements as instructions leave them, which define no label twice and only labels below `bound`. -/
structure IsListing (bound : Nat) (stmts : List Stmt) : Prop where
  kinds : ∀ s ∈ stmts, (∃ id, s = .label id) ∨ s.isLowered = true
  distinct : (labelsOfList stmts).Nodup
  known : ∀ id ∈ labelsOfList stmts, id < bound

/-- Statements as instructions leave them, when splitting them raises the number of labels from `before`
to `after`: none of them names a label that is minted on the way. -/
structure IsClosedListing (before after : Nat) (stmts : List Stmt) : Prop
    extends IsListing before stmts where
  targets : ∀ id ∈ targetsOfList stmts, ¬ (before ≤ id ∧ id < after)

/-- Among statements as instructions leave them, a label that is defined stands by itself. -/
lemma label_mem_of_mem_labelsOfList {id : LabelId} {list : List Stmt}
    (hkinds : ∀ s ∈ list, (∃ id, s = .label id) ∨ s.isLowered = true)
    (h : id ∈ labelsOfList list) : .label id ∈ list := by
  induction list with
  | nil => cases h
  | cons s rest ih =>
    obtain ⟨hs, hrest⟩ := List.forall_mem_cons.mp hkinds
    rw [labelsOfList, List.mem_append] at h
    rcases h with h | h
    · rcases hs with ⟨other, rfl⟩ | hs
      · rw [labels, List.mem_singleton] at h
        rw [h]
        exact List.mem_cons_self
      · rw [Partition.labels_of_isLowered hs] at h
        cases h
    · exact List.mem_cons_of_mem _ (ih hrest h)

end Stmt

namespace Partition

/-! ### What can happen at a statement -/

/-- The split of some statements, from the number of labels, the block that is open and the statements
to the blocks and the number of labels after. -/
inductive Splits : Nat → Option (LabelId × List Stmt) → List Stmt → List (List Stmt) → Nat → Prop where
  /-- Nothing is left, and no block is open. -/
  | done (n : Nat) : Splits n none [] [] n
  /-- Control runs off the end. -/
  | runOff (n : Nat) (block : LabelId × List Stmt) :
      Splits n (some block) [] [opened block ++ [.exit]] n
  /-- A label opens a block. -/
  | label {n later : Nat} {id : LabelId} {rest : List Stmt} {bodies : List (List Stmt)}
      (h : Splits n (some (id, [])) rest bodies later) :
      Splits n none (.label id :: rest) bodies later
  /-- Control runs into a label. -/
  | runInto {n later : Nat} {id : LabelId} {rest : List Stmt} {bodies : List (List Stmt)}
      (block : LabelId × List Stmt) (h : Splits n (some (id, [])) rest bodies later) :
      Splits n (some block) (.label id :: rest) ((opened block ++ [.goto id]) :: bodies) later
  /-- A block is opened under a new label. -/
  | mint {n later : Nat} {stmts : List Stmt} {bodies : List (List Stmt)}
      (h : Splits (n + 1) (some (n, [])) stmts bodies later) : Splits n none stmts bodies later
  /-- Control never passes a statement. -/
  | jump {n later : Nat} {s : Stmt} {rest : List Stmt} {bodies : List (List Stmt)}
      (block : LabelId × List Stmt) (hs : s.isUnconditional = true)
      (h : Splits n none rest bodies later) :
      Splits n (some block) (s :: rest) ((opened block ++ [s]) :: bodies) later
  /-- Control may branch off in front of a label. -/
  | branchAtLabel {n later : Nat} {s : Stmt} {id : LabelId} {rest : List Stmt}
      {bodies : List (List Stmt)} (block : LabelId × List Stmt) (hs : s.isConditional = true)
      (h : Splits n none (.label id :: rest) bodies later) :
      Splits n (some block) (s :: .label id :: rest) ((opened block ++ [s, .goto id]) :: bodies) later
  /-- Control may branch off where no label stands. -/
  | branch {n later : Nat} {s : Stmt} {rest : List Stmt} {bodies : List (List Stmt)}
      (block : LabelId × List Stmt) (hs : s.isConditional = true)
      (h : Splits (n + 1) (some (n, [])) rest bodies later) :
      Splits n (some block) (s :: rest) ((opened block ++ [s, .goto n]) :: bodies) later
  /-- Control goes on. -/
  | straight {n later : Nat} {s : Stmt} {rest : List Stmt} {bodies : List (List Stmt)}
      (block : LabelId × List Stmt) (hlabel : ∀ id, s ≠ .label id) (hjump : s.isUnconditional = false)
      (hbranch : s.isConditional = false)
      (h : Splits n (some (block.1, block.2 ++ [s])) rest bodies later) :
      Splits n (some block) (s :: rest) bodies later

/-- A statement that is no label, in a block that is open. -/
lemma splits_some {labels : Labels} {block : LabelId × List Stmt} {s : Stmt} {rest : List Stmt}
    (hlabel : ∀ id, s ≠ .label id)
    (ih : ∀ (labels : Labels) (current : Option (LabelId × List Stmt)),
      Splits labels.names.length current rest (blocks labels (current.map opened) rest).1
        (blocks labels (current.map opened) rest).2.names.length) :
    Splits labels.names.length (some block) (s :: rest)
      (blocks labels (some (opened block)) (s :: rest)).1
      (blocks labels (some (opened block)) (s :: rest)).2.names.length := by
  rw [blocks]
  · simp only [openBlock]
    split
    · rename_i hjump
      exact .jump block hjump (ih labels none)
    rename_i hjump
    split
    · rename_i hbranch
      split
      · rename_i next hnext
        rw [List.append_assoc]
        unfold leadingLabel? at hnext
        split at hnext
        · cases hnext
          exact .branchAtLabel block hbranch (ih labels none)
        · cases hnext
      · rw [List.append_assoc]
        have hrest := ih (labels.fresh stem).2 (some ((labels.fresh stem).1, []))
        rw [Labels.length_fresh] at hrest
        exact .branch block hbranch hrest
    · rename_i hbranch
      exact .straight block hlabel (by simpa using hjump) (by simpa using hbranch)
        (ih labels (some (block.1, block.2 ++ [s])))
  · exact hlabel

/-- Splitting statements does at each of them what can happen there. -/
theorem splits_blocks (stmts : List Stmt) (labels : Labels) (current : Option (LabelId × List Stmt)) :
    Splits labels.names.length current stmts (blocks labels (current.map opened) stmts).1
      (blocks labels (current.map opened) stmts).2.names.length := by
  induction stmts generalizing labels current with
  | nil =>
    cases current with
    | none => exact .done _
    | some block => exact .runOff _ block
  | cons s rest ih =>
    by_cases hs : ∃ id, s = .label id
    · obtain ⟨id, rfl⟩ := hs
      have hrest := ih labels (some (id, []))
      rw [blocks]
      cases current with
      | none => exact .label hrest
      | some block => exact .runInto block hrest
    · have hlabel : ∀ id, s ≠ .label id := fun id h => hs ⟨id, h⟩
      cases current with
      | some block => exact splits_some hlabel ih
      | none =>
        have hnone : blocks labels none (s :: rest) =
            blocks (labels.fresh stem).2 (some (start (labels.fresh stem).1)) (s :: rest) := by
          cases s with
          | label id => exact absurd rfl (hlabel id)
          | _ => simp only [blocks, openBlock]
        rw [Option.map_none, hnone]
        have hopen : Splits (labels.fresh stem).2.names.length (some ((labels.fresh stem).1, []))
            (s :: rest) _ _ := splits_some hlabel ih
        rw [Labels.length_fresh] at hopen
        exact .mint hopen

/-! ### The statements of the blocks -/

/-- A block, with what was added to it set apart: a label in front, a jump or an exit behind. -/
structure Part where
  front : Option LabelId
  kept : List Stmt
  back : Option Stmt

/-- The statements of the block. -/
def Part.body (part : Part) : List Stmt :=
  part.front.toList.map .label ++ part.kept ++ part.back.toList

/-- What may have been added: a label that was minted, and a jump or an exit. -/
structure Part.IsAdded (first later : Nat) (part : Part) : Prop where
  front : ∀ id ∈ part.front, first ≤ id ∧ id < later
  back : ∀ s ∈ part.back, (∃ id, s = .goto id) ∨ s = .exit

/-- The parts of some blocks give the statements back. -/
def Part.AreOf (first later : Nat) (parts : List Part) (bodies : List (List Stmt))
    (stmts : List Stmt) : Prop :=
  bodies = parts.map Part.body ∧ parts.flatMap Part.kept = stmts ∧
    ∀ part ∈ parts, part.IsAdded first later

/-- The block that is open is closed behind `more`, and `back` is added. -/
lemma Part.AreOf.close {first later : Nat} {parts : List Part} {bodies : List (List Stmt)}
    {rest kept : List Stmt} {block : LabelId × List Stmt} {front : Option LabelId}
    (h : Part.AreOf first later parts bodies rest)
    (hopen : opened block = front.toList.map .label ++ kept)
    (hfront : ∀ id ∈ front, first ≤ id ∧ id < later) (more : List Stmt) (back : Option Stmt)
    (hback : ∀ s ∈ back, (∃ id, s = .goto id) ∨ s = .exit) :
    ∃ parts, Part.AreOf first later parts ((opened block ++ (more ++ back.toList)) :: bodies)
      (kept ++ (more ++ rest)) := by
  obtain ⟨rfl, rfl, hadded⟩ := h
  refine ⟨⟨front, kept ++ more, back⟩ :: parts, ?_, ?_, ?_⟩
  · simp [Part.body, hopen]
  · simp
  · exact List.forall_mem_cons.mpr ⟨⟨hfront, hback⟩, hadded⟩

/-- The end of a block: a transfer of control, or a branch in front of a jump. -/
inductive IsTransfer : List Stmt → Prop where
  | jump (s : Stmt) (hs : s.isUnconditional = true) : IsTransfer [s]
  | branch (s : Stmt) (next : LabelId) (hs : s.isConditional = true) : IsTransfer [s, .goto next]

/-- A block has one label, at its head, and its first transfer of control is its end. -/
def IsBlock (body : List Stmt) : Prop :=
  ∃ label middle ending, body = .label label :: (middle ++ ending) ∧
    (∀ s ∈ middle ++ ending, s.labels = []) ∧
    (∀ s ∈ middle, s.isUnconditional = false ∧ s.isConditional = false) ∧ IsTransfer ending

/-- Whether control runs through some statements, none of which is a label. -/
def IsStraight (list : List Stmt) : Prop :=
  ∀ s ∈ list, s.labels = [] ∧ s.isUnconditional = false ∧ s.isConditional = false

/-- The block that is open is closed. -/
lemma IsStraight.close {block : LabelId × List Stmt} {ending : List Stmt} (h : IsStraight block.2)
    (hlabels : ∀ s ∈ ending, s.labels = []) (hending : IsTransfer ending) :
    IsBlock (opened block ++ ending) := by
  refine ⟨block.1, block.2, ending, rfl, ?_, fun s hs => (h s hs).2, hending⟩
  exact List.forall_mem_append.mpr ⟨fun s hs => (h s hs).1, hlabels⟩

namespace Splits

variable {n later : Nat} {current : Option (LabelId × List Stmt)} {stmts : List Stmt}
  {bodies : List (List Stmt)}

/-- Labels are only added. -/
lemma le (h : Splits n current stmts bodies later) : n ≤ later := by
  induction h with
  | done | runOff => exact Nat.le_refl _
  | label _ ih | runInto _ _ ih | jump _ _ _ ih | branchAtLabel _ _ _ ih | straight _ _ _ _ _ ih =>
    exact ih
  | mint _ ih | branch _ _ _ ih => exact Nat.le_of_succ_le ih

/-- Only no statements at all leave no blocks. -/
lemma eq_nil (h : Splits n current stmts bodies later) (hbodies : bodies = []) :
    current = none ∧ stmts = [] := by
  induction h with
  | done => exact ⟨rfl, rfl⟩
  | label _ ih | mint _ ih | straight _ _ _ _ _ ih => exact absurd (ih hbodies).1 nofun
  | runOff | runInto | jump | branchAtLabel | branch => cases hbodies

/-- Without what was added, the blocks are the statements in their order.  Of the block that is open,
`front` is the label if that was minted, and `kept` is what was there already. -/
lemma exists_parts {first : Nat} (h : Splits n current stmts bodies later) (hfirst : first ≤ n) :
    (current = none → ∃ parts, Part.AreOf first later parts bodies stmts) ∧
      ∀ block ∈ current, ∀ (front : Option LabelId) (kept : List Stmt),
        opened block = front.toList.map .label ++ kept → (∀ id ∈ front, first ≤ id ∧ id < later) →
          ∃ parts, Part.AreOf first later parts bodies (kept ++ stmts) := by
  induction h with
  | done n => exact ⟨fun _ => ⟨[], rfl, rfl, by simp⟩, nofun⟩
  | runOff n block =>
    refine ⟨nofun, ?_⟩
    rintro _ ⟨⟩ front kept hopen hfront
    have hnone : Part.AreOf first n [] [] [] := ⟨rfl, rfl, by simp⟩
    exact hnone.close hopen hfront [] (some .exit) (by simp)
  | label h ih => exact ⟨fun _ => (ih hfirst).2 _ rfl none [_] rfl nofun, nofun⟩
  | runInto block h ih =>
    refine ⟨nofun, ?_⟩
    rintro _ ⟨⟩ front kept hopen hfront
    obtain ⟨parts, hparts⟩ := (ih hfirst).2 _ rfl none [_] rfl nofun
    exact hparts.close hopen hfront [] (some (.goto _)) (by simp)
  | mint h ih =>
    refine ⟨fun _ => ?_, nofun⟩
    exact (ih (Nat.le_succ_of_le hfirst)).2 _ rfl (some _) [] rfl (by simpa using ⟨hfirst, h.le⟩)
  | jump block hs h ih =>
    refine ⟨nofun, ?_⟩
    rintro _ ⟨⟩ front kept hopen hfront
    obtain ⟨parts, hparts⟩ := (ih hfirst).1 rfl
    exact hparts.close hopen hfront [_] none nofun
  | branchAtLabel block hs h ih =>
    refine ⟨nofun, ?_⟩
    rintro _ ⟨⟩ front kept hopen hfront
    obtain ⟨parts, hparts⟩ := (ih hfirst).1 rfl
    exact hparts.close hopen hfront [_] (some (.goto _)) (by simp)
  | branch block hs h ih =>
    refine ⟨nofun, ?_⟩
    rintro _ ⟨⟩ front kept hopen hfront
    obtain ⟨parts, hparts⟩ := (ih (Nat.le_succ_of_le hfirst)).2 _ rfl (some _) [] rfl
      (by simpa using ⟨hfirst, h.le⟩)
    exact hparts.close hopen hfront [_] (some (.goto _)) (by simp)
  | straight block hlabel hjump hbranch h ih =>
    refine ⟨nofun, ?_⟩
    rintro _ ⟨⟩ front kept hopen hfront
    obtain ⟨parts, hparts⟩ := (ih hfirst).2 _ rfl front (kept ++ [_])
      (by rw [← List.append_assoc, ← hopen]; rfl) hfront
    exact ⟨parts, by simpa using hparts⟩

/-- Each block has its label at its head and its transfers of control at its end. -/
lemma isBlock (h : Splits n current stmts bodies later)
    (hkinds : ∀ s ∈ stmts, (∃ id, s = .label id) ∨ s.isLowered = true)
    (hopen : ∀ block ∈ current, IsStraight block.2) : ∀ body ∈ bodies, IsBlock body := by
  have hlabels : ∀ {s : Stmt}, (∃ id, s = .label id) ∨ s.isLowered = true → (∀ id, s ≠ .label id) →
      s.labels = [] := fun hs hlabel =>
    labels_of_isLowered (hs.resolve_left fun ⟨id, h⟩ => hlabel id h)
  induction h with
  | done => simp
  | runOff n block =>
    exact List.forall_mem_singleton.mpr
      ((hopen block rfl).close (by simp [Stmt.labels]) (.jump .exit rfl))
  | label h ih => exact ih (List.forall_mem_cons.mp hkinds).2 (by simp [IsStraight])
  | @runInto _ _ id _ _ block h ih =>
    refine List.forall_mem_cons.mpr ⟨?_, ih (List.forall_mem_cons.mp hkinds).2 (by simp [IsStraight])⟩
    exact (hopen block rfl).close (by simp [Stmt.labels]) (.jump (.goto id) rfl)
  | mint h ih => exact ih hkinds (by simp [IsStraight])
  | @jump _ _ s _ _ block hs h ih =>
    obtain ⟨hkind, hkinds⟩ := List.forall_mem_cons.mp hkinds
    refine List.forall_mem_cons.mpr ⟨?_, ih hkinds nofun⟩
    have hlabel := hlabels hkind (by rintro id rfl; cases hs)
    exact (hopen block rfl).close (by simpa using hlabel) (.jump s hs)
  | @branchAtLabel _ _ s id _ _ block hs h ih =>
    obtain ⟨hkind, hkinds⟩ := List.forall_mem_cons.mp hkinds
    refine List.forall_mem_cons.mpr ⟨?_, ih hkinds nofun⟩
    have hlabel := hlabels hkind (by rintro id rfl; cases hs)
    exact (hopen block rfl).close (by simpa [Stmt.labels] using hlabel) (.branch s id hs)
  | @branch n _ s _ _ block hs h ih =>
    obtain ⟨hkind, hkinds⟩ := List.forall_mem_cons.mp hkinds
    refine List.forall_mem_cons.mpr ⟨?_, ih hkinds (by simp [IsStraight])⟩
    have hlabel := hlabels hkind (by rintro id rfl; cases hs)
    exact (hopen block rfl).close (by simpa [Stmt.labels] using hlabel) (.branch s n hs)
  | straight block hlabel hjump hbranch h ih =>
    obtain ⟨hkind, hkinds⟩ := List.forall_mem_cons.mp hkinds
    refine ih hkinds ?_
    rintro _ ⟨⟩
    exact List.forall_mem_append.mpr ⟨hopen block rfl,
      List.forall_mem_singleton.mpr ⟨hlabels hkind hlabel, hjump, hbranch⟩⟩

end Splits

/-! ### How the blocks carry on with the list -/

/-- The code that is left of a block carries on with the rest of the list. -/
inductive Continues (bodies : List (List Stmt)) : List Stmt → List Stmt → Prop where
  /-- At the end of the list the block exits. -/
  | finished : Continues bodies [] [.exit]
  /-- Both are at the same statement. -/
  | kept (s : Stmt) {rest code : List Stmt} (h : Continues bodies rest code) :
      Continues bodies (s :: rest) (s :: code)
  /-- Both are at a statement that control never passes. -/
  | transfer (s : Stmt) (rest code : List Stmt) (hs : s.isUnconditional = true) :
      Continues bodies (s :: rest) (s :: code)
  /-- A label is new. -/
  | minted (id : LabelId) {rest code : List Stmt} (h : Continues bodies rest code) :
      Continues bodies rest (.label id :: code)
  /-- A jump leads to a block that carries on. -/
  | jumped {body rest : List Stmt} {next : LabelId} (code : List Stmt) (hbody : body ∈ bodies)
      (hentry : entry? body = some next) (h : Continues bodies rest body) :
      Continues bodies rest (.goto next :: code)

/-- More blocks do not matter. -/
lemma Continues.mono {bodies more : List (List Stmt)} {rest code : List Stmt} (hsub : bodies ⊆ more)
    (h : Continues bodies rest code) : Continues more rest code := by
  induction h with
  | finished => exact .finished
  | kept s _ ih => exact .kept s ih
  | transfer s rest code hs => exact .transfer s rest code hs
  | minted id _ ih => exact .minted id ih
  | jumped code hbody hentry _ ih => exact .jumped code (hsub hbody) hentry ih

/-- How the blocks of a split carry on: the first one with the statements, what is left of it when it is
open, and at each label the block under it with what follows. -/
structure ContinuesOn (current : Option (LabelId × List Stmt)) (stmts : List Stmt)
    (bodies : List (List Stmt)) : Prop where
  opened : ∀ block ∈ current, ∃ code, bodies.head? = some (opened block ++ code) ∧
    Continues bodies stmts code
  first : current = none → ∀ body ∈ bodies.head?, Continues bodies stmts body
  labels : ∀ id after, .label id :: after <:+ stmts → ∃ body ∈ bodies, entry? body = some id ∧
    Continues bodies (.label id :: after) body

namespace ContinuesOn

variable {current : Option (LabelId × List Stmt)} {rest : List Stmt} {bodies more : List (List Stmt)}

/-- The labels behind a statement that is none. -/
lemma labels_cons (h : ContinuesOn current rest bodies) (hsub : bodies ⊆ more) {s : Stmt}
    (hs : ∀ id, s ≠ .label id) (id : LabelId) (after : List Stmt)
    (hsuffix : .label id :: after <:+ s :: rest) :
    ∃ body ∈ more, entry? body = some id ∧ Continues more (.label id :: after) body := by
  rcases List.suffix_cons_iff.mp hsuffix with heq | hsuffix
  · cases heq
    exact absurd rfl (hs id)
  · obtain ⟨body, hbody, hentry, hcontinues⟩ := h.labels id after hsuffix
    exact ⟨body, hsub hbody, hentry, hcontinues.mono hsub⟩

/-- The block under a label, and those under the labels behind it. -/
lemma labels_label {start : LabelId} (h : ContinuesOn (some (start, [])) rest bodies)
    (hsub : bodies ⊆ more) (id : LabelId) (after : List Stmt)
    (hsuffix : .label id :: after <:+ .label start :: rest) :
    ∃ body ∈ more, entry? body = some id ∧ Continues more (.label id :: after) body := by
  rcases List.suffix_cons_iff.mp hsuffix with heq | hsuffix
  · cases heq
    obtain ⟨code, hhead, hcontinues⟩ := h.opened _ rfl
    exact ⟨_, hsub (List.mem_of_head? hhead), rfl, .kept _ (hcontinues.mono hsub)⟩
  · obtain ⟨body, hbody, hentry, hcontinues⟩ := h.labels id after hsuffix
    exact ⟨body, hsub hbody, hentry, hcontinues.mono hsub⟩

end ContinuesOn

/-- The blocks of a split carry on with the list. -/
lemma Splits.continuesOn {n later : Nat} {current : Option (LabelId × List Stmt)} {stmts : List Stmt}
    {bodies : List (List Stmt)} (h : Splits n current stmts bodies later) :
    ContinuesOn current stmts bodies := by
  induction h with
  | done => exact ⟨nofun, nofun, fun id after h => by simp at h⟩
  | runOff n block =>
    refine ⟨?_, nofun, fun id after h => by simp at h⟩
    rintro _ ⟨⟩
    exact ⟨_, rfl, .finished⟩
  | @label _ _ id _ _ h ih =>
    refine ⟨nofun, fun _ body hbody => ?_, ih.labels_label (List.Subset.refl _)⟩
    obtain ⟨code, hhead, hcontinues⟩ := ih.opened _ rfl
    obtain rfl := Option.mem_unique hhead hbody
    exact .kept _ hcontinues
  | @runInto _ _ id rest bodies block h ih =>
    have hsub := List.subset_cons_self (opened block ++ [.goto id]) bodies
    have hlabels := ih.labels_label hsub
    refine ⟨?_, nofun, hlabels⟩
    rintro _ ⟨⟩
    obtain ⟨body, hbody, hentry, hcontinues⟩ := hlabels id rest List.suffix_rfl
    exact ⟨_, rfl, .jumped [] hbody hentry hcontinues⟩
  | @mint n _ _ _ h ih =>
    refine ⟨nofun, fun _ body hbody => ?_, ih.labels⟩
    obtain ⟨code, hhead, hcontinues⟩ := ih.opened _ rfl
    obtain rfl := Option.mem_unique hhead hbody
    exact .minted n hcontinues
  | @jump _ _ s rest bodies block hs h ih =>
    refine ⟨?_, nofun, ih.labels_cons (List.subset_cons_self _ _) (by rintro id rfl; cases hs)⟩
    rintro _ ⟨⟩
    exact ⟨_, rfl, .transfer s rest [] hs⟩
  | @branchAtLabel _ _ s id rest bodies block hs h ih =>
    have hsub := List.subset_cons_self (opened block ++ [s, .goto id]) bodies
    refine ⟨?_, nofun, ih.labels_cons hsub (by rintro id rfl; cases hs)⟩
    rintro _ ⟨⟩
    obtain ⟨body, hbody, hentry, hcontinues⟩ := ih.labels id rest List.suffix_rfl
    exact ⟨_, rfl, .kept s (.jumped [] (hsub hbody) hentry (hcontinues.mono hsub))⟩
  | @branch n _ s rest bodies block hs h ih =>
    have hsub := List.subset_cons_self (opened block ++ [s, .goto n]) bodies
    refine ⟨?_, nofun, ih.labels_cons hsub (by rintro id rfl; cases hs)⟩
    rintro _ ⟨⟩
    obtain ⟨code, hhead, hcontinues⟩ := ih.opened _ rfl
    have hbody := hsub (List.mem_of_head? hhead)
    exact ⟨_, rfl, .kept s (.jumped [] hbody rfl (.minted n (hcontinues.mono hsub)))⟩
  | straight block hlabel hjump hbranch h ih =>
    refine ⟨?_, nofun, ih.labels_cons (List.Subset.refl _) hlabel⟩
    rintro _ ⟨⟩
    obtain ⟨code, hhead, hcontinues⟩ := ih.opened _ rfl
    refine ⟨_ :: code, ?_, .kept _ hcontinues⟩
    rw [hhead, opened, opened]
    simp

end Partition

/-! ### Running the list and the blocks -/

namespace Execution

open Decompiler.Partition

variable {stmts : List Stmt} {bodies : List (List Stmt)}

/-- The blocks as the body of a unit. -/
def unitOf (bodies : List (List Stmt)) : List Stmt :=
  (bodies.map fun body => ({ body } : BasicBlock)).map .basic

/-- Jumps land alike in the list and in the blocks: nowhere, or where the blocks carry on with the list.
The list has no frames, and those around a block do not stop a scope. -/
def LandsOn (stmts : List Stmt) (bodies : List (List Stmt)) (target : LabelId) : Prop :=
  (∀ frames, (∀ t, stopOf? t frames = none) → land? stmts frames target = none ∧
    land? (unitOf bodies) frames target = none) ∨
    ∃ rest code frames, (∀ t, stopOf? t frames = none) ∧ rest <:+ stmts ∧ Continues bodies rest code ∧
      (∀ frames, land? stmts frames target = some ⟨rest, []⟩) ∧
      ∀ frames', land? (unitOf bodies) frames' target = some ⟨code, frames⟩

/-- Where control is in the list and in the blocks. -/
inductive ContinuedAt (stmts : List Stmt) (bodies : List (List Stmt)) : Place → Place → Prop where
  | intro {rest code : List Stmt} {frames : List Frame} (hframes : ∀ t, stopOf? t frames = none)
      (hsuffix : rest <:+ stmts) (h : Continues bodies rest code) :
      ContinuedAt stmts bodies ⟨rest, []⟩ ⟨code, frames⟩

/-- Two steps do the same: they go on from related places, or they end alike. -/
inductive StepAlike (R : Place → Place → Prop) : Outcome → Outcome → Prop where
  | go (events : List Event) {p q : Place} (h : R p q) : StepAlike R (.go events p) (.go events q)
  | stop (events : List Event) (ending : Ending) :
      StepAlike R (.stop events ending) (.stop events ending)

/-- Jumps that land alike are steps that do the same. -/
lemma LandsOn.goOr {target : LabelId} (h : LandsOn stmts bodies target) {frames : List Frame}
    (hframes : ∀ t, stopOf? t frames = none) (events : List Event) :
    StepAlike (ContinuedAt stmts bodies) (goOr (.lost target) events (land? stmts [] target))
      (goOr (.lost target) events
        (land? (unitOf bodies) frames target)) := by
  rcases h with hnone | ⟨rest, code, frames', hframes', hsuffix, hcontinues, hlist, hblocks⟩
  · rw [(hnone [] fun _ => rfl).1, (hnone frames hframes).2]
    exact .stop _ _
  · rw [hlist, hblocks]
    exact .go _ (.intro hframes' hsuffix hcontinues)

/-- A stack operation other than a return runs, and may jump. -/
lemma leafStep_raw {offset : Nat} {op : StackOp} (hop : op ≠ .ret) (oracle : Oracle)
    (root : List Stmt) (history : List Event) (frames : List Frame) (rest : List Stmt) :
    leafStep oracle root history frames rest (.raw offset op) =
      plainStep oracle root history frames rest (.raw offset op) := by
  cases op with
  | ret => exact absurd rfl hop
  | _ => rfl

/-- The same statement does the same in the list and in a block. -/
lemma stepAlike_stmt {s : Stmt} {rest code : List Stmt} {frames : List Frame}
    (hkind : (∃ id, s = .label id) ∨ s.isLowered = true)
    (hlands : ∀ target ∈ s.targets, LandsOn stmts bodies target)
    (hframes : ∀ t, stopOf? t frames = none)
    (hrest : s.isUnconditional = false → ContinuedAt stmts bodies ⟨rest, []⟩ ⟨code, frames⟩)
    (oracle : Oracle) (history : List Event) :
    StepAlike (ContinuedAt stmts bodies) (stmtStep oracle stmts history [] rest s)
      (stmtStep oracle (unitOf bodies) history frames code s) := by
  rcases hkind with ⟨id, rfl⟩ | hkind
  · exact .go [] (hrest rfl)
  cases s with
  | goto target => exact (hlands target List.mem_cons_self).goOr hframes []
  | exit => exact .stop [] .finished
  | raw offset op =>
    by_cases hop : op = .ret
    · subst hop
      exact .stop _ .returned
    have hpass : (Stmt.raw offset op).isUnconditional = false := by
      cases op with
      | ret => exact absurd rfl hop
      | _ => rfl
    simp only [stmtStep, leafStep_raw hop, plainStep]
    split
    · cases htarget : (Stmt.raw offset op).branchTargets[oracle.branch history (.raw offset op)]? with
      | none => exact .go _ (hrest hpass)
      | some target => exact (hlands target (List.mem_of_getElem? htarget)).goOr hframes _
    · exact .go _ (hrest hpass)
  | _ => cases hkind

/-- What it takes for the blocks to run like the list: each statement is one that an instruction leaves,
and jumps land alike. -/
structure RunsAlong (stmts : List Stmt) (bodies : List (List Stmt)) : Prop where
  kinds : ∀ s ∈ stmts, (∃ id, s = .label id) ∨ s.isLowered = true
  lands : ∀ target ∈ Stmt.targetsOfList stmts, LandsOn stmts bodies target
  enters : ∀ body ∈ bodies, ∀ next, entry? body = some next → ∃ more, ∀ frames,
    land? (unitOf bodies) frames next = some ⟨body, [.after more]⟩

/-- A statement of the list does the same in a block. -/
lemma RunsAlong.stepAlike (h : RunsAlong stmts bodies) (oracle : Oracle) {s : Stmt} (hs : s ∈ stmts)
    {rest code : List Stmt} {frames : List Frame} (hframes : ∀ t, stopOf? t frames = none)
    (hrest : s.isUnconditional = false → ContinuedAt stmts bodies ⟨rest, []⟩ ⟨code, frames⟩)
    (history : List Event) :
    StepAlike (ContinuedAt stmts bodies) (stmtStep oracle stmts history [] rest s)
      (stmtStep oracle (unitOf bodies) history frames code s) :=
  stepAlike_stmt (h.kinds s hs)
    (fun target htarget => h.lands target (Stmt.mem_targetsOfList.mpr ⟨s, hs, htarget⟩)) hframes hrest
    oracle history

/-- Where the list is and where the blocks are, the blocks come without events to a place where they do
what the list does. -/
lemma RunsAlong.exists_step (h : RunsAlong stmts bodies) (oracle : Oracle) (entry : Option LabelId)
    {rest code : List Stmt} (hcontinues : Continues bodies rest code) (hsuffix : rest <:+ stmts)
    {frames : List Frame} (hframes : ∀ t, stopOf? t frames = none) (history : List Event) :
    ∃ k place, (machine oracle ⟨entry, unitOf bodies⟩).run k (.at history ⟨code, frames⟩) =
        .at history place ∧
      (rest = [] → ∃ frames', place = ⟨[.exit], frames'⟩) ∧
      StepAlike (ContinuedAt stmts bodies) (machine oracle ⟨none, stmts⟩ history ⟨rest, []⟩)
        (machine oracle ⟨entry, unitOf bodies⟩ history place) := by
  induction hcontinues generalizing frames with
  | finished => exact ⟨0, _, rfl, fun _ => ⟨frames, rfl⟩, .stop [] .finished⟩
  | kept s hcontinues _ =>
    refine ⟨0, _, rfl, nofun, h.stepAlike oracle (hsuffix.subset List.mem_cons_self) hframes ?_ history⟩
    exact fun _ => .intro hframes ((List.suffix_cons _ _).trans hsuffix) hcontinues
  | transfer s rest code hs =>
    refine ⟨0, _, rfl, nofun, h.stepAlike oracle (hsuffix.subset List.mem_cons_self) hframes ?_ history⟩
    exact fun hpass => absurd hs (by simp [hpass])
  | @minted id rest code hcontinues ih =>
    obtain ⟨k, place, hrun, hstep⟩ := ih hsuffix hframes
    have hpass : machine oracle ⟨entry, unitOf bodies⟩ history ⟨.label id :: code, frames⟩ =
      .go [] ⟨code, frames⟩ := rfl
    refine ⟨1 + k, place, ?_, hstep⟩
    rw [Trace.Machine.run_add, run_silent hpass]
    exact hrun
  | @jumped body rest next code hbody hentry hcontinues ih =>
    obtain ⟨more, hland⟩ := h.enters body hbody next hentry
    have hafter : ∀ t, stopOf? t [.after more] = none := fun _ => rfl
    obtain ⟨k, place, hrun, hstep⟩ := ih hsuffix hafter
    refine ⟨1 + k, place, ?_, hstep⟩
    have hjump : machine oracle ⟨entry, unitOf bodies⟩ history
        ⟨.goto next :: code, frames⟩ = .go [] ⟨body, [.after more]⟩ := by
      simp only [machine, stmtStep, leafStep, hland, goOr]
    rw [Trace.Machine.run_add, run_silent hjump]
    exact hrun

/-- The blocks follow the list. -/
theorem RunsAlong.simulation (h : RunsAlong stmts bodies) (oracle : Oracle) (entry : Option LabelId) :
    Trace.Simulation (machine oracle ⟨none, stmts⟩)
      (machine oracle ⟨entry, unitOf bodies⟩) (ContinuedAt stmts bodies)
      (fun _ => 0) := by
  refine ⟨?_, ?_⟩
  · rintro history _ _ events next ⟨hframes, hsuffix, hcontinues⟩ hstep
    obtain ⟨k, place, hrun, -, halike⟩ := h.exists_step oracle entry hcontinues hsuffix hframes history
    rw [hstep] at halike
    generalize hblocks : machine oracle ⟨entry, unitOf bodies⟩ history place =
      step at halike
    cases halike with
    | go _ hnext =>
      refine .inr ⟨k, _, ?_, hnext⟩
      rw [Trace.Machine.run_add, hrun, run_one hblocks]
  · rintro history _ _ events ending ⟨hframes, hsuffix, hcontinues⟩ hstep
    obtain ⟨k, place, hrun, -, halike⟩ := h.exists_step oracle entry hcontinues hsuffix hframes history
    rw [hstep] at halike
    generalize hblocks : machine oracle ⟨entry, unitOf bodies⟩ history place =
      step at halike
    cases halike with
    | stop =>
      refine ⟨k + 1, ?_⟩
      rw [Trace.Machine.run_add, hrun, run_stop hblocks]

/-- A jump to the label of a block lands there. -/
lemma findInList_unit (hshaped : ∀ body ∈ bodies, ∃ label, BasicBlockOf.Shaped { body } label)
    (hdistinct : (bodies.map entry?).Nodup) {body : List Stmt} (hbody : body ∈ bodies)
    {next : LabelId} (hentry : entry? body = some next) :
    ∃ more, findInList next [] (unitOf bodies) = some ⟨body, [.after more]⟩ := by
  induction bodies with
  | nil => cases hbody
  | cons first rest ih =>
    obtain ⟨⟨label, hfirst⟩, hshaped⟩ := List.forall_mem_cons.mp hshaped
    rw [List.map_cons, List.nodup_cons] at hdistinct
    rw [unitOf, List.map_cons, List.map_cons, findInList_basic, findInList_of_shaped hfirst]
    rcases List.mem_cons.mp hbody with rfl | hbody
    · obtain rfl : label = next := Option.some.inj (hfirst.entryLabel?.symm.trans hentry)
      exact ⟨_, by rw [if_pos rfl, Option.some_or]⟩
    · have hne : label ≠ next := by
        rintro rfl
        exact hdistinct.1 (List.mem_map.mpr ⟨body, hbody, hentry.trans hfirst.entryLabel?.symm⟩)
      rw [if_neg hne, Option.none_or]
      exact ih hshaped hdistinct.2 hbody

/-- In a list that defines no label twice, a jump lands at the label. -/
lemma findInList_append {target : LabelId} {before after : List Stmt}
    (hbefore : target ∉ Stmt.labelsOfList before) (frames : List Frame) :
    findInList target frames (before ++ .label target :: after) =
      some ⟨.label target :: after, frames⟩ := by
  induction before with
  | nil => rw [List.nil_append, findInList, if_pos rfl]
  | cons s before ih =>
    rw [Stmt.labelsOfList, List.mem_append, not_or] at hbefore
    rw [List.cons_append, findInList_cons_of_notMem hbefore.1]
    exact ih hbefore.2

/-- The blocks that a list is split into run along with it, when no statement names a label that was
minted on the way. -/
lemma runsAlong_of_splits {n later : Nat} (hlist : Stmt.IsClosedListing n later stmts)
    (hsplits : Splits n none stmts bodies later)
    (hshaped : ∀ body ∈ bodies, ∃ label, BasicBlockOf.Shaped { body } label)
    (hentries : (bodies.map entry?).Perm
      ((Stmt.labelsOfList stmts ++ List.range' n (later - n)).map some))
    (hdistinct : (bodies.map entry?).Nodup) : RunsAlong stmts bodies := by
  have henters : ∀ body ∈ bodies, ∀ next, entry? body = some next → ∃ more, ∀ frames,
      land? (unitOf bodies) frames next = some ⟨body, [.after more]⟩ := by
    intro body hbody next hentry
    obtain ⟨more, hfind⟩ := findInList_unit hshaped hdistinct hbody hentry
    exact ⟨more, land?_of_find hfind⟩
  refine ⟨hlist.kinds, fun target htarget => ?_, henters⟩
  by_cases hmem : target ∈ Stmt.labelsOfList stmts
  · -- The label stands in the list, and the block under it carries on from there.
    obtain ⟨before, after, rfl⟩ :=
      List.append_of_mem (Stmt.label_mem_of_mem_labelsOfList hlist.kinds hmem)
    have hbefore : target ∉ Stmt.labelsOfList before := by
      intro hbefore
      have hnodup := hlist.distinct
      rw [Stmt.labelsOfList_append] at hnodup
      exact (List.disjoint_of_nodup_append hnodup) hbefore List.mem_cons_self
    obtain ⟨body, hbody, hentry, hcontinues⟩ :=
      hsplits.continuesOn.labels target after (List.suffix_append _ _)
    obtain ⟨more, hland⟩ := henters body hbody target hentry
    exact .inr ⟨_, body, [.after more], fun _ => rfl, List.suffix_append _ _, hcontinues,
      land?_of_find (findInList_append hbefore []), hland⟩
  · -- The label stands nowhere.
    have hnone : findInList target [] (unitOf bodies) = none := by
      by_contra hsome
      obtain ⟨place, hplace⟩ := Option.ne_none_iff_exists'.mp hsome
      obtain ⟨block, hblock, hentry, -⟩ := land_of_blocks (by simpa using hshaped) hplace
      obtain ⟨body, hbody, rfl⟩ := List.mem_map.mp hblock
      have hlabel := hentries.mem_iff.mp (List.mem_map.mpr ⟨body, hbody, hentry⟩)
      rw [List.mem_map_of_injective (Option.some_injective _), List.mem_append,
        List.mem_range'_1] at hlabel
      rcases hlabel with hlabel | hlabel
      · exact hmem hlabel
      · rw [Nat.add_sub_cancel' hsplits.le] at hlabel
        exact hlist.targets target htarget hlabel
    refine .inl fun frames hframes => ⟨?_, ?_⟩
    · rw [land?, (findInList_eq_none_iff _ _ _).mpr hmem, hframes, Option.none_or]
    · rw [land?, hnone, hframes, Option.none_or]

/-- From code that carries on with the whole list, the blocks run like the list. -/
lemma RunsAlong.sameTraces (h : RunsAlong stmts bodies) (oracle : Oracle) (entry : Option LabelId)
    {code : List Stmt} (hcontinues : Continues bodies stmts code) :
    Trace.SameTraces (machine oracle ⟨none, stmts⟩) ⟨stmts, []⟩
      (machine oracle ⟨entry, unitOf bodies⟩) ⟨code, []⟩ :=
  (h.simulation oracle entry).sameTraces (.intro (fun _ => rfl) List.suffix_rfl hcontinues)

/-- Where the list runs off its end, the blocks come to an exit. -/
lemma RunsAlong.exists_exit (h : RunsAlong stmts bodies) (oracle : Oracle) (entry : Option LabelId)
    {code : List Stmt} (hcontinues : Continues bodies stmts code) {n : Nat} {history : List Event}
    (hrun : (machine oracle ⟨none, stmts⟩).run n (.at [] ⟨stmts, []⟩) = .at history ⟨[], []⟩) :
    ∃ k frames, (machine oracle ⟨entry, unitOf bodies⟩).run k (.at [] ⟨code, []⟩) =
      .at history ⟨[.exit], frames⟩ := by
  have hstart : ContinuedAt stmts bodies ⟨stmts, []⟩ ⟨code, []⟩ :=
    .intro (fun _ => rfl) List.suffix_rfl hcontinues
  obtain ⟨k, hrelated⟩ := (h.simulation oracle entry).run_related n [] hstart
  rw [hrun] at hrelated
  generalize hblocks : (machine oracle ⟨entry, unitOf bodies⟩).run k (.at [] ⟨code, []⟩) = status
    at hrelated
  cases hrelated with
  | «at» hplace =>
    obtain ⟨hframes, hsuffix, hcontinues⟩ := hplace
    obtain ⟨k', place, hsilent, hexit, -⟩ :=
      h.exists_step oracle entry hcontinues hsuffix hframes history
    obtain ⟨frames, rfl⟩ := hexit rfl
    refine ⟨k + k', frames, ?_⟩
    rw [Trace.Machine.run_add, hblocks, hsilent]

end Execution

/-! ### The split of a list -/

/-- What the split of a list of statements into blocks is, from the number of labels before to the
number after. -/
structure IsPartition (before : Nat) (stmts : List Stmt) (blocks : List BasicBlock) (after : Nat) :
    Prop where
  /-- Without the labels that were minted and the jumps and exits that were added, the blocks are the
  statements in their order. -/
  parts : ∃ parts, Partition.Part.AreOf before after parts (blocks.map BasicBlockOf.body) stmts
  isBlock : ∀ block ∈ blocks, Partition.IsBlock block.body
  distinct : (blocks.map BasicBlockOf.entryLabel?).Nodup

/-- From the first of them, some blocks run like a list of statements does with fallthrough. -/
structure RunsAsListed (stmts : List Stmt) (blocks : List BasicBlock) : Prop where
  runAlike : Execution.RunAlike ⟨none, stmts⟩ (blockOfBasicBlocks blocks)
  /-- Where the list runs off its end, the blocks come to an exit. -/
  exits : ∀ (oracle : Execution.Oracle) (n : Nat) (history : List Execution.Event),
    (Execution.machine oracle ⟨none, stmts⟩).run n (.at [] (Execution.start ⟨none, stmts⟩)) =
        .at history ⟨[], []⟩ →
      ∃ k frames, (Execution.machine oracle (blockOfBasicBlocks blocks)).run k
        (.at [] (Execution.start (blockOfBasicBlocks blocks))) = .at history ⟨[.exit], frames⟩

namespace Partition

/-- What splitting a list gives, as the split of its statements. -/
lemma exists_bodies (labels : Labels) {stmts : List Stmt}
    (hkinds : ∀ s ∈ stmts, (∃ id, s = .label id) ∨ s.isLowered = true) :
    ∃ bodies, (partition labels stmts).1 = bodies.map (fun body => ({ body } : BasicBlock)) ∧
      bodies ≠ [] ∧
      Splits labels.names.length none stmts bodies (partition labels stmts).2.names.length ∧
      IsSplit labels none stmts bodies (partition labels stmts).2 := by
  have hsplits := splits_blocks stmts labels none
  have hsplit := isSplit_blocks hkinds labels none nofun
  rw [Option.map_none] at hsplits hsplit
  unfold partition
  split
  · -- No statements at all make one block.
    rename_i later hblocks
    rw [hblocks] at hsplits
    obtain rfl := (hsplits.eq_nil rfl).2
    cases hblocks
    have hopen : ∀ block ∈ some ((labels.fresh stem).1, []), IsOpen block := by
      simpa using ⟨Stmt.isMiddle_nil, by simp⟩
    refine ⟨[start (labels.fresh stem).1 ++ [.exit]], rfl, by simp, ?_, ?_⟩
    · rw [Labels.fresh_fst, Labels.length_fresh]
      exact .mint (.runOff _ (labels.names.length, []))
    · exact .openFresh (isSplit_blocks hkinds (labels.fresh stem).2 _ hopen)
  · rename_i bodies later hne hblocks
    rw [hblocks] at hsplits hsplit
    exact ⟨bodies, rfl, fun hnil => hne hnil, hsplits, hsplit⟩

end Partition

/-- Splitting a list of statements as instructions leave them into blocks succeeds, and gives the split of
the list.  When no statement names a label that is minted on the way, the blocks run like the list. -/
theorem isPartition_checkedPartition (labels : Labels) {stmts : List Stmt}
    (h : Stmt.IsListing labels.names.length stmts) :
    ∃ blocks later, checkedPartition labels stmts = (.ok blocks, later) ∧
      IsPartition labels.names.length stmts blocks later.names.length ∧
      (Stmt.IsClosedListing labels.names.length later.names.length stmts →
        RunsAsListed stmts blocks) := by
  obtain ⟨bodies, hblocks, hne, hsplits, hsplit⟩ := Partition.exists_bodies labels h.kinds
  refine ⟨_, _, checkedPartition_eq labels stmts, ?_⟩
  generalize (partition labels stmts).2 = later at hsplits hsplit ⊢
  rw [hblocks]
  have hbodies : (bodies.map fun body => ({ body } : BasicBlock)).map BasicBlockOf.body = bodies := by
    rw [List.map_map]
    exact List.map_id _
  have hdistinct : (bodies.map Partition.entry?).Nodup := by
    refine hsplit.entries.nodup_iff.mpr (List.Nodup.map (Option.some_injective _) ?_)
    refine List.nodup_append.mpr ⟨h.distinct, List.nodup_range', ?_⟩
    rintro id hid _ hminted rfl
    exact Nat.not_lt.mpr (List.mem_range'_1.mp hminted).1 (h.known id hid)
  refine ⟨⟨?_, List.forall_mem_map.mpr (hsplits.isBlock h.kinds nofun), ?_⟩, fun hclosed => ?_⟩
  · rw [hbodies]
    exact (hsplits.exists_parts (Nat.le_refl _)).1 rfl
  · rw [List.map_map]
    exact hdistinct
  have halong :=
    Execution.runsAlong_of_splits hclosed hsplits hsplit.shaped hsplit.entries hdistinct
  -- The blocks are entered by a jump to the first one, which carries on with the whole list.
  obtain ⟨first, rest, rfl⟩ := List.exists_cons_of_ne_nil hne
  obtain ⟨label, hfirst⟩ := hsplit.shaped first List.mem_cons_self
  have hentry : BasicBlockOf.entryLabel? { body := first } = some label := hfirst.entryLabel?
  have hstart : Execution.start (blockOfBasicBlocks
      ((first :: rest).map fun body => ({ body } : BasicBlock))) =
      ⟨.goto label :: Execution.unitOf (first :: rest), []⟩ := by
    simp [Execution.start, Execution.code, blockOfBasicBlocks, Flatten.entryJump, hentry,
      Execution.unitOf]
  have hcontinues : Partition.Continues (first :: rest) stmts
      (.goto label :: Execution.unitOf (first :: rest)) :=
    .jumped _ List.mem_cons_self hentry (hsplits.continuesOn.first rfl first rfl)
  constructor
  · intro oracle
    rw [hstart]
    exact halong.sameTraces oracle _ hcontinues
  · intro oracle n history hrun
    rw [hstart]
    exact halong.exists_exit oracle _ hcontinues hrun

/-- A branch over a statement to a label that is defined behind it. -/
def branchAhead : List Stmt :=
  [.raw 0 (.push (.int 1)), .raw 2 (.branchTrue 0), .raw 3 (.push (.int 2)), .raw 5 .popz, .label 0,
    .raw 6 (.push (.int 3)), .raw 8 .popz]

/-- Three blocks come of it: the one in front of the branch, the one it jumps over, and the one under
the label. -/
theorem branchAhead_isPartition :
    Stmt.IsListing 1 branchAhead ∧
      ∃ blocks later, checkedPartition { names := ["L9"] } branchAhead = (.ok blocks, later) ∧
        later.names = ["L9", "Block_0", "Block_1"] ∧
        blocks.map BasicBlockOf.body =
          [[.label 1, .raw 0 (.push (.int 1)), .raw 2 (.branchTrue 0), .goto 2],
            [.label 2, .raw 3 (.push (.int 2)), .raw 5 .popz, .goto 0],
            [.label 0, .raw 6 (.push (.int 3)), .raw 8 .popz, .exit]] ∧
        Stmt.IsClosedListing 1 later.names.length branchAhead ∧ RunsAsListed branchAhead blocks := by
  have hlist : Stmt.IsListing 1 branchAhead :=
    ⟨by simp [branchAhead, Stmt.isLowered], by decide, by decide⟩
  obtain ⟨blocks, later, hpartition, -, hruns⟩ :=
    isPartition_checkedPartition { names := ["L9"] } hlist
  have hlater : (checkedPartition { names := ["L9"] } branchAhead).2.names =
      ["L9", "Block_0", "Block_1"] := by decide +kernel
  rw [hpartition] at hlater
  have hclosed : Stmt.IsClosedListing 1 later.names.length branchAhead := by
    refine ⟨hlist, ?_⟩
    rw [show later.names = _ from hlater]
    decide
  refine ⟨hlist, blocks, later, hpartition, hlater, ?_, hclosed, hruns hclosed⟩
  have hblocks : Except.ok blocks = (checkedPartition { names := ["L9"] } branchAhead).1 :=
    (congrArg Prod.fst hpartition).symm
  cases hblocks
  rfl

/-- A jump to a label that is not defined. -/
def jumpNowhere : List Stmt :=
  [.goto 0]

/-- Where there is no label yet, the block that the jump stands in is minted the label that it names: the
list is lost, and the block starts over again and again. -/
theorem jumpNowhere_differs :
    Stmt.IsListing 0 jumpNowhere ∧
      ∃ blocks later, checkedPartition {} jumpNowhere = (.ok blocks, later) ∧
        blocks.map BasicBlockOf.body = [[.label 0, .goto 0]] ∧
        ¬ Execution.RunAlike ⟨none, jumpNowhere⟩ (blockOfBasicBlocks blocks) := by
  refine ⟨⟨by simp [jumpNowhere, Stmt.isLowered], by decide, by decide⟩, _, _, rfl, rfl, ?_⟩
  intro h
  obtain ⟨n, hn⟩ := ((h ⟨fun _ _ => true, fun _ _ => true, fun _ _ _ => 0, fun _ _ => 0, true⟩).ends
    [] (.lost 0)).mp ⟨1, rfl⟩
  -- One step leads into the block, and two more lead back there.
  cases n with
  | zero => cases hn
  | succ n =>
    rw [Trace.Machine.run_succ, show Trace.Machine.advance _ _ =
      .at [] ⟨[.label 0, .goto 0], [.after []]⟩ from rfl] at hn
    exact Trace.Machine.run_ne_ended (k := 1) rfl n _ _ hn

end Decompiler
