import Mathlib.Data.List.Nodup
import Decompiler.Proofs.TreeExecution

/-!
# The places of a unit

A run of a unit is always at a place of the unit: at the end of one of its lists, inside of the
frames of the statements around that list (`IsPlace`, `isPlace_machine`).  `innerLists` has the lists
directly inside of a statement with their frames, so that what is true of all places is proved by
induction with a case for the rest of a list and a case for what is inside of a statement.

A label that the unit has once leads to the place where it stands (`IsPlace.find_label_of_count`).
-/

namespace Decompiler.Execution

/-! ### Places -/

/-- The lists in the cases of a switch in front of `rest`, with the frames around them. -/
def innerCases (rest : List Stmt) : List SwitchCase → List (List Stmt × Frame)
  | [] => []
  | c :: later => (code c.body, .case later rest) :: innerCases rest later

/-- The lists directly inside of a statement in front of `rest`, with the frames around them. -/
def innerLists (rest : List Stmt) : Stmt → List (List Stmt × Frame)
  | .basic block => [(block.body, .after rest)]
  | .seq block => [(code block, .after rest)]
  | .cond _ thenBlock elseBlock => [(code thenBlock, .after rest), (code elseBlock, .after rest)]
  | .loop test block => [(code block, .loop test (code block) rest)]
  | .scope env block stop => [(code block, .scope env (code block) stop rest)]
  | .switch _ cases => innerCases rest cases
  | _ => []

/-- The places of a unit: the code left of a list, and the frames around it. -/
inductive IsPlace (unit : Block) : List Stmt → List Frame → Prop where
  | start : IsPlace unit (code unit) []
  | tail {s : Stmt} {rest : List Stmt} {frames : List Frame}
      (h : IsPlace unit (s :: rest) frames) : IsPlace unit rest frames
  | inside {s : Stmt} {rest list : List Stmt} {frame : Frame} {frames : List Frame}
      (h : IsPlace unit (s :: rest) frames) (hin : (list, frame) ∈ innerLists rest s) :
      IsPlace unit list (frame :: frames)

variable {unit : Block} {list rest : List Stmt} {frame : Frame} {frames : List Frame} {s : Stmt}
  {target : LabelId}

/-- A place at the start of what is left is a place at its end. -/
lemma IsPlace.nil (h : IsPlace unit list frames) : IsPlace unit [] frames := by
  induction list with
  | nil => exact h
  | cons s rest ih => exact ih h.tail

/-- Behind the first statements of a list. -/
lemma IsPlace.of_append {a b : List Stmt} (h : IsPlace unit (a ++ b) frames) :
    IsPlace unit b frames := by
  induction a with
  | nil => exact h
  | cons s rest ih => exact ih h.tail

/-- Where control enters a block, and behind the jump to its entry. -/
lemma IsPlace.of_code {block : Block} (h : IsPlace unit (code block) frames) :
    IsPlace unit block.body frames := by
  rw [code, Flatten.entryJump] at h
  cases hentry : block.entry with
  | none =>
    rw [hentry] at h
    exact h
  | some id =>
    rw [hentry] at h
    exact h.tail

/-- The lists of the later cases are lists of the cases. -/
lemma mem_innerCases {cases : List SwitchCase} (h : (list, frame) ∈ innerCases rest cases) :
    ∃ before c later, cases = before ++ c :: later ∧ list = code c.body ∧
      frame = .case later rest := by
  induction cases with
  | nil => cases h
  | cons c later ih =>
    rcases List.mem_cons.mp h with heq | h
    · obtain ⟨rfl, rfl⟩ := Prod.mk.inj heq
      exact ⟨[], c, later, rfl, rfl, rfl⟩
    · obtain ⟨before, d, later', rfl, hlist, hframe⟩ := ih h
      exact ⟨c :: before, d, later', rfl, hlist, hframe⟩

lemma mem_innerCases_append (before : List SwitchCase) {cases : List SwitchCase}
    (h : (list, frame) ∈ innerCases rest cases) :
    (list, frame) ∈ innerCases rest (before ++ cases) := by
  induction before with
  | nil => exact h
  | cons c before ih => exact List.mem_cons_of_mem _ ih

/-! ### Labels -/

@[simp] lemma labelsOfList_code (block : Block) :
    Stmt.labelsOfList (code block) = Stmt.labelsOfList block.body := by
  rw [code, Flatten.entryJump]
  cases block.entry <;> rfl

/-- The jump to the entry of a block defines no label. -/
@[simp] lemma findInList_code (target : LabelId) (frames : List Frame) (block : Block) :
    findInList target frames (code block) = findInList target frames block.body := by
  rw [code, Flatten.entryJump]
  cases block.entry with
  | none => rfl
  | some id => exact findInList_cons_of_notMem List.not_mem_nil _ _

lemma labels_innerCases {cases : List SwitchCase} (h : (list, frame) ∈ innerCases rest cases) :
    (Stmt.labelsOfList list).Sublist (Stmt.labelsOfCases cases) := by
  induction cases with
  | nil => cases h
  | cons c later ih =>
    rw [Stmt.labelsOfCases]
    rcases List.mem_cons.mp h with heq | h
    · obtain ⟨rfl, rfl⟩ := Prod.mk.inj heq
      rw [labelsOfList_code]
      exact List.sublist_append_left _ _
    · exact (ih h).trans (List.sublist_append_right _ _)

/-- The labels of a list inside of a statement are labels of the statement. -/
lemma labels_inner (h : (list, frame) ∈ innerLists rest s) :
    (Stmt.labelsOfList list).Sublist s.labels := by
  cases s with
  | cond test thenBlock elseBlock =>
    simp only [innerLists, List.mem_cons, Prod.mk.injEq, List.not_mem_nil, or_false] at h
    rw [Stmt.labels]
    rcases h with ⟨rfl, rfl⟩ | ⟨rfl, rfl⟩
    · rw [labelsOfList_code]
      exact List.sublist_append_left _ _
    · rw [labelsOfList_code]
      exact List.sublist_append_right _ _
  | switch value cases =>
    rw [Stmt.labels]
    exact labels_innerCases h
  | basic | seq | loop | scope =>
    simp only [innerLists, List.mem_cons, Prod.mk.injEq, List.not_mem_nil, or_false] at h
    obtain ⟨rfl, rfl⟩ := h
    simp only [Stmt.labels, labelsOfList_code, List.Sublist.refl]
  | _ => cases h

/-- The labels at a place are labels of the unit. -/
lemma IsPlace.labels (h : IsPlace unit list frames) :
    (Stmt.labelsOfList list).Sublist (Stmt.labelsOfList unit.body) := by
  induction h with
  | start => rw [labelsOfList_code]
  | tail h ih =>
    rw [Stmt.labelsOfList] at ih
    exact (List.sublist_append_right _ _).trans ih
  | inside h hin ih =>
    rw [Stmt.labelsOfList] at ih
    exact (labels_inner hin).trans ((List.sublist_append_left _ _).trans ih)

/-- A label that two lists have once together is in one of them only. -/
lemma notMem_of_count_append {a b : List LabelId} (hone : (a ++ b).count target ≤ 1) :
    (target ∈ a → target ∉ b) ∧ (target ∈ b → target ∉ a) := by
  rw [List.count_append] at hone
  have hboth : target ∈ a → target ∈ b → False := fun ha hb => by
    have ha' := List.count_pos_iff.mpr ha
    have hb' := List.count_pos_iff.mpr hb
    omega
  exact ⟨hboth, fun hb ha => hboth ha hb⟩

lemma findInCases_of_inner {cases : List SwitchCase}
    (hone : (Stmt.labelsOfCases cases).count target ≤ 1)
    (h : (list, frame) ∈ innerCases rest cases) (htarget : target ∈ Stmt.labelsOfList list) :
    findInCases target rest frames cases = findInList target (frame :: frames) list := by
  induction cases with
  | nil => cases h
  | cons c later ih =>
    rw [Stmt.labelsOfCases] at hone
    rw [findInCases]
    rcases List.mem_cons.mp h with heq | h
    · obtain ⟨rfl, rfl⟩ := Prod.mk.inj heq
      have hlater : target ∉ Stmt.labelsOfCases later :=
        (notMem_of_count_append hone).1 (by simpa only [labelsOfList_code] using htarget)
      rw [(findInCases_eq_none_iff target rest frames later).mpr hlater, Option.or_none,
        findInList_code]
    · have hlater := (labels_innerCases h).subset htarget
      have hfirst : target ∉ Stmt.labelsOfList c.body.body := (notMem_of_count_append hone).2 hlater
      rw [(findInList_eq_none_iff target _ c.body.body).mpr hfirst, Option.none_or,
        ih ((List.sublist_append_right _ _).count_le target |>.trans hone) h]

/-- A label that stands once inside of a statement is found in the list that has it. -/
lemma findInStmt_of_inner (hone : s.labels.count target ≤ 1)
    (h : (list, frame) ∈ innerLists rest s) (htarget : target ∈ Stmt.labelsOfList list) :
    findInStmt target rest frames s = findInList target (frame :: frames) list := by
  cases s with
  | cond test thenBlock elseBlock =>
    simp only [innerLists, List.mem_cons, Prod.mk.injEq, List.not_mem_nil, or_false] at h
    rw [Stmt.labels] at hone
    rw [findInStmt]
    rcases h with ⟨rfl, rfl⟩ | ⟨rfl, rfl⟩
    · rw [labelsOfList_code] at htarget
      rw [(findInList_eq_none_iff target _ elseBlock.body).mpr
        ((notMem_of_count_append hone).1 htarget), Option.or_none, findInList_code]
    · rw [labelsOfList_code] at htarget
      rw [(findInList_eq_none_iff target _ thenBlock.body).mpr
        ((notMem_of_count_append hone).2 htarget), Option.none_or, findInList_code]
  | switch value cases =>
    rw [Stmt.labels] at hone
    exact findInCases_of_inner hone h htarget
  | basic | seq | loop | scope =>
    simp only [innerLists, List.mem_cons, Prod.mk.injEq, List.not_mem_nil, or_false] at h
    obtain ⟨rfl, rfl⟩ := h
    simp only [findInStmt, findInList_code]
  | _ => cases h

/-- A label that is left at a place, and that the unit has once, is found there. -/
lemma IsPlace.find (h : IsPlace unit list frames)
    (hone : (Stmt.labelsOfList unit.body).count target ≤ 1)
    (htarget : target ∈ Stmt.labelsOfList list) :
    findInList target [] unit.body = findInList target frames list := by
  induction h with
  | start => rw [findInList_code]
  | @tail s rest frames h ih =>
    have hlist : (Stmt.labelsOfList (s :: rest)).count target ≤ 1 := (h.labels.count_le _).trans hone
    rw [Stmt.labelsOfList] at hlist
    have hs : target ∉ s.labels := (notMem_of_count_append hlist).2 htarget
    have hmem : target ∈ Stmt.labelsOfList (s :: rest) := by
      rw [Stmt.labelsOfList]
      exact List.mem_append_right _ htarget
    rw [ih hmem, findInList_cons_of_notMem hs]
  | @inside s rest list frame frames h hin ih =>
    have hlist : (Stmt.labelsOfList (s :: rest)).count target ≤ 1 := (h.labels.count_le _).trans hone
    rw [Stmt.labelsOfList] at hlist
    have hs : target ∈ s.labels := (labels_inner hin).subset htarget
    have hrest : target ∉ Stmt.labelsOfList rest := (notMem_of_count_append hlist).1 hs
    have hmem : target ∈ Stmt.labelsOfList (s :: rest) := by
      rw [Stmt.labelsOfList]
      exact List.mem_append_left _ hs
    have hne : ∀ id, s ≠ .label id := by
      rintro id rfl
      cases hin
    have hfirst : s.labels.count target ≤ 1 :=
      ((List.sublist_append_left _ _).count_le target).trans hlist
    rw [ih hmem, findInList_cons_of_ne hne, findInStmt_of_inner hfirst hin htarget,
      (findInList_eq_none_iff target frames rest).mpr hrest, Option.or_none]

/-- A label at a place leads there when the unit has it once. -/
lemma IsPlace.find_label_of_count (h : IsPlace unit (.label target :: rest) frames)
    (hone : (Stmt.labelsOfList unit.body).count target ≤ 1) :
    findInList target [] unit.body = some ⟨.label target :: rest, frames⟩ := by
  have hmem : target ∈ Stmt.labelsOfList (.label target :: rest) := by
    simp [Stmt.labelsOfList, Stmt.labels]
  rw [h.find hone hmem, findInList, if_pos rfl]

/-- In a unit with distinct labels a label at a place leads there. -/
lemma IsPlace.find_label (h : IsPlace unit (.label target :: rest) frames)
    (hnodup : (Stmt.labelsOfList unit.body).Nodup) :
    findInList target [] unit.body = some ⟨.label target :: rest, frames⟩ :=
  h.find_label_of_count (List.nodup_iff_count_le_one.mp hnodup target)

mutual

/-- A label inside of a statement stands at a place. -/
lemma exists_label_stmt (target : LabelId) (rest : List Stmt) (frames : List Frame) :
    (s : Stmt) → (∀ id, s ≠ .label id) → target ∈ s.labels → IsPlace unit (s :: rest) frames →
      ∃ rest' frames', IsPlace unit (.label target :: rest') frames'
  | .label id, hne, _, _ => absurd rfl (hne id)
  | .basic block, _, htarget, h => by
    rw [Stmt.labels] at htarget
    have hin : IsPlace unit block.body (.after rest :: frames) := h.inside (by simp [innerLists])
    exact exists_label_list target _ block.body htarget hin
  | .seq block, _, htarget, h => by
    rw [Stmt.labels] at htarget
    have hin : IsPlace unit (code block) (.after rest :: frames) := h.inside (by simp [innerLists])
    exact exists_label_list target _ block.body htarget hin.of_code
  | .cond test thenBlock elseBlock, _, htarget, h => by
    rw [Stmt.labels, List.mem_append] at htarget
    have hthen : IsPlace unit (code thenBlock) (.after rest :: frames) :=
      h.inside (by simp [innerLists])
    have helse : IsPlace unit (code elseBlock) (.after rest :: frames) :=
      h.inside (by simp [innerLists])
    rcases htarget with htarget | htarget
    · exact exists_label_list target _ thenBlock.body htarget hthen.of_code
    · exact exists_label_list target _ elseBlock.body htarget helse.of_code
  | .loop test block, _, htarget, h => by
    rw [Stmt.labels] at htarget
    have hin : IsPlace unit (code block) (.loop test (code block) rest :: frames) :=
      h.inside (by simp [innerLists])
    exact exists_label_list target _ block.body htarget hin.of_code
  | .scope env block stop, _, htarget, h => by
    rw [Stmt.labels] at htarget
    have hin : IsPlace unit (code block) (.scope env (code block) stop rest :: frames) :=
      h.inside (by simp [innerLists])
    exact exists_label_list target _ block.body htarget hin.of_code
  | .switch value cases, _, htarget, h => by
    rw [Stmt.labels] at htarget
    exact exists_label_cases target rest frames cases htarget fun item hitem => h.inside hitem
  | .raw _ _, _, htarget, _ | .push _, _, htarget, _ | .assign _ _, _, htarget, _
  | .call _ _, _, htarget, _ | .discard _, _, htarget, _ | .goto _, _, htarget, _
  | .condGoto _ _, _, htarget, _ | .pushEnv _ _, _, htarget, _ | .popEnv _, _, htarget, _
  | .dispatch _ _ _, _, htarget, _ | .ret _, _, htarget, _ | .exit, _, htarget, _
  | .breakOut, _, htarget, _ | .continueLoop, _, htarget, _ => by
    simp only [Stmt.labels, List.not_mem_nil] at htarget

/-- A label of a list stands at a place. -/
lemma exists_label_list (target : LabelId) (frames : List Frame) :
    (list : List Stmt) → target ∈ Stmt.labelsOfList list → IsPlace unit list frames →
      ∃ rest' frames', IsPlace unit (.label target :: rest') frames'
  | [], htarget, _ => by cases htarget
  | s :: rest, htarget, h => by
    rw [Stmt.labelsOfList, List.mem_append] at htarget
    have ih := exists_label_list target frames rest
    have ihs := exists_label_stmt target rest frames s
    by_cases hs : ∃ id, s = .label id
    · obtain ⟨id, rfl⟩ := hs
      rcases htarget with htarget | htarget
      · rw [Stmt.labels, List.mem_singleton] at htarget
        subst htarget
        exact ⟨rest, frames, h⟩
      · exact ih htarget h.tail
    · rcases htarget with htarget | htarget
      · exact ihs (fun id heq => hs ⟨id, heq⟩) htarget h
      · exact ih htarget h.tail

/-- A label of the cases of a switch stands at a place. -/
lemma exists_label_cases (target : LabelId) (rest : List Stmt) (frames : List Frame) :
    (cases : List SwitchCase) → target ∈ Stmt.labelsOfCases cases →
      (∀ item ∈ innerCases rest cases, IsPlace unit item.1 (item.2 :: frames)) →
      ∃ rest' frames', IsPlace unit (.label target :: rest') frames'
  | [], htarget, _ => by cases htarget
  | c :: later, htarget, h => by
    rw [Stmt.labelsOfCases, List.mem_append] at htarget
    rcases htarget with htarget | htarget
    · have hfirst : IsPlace unit (code c.body) (.case later rest :: frames) :=
        h _ List.mem_cons_self
      exact exists_label_list target _ c.body.body htarget hfirst.of_code
    · exact exists_label_cases target rest frames later htarget fun item hitem =>
        h item (List.mem_cons_of_mem _ hitem)

end

/-- Every label of a unit stands at a place of the unit. -/
lemma exists_isPlace_label (htarget : target ∈ Stmt.labelsOfList unit.body) :
    ∃ rest frames, IsPlace unit (.label target :: rest) frames :=
  exists_label_list target [] unit.body htarget (IsPlace.of_code .start)

/-! ### Frames -/

/-- The places where control can go on when what is inside of a frame is left. -/
def Frame.Resumes (unit : Block) (frames : List Frame) : Frame → Prop
  | .after rest => IsPlace unit rest frames
  | .loop test body rest =>
    IsPlace unit body (.loop test body rest :: frames) ∧ IsPlace unit rest frames
  | .scope env body stop rest =>
    IsPlace unit body (.scope env body stop rest :: frames) ∧ IsPlace unit rest frames
  | .case later rest =>
    (∀ item ∈ innerCases rest later, IsPlace unit item.1 (item.2 :: frames)) ∧
      IsPlace unit rest frames

lemma resumes_inner (h : IsPlace unit (s :: rest) frames) (hin : (list, frame) ∈ innerLists rest s) :
    frame.Resumes unit frames := by
  have hinside := h.inside hin
  cases s with
  | cond test thenBlock elseBlock =>
    simp only [innerLists, List.mem_cons, Prod.mk.injEq, List.not_mem_nil, or_false] at hin
    rcases hin with ⟨rfl, rfl⟩ | ⟨rfl, rfl⟩
    · exact h.tail
    · exact h.tail
  | switch value cases =>
    obtain ⟨before, c, later, rfl, rfl, rfl⟩ := mem_innerCases hin
    refine ⟨fun item hitem => h.inside (mem_innerCases_append before ?_), h.tail⟩
    exact List.mem_cons_of_mem _ hitem
  | basic | seq =>
    simp only [innerLists, List.mem_cons, Prod.mk.injEq, List.not_mem_nil, or_false] at hin
    obtain ⟨rfl, rfl⟩ := hin
    exact h.tail
  | loop | scope =>
    simp only [innerLists, List.mem_cons, Prod.mk.injEq, List.not_mem_nil, or_false] at hin
    obtain ⟨rfl, rfl⟩ := hin
    exact ⟨hinside, h.tail⟩
  | _ => cases hin

/-- A frame around a place belongs to a statement at the place around it. -/
lemma IsPlace.exists_stmt (h : IsPlace unit list (frame :: frames)) :
    ∃ s rest list', IsPlace unit (s :: rest) frames ∧ (list', frame) ∈ innerLists rest s := by
  generalize hall : frame :: frames = all at h
  induction h with
  | start => cases hall
  | tail h ih => exact ih hall
  | inside h hin ih =>
    obtain ⟨rfl, rfl⟩ := List.cons.inj hall
    exact ⟨_, _, _, h, hin⟩

/-- A place inside of a frame shows where control can go on. -/
lemma IsPlace.resumes (h : IsPlace unit list (frame :: frames)) : frame.Resumes unit frames := by
  obtain ⟨s, rest, list', hplace, hin⟩ := h.exists_stmt
  exact resumes_inner hplace hin

/-- The frames around a place are those around another place. -/
lemma IsPlace.pop (h : IsPlace unit list (frame :: frames)) : IsPlace unit [] frames := by
  have hresumes := h.resumes
  cases frame with
  | after => exact IsPlace.nil hresumes
  | loop | scope | case => exact hresumes.2.nil

/-! ### Runs -/

/-- A place that an option has, if it has one, is a place of the unit. -/
def IsPlace? (unit : Block) (place : Option Place) : Prop :=
  ∀ p ∈ place, IsPlace unit p.code p.frames

lemma IsPlace.leave? (h : IsPlace unit list frames) : IsPlace? unit (leave? frames) := by
  induction frames generalizing list with
  | nil => exact fun p hp => by cases hp
  | cons frame frames ih =>
    have hresumes := h.resumes
    cases frame with
    | after rest => exact ih h.pop
    | loop | scope | case =>
      rintro p hp
      cases hp
      exact hresumes.2

lemma IsPlace.nextRound? (h : IsPlace unit list frames) : IsPlace? unit (nextRound? frames) := by
  induction frames generalizing list with
  | nil => exact fun p hp => by cases hp
  | cons frame frames ih =>
    cases frame with
    | after | case => exact ih h.pop
    | loop | scope =>
      rintro p hp
      cases hp
      exact h.nil

lemma IsPlace.stopOf? (h : IsPlace unit list frames) : IsPlace? unit (stopOf? target frames) := by
  induction frames generalizing list with
  | nil => exact fun p hp => by cases hp
  | cons frame frames ih =>
    cases frame with
    | after | loop | case => exact ih h.pop
    | scope env body stop rest =>
      rw [Execution.stopOf?]
      split
      · rintro p hp
        cases hp
        exact h.nil
      · exact ih h.pop

/-- A jump from a place of the unit leads to a place of the unit. -/
lemma IsPlace.land? (h : IsPlace unit list frames) (hnodup : (Stmt.labelsOfList unit.body).Nodup) :
    IsPlace? unit (land? unit.body frames target) := by
  rw [Execution.land?]
  by_cases htarget : target ∈ Stmt.labelsOfList unit.body
  · obtain ⟨rest, frames', hplace⟩ := exists_isPlace_label htarget
    rw [hplace.find_label hnodup, Option.some_or]
    rintro p hp
    cases hp
    exact hplace
  · rw [(findInList_eq_none_iff target [] unit.body).mpr htarget, Option.none_or]
    exact h.stopOf?

/-- The start of the first of some cases is a place of the unit. -/
lemma isPlace_enterCase {cases : List SwitchCase} (hrest : IsPlace unit rest frames)
    (hcases : ∀ item ∈ innerCases rest cases, IsPlace unit item.1 (item.2 :: frames)) :
    IsPlace unit (enterCase rest frames cases).code (enterCase rest frames cases).frames := by
  cases cases with
  | nil => exact hrest
  | cons c later => exact hcases (code c.body, .case later rest) List.mem_cons_self

variable {oracle : Oracle} {history events : List Event} {next : Place}

lemma isPlace_endStep (h : IsPlace unit [] frames)
    (hstep : endStep oracle history frames = .go events next) :
    IsPlace unit next.code next.frames := by
  cases frames with
  | nil => cases hstep
  | cons frame frames =>
    have hresumes := h.resumes
    cases frame with
    | after rest =>
      cases hstep
      exact hresumes
    | loop test body rest =>
      cases test with
      | none =>
        cases hstep
        exact hresumes.1
      | some test =>
        cases hstep
        split
        · exact hresumes.1
        · exact hresumes.2
    | scope env body stop rest =>
      cases hstep
      split
      · exact hresumes.1
      · exact hresumes.2
    | case later rest =>
      cases hstep
      split
      · exact isPlace_enterCase hresumes.2 hresumes.1
      · exact hresumes.2

lemma isPlace_leafStep (hnodup : (Stmt.labelsOfList unit.body).Nodup)
    (h : IsPlace unit (s :: rest) frames)
    (hstep : leafStep oracle unit.body history frames rest s = .go events next) :
    IsPlace unit next.code next.frames := by
  have hland : ∀ {target ending events'}, goOr ending events' (land? unit.body frames target) =
      .go events next → IsPlace unit next.code next.frames := fun hstep =>
    h.land? hnodup next (goOr_eq_go hstep)
  unfold leafStep at hstep
  split at hstep
  · cases hstep
    exact h.tail
  · exact hland hstep
  · split at hstep
    · exact hland hstep
    · cases hstep
      exact h.tail
  · exact h.leave? next (goOr_eq_go hstep)
  · exact h.nextRound? next (goOr_eq_go hstep)
  · cases hstep
  · cases hstep
  · cases hstep
  · unfold plainStep at hstep
    split at hstep
    · split at hstep
      · exact hland hstep
      · cases hstep
        exact h.tail
    · cases hstep
      exact h.tail

/-- A step from a place of a unit with distinct labels leads to a place of the unit. -/
theorem isPlace_machine {place : Place} (hnodup : (Stmt.labelsOfList unit.body).Nodup)
    (h : IsPlace unit place.code place.frames)
    (hstep : machine oracle unit history place = .go events next) :
    IsPlace unit next.code next.frames := by
  obtain ⟨list, frames⟩ := place
  cases list with
  | nil => exact isPlace_endStep h hstep
  | cons s rest =>
    change stmtStep oracle unit.body history frames rest s = .go events next at hstep
    have hinner : ∀ item ∈ innerLists rest s, IsPlace unit item.1 (item.2 :: frames) :=
      fun item hitem => h.inside hitem
    unfold stmtStep at hstep
    split at hstep
    · cases hstep
      exact hinner _ List.mem_cons_self
    · cases hstep
      exact hinner _ List.mem_cons_self
    · cases hstep
      dsimp only
      split
      · exact hinner _ List.mem_cons_self
      · exact hinner _ (List.mem_cons_of_mem _ List.mem_cons_self)
    · cases hstep
      exact (hinner _ List.mem_cons_self).nil
    · cases hstep
      exact (hinner _ List.mem_cons_self).nil
    · rename_i value cases
      cases hstep
      refine isPlace_enterCase h.tail fun item hitem => hinner item ?_
      have hall := mem_innerCases_append
        (cases.take (oracle.choice history value (patterns cases))) hitem
      rwa [List.take_append_drop] at hall
    · exact isPlace_leafStep hnodup h hstep

/-- What holds of all statements of a unit holds of all statements at its places. -/
lemma IsPlace.everyIn {P : Property} (h : IsPlace unit list frames) (hunit : EveryIn P (code unit)) :
    EveryIn P list := by
  induction h with
  | start => exact hunit
  | tail h ih =>
    rw [EveryIn] at ih
    exact ih.2
  | @inside s rest list frame frames h hin ih =>
    rw [EveryIn] at ih
    have hs := ih.1
    cases s with
    | cond test thenBlock elseBlock =>
      simp only [innerLists, List.mem_cons, Prod.mk.injEq, List.not_mem_nil, or_false] at hin
      rw [Every] at hs
      rcases hin with ⟨rfl, rfl⟩ | ⟨rfl, rfl⟩
      · exact everyIn_code hs.2.1.1 hs.2.1.2
      · exact everyIn_code hs.2.2.1 hs.2.2.2
    | switch value cases =>
      obtain ⟨before, c, later, rfl, rfl, rfl⟩ := mem_innerCases hin
      rw [Every] at hs
      have hdrop := everyCase_drop hs.2 before.length
      rw [List.drop_left] at hdrop
      rw [EveryCase] at hdrop
      exact everyIn_code hdrop.1.1 hdrop.1.2
    | basic block =>
      simp only [innerLists, List.mem_cons, Prod.mk.injEq, List.not_mem_nil, or_false] at hin
      obtain ⟨rfl, rfl⟩ := hin
      rw [Every] at hs
      exact hs.2
    | seq | loop | scope =>
      simp only [innerLists, List.mem_cons, Prod.mk.injEq, List.not_mem_nil, or_false] at hin
      obtain ⟨rfl, rfl⟩ := hin
      rw [Every] at hs
      exact everyIn_code hs.2.1 hs.2.2
    | _ => cases hin

end Decompiler.Execution
