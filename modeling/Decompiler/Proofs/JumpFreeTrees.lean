import Decompiler.Flow.Jumps
import Decompiler.Proofs.BlockLists
import Decompiler.Proofs.TreePlaces
import Mathlib.Data.List.Perm.Subperm
import Mathlib.Data.Option.Basic

/-!
# Trees without jumps

What the removal of jumps makes of a tree and of the places in it.  `newList` is what is left of a list;
`Framed` says what becomes of the frames around a place, with the sets of labels that hold there, and
`Follows` what becomes of a place: mostly the same place without the jumps.

Every place of a unit has its place in the unit without jumps (`Removable.exists_framed`), and so jumps
that stay lead to the same places (`Removable.land_rel`), and so do `break` and `continue`.  Steps from a
place in front of no jump are the same on both sides (`Removable.alike_machine`).
-/

namespace Decompiler

namespace Stmt

mutual

/-- The stop labels of the scopes in a statement. -/
def stops : Stmt → List LabelId
  | .basic block => stopsOfList block.body
  | .seq block => stopsOfList block.body
  | .cond _ thenBlock elseBlock => stopsOfList thenBlock.body ++ stopsOfList elseBlock.body
  | .loop _ body => stopsOfList body.body
  | .scope _ body stop => stop.toList ++ stopsOfList body.body
  | .switch _ cases => stopsOfCases cases
  | _ => []

/-- The stop labels of the scopes in a list. -/
def stopsOfList : List Stmt → List LabelId
  | [] => []
  | s :: rest => s.stops ++ stopsOfList rest

/-- The stop labels of the scopes in the cases of a switch. -/
def stopsOfCases : List SwitchCase → List LabelId
  | [] => []
  | c :: rest => stopsOfList c.body.body ++ stopsOfCases rest

end

mutual

/-- The targets of the jumps in a statement, apart from the jumps to the stop label of a scope inside
of that scope. -/
def freeGotos : Stmt → List LabelId
  | .goto target => [target]
  | .basic block => freeGotosOfList block.body
  | .seq block => freeGotosOfList block.body
  | .cond _ thenBlock elseBlock =>
    freeGotosOfList thenBlock.body ++ freeGotosOfList elseBlock.body
  | .loop _ body => freeGotosOfList body.body
  | .scope _ body stop => (freeGotosOfList body.body).filter fun target => stop != some target
  | .switch _ cases => freeGotosOfCases cases
  | _ => []

/-- The targets of the jumps in a list that no scope in the list stops at. -/
def freeGotosOfList : List Stmt → List LabelId
  | [] => []
  | s :: rest => s.freeGotos ++ freeGotosOfList rest

/-- The targets of the jumps in the cases of a switch that no scope in the cases stops at. -/
def freeGotosOfCases : List SwitchCase → List LabelId
  | [] => []
  | c :: rest => freeGotosOfList c.body.body ++ freeGotosOfCases rest

end

end Stmt

namespace Jumps

open Execution

/-- The labels at the start of a list. -/
def leading : List Stmt → List LabelId
  | .label id :: rest => id :: leading rest
  | _ => []

/-- Whether the first statement of a body, apart from labels, is no jump, or is a jump to one of the
labels that directly follow it. -/
def RestartsWell : List Stmt → Prop
  | .label _ :: rest => RestartsWell rest
  | .goto target :: rest => target ∈ leading rest
  | _ => True

/-- The bodies of all endless loops start as they have to. -/
def restartsWell : Property where
  stmt s := ∀ block, s = .loop none block → RestartsWell block.body
  entry _ := True
  goto _ _ := by simp

/-- A flat unit in which jumps can be removed: its labels and the stop labels of its scopes are all
different, jumps to a stop label stand inside of the scope, and endless loops do not start with a jump
that leads away. -/
structure Removable (unit : Block) : Prop where
  flat : FlatUnit unit
  labels : (Stmt.labelsOfList unit.body).Nodup
  stops : (Stmt.stopsOfList unit.body).Nodup
  disjoint : ∀ id ∈ Stmt.stopsOfList unit.body, id ∉ Stmt.labelsOfList unit.body
  inside : ∀ id ∈ Stmt.freeGotosOfList unit.body, id ∉ Stmt.stopsOfList unit.body
  loops : EveryIn restartsWell unit.body

/-! ### What is left of a list -/

/-- A list without its jumps. -/
def newList (flow : Flow) (preceding : List LabelId) (list : List Stmt) : List Stmt :=
  (inList flow preceding list).1

/-- The cases of a switch without their jumps. -/
def newCases (flow : Flow) (cases : List SwitchCase) : List SwitchCase :=
  (inCases flow cases).1

/-- A statement without the jumps in it. -/
def newStmt (flow : Flow) (follow preceding : List LabelId) (s : Stmt) : Stmt :=
  (inStmt flow follow preceding s).1

/-- The labels inside of a condition or a nested list. -/
def Flow.inner (flow : Flow) (follow : List LabelId) : Flow :=
  { flow with after := follow }

/-- The labels inside of a loop or scope that goes on at the labels of `again`. -/
def Flow.round (follow again : List LabelId) : Flow :=
  { after := again, breakTo := some follow, continueTo := some again }

/-- The labels inside of a switch. -/
def Flow.cases (flow : Flow) (follow : List LabelId) : Flow :=
  { breakTo := some follow, continueTo := flow.continueTo }

variable {flow : Flow} {follow preceding labels : List LabelId} {list rest : List Stmt} {s : Stmt}
  {target : LabelId}

@[simp] lemma newList_nil : newList flow preceding [] = [] := by
  rw [newList, inList]

lemma newList_goto : newList flow preceding (.goto target :: rest) =
    (jump flow target rest).1 ++ newList flow [] rest := by
  rw [newList, inList]
  rfl

lemma newList_cons (hs : ∀ target, s ≠ .goto target) : newList flow preceding (s :: rest) =
    newStmt flow (fallthrough flow.after rest) preceding s ::
      newList flow (precedingAfter preceding s) rest := by
  rw [newList, inList]
  · rfl
  · exact fun target h => hs target h

@[simp] lemma newList_label {id : LabelId} : newList flow preceding (.label id :: rest) =
    .label id :: newList flow (id :: preceding) rest := by
  rw [newList_cons (by simp), newStmt, inStmt]
  · rfl
  all_goals simp

@[simp] lemma newStmt_seq {block : Block} : newStmt flow follow preceding (.seq block) =
    .seq ⟨block.entry, newList (flow.inner follow) [] block.body⟩ := by
  rw [newStmt, inStmt]
  rfl

@[simp] lemma newStmt_cond {test : Expr} {thenBlock elseBlock : Block} :
    newStmt flow follow preceding (.cond test thenBlock elseBlock) =
      .cond test ⟨thenBlock.entry, newList (flow.inner follow) [] thenBlock.body⟩
        ⟨elseBlock.entry, newList (flow.inner follow) [] elseBlock.body⟩ := by
  rw [newStmt, inStmt]
  rfl

@[simp] lemma newStmt_loop {test : Option Expr} {block : Block} :
    newStmt flow follow preceding (.loop test block) =
      .loop test ⟨block.entry,
        newList (.round follow (restart preceding test block.body)) [] block.body⟩ := by
  rw [newStmt, inStmt]
  rfl

@[simp] lemma newStmt_scope {env : Expr} {block : Block} {stop : Option LabelId} :
    newStmt flow follow preceding (.scope env block stop) =
      .scope env ⟨block.entry, newList (.round follow stop.toList) [] block.body⟩ stop := by
  rw [newStmt, inStmt]
  rfl

@[simp] lemma newStmt_switch {value : Expr} {cases : List SwitchCase} :
    newStmt flow follow preceding (.switch value cases) =
      .switch value (newCases (flow.cases follow) cases) := by
  rw [newStmt, inStmt]
  rfl

@[simp] lemma newCases_nil : newCases flow [] = [] := by
  rw [newCases, inCases]

@[simp] lemma newCases_cons {c : SwitchCase} {later : List SwitchCase} :
    newCases flow (c :: later) =
      ⟨c.values, c.isDefault, ⟨c.body.entry, newList flow [] c.body.body⟩⟩ :: newCases flow later := by
  rw [newCases, inCases]
  rfl

/-- What may become of a jump: it is dropped, leaves, starts the next round, or stays. -/
lemma jump_cases (flow : Flow) (target : LabelId) (rest : List Stmt) :
    (target ∈ fallthrough flow.after rest ∧ (jump flow target rest).1 = []) ∨
    (∃ labels ∈ flow.breakTo, target ∈ labels ∧ (jump flow target rest).1 = [.breakOut]) ∨
    (∃ labels ∈ flow.continueTo, target ∈ labels ∧ (jump flow target rest).1 = [.continueLoop]) ∨
    (jump flow target rest).1 = [.goto target] := by
  have hmem : ∀ {labels : Option (List LabelId)}, labels.any (·.contains target) = true →
      ∃ list ∈ labels, target ∈ list := fun h => by
    obtain ⟨list, hlist, htarget⟩ := (Option.any_eq_true _ _).mp h
    exact ⟨list, hlist, List.contains_iff_mem.mp htarget⟩
  unfold jump
  split
  · rename_i h
    exact .inl ⟨List.contains_iff_mem.mp h, rfl⟩
  · split
    · rename_i h
      obtain ⟨labels, hlabels, htarget⟩ := hmem h
      exact .inr (.inl ⟨labels, hlabels, htarget, rfl⟩)
    · split
      · rename_i h
        obtain ⟨labels, hlabels, htarget⟩ := hmem h
        exact .inr (.inr (.inl ⟨labels, hlabels, htarget, rfl⟩))
      · exact .inr (.inr (.inr rfl))

lemma newStmt_of_leaf (hs : s.isStructured = false) : newStmt flow follow preceding s = s := by
  cases s with
  | seq | cond | loop | scope | switch => cases hs
  | _ => simp [newStmt, inStmt]

mutual

lemma labels_newStmt (flow : Flow) (follow preceding : List LabelId) :
    (s : Stmt) → (newStmt flow follow preceding s).labels = s.labels
  | .seq block => by
    simp only [newStmt_seq, Stmt.labels, labels_newList _ _ block.body]
  | .cond test thenBlock elseBlock => by
    simp only [newStmt_cond, Stmt.labels, labels_newList _ _ thenBlock.body,
      labels_newList _ _ elseBlock.body]
  | .loop test block => by
    simp only [newStmt_loop, Stmt.labels, labels_newList _ _ block.body]
  | .scope env block stop => by
    simp only [newStmt_scope, Stmt.labels, labels_newList _ _ block.body]
  | .switch value cases => by
    simp only [newStmt_switch, Stmt.labels, labels_newCases _ cases]
  | .label _ | .raw _ _ | .push _ | .assign _ _ | .call _ _ | .discard _ | .goto _ | .condGoto _ _
  | .pushEnv _ _ | .popEnv _ | .dispatch _ _ _ | .ret _ | .exit | .breakOut | .continueLoop
  | .basic _ => by rw [newStmt_of_leaf rfl]

/-- Removing jumps keeps the labels of a list. -/
lemma labels_newList (flow : Flow) (preceding : List LabelId) :
    (list : List Stmt) → Stmt.labelsOfList (newList flow preceding list) = Stmt.labelsOfList list
  | [] => by rw [newList_nil]
  | s :: rest => by
    have ih := fun preceding => labels_newList flow preceding rest
    by_cases hs : ∃ target, s = .goto target
    · obtain ⟨target, rfl⟩ := hs
      have hjump : Stmt.labelsOfList (jump flow target rest).1 = [] := by
        rcases jump_cases flow target rest with ⟨-, h⟩ | ⟨_, -, -, h⟩ | ⟨_, -, -, h⟩ | h <;>
          simp [h, Stmt.labelsOfList, Stmt.labels]
      rw [newList_goto, Stmt.labelsOfList_append, hjump, ih, Stmt.labelsOfList]
      rfl
    · rw [newList_cons fun target h => hs ⟨target, h⟩, Stmt.labelsOfList, Stmt.labelsOfList, ih,
        labels_newStmt flow _ _ s]

lemma labels_newCases (flow : Flow) :
    (cases : List SwitchCase) → Stmt.labelsOfCases (newCases flow cases) = Stmt.labelsOfCases cases
  | [] => by rw [newCases_nil]
  | c :: later => by
    simp only [newCases_cons, Stmt.labelsOfCases, labels_newList _ _ c.body.body,
      labels_newCases flow later]

end

/-! ### Labels to which control comes -/

lemma mem_fallthrough {after : List LabelId} (h : target ∈ fallthrough after list) :
    target ∈ Stmt.labelsOfList list ∨ target ∈ Stmt.freeGotosOfList list ∨ target ∈ after := by
  induction list with
  | nil => exact .inr (.inr h)
  | cons s rest ih =>
    cases s with
    | label id =>
      rw [fallthrough] at h
      have hfree : Stmt.freeGotosOfList (.label id :: rest) = Stmt.freeGotosOfList rest := by
        simp [Stmt.freeGotosOfList, Stmt.freeGotos]
      rw [Stmt.labelsOfList, Stmt.labels, hfree]
      rcases List.mem_cons.mp h with rfl | h
      · exact .inl List.mem_cons_self
      · exact (ih h).imp_left (List.mem_cons_of_mem _)
    | goto id =>
      rw [fallthrough, List.mem_singleton] at h
      rw [Stmt.freeGotosOfList, Stmt.freeGotos]
      exact .inr (.inl (by simp [h]))
    | _ => simp [fallthrough] at h

lemma fallthrough_mono {after : List LabelId} (h : target ∈ leading list) :
    target ∈ fallthrough after list := by
  induction list with
  | nil => cases h
  | cons s rest ih =>
    cases s with
    | label id =>
      rw [leading] at h
      rw [fallthrough]
      rcases List.mem_cons.mp h with rfl | h
      · exact List.mem_cons_self
      · exact List.mem_cons_of_mem _ (ih h)
    | _ => cases h

/-! ### Stop labels around a place -/

/-- The stop label of a frame. -/
def stopsOfFrame : Frame → List LabelId
  | .scope _ _ stop _ => stop.toList
  | .after _ | .loop _ _ _ | .case _ _ => []

/-- The stop labels of some frames. -/
def stopsOfFrames (frames : List Frame) : List LabelId :=
  frames.flatMap stopsOfFrame

variable {unit : Block} {frame : Frame} {frames : List Frame}

@[simp] lemma stopsOfList_code (block : Block) :
    Stmt.stopsOfList (code block) = Stmt.stopsOfList block.body := by
  rw [code, Flatten.entryJump]
  cases block.entry <;> rfl

lemma stops_innerCases {cases : List SwitchCase} (h : (list, frame) ∈ innerCases rest cases) :
    (Stmt.stopsOfList list ++ stopsOfFrame frame).Subperm (Stmt.stopsOfCases cases) := by
  induction cases with
  | nil => cases h
  | cons c later ih =>
    rw [Stmt.stopsOfCases]
    rcases List.mem_cons.mp h with heq | h
    · obtain ⟨rfl, rfl⟩ := Prod.mk.inj heq
      rw [stopsOfList_code, stopsOfFrame, List.append_nil]
      exact (List.sublist_append_left _ _).subperm
    · exact (ih h).trans (List.sublist_append_right _ _).subperm

lemma stops_inner (h : (list, frame) ∈ innerLists rest s) :
    (Stmt.stopsOfList list ++ stopsOfFrame frame).Subperm s.stops := by
  cases s with
  | cond test thenBlock elseBlock =>
    simp only [innerLists, List.mem_cons, Prod.mk.injEq, List.not_mem_nil, or_false] at h
    rw [Stmt.stops]
    rcases h with ⟨rfl, rfl⟩ | ⟨rfl, rfl⟩
    · rw [stopsOfList_code, stopsOfFrame, List.append_nil]
      exact (List.sublist_append_left _ _).subperm
    · rw [stopsOfList_code, stopsOfFrame, List.append_nil]
      exact (List.sublist_append_right _ _).subperm
  | switch value cases =>
    rw [Stmt.stops]
    exact stops_innerCases h
  | scope env block stop =>
    simp only [innerLists, List.mem_cons, Prod.mk.injEq, List.not_mem_nil, or_false] at h
    obtain ⟨rfl, rfl⟩ := h
    rw [stopsOfList_code, stopsOfFrame, Stmt.stops]
    exact List.perm_append_comm.subperm
  | basic | seq | loop =>
    simp only [innerLists, List.mem_cons, Prod.mk.injEq, List.not_mem_nil, or_false] at h
    obtain ⟨rfl, rfl⟩ := h
    simp only [Stmt.stops, stopsOfList_code, stopsOfFrame, List.append_nil, List.Subperm.refl]
  | _ => cases h

/-- The stop labels left at a place and those around it are stop labels of the unit, each as often as
it is there. -/
lemma stops_place (h : IsPlace unit list frames) :
    (Stmt.stopsOfList list ++ stopsOfFrames frames).Subperm (Stmt.stopsOfList unit.body) := by
  induction h with
  | start => simp [stopsOfFrames, List.Subperm.refl]
  | tail h ih =>
    rw [Stmt.stopsOfList, List.append_assoc] at ih
    exact (List.sublist_append_right _ _).subperm.trans ih
  | @inside s rest list frame frames h hin ih =>
    have hframes : stopsOfFrames (frame :: frames) = stopsOfFrame frame ++ stopsOfFrames frames := rfl
    rw [Stmt.stopsOfList] at ih
    rw [hframes, ← List.append_assoc]
    refine List.Subperm.trans ?_ ih
    exact (List.subperm_append_right _).mpr
      ((stops_inner hin).trans (List.sublist_append_left _ _).subperm)

lemma freeGotos_innerCases {cases : List SwitchCase} (hflat : EveryCase isFlat cases)
    (h : (list, frame) ∈ innerCases rest cases) (htarget : target ∈ Stmt.freeGotosOfList list) :
    target ∈ Stmt.freeGotosOfCases cases := by
  induction cases with
  | nil => cases h
  | cons c later ih =>
    rw [EveryCase] at hflat
    rw [Stmt.freeGotosOfCases, List.mem_append]
    rcases List.mem_cons.mp h with heq | h
    · obtain ⟨rfl, rfl⟩ := Prod.mk.inj heq
      rw [code, entry_eq_none hflat.1.1] at htarget
      exact .inl htarget
    · exact .inr (ih hflat.2 h)

/-- A jump in a list inside of a statement is a jump in the statement, or it leads to the stop label of
the frame. -/
lemma freeGotos_inner (hflat : Every isFlat s) (h : (list, frame) ∈ innerLists rest s)
    (htarget : target ∈ Stmt.freeGotosOfList list) :
    target ∈ s.freeGotos ∨ target ∈ stopsOfFrame frame := by
  have hcode : ∀ {block : Block}, (∀ id ∈ block.entry, isFlat.entry id) →
      target ∈ Stmt.freeGotosOfList (code block) → target ∈ Stmt.freeGotosOfList block.body :=
    fun hentry hmem => by
      rw [code, entry_eq_none hentry] at hmem
      exact hmem
  cases s with
  | cond test thenBlock elseBlock =>
    simp only [innerLists, List.mem_cons, Prod.mk.injEq, List.not_mem_nil, or_false] at h
    rw [Every] at hflat
    rw [Stmt.freeGotos, List.mem_append]
    rcases h with ⟨rfl, rfl⟩ | ⟨rfl, rfl⟩
    · exact .inl (.inl (hcode hflat.2.1.1 htarget))
    · exact .inl (.inr (hcode hflat.2.2.1 htarget))
  | switch value cases =>
    rw [Every] at hflat
    exact .inl (freeGotos_innerCases hflat.2 h htarget)
  | scope env block stop =>
    simp only [innerLists, List.mem_cons, Prod.mk.injEq, List.not_mem_nil, or_false] at h
    obtain ⟨rfl, rfl⟩ := h
    rw [Every] at hflat
    rw [Stmt.freeGotos, List.mem_filter, stopsOfFrame, Option.mem_toList, bne_iff_ne]
    by_cases hstop : stop = some target
    · exact .inr hstop
    · exact .inl ⟨hcode hflat.2.1 htarget, hstop⟩
  | basic block => exact absurd rfl (hflat.self block)
  | seq | loop =>
    simp only [innerLists, List.mem_cons, Prod.mk.injEq, List.not_mem_nil, or_false] at h
    obtain ⟨rfl, rfl⟩ := h
    rw [Every] at hflat
    rw [Stmt.freeGotos]
    exact .inl (hcode hflat.2.1 htarget)
  | _ => cases h

namespace Removable

lemma everyIn (h : Removable unit) (hplace : IsPlace unit list frames) : EveryIn isFlat list :=
  hplace.everyIn (everyIn_code (by simp [h.flat.entry]) h.flat.body)

/-- A jump left at a place leads to a label that no scope stops at, or to the stop label of a scope
around the place. -/
lemma freeGotos_place (h : Removable unit) (hplace : IsPlace unit list frames)
    (htarget : target ∈ Stmt.freeGotosOfList list) :
    target ∈ Stmt.freeGotosOfList unit.body ∨ target ∈ stopsOfFrames frames := by
  induction hplace with
  | start =>
    rw [code, h.flat.entry] at htarget
    exact .inl htarget
  | tail hplace ih =>
    refine ih ?_
    rw [Stmt.freeGotosOfList]
    exact List.mem_append_right _ htarget
  | @inside s rest list frame frames hplace hin ih =>
    have hflat := h.everyIn hplace
    rw [EveryIn] at hflat
    have hframes : stopsOfFrames (frame :: frames) = stopsOfFrame frame ++ stopsOfFrames frames := rfl
    rw [hframes, List.mem_append]
    rcases freeGotos_inner hflat.1 hin htarget with hs | hframe
    · refine (ih ?_).imp_right .inr
      rw [Stmt.freeGotosOfList]
      exact List.mem_append_left _ hs
    · exact .inr (.inl hframe)

end Removable

/-! ### Frames and places without jumps -/

/-- Each of some labels stands before a list, with labels only in between. -/
def Precedes (unit : Block) (preceding : List LabelId) (list : List Stmt) (frames : List Frame) :
    Prop :=
  ∀ id ∈ preceding, ∃ between : List LabelId,
    findInList id [] unit.body = some ⟨.label id :: (between.map .label ++ list), frames⟩

/-- What becomes of the frames around a place, with the labels that hold inside of them. -/
inductive Framed (unit : Block) : List Frame → Flow → List Frame → Prop where
  | nil : Framed unit [] {} []
  | after {rest : List Stmt} {flow : Flow} {frames frames' : List Frame}
      (h : Framed unit frames flow frames') :
      Framed unit (.after rest :: frames) (flow.inner (fallthrough flow.after rest))
        (.after (newList flow [] rest) :: frames')
  | loop {test : Option Expr} {body rest : List Stmt} {preceding : List LabelId} {flow : Flow}
      {frames frames' : List Frame} (h : Framed unit frames flow frames')
      (hpreceding : Precedes unit preceding (.loop test ⟨none, body⟩ :: rest) frames) :
      Framed unit (.loop test body rest :: frames)
        (.round (fallthrough flow.after rest) (restart preceding test body))
        (.loop test
          (newList (.round (fallthrough flow.after rest) (restart preceding test body)) [] body)
          (newList flow [] rest) :: frames')
  | scope {env : Expr} {body rest : List Stmt} {stop : Option LabelId} {flow : Flow}
      {frames frames' : List Frame} (h : Framed unit frames flow frames') :
      Framed unit (.scope env body stop rest :: frames)
        (.round (fallthrough flow.after rest) stop.toList)
        (.scope env (newList (.round (fallthrough flow.after rest) stop.toList) [] body) stop
          (newList flow [] rest) :: frames')
  | case {later : List SwitchCase} {rest : List Stmt} {flow : Flow} {frames frames' : List Frame}
      (h : Framed unit frames flow frames') (hflat : EveryCase isFlat later) :
      Framed unit (.case later rest :: frames) (flow.cases (fallthrough flow.after rest))
        (.case (newCases (flow.cases (fallthrough flow.after rest)) later) (newList flow [] rest) ::
          frames')

/-- What becomes of a place: the same place without the jumps, or the start of a round of a loop when
there are only labels left before the loop. -/
inductive Follows (unit : Block) : Place → Place → Prop where
  | same {list : List Stmt} {preceding : List LabelId} {flow : Flow} {frames frames' : List Frame}
      (hframed : Framed unit frames flow frames') (hpreceding : Precedes unit preceding list frames) :
      Follows unit ⟨list, frames⟩ ⟨newList flow preceding list, frames'⟩
  | ahead {labels : List LabelId} {test : Option Expr} {body rest : List Stmt} {flow : Flow}
      {frames frames' : List Frame} (hframed : Framed unit (.loop test body rest :: frames) flow frames') :
      Follows unit ⟨labels.map .label ++ .loop test ⟨none, body⟩ :: rest, frames⟩ ⟨[], frames'⟩

variable {frames' : List Frame}

lemma precedes_nil : Precedes unit [] list frames := by
  simp [Precedes]

lemma Precedes.label {id : LabelId} (hnodup : (Stmt.labelsOfList unit.body).Nodup)
    (hplace : IsPlace unit (.label id :: rest) frames)
    (h : Precedes unit preceding (.label id :: rest) frames) :
    Precedes unit (id :: preceding) rest frames := by
  intro other hother
  rcases List.mem_cons.mp hother with rfl | hother
  · exact ⟨[], hplace.find_label hnodup⟩
  · obtain ⟨between, hfind⟩ := h other hother
    exact ⟨between ++ [id], by simpa using hfind⟩

/-- The end of a list is the end of the list without its jumps. -/
lemma Framed.follows_nil (h : Framed unit frames flow frames') :
    Follows unit ⟨[], frames⟩ ⟨[], frames'⟩ := by
  have hsame : Follows unit ⟨[], frames⟩ ⟨newList flow [] [], frames'⟩ := .same h precedes_nil
  rwa [newList_nil] at hsame

lemma Framed.follows_enterCase {cases : List SwitchCase} (h : Framed unit frames flow frames')
    (hflat : EveryCase isFlat cases) (rest : List Stmt) :
    Follows unit (enterCase rest frames cases) (enterCase (newList flow [] rest) frames'
      (newCases (flow.cases (fallthrough flow.after rest)) cases)) := by
  cases cases with
  | nil =>
    rw [newCases_nil]
    exact .same h precedes_nil
  | cons c later =>
    obtain ⟨values, isDefault, entry, body⟩ := c
    rw [EveryCase] at hflat
    obtain rfl : entry = none := entry_eq_none hflat.1.1
    rw [newCases_cons]
    exact .same (h.case hflat.2) precedes_nil

lemma newCases_append (before cases : List SwitchCase) :
    newCases flow (before ++ cases) = newCases flow before ++ newCases flow cases := by
  induction before with
  | nil => simp
  | cons c before ih => simp [ih]

lemma drop_newCases (cases : List SwitchCase) (n : Nat) :
    (newCases flow cases).drop n = newCases flow (cases.drop n) := by
  induction cases generalizing n with
  | nil => simp
  | cons c later ih =>
    cases n with
    | zero => rfl
    | succ n => simp [ih]

@[simp] lemma patterns_newCases (cases : List SwitchCase) :
    patterns (newCases flow cases) = patterns cases := by
  induction cases with
  | nil => simp
  | cons c later ih =>
    rw [newCases_cons, patterns, List.map_cons]
    exact congrArg _ ih

/-- Every place of a unit has its place in the unit without jumps. -/
lemma Removable.exists_framed (h : Removable unit) (hplace : IsPlace unit list frames) :
    ∃ flow preceding frames', Framed unit frames flow frames' ∧
      Precedes unit preceding list frames ∧
      IsPlace (removeGotos unit).1 (newList flow preceding list) frames' := by
  induction hplace with
  | start =>
    refine ⟨{}, [], [], .nil, precedes_nil, ?_⟩
    have hstart : IsPlace (removeGotos unit).1 (code (removeGotos unit).1) [] := .start
    have hentry : (removeGotos unit).1.entry = none := h.flat.entry
    rw [code, hentry] at hstart
    rw [code, h.flat.entry]
    exact hstart
  | @tail s rest frames hplace ih =>
    obtain ⟨flow, preceding, frames', hframed, hpreceding, hplace'⟩ := ih
    by_cases hgoto : ∃ target, s = .goto target
    · obtain ⟨target, rfl⟩ := hgoto
      rw [newList_goto] at hplace'
      refine ⟨flow, [], frames', hframed, precedes_nil, ?_⟩
      rcases jump_cases flow target rest with ⟨-, h⟩ | ⟨_, -, -, h⟩ | ⟨_, -, -, h⟩ | h
      · rw [h] at hplace'
        exact hplace'
      all_goals
        rw [h] at hplace'
        exact hplace'.tail
    · rw [newList_cons fun target hs => hgoto ⟨target, hs⟩] at hplace'
      refine ⟨flow, precedingAfter preceding s, frames', hframed, ?_, hplace'.tail⟩
      by_cases hlabel : ∃ id, s = .label id
      · obtain ⟨id, rfl⟩ := hlabel
        exact hpreceding.label h.labels hplace
      · have hnone : precedingAfter preceding s = [] := by
          cases s with
          | label id => exact absurd ⟨id, rfl⟩ hlabel
          | _ => rfl
        rw [hnone]
        exact precedes_nil
  | @inside s rest list frame frames hplace hin ih =>
    obtain ⟨flow, preceding, frames', hframed, hpreceding, hplace'⟩ := ih
    have hflat := h.everyIn hplace
    rw [EveryIn] at hflat
    replace hflat := hflat.1
    cases s with
    | basic block => exact absurd rfl (hflat.self block)
    | seq block =>
      obtain ⟨entry, body⟩ := block
      rw [Every] at hflat
      obtain rfl : entry = none := entry_eq_none hflat.2.1
      simp only [innerLists, List.mem_cons, Prod.mk.injEq, List.not_mem_nil, or_false] at hin
      obtain ⟨rfl, rfl⟩ := hin
      rw [newList_cons (by simp), newStmt_seq] at hplace'
      exact ⟨_, [], _, hframed.after, precedes_nil, hplace'.inside (by simp [innerLists, precedingAfter])⟩
    | cond test thenBlock elseBlock =>
      obtain ⟨entry, thenBody⟩ := thenBlock
      obtain ⟨entry', elseBody⟩ := elseBlock
      rw [Every] at hflat
      obtain rfl : entry = none := entry_eq_none hflat.2.1.1
      obtain rfl : entry' = none := entry_eq_none hflat.2.2.1
      simp only [innerLists, List.mem_cons, Prod.mk.injEq, List.not_mem_nil, or_false] at hin
      rw [newList_cons (by simp), newStmt_cond] at hplace'
      rcases hin with ⟨rfl, rfl⟩ | ⟨rfl, rfl⟩
      · exact ⟨_, [], _, hframed.after, precedes_nil,
          hplace'.inside (by simp [innerLists, precedingAfter])⟩
      · exact ⟨_, [], _, hframed.after, precedes_nil,
          hplace'.inside (by simp [innerLists, precedingAfter])⟩
    | loop test block =>
      obtain ⟨entry, body⟩ := block
      rw [Every] at hflat
      obtain rfl : entry = none := entry_eq_none hflat.2.1
      simp only [innerLists, List.mem_cons, Prod.mk.injEq, List.not_mem_nil, or_false] at hin
      obtain ⟨rfl, rfl⟩ := hin
      rw [newList_cons (by simp), newStmt_loop] at hplace'
      exact ⟨_, [], _, hframed.loop hpreceding, precedes_nil,
        hplace'.inside (by simp [innerLists, precedingAfter])⟩
    | scope env block stop =>
      obtain ⟨entry, body⟩ := block
      rw [Every] at hflat
      obtain rfl : entry = none := entry_eq_none hflat.2.1
      simp only [innerLists, List.mem_cons, Prod.mk.injEq, List.not_mem_nil, or_false] at hin
      obtain ⟨rfl, rfl⟩ := hin
      rw [newList_cons (by simp), newStmt_scope] at hplace'
      exact ⟨_, [], _, hframed.scope, precedes_nil,
        hplace'.inside (by simp [innerLists, precedingAfter])⟩
    | switch value cases =>
      obtain ⟨before, ⟨values, isDefault, entry, body⟩, later, rfl, rfl, rfl⟩ := mem_innerCases hin
      rw [Every] at hflat
      have hcases := everyCase_drop hflat.2 before.length
      rw [List.drop_left, EveryCase] at hcases
      obtain rfl : entry = none := entry_eq_none hcases.1.1
      rw [newList_cons (by simp), newStmt_switch, newCases_append, newCases_cons] at hplace'
      exact ⟨_, [], _, hframed.case hcases.2, precedes_nil,
        hplace'.inside (mem_innerCases_append _ List.mem_cons_self)⟩
    | _ => cases hin

/-! ### Where control leads -/

/-- A `break` leads to the same place in both. -/
lemma Framed.leave_rel (h : Framed unit frames flow frames') :
    Option.Rel (Follows unit) (leave? frames) (leave? frames') := by
  induction h with
  | nil => exact .none
  | after h ih => exact ih
  | loop h | scope h | case h => exact .some (.same h precedes_nil)

/-- A `continue` leads to the same place in both. -/
lemma Framed.nextRound_rel (h : Framed unit frames flow frames') :
    Option.Rel (Follows unit) (nextRound? frames) (nextRound? frames') := by
  induction h with
  | nil => exact .none
  | after h ih => exact ih
  | case h hflat ih => exact ih
  | loop h hpreceding => exact .some (h.loop hpreceding).follows_nil
  | scope h => exact .some h.scope.follows_nil

lemma Framed.stopOf_rel (h : Framed unit frames flow frames') :
    Option.Rel (Follows unit) (stopOf? target frames) (stopOf? target frames') := by
  induction h with
  | nil => exact .none
  | after h ih => exact ih
  | case h hflat ih => exact ih
  | loop h hpreceding ih => exact ih
  | scope h ih =>
    rw [stopOf?, stopOf?]
    split
    · exact .some h.scope.follows_nil
    · exact ih

/-- A jump leads to the same place in both. -/
lemma Removable.land_rel (h : Removable unit) (hframed : Framed unit frames flow frames') :
    Option.Rel (Follows unit) (land? unit.body frames target)
      (land? (removeGotos unit).1.body frames' target) := by
  have hlabels : Stmt.labelsOfList (removeGotos unit).1.body = Stmt.labelsOfList unit.body :=
    labels_newList {} [] unit.body
  by_cases htarget : target ∈ Stmt.labelsOfList unit.body
  · obtain ⟨rest, around, hplace⟩ := exists_isPlace_label htarget
    obtain ⟨flow', preceding, around', hframed', hpreceding, hplace'⟩ := h.exists_framed hplace
    have hfollows := Follows.same hframed' hpreceding
    rw [newList_label] at hplace' hfollows
    have hfind := hplace'.find_label (hlabels ▸ h.labels)
    rw [land?_of_find (hplace.find_label h.labels), land?_of_find hfind]
    exact .some hfollows
  · rw [land?, land?, (findInList_eq_none_iff target [] unit.body).mpr htarget,
      (findInList_eq_none_iff target [] _).mpr (hlabels ▸ htarget), Option.none_or, Option.none_or]
    exact hframed.stopOf_rel

/-! ### Steps -/

/-- Two steps have the same events and go on at places that follow each other, or end alike. -/
inductive Alike (unit : Block) : Outcome → Outcome → Prop where
  | go {events : List Event} {p q : Place} (h : Follows unit p q) :
      Alike unit (.go events p) (.go events q)
  | stop {events : List Event} {ending : Ending} :
      Alike unit (.stop events ending) (.stop events ending)

variable {oracle : Oracle} {history : List Event}

lemma alike_goOr {place place' : Option Place} (h : Option.Rel (Follows unit) place place')
    (ending : Ending) (events : List Event) :
    Alike unit (goOr ending events place) (goOr ending events place') := by
  cases h with
  | some h => exact .go h
  | none => exact .stop

lemma Framed.alike_endStep (h : Framed unit frames flow frames') :
    Alike unit (endStep oracle history frames) (endStep oracle history frames') := by
  cases h with
  | nil => exact .stop
  | after h => exact .go (.same h precedes_nil)
  | @loop test _ _ _ _ _ _ h hpreceding =>
    cases test with
    | none => exact .go (.same (h.loop hpreceding) precedes_nil)
    | some test =>
      refine .go ?_
      split
      · exact .same (h.loop hpreceding) precedes_nil
      · exact .same h precedes_nil
  | scope h =>
    refine .go ?_
    split
    · exact .same h.scope precedes_nil
    · exact .same h precedes_nil
  | case h hflat =>
    refine .go ?_
    split
    · exact h.follows_enterCase hflat _
    · exact .same h precedes_nil

lemma Removable.alike_leafStep (h : Removable unit) (oracle : Oracle) (history : List Event)
    (hplace : IsPlace unit (s :: rest) frames) (hframed : Framed unit frames flow frames')
    (hpreceding : Precedes unit preceding (s :: rest) frames) :
    Alike unit (leafStep oracle unit.body history frames rest s)
      (leafStep oracle (removeGotos unit).1.body history frames'
        (newList flow (precedingAfter preceding s) rest) s) := by
  have hland : ∀ target ending events, Alike unit
      (goOr ending events (land? unit.body frames target))
      (goOr ending events (land? (removeGotos unit).1.body frames' target)) :=
    fun target ending events => alike_goOr (h.land_rel hframed) ending events
  have hplain : precedingAfter preceding s = [] →
      Alike unit (plainStep oracle unit.body history frames rest s)
        (plainStep oracle (removeGotos unit).1.body history frames'
          (newList flow (precedingAfter preceding s) rest) s) := by
    intro hnone
    rw [hnone]
    unfold plainStep
    split
    · split
      · exact hland _ _ _
      · exact .go (.same hframed precedes_nil)
    · exact .go (.same hframed precedes_nil)
  cases s with
  | label id => exact .go (.same hframed (hpreceding.label h.labels hplace))
  | goto target => exact hland _ _ _
  | condGoto test target =>
    simp only [leafStep]
    split
    · exact hland _ _ _
    · exact .go (.same hframed precedes_nil)
  | breakOut => exact alike_goOr hframed.leave_rel _ _
  | continueLoop => exact alike_goOr hframed.nextRound_rel _ _
  | exit => exact .stop
  | ret value => exact .stop
  | raw offset op =>
    cases op with
    | ret => exact .stop
    | _ => exact hplain rfl
  | _ => exact hplain rfl

/-- A step from a place that is in front of no jump is the step from the place without jumps. -/
lemma Removable.alike_machine (h : Removable unit) (oracle : Oracle) (history : List Event)
    (hplace : IsPlace unit list frames) (hframed : Framed unit frames flow frames')
    (hpreceding : Precedes unit preceding list frames)
    (hgoto : ∀ target rest, list ≠ .goto target :: rest) :
    Alike unit (machine oracle unit history ⟨list, frames⟩)
      (machine oracle (removeGotos unit).1 history ⟨newList flow preceding list, frames'⟩) := by
  cases list with
  | nil =>
    rw [newList_nil]
    exact hframed.alike_endStep
  | cons s rest =>
    have hs : ∀ target, s ≠ .goto target := fun target hs => hgoto target rest (by rw [hs])
    have hflat := h.everyIn hplace
    rw [EveryIn] at hflat
    replace hflat := hflat.1
    rw [newList_cons hs]
    cases s with
    | basic block => exact absurd rfl (hflat.self block)
    | seq block =>
      obtain ⟨entry, body⟩ := block
      rw [Every] at hflat
      obtain rfl : entry = none := entry_eq_none hflat.2.1
      rw [newStmt_seq]
      exact .go (.same hframed.after precedes_nil)
    | cond test thenBlock elseBlock =>
      obtain ⟨entry, thenBody⟩ := thenBlock
      obtain ⟨entry', elseBody⟩ := elseBlock
      rw [Every] at hflat
      obtain rfl : entry = none := entry_eq_none hflat.2.1.1
      obtain rfl : entry' = none := entry_eq_none hflat.2.2.1
      rw [newStmt_cond]
      refine .go ?_
      split
      · exact .same hframed.after precedes_nil
      · exact .same hframed.after precedes_nil
    | loop test block =>
      obtain ⟨entry, body⟩ := block
      rw [Every] at hflat
      obtain rfl : entry = none := entry_eq_none hflat.2.1
      rw [newStmt_loop]
      exact .go (hframed.loop hpreceding).follows_nil
    | scope env block stop =>
      obtain ⟨entry, body⟩ := block
      rw [Every] at hflat
      obtain rfl : entry = none := entry_eq_none hflat.2.1
      rw [newStmt_scope]
      exact .go hframed.scope.follows_nil
    | switch value cases =>
      rw [Every] at hflat
      rw [newStmt_switch]
      simp only [machine, stmtStep, patterns_newCases, drop_newCases]
      exact .go (hframed.follows_enterCase (everyCase_drop hflat.2 _) _)
    | _ =>
      rw [newStmt_of_leaf rfl]
      exact h.alike_leafStep oracle history hplace hframed hpreceding

end Jumps

end Decompiler
