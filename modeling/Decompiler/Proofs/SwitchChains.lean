import Mathlib.Data.List.Find
import Decompiler.Print.Lua
import Decompiler.Proofs.ClosedCases
import Decompiler.Proofs.DispatchExecution

/-!
# Switches as chains of tests

Lua has no switch, and so a switch is printed as a chain of tests (`Print.Lua.stmtLines_switch`): of the
cases only those that test for a value, in their order, and then the default case (`Print.Lua.chain`).  A
chain goes into one of its branches and leaves when the branch is done.

`chained` is the machine that runs switches as such chains.  Without fallthrough a switch with closed
cases is run alike by it and by the machine of `judged`, which goes on with the next case at the end of a
case: no run ever comes to the end of a case.  That is an invariant of the places of a run (`Guarded`):
the code that is left in a case ends with a statement through which control leaves, at every depth.
-/

namespace Decompiler

namespace Print.Lua

/-- The cases of a switch that are printed, in order: those that test for values, and the first default
case. -/
def chain (cases : List SwitchCase) : List SwitchCase :=
  cases.filter isTested ++ (cases.find? (·.isDefault)).toList

/-- The lines of a chain of tests, which a default case ends. -/
def chainLines (labels : Labels) (place : Place) (first : Bool) : List SwitchCase → List Line
  | [] => if first then [] else [⟨place.depth, "end"⟩]
  | c :: rest =>
    if c.isDefault then
      if first then listLines labels place c.body.body
      else ⟨place.depth, "else"⟩ :: listLines labels place.inside c.body.body ++
        [⟨place.depth, "end"⟩]
    else
      ⟨place.depth, (if first then "if " else "elseif ") ++ caseTest c.values ++ " then"⟩ ::
        listLines labels place.inside c.body.body ++
        chainLines labels (place.skip (listLoopCount c.body.body)) false rest

lemma chainLines_tested {labels : Labels} {place : Place} {first : Bool} {c : SwitchCase}
    {rest : List SwitchCase} (h : isTested c = true) :
    chainLines labels place first (c :: rest) =
      ⟨place.depth, (if first then "if " else "elseif ") ++ caseTest c.values ++ " then"⟩ ::
        listLines labels place.inside c.body.body ++
        chainLines labels (place.skip (listLoopCount c.body.body)) false rest := by
  rw [isTested, Bool.and_eq_true, Bool.not_eq_true'] at h
  rw [chainLines, h.1]
  rfl

/-- The tests come first. -/
lemma chainLines_append (labels : Labels) (place : Place) (first : Bool)
    (cases last : List SwitchCase) :
    chainLines labels place first (cases.filter isTested ++ last) =
      testLines labels place first cases ++
        chainLines labels (place.skip (testsLoopCount cases)) (first && !cases.any isTested) last := by
  induction cases generalizing place first with
  | nil =>
    rw [List.filter_nil, List.nil_append, testLines, testsLoopCount, List.any_nil, Bool.not_false,
      Bool.and_true, List.nil_append]
    rfl
  | cons c rest ih =>
    rw [testLines, testsLoopCount, List.any_cons]
    by_cases hc : isTested c = true
    · have hskip : (place.skip (listLoopCount c.body.body)).skip (testsLoopCount rest) =
          place.skip (listLoopCount c.body.body + testsLoopCount rest) := by
        simp only [Place.skip, Nat.add_assoc]
      rw [List.filter_cons_of_pos hc, List.cons_append, chainLines_tested hc, ih, hskip, if_pos hc,
        if_pos hc, hc]
      simp
    · rw [List.filter_cons_of_neg hc, ih, if_neg hc, if_neg hc, Nat.zero_add,
        Bool.eq_false_of_not_eq_true hc, Bool.false_or]

/-- The default case behind tests. -/
lemma chainLines_else (labels : Labels) (place : Place) (cases : List SwitchCase) :
    chainLines labels place false (cases.find? (·.isDefault)).toList =
      elseDefaultLines labels place cases ++ [⟨place.depth, "end"⟩] := by
  induction cases with
  | nil => rfl
  | cons c rest ih =>
    rw [elseDefaultLines]
    by_cases hc : c.isDefault = true
    · rw [List.find?_cons_of_pos hc, if_pos hc, Option.toList_some, chainLines, if_pos hc]
      rfl
    · rw [List.find?_cons_of_neg hc, if_neg hc, ih]

/-- The default case that stands alone. -/
lemma chainLines_bare (labels : Labels) (place : Place) (cases : List SwitchCase) :
    chainLines labels place true (cases.find? (·.isDefault)).toList =
      bareDefaultLines labels place cases := by
  induction cases with
  | nil => rfl
  | cons c rest ih =>
    rw [bareDefaultLines]
    by_cases hc : c.isDefault = true
    · rw [List.find?_cons_of_pos hc, if_pos hc, Option.toList_some, chainLines, if_pos hc]
      rfl
    · rw [List.find?_cons_of_neg hc, if_neg hc, ih]

/-- A switch is printed as the chain of its tests. -/
theorem stmtLines_switch (labels : Labels) (place : Place) (value : Expr) (cases : List SwitchCase) :
    stmtLines labels place (.switch value cases) =
      ⟨place.depth, "repeat"⟩ :: ⟨place.depth + 1, "local switch_value = " ++ text value⟩ ::
        chainLines labels place.inside true (chain cases) ++ [⟨place.depth, "until true"⟩] := by
  rw [stmtLines, chain, chainLines_append, Bool.true_and]
  by_cases hany : cases.any isTested = true
  · rw [if_pos hany, hany, Bool.not_true, chainLines_else]
    simp [Place.inside, Place.skip]
  · rw [if_neg hany, Bool.eq_false_of_not_eq_true hany, Bool.not_false, chainLines_bare]
    simp [Place.inside]

end Print.Lua

namespace Execution

variable {V : Type}

/-! ### Running chains -/

/-- The case that a chain of tests goes into: the first that tests for a value that matches, or else the
default case. -/
def chosenCase (matched : Expr → Bool) (cases : List SwitchCase) : Option SwitchCase :=
  (Print.Lua.chain cases).find? fun c => c.isDefault || c.values.any matched

/-- A unit as a machine that runs its switches as chains of tests: it goes into one branch, and behind
the switch at the end of the branch. -/
def chained (judge : Judge V) (unit : Block) (history : List Report) (place : Place) :
    Trace.Step Place Report Ending :=
  match place.code with
  | .switch value cases :: rest =>
    let choice := chosenCase (judge.fits (judge.value history value)) cases
    let next := enterCase rest place.frames choice.toList
    .go [.dispatched value (leads? next.code)] next
  | _ => judged { judge with fallsThrough := false } unit history place

/-- The first case that is entered: the first with a value that matches, or else the default case. -/
lemma head?_enteredCases (matched : Expr → Bool) (cases : List SwitchCase) :
    (enteredCases matched cases).head? =
      (cases.find? fun c => c.values.any matched).or (cases.find? (·.isDefault)) := by
  rw [List.find?_eq_head?_dropWhile_not, List.find?_eq_head?_dropWhile_not, enteredCases]
  cases cases.dropWhile fun c => !c.values.any matched with
  | nil => rw [List.head?_nil, Option.none_or]
  | cons c later => rfl

/-- A chain goes into the case that a switch enters, as long as a default case has no values. -/
lemma chosenCase_eq_head? (matched : Expr → Bool) {cases : List SwitchCase}
    (h : ∀ c ∈ cases, c.isDefault = true → c.values = []) :
    chosenCase matched cases = (enteredCases matched cases).head? := by
  have htests : (cases.filter Print.Lua.isTested).find? (fun c => c.isDefault || c.values.any matched) =
      cases.find? fun c => c.values.any matched := by
    rw [List.find?_filter]
    refine List.find?_congr fun c hc => ?_
    rw [Print.Lua.isTested]
    cases hdefault : c.isDefault with
    | true => simp [h c hc hdefault]
    | false =>
      cases hvalues : c.values with
      | nil => rfl
      | cons value values => simp only [List.isEmpty_cons, Bool.not_false, Bool.and_self, true_and,
          Bool.false_or, Bool.decide_eq_true]
  have hdefault : (cases.find? (·.isDefault)).toList.find? (fun c => c.isDefault || c.values.any matched) =
      cases.find? (·.isDefault) := by
    cases hfind : cases.find? (·.isDefault) with
    | none => rfl
    | some c => simp [List.find?_some hfind]
  rw [chosenCase, Print.Lua.chain, List.find?_append, htests, hdefault, head?_enteredCases]

/-! ### Cases without the cases after them -/

/-- A frame without the cases after a case. -/
def Frame.alone : Frame → Frame
  | .case _ rest => .case [] rest
  | .after code => .after code
  | .loop test body rest => .loop test body rest
  | .scope env body stop rest => .scope env body stop rest

@[simp] lemma Frame.alone_case (later : List SwitchCase) (rest : List Stmt) :
    (case later rest).alone = case [] rest := rfl

@[simp] lemma Frame.alone_after (code : List Stmt) : (after code).alone = after code := rfl

@[simp] lemma Frame.alone_loop (test : Option Expr) (body rest : List Stmt) :
    (loop test body rest).alone = loop test body rest := rfl

@[simp] lemma Frame.alone_scope (env : Expr) (body : List Stmt) (stop : Option LabelId)
    (rest : List Stmt) : (scope env body stop rest).alone = scope env body stop rest := rfl

@[simp] lemma Frame.alone_alone (frame : Frame) : frame.alone.alone = frame.alone := by
  cases frame <;> rfl

/-- A place without the cases after those it is in. -/
def Place.alone (place : Place) : Place :=
  ⟨place.code, place.frames.map Frame.alone⟩

@[simp] lemma Place.alone_alone (place : Place) : place.alone.alone = place.alone := by
  simp [Place.alone]

lemma leave?_alone (frames : List Frame) :
    leave? (frames.map Frame.alone) = (leave? frames).map Place.alone := by
  induction frames with
  | nil => rfl
  | cons frame frames ih =>
    cases frame with
    | after => exact ih
    | loop | scope | case => rfl

lemma nextRound?_alone (frames : List Frame) :
    nextRound? (frames.map Frame.alone) = (nextRound? frames).map Place.alone := by
  induction frames with
  | nil => rfl
  | cons frame frames ih =>
    cases frame with
    | after | case => exact ih
    | loop | scope => rfl

lemma stopOf?_alone (target : LabelId) (frames : List Frame) :
    stopOf? target (frames.map Frame.alone) = (stopOf? target frames).map Place.alone := by
  induction frames with
  | nil => rfl
  | cons frame frames ih =>
    cases frame with
    | after | case | loop => exact ih
    | scope env body stop rest =>
      rw [List.map_cons, Frame.alone, stopOf?, stopOf?, ih]
      split <;> rfl

/-- Two optional places that differ at most in the cases after those they are in. -/
def SamePlace? (a b : Option Place) : Prop :=
  a.map Place.alone = b.map Place.alone

lemma samePlace?_of_eq {a b : Option Place} (h : a = b.map Place.alone) : SamePlace? a b := by
  rw [SamePlace?, h, Option.map_map]
  exact congrArg (b.map ·) (funext Place.alone_alone)

lemma SamePlace?.rel {a b : Option Place} (h : SamePlace? a b) :
    Option.Rel (fun p q => p.alone = q.alone) a b := by
  cases a with
  | none =>
    cases b with
    | none => exact .none
    | some b => cases h
  | some a =>
    cases b with
    | none => cases h
    | some b => exact .some (Option.some.inj h)

lemma land?_alone (root : List Stmt) (frames : List Frame) (target : LabelId) :
    SamePlace? (land? root (frames.map Frame.alone) target) (land? root frames target) := by
  have hstop := samePlace?_of_eq (stopOf?_alone target frames)
  rw [SamePlace?] at hstop ⊢
  rw [land?, land?, Option.map_or, Option.map_or, hstop]

/-- Two steps that come to places that differ at most in the cases after those they are in. -/
def SameStep {α ε : Type} (a b : Trace.Step Place α ε) : Prop :=
  a.map Place.alone = b.map Place.alone

lemma sameStep_goOr {ending : Ending} {events : List Event} {a b : Option Place}
    (h : SamePlace? a b) : SameStep (goOr ending events a) (goOr ending events b) := by
  cases h.rel with
  | none => rfl
  | some hsame => exact congrArg (Trace.Step.go events) hsame

lemma sameStep_reportOr {ending : Ending} {reports : List Report} {a b : Option Place}
    (h : SamePlace? a b) : SameStep (reportOr ending reports a) (reportOr ending reports b) := by
  cases h.rel with
  | none => rfl
  | some hsame => exact congrArg (Trace.Step.go reports) hsame

lemma SameStep.relay {a b : Outcome} (h : SameStep a b) :
    SameStep (Execution.relay a) (Execution.relay b) := by
  have hmap : ∀ o : Outcome,
      (Execution.relay o).map Place.alone = Execution.relay (o.map Place.alone) := by
    intro o
    cases o <;> rfl
  rw [SameStep] at h ⊢
  rw [hmap, hmap, h]

lemma sameStep_leafStep (oracle : Oracle) (root : List Stmt) (history : List Event)
    (frames : List Frame) (rest : List Stmt) (s : Stmt) :
    SameStep (leafStep oracle root history (frames.map Frame.alone) rest s)
      (leafStep oracle root history frames rest s) := by
  have hgo : ∀ events, SameStep (.go events ⟨rest, frames.map Frame.alone⟩ : Outcome)
      (.go events ⟨rest, frames⟩) := by
    intro events
    simp [SameStep, Trace.Step.map, Place.alone]
  unfold leafStep
  split
  · exact hgo _
  · exact sameStep_goOr (land?_alone _ _ _)
  · split
    · exact sameStep_goOr (land?_alone _ _ _)
    · exact hgo _
  · exact sameStep_goOr (samePlace?_of_eq (leave?_alone frames))
  · exact sameStep_goOr (samePlace?_of_eq (nextRound?_alone frames))
  · rfl
  · rfl
  · rfl
  · unfold plainStep
    split
    · split
      · exact sameStep_goOr (land?_alone _ _ _)
      · exact hgo _
    · exact hgo _

lemma sameStep_stmtStep (oracle : Oracle) (root : List Stmt) (history : List Event)
    (frames : List Frame) (rest : List Stmt) (s : Stmt) :
    SameStep (stmtStep oracle root history (frames.map Frame.alone) rest s)
      (stmtStep oracle root history frames rest s) := by
  have hleaf := sameStep_leafStep oracle root history frames rest s
  cases s with
  | basic | seq | cond | loop | scope =>
    simp [stmtStep, SameStep, Trace.Step.map, Place.alone]
  | switch value cases =>
    simp only [stmtStep, SameStep, Trace.Step.map]
    cases cases.drop (oracle.choice history value (patterns cases)) <;>
      simp [enterCase, Place.alone]
  | _ => exact hleaf

/-- Without fallthrough the cases after a case do not matter at its end. -/
lemma sameStep_endStep {oracle : Oracle} (h : oracle.fallsThrough = false) (history : List Event)
    (frames : List Frame) :
    SameStep (endStep oracle history (frames.map Frame.alone)) (endStep oracle history frames) := by
  cases frames with
  | nil => rfl
  | cons frame frames =>
    cases frame with
    | after => simp [endStep, SameStep, Trace.Step.map, Place.alone]
    | loop test body rest =>
      cases test with
      | none => simp [endStep, SameStep, Trace.Step.map, Place.alone]
      | some test =>
        simp only [List.map_cons, Frame.alone_loop, endStep, SameStep, Trace.Step.map]
        split <;> simp [Place.alone]
    | scope env body stop rest =>
      simp only [List.map_cons, Frame.alone_scope, endStep, SameStep, Trace.Step.map]
      split <;> simp [Place.alone]
    | case later rest => simp [endStep, SameStep, Trace.Step.map, Place.alone, h]

/-- Only the first of the cases that are entered matters. -/
lemma enterCase_alone {frames frames' : List Frame} (rest : List Stmt)
    (h : frames.map Frame.alone = frames'.map Frame.alone) (cases : List SwitchCase) :
    (enterCase rest frames cases).alone = (enterCase rest frames' cases.head?.toList).alone := by
  cases cases <;> simp [enterCase, Place.alone, h]

/-- Switches that go to such places do so alike. -/
lemma sameStep_dispatched (value : Expr) {p q : Place} (h : p.alone = q.alone) :
    SameStep (.go [.dispatched value (leads? p.code)] p : Trace.Step Place Report Ending)
      (.go [.dispatched value (leads? q.code)] q) := by
  have hcode : p.code = q.code := congrArg (fun place => place.code) h
  rw [SameStep, Trace.Step.map, Trace.Step.map, hcode, h]

/-- Without fallthrough the cases after those that a place is in do not matter. -/
lemma sameStep_judged {judge : Judge V} (h : judge.fallsThrough = false) (unit : Block)
    (history : List Report) (place : Place) :
    SameStep (judged judge unit history place.alone) (judged judge unit history place) := by
  obtain ⟨code, frames⟩ := place
  cases code with
  | nil => exact (sameStep_endStep h [] frames).relay
  | cons s rest =>
    have hstep := (sameStep_stmtStep (judge.oracle history) unit.body [] frames rest s).relay
    cases s with
    | dispatch value cases default => exact sameStep_reportOr (land?_alone _ _ _)
    | switch value cases =>
      have hframes : (frames.map Frame.alone).map Frame.alone = frames.map Frame.alone := by simp
      exact sameStep_dispatched value ((enterCase_alone rest hframes _).trans
        (enterCase_alone rest rfl _).symm)
    | _ => exact hstep

/-! ### Places at which no case is run off its end -/

/-- The code that is left in a case ends with a statement through which control leaves, in each case
that a place is in. -/
def Guarded : List Stmt → List Frame → Prop
  | _, [] => True
  | _, .after rest :: frames => Guarded rest frames
  | _, .loop _ _ rest :: frames => Guarded rest frames
  | _, .scope _ _ _ rest :: frames => Guarded rest frames
  | code, .case _ rest :: frames => EndsAway code ∧ Guarded rest frames

/-- Where an optional place is, nothing runs off the end of a case. -/
def Guarded? (place? : Option Place) : Prop :=
  ∀ place ∈ place?, Guarded place.code place.frames

variable {s : Stmt} {code rest : List Stmt} {frames : List Frame}

/-- Behind a statement that control does not leave through, and in front of more code. -/
lemma Guarded.tail (h : Guarded (s :: rest) frames) (hs : s.endsCase = false ∨ rest ≠ []) :
    Guarded rest frames := by
  cases frames with
  | nil => trivial
  | cons frame frames =>
    cases frame with
    | after | loop | scope => exact h
    | case => exact ⟨h.1.tail hs, h.2⟩

/-- In front of the code of a closed case. -/
lemma Guarded.case {c : SwitchCase} {later : List SwitchCase} (h : Guarded rest frames)
    (hc : IsClosed c) : Guarded (Execution.code c.body) (.case later rest :: frames) :=
  ⟨hc.ends.append _, h⟩

lemma guarded_enterCase {cases : List SwitchCase} (h : Guarded rest frames)
    (hcases : ∀ c ∈ cases, IsClosed c) :
    Guarded (enterCase rest frames cases).code (enterCase rest frames cases).frames := by
  cases cases with
  | nil => exact h
  | cons c later => exact h.case (hcases c List.mem_cons_self)

lemma Guarded.leave? (h : Guarded code frames) : Guarded? (leave? frames) := by
  induction frames generalizing code with
  | nil => exact fun _ hp => by cases hp
  | cons frame frames ih =>
    cases frame with
    | after => exact ih h
    | loop | scope =>
      rintro _ ⟨⟩
      exact h
    | case =>
      rintro _ ⟨⟩
      exact h.2

lemma Guarded.nextRound? (h : Guarded code frames) : Guarded? (nextRound? frames) := by
  induction frames generalizing code with
  | nil => exact fun _ hp => by cases hp
  | cons frame frames ih =>
    cases frame with
    | after => exact ih h
    | case => exact ih h.2
    | loop | scope =>
      rintro _ ⟨⟩
      exact h

lemma Guarded.stopOf? (h : Guarded code frames) (target : LabelId) :
    Guarded? (stopOf? target frames) := by
  induction frames generalizing code with
  | nil => exact fun _ hp => by cases hp
  | cons frame frames ih =>
    cases frame with
    | after | loop => exact ih h
    | case => exact ih h.2
    | scope env body stop rest =>
      rw [Execution.stopOf?]
      split
      · rintro _ ⟨⟩
        exact h
      · exact ih h

/-- A statement in which a label is found holds lists, and control does not leave through it. -/
lemma endsCase_of_findInStmt {target : LabelId} {place : Place}
    (h : findInStmt target rest frames s = some place) : s.endsCase = false := by
  cases s with
  | goto | ret | exit | breakOut | continueLoop => simp only [findInStmt, reduceCtorEq] at h
  | _ => rfl

mutual

lemma guarded_findInStmt (target : LabelId) {rest : List Stmt} {frames : List Frame}
    (h : Guarded rest frames) {place : Place} :
    (s : Stmt) → Every closed s → findInStmt target rest frames s = some place →
      Guarded place.code place.frames
  | .basic block, hs, hfind => by
    rw [findInStmt] at hfind
    have hin : Guarded block.body (.after rest :: frames) := h
    exact guarded_findInList target block.body hs.2 hin hfind
  | .seq block, hs, hfind => by
    rw [findInStmt] at hfind
    have hin : Guarded block.body (.after rest :: frames) := h
    exact guarded_findInList target block.body hs.2.2 hin hfind
  | .cond _ thenBlock elseBlock, hs, hfind => by
    rw [findInStmt, Option.or_eq_some_iff] at hfind
    have hin : ∀ body, Guarded body (.after rest :: frames) := fun _ => h
    rcases hfind with hfind | ⟨-, hfind⟩
    · exact guarded_findInList target thenBlock.body hs.2.1.2 (hin _) hfind
    · exact guarded_findInList target elseBlock.body hs.2.2.2 (hin _) hfind
  | .loop test block, hs, hfind => by
    rw [findInStmt] at hfind
    have hin : Guarded block.body (.loop test (code block) rest :: frames) := h
    exact guarded_findInList target block.body hs.2.2 hin hfind
  | .scope env block stop, hs, hfind => by
    rw [findInStmt] at hfind
    have hin : Guarded block.body (.scope env (code block) stop rest :: frames) := h
    exact guarded_findInList target block.body hs.2.2 hin hfind
  | .switch _ cases, hs, hfind => by
    rw [findInStmt] at hfind
    exact guarded_findInCases target h cases hs.1 hs.2 hfind
  | .label _, _, hfind | .raw _ _, _, hfind | .push _, _, hfind | .assign _ _, _, hfind
  | .call _ _, _, hfind | .discard _, _, hfind | .goto _, _, hfind | .condGoto _ _, _, hfind
  | .pushEnv _ _, _, hfind | .popEnv _, _, hfind | .dispatch _ _ _, _, hfind | .ret _, _, hfind
  | .exit, _, hfind | .breakOut, _, hfind | .continueLoop, _, hfind => by
    simp only [findInStmt, reduceCtorEq] at hfind

lemma guarded_findInList (target : LabelId) {frames : List Frame} {place : Place} :
    (list : List Stmt) → EveryIn closed list → Guarded list frames →
      findInList target frames list = some place → Guarded place.code place.frames
  | [], _, _, hfind => by simp only [findInList, reduceCtorEq] at hfind
  | s :: rest, hclosed, h, hfind => by
    rw [EveryIn] at hclosed
    have hrest : findInList target frames rest = some place → Guarded place.code place.frames := by
      intro hfind
      refine guarded_findInList target rest hclosed.2 (h.tail (.inr ?_)) hfind
      rintro rfl
      simp only [findInList, reduceCtorEq] at hfind
    have hs : findInStmt target rest frames s = some place → Guarded place.code place.frames :=
      fun hfind =>
        guarded_findInStmt target (h.tail (.inl (endsCase_of_findInStmt hfind))) s hclosed.1 hfind
    by_cases hlabel : ∃ id, s = .label id
    · obtain ⟨id, rfl⟩ := hlabel
      rw [findInList] at hfind
      split at hfind
      · cases hfind
        exact h
      · exact hrest hfind
    · rw [findInList_cons_of_ne fun id hs => hlabel ⟨id, hs⟩, Option.or_eq_some_iff] at hfind
      rcases hfind with hfind | ⟨-, hfind⟩
      · exact hs hfind
      · exact hrest hfind

lemma guarded_findInCases (target : LabelId) {rest : List Stmt} {frames : List Frame}
    (h : Guarded rest frames) {place : Place} :
    (cases : List SwitchCase) → (∀ c ∈ cases, IsClosed c) → EveryCase closed cases →
      findInCases target rest frames cases = some place → Guarded place.code place.frames
  | [], _, _, hfind => by simp only [findInCases, reduceCtorEq] at hfind
  | c :: later, hcases, hclosed, hfind => by
    rw [EveryCase] at hclosed
    obtain ⟨hc, hlater⟩ := List.forall_mem_cons.mp hcases
    rw [findInCases, Option.or_eq_some_iff] at hfind
    rcases hfind with hfind | ⟨-, hfind⟩
    · have hin : Guarded c.body.body (.case later rest :: frames) := ⟨hc.ends, h⟩
      exact guarded_findInList target c.body.body hclosed.1.2 hin hfind
    · exact guarded_findInCases target h later hlater hclosed.2 hfind

end

lemma guarded_land? {root : List Stmt} (hroot : EveryIn closed root) (h : Guarded code frames)
    (target : LabelId) : Guarded? (land? root frames target) := by
  intro place hplace
  rcases Option.or_eq_some_iff.mp hplace with hplace | ⟨-, hplace⟩
  · have hin : Guarded root [] := trivial
    exact guarded_findInList target root hroot hin hplace
  · exact h.stopOf? target place hplace

/-- At the end of a list that is not the code of a case. -/
lemma guarded_endStep {oracle : Oracle} {history events : List Event} {next : Place}
    (h : Guarded [] frames) (hstep : endStep oracle history frames = .go events next) :
    Guarded next.code next.frames := by
  cases frames with
  | nil => cases hstep
  | cons frame frames =>
    cases frame with
    | after rest =>
      cases hstep
      exact h
    | loop test body rest =>
      cases test with
      | none =>
        cases hstep
        exact h
      | some test =>
        cases hstep
        split <;> exact h
    | scope env body stop rest =>
      cases hstep
      split <;> exact h
    | case later rest => exact absurd h.1 EndsAway.not_nil

lemma guarded_leafStep {oracle : Oracle} {root : List Stmt} {history events : List Event}
    {next : Place} (hroot : EveryIn closed root) (h : Guarded (s :: rest) frames)
    (hstep : leafStep oracle root history frames rest s = .go events next) :
    Guarded next.code next.frames := by
  unfold leafStep at hstep
  split at hstep
  · cases hstep
    exact h.tail (.inl rfl)
  · exact guarded_land? hroot h _ _ (goOr_eq_go hstep)
  · split at hstep
    · exact guarded_land? hroot h _ _ (goOr_eq_go hstep)
    · cases hstep
      exact h.tail (.inl rfl)
  · exact h.leave? _ (goOr_eq_go hstep)
  · exact h.nextRound? _ (goOr_eq_go hstep)
  · cases hstep
  · cases hstep
  · cases hstep
  · have hs : s.endsCase = false := by cases s <;> first | rfl | simp_all
    unfold plainStep at hstep
    split at hstep
    · split at hstep
      · exact guarded_land? hroot h _ _ (goOr_eq_go hstep)
      · cases hstep
        exact h.tail (.inl hs)
    · cases hstep
      exact h.tail (.inl hs)

lemma guarded_stmtStep {oracle : Oracle} {root : List Stmt} {history events : List Event}
    {next : Place} (hroot : EveryIn closed root) (hs : Every closed s)
    (h : Guarded (s :: rest) frames)
    (hstep : stmtStep oracle root history frames rest s = .go events next) :
    Guarded next.code next.frames := by
  unfold stmtStep at hstep
  split at hstep
  · cases hstep
    exact h.tail (.inl rfl)
  · cases hstep
    exact h.tail (.inl rfl)
  · cases hstep
    exact h.tail (.inl rfl)
  · cases hstep
    exact h.tail (.inl rfl)
  · cases hstep
    exact h.tail (.inl rfl)
  · rw [Every] at hs
    cases hstep
    exact guarded_enterCase (h.tail (.inl rfl)) fun c hc => hs.1 c (List.mem_of_mem_drop hc)
  · exact guarded_leafStep hroot h hstep

/-- A place of a unit with closed cases at which no case is run off its end. -/
structure InCases (place : Place) : Prop where
  every : place.Every closed
  guarded : Guarded place.code place.frames

/-- No step of a unit with closed cases comes to the end of a case. -/
theorem InCases.machine {unit : Block} (hunit : EveryIn closed unit.body) {oracle : Oracle}
    {history events : List Event} {place next : Place} (h : InCases place)
    (hstep : Execution.machine oracle unit history place = .go events next) : InCases next := by
  refine ⟨every_machine hunit h.every hstep, ?_⟩
  obtain ⟨code, frames⟩ := place
  cases code with
  | nil => exact guarded_endStep h.guarded hstep
  | cons s rest => exact guarded_stmtStep hunit h.every.1.1 h.guarded hstep

/-- At the start of a unit. -/
lemma InCases.start {unit : Block} (hunit : EveryIn closed unit.body) :
    InCases (Execution.start unit) :=
  ⟨⟨everyIn_code (fun _ _ => trivial) hunit, List.forall_mem_nil _⟩, trivial⟩

/-! ### Judged runs -/

variable {judge : Judge V} {unit : Block} {history : List Report} {place : Place}

/-- A judged step goes where a step of the machine goes under some oracle. -/
lemma exists_machine_of_judged {reports : List Report} {next : Place}
    (h : judged judge unit history place = .go reports next) :
    ∃ oracle events, machine oracle unit [] place = .go events next := by
  have hrelay : ∀ {o : Outcome}, relay o = .go reports next → ∃ events, o = .go events next := by
    intro o ho
    cases o with
    | go events next' =>
      cases ho
      exact ⟨events, rfl⟩
    | stop => cases ho
  obtain ⟨code, frames⟩ := place
  cases code with
  | nil => exact ⟨judge.oracle history, hrelay h⟩
  | cons s rest =>
    have hother : relay (machine (judge.oracle history) unit [] ⟨s :: rest, frames⟩) =
        .go reports next → ∃ oracle events, machine oracle unit [] ⟨s :: rest, frames⟩ =
          .go events next := fun ho => ⟨_, hrelay ho⟩
    cases s with
    | dispatch value cases default =>
      -- The target is one of the targets of the branch.
      obtain ⟨i, hi⟩ := List.getElem?_of_mem
        (dispatchTo_mem (judge.fits (judge.value history value)) cases default)
      have hland : land? unit.body frames
          (dispatchTo (judge.fits (judge.value history value)) cases default) = some next := by
        simp only [judged] at h
        generalize land? unit.body frames _ = place? at h
        cases place? <;> cases h
        rfl
      have hbranch : (Stmt.dispatch value cases default).branchTargets[i]? = some _ := hi
      refine ⟨{ judge.oracle history with branch := fun _ _ => i },
        [.branched (.dispatch value cases default) i], ?_⟩
      simp only [machine, stmtStep, leafStep, plainStep, Stmt.isConditional, if_true, hbranch, hland]
      rfl
    | switch value cases =>
      -- The cases that are entered are the last ones from some case on.
      obtain ⟨k, hk⟩ : ∃ k, enteredCases (judge.fits (judge.value history value)) cases =
          cases.drop k := by
        have hsuffix : enteredCases (judge.fits (judge.value history value)) cases <:+ cases := by
          unfold enteredCases
          split
          · exact List.dropWhile_suffix _
          · exact List.dropWhile_suffix _
        exact ⟨_, List.suffix_iff_eq_drop.mp hsuffix⟩
      cases h
      refine ⟨{ judge.oracle history with choice := fun _ _ _ => k },
        [.chose value (patterns cases) k], ?_⟩
      rw [hk]
      rfl
    | _ => exact hother h

/-- No judged step of a unit with closed cases comes to the end of a case. -/
lemma InCases.judged (hunit : EveryIn closed unit.body) {reports : List Report} {next : Place}
    (h : InCases place) (hstep : Execution.judged judge unit history place = .go reports next) :
    InCases next := by
  obtain ⟨oracle, events, hmachine⟩ := exists_machine_of_judged hstep
  exact h.machine hunit hmachine

/-- Where no case is run off its end, it does not matter what would happen there. -/
lemma judged_fallsThrough (h : Guarded place.code place.frames) (a b : Bool) :
    judged { judge with fallsThrough := a } unit history place =
      judged { judge with fallsThrough := b } unit history place := by
  obtain ⟨code, frames⟩ := place
  cases code with
  | nil =>
    cases frames with
    | nil => rfl
    | cons frame frames =>
      cases frame with
      | after | scope => rfl
      | loop test => cases test <;> rfl
      | case => exact absurd h.1 EndsAway.not_nil
  | cons s rest =>
    cases s with
    | raw offset op => cases op <;> rfl
    | _ => rfl

/-- A step with fallthrough and a step of the chain from alike places are alike. -/
lemma sameStep_chained {q : Place} (h : InCases place) (hq : place.alone = q.alone) :
    SameStep (judged { judge with fallsThrough := true } unit history place)
      (chained judge unit history q) := by
  have hcode : place.code = q.code := congrArg (fun place => place.code) hq
  have hframes : place.frames.map Frame.alone = q.frames.map Frame.alone :=
    congrArg (fun place => place.frames) hq
  by_cases hswitch : ∃ value cases rest, place.code = .switch value cases :: rest
  · obtain ⟨value, cases, rest, hplace⟩ := hswitch
    have hvalues : ∀ c ∈ cases, c.isDefault = true → c.values = [] := by
      intro c hc
      have hevery := h.every.1
      rw [hplace] at hevery
      exact (hevery.1.1 c hc).values
    have hchosen := chosenCase_eq_head? (judge.fits (judge.value history value)) hvalues
    have henter := enterCase_alone rest hframes
      (enteredCases (judge.fits (judge.value history value)) cases)
    rw [← hchosen] at henter
    rw [hplace] at hcode
    simp only [judged, chained, hplace, ← hcode]
    exact sameStep_dispatched value henter
  · have hchained : chained judge unit history q =
        judged { judge with fallsThrough := false } unit history q := by
      unfold chained
      split
      · rename_i heq
        exact absurd ⟨_, _, _, hcode.trans heq⟩ hswitch
      · rfl
    have hfirst : SameStep (judged { judge with fallsThrough := false } unit history place.alone)
        (judged { judge with fallsThrough := false } unit history place) :=
      sameStep_judged rfl unit history place
    have hsecond : SameStep (judged { judge with fallsThrough := false } unit history q.alone)
        (judged { judge with fallsThrough := false } unit history q) :=
      sameStep_judged rfl unit history q
    rw [SameStep] at hfirst hsecond ⊢
    rw [hchained, judged_fallsThrough h.guarded true false, ← hfirst, ← hsecond, hq]

/-- A unit with closed cases is run alike with fallthrough and as chains of tests. -/
theorem simulation_chained (hunit : EveryIn closed unit.body) (judge : Judge V) :
    Trace.Simulation (judged { judge with fallsThrough := true } unit) (chained judge unit)
      (fun p q => InCases p ∧ p.alone = q.alone) fun _ => 0 := by
  refine ⟨?_, ?_⟩
  · rintro history p q reports next ⟨hp, hq⟩ hstep
    have hsame : SameStep (judged { judge with fallsThrough := true } unit history p)
        (chained judge unit history q) := sameStep_chained hp hq
    rw [hstep] at hsame
    cases hchained : chained judge unit history q with
    | go reports' next' =>
      rw [hchained] at hsame
      obtain ⟨rfl, hnext⟩ := Trace.Step.go.inj hsame
      exact .inr ⟨0, next', run_one hchained, hp.judged hunit hstep, hnext⟩
    | stop =>
      rw [hchained] at hsame
      cases hsame
  · rintro history p q reports ending ⟨hp, hq⟩ hstep
    have hsame : SameStep (judged { judge with fallsThrough := true } unit history p)
        (chained judge unit history q) := sameStep_chained hp hq
    rw [hstep] at hsame
    cases hchained : chained judge unit history q with
    | go =>
      rw [hchained] at hsame
      cases hsame
    | stop reports' ending' =>
      rw [hchained] at hsame
      obtain ⟨rfl, rfl⟩ := Trace.Step.stop.inj hsame
      exact ⟨1, run_stop hchained⟩

/-- The end of the code of a case, where a run would fall into the next one. -/
def AtCaseEnd (place : Place) : Prop :=
  ∃ later rest frames, place = ⟨[], .case later rest :: frames⟩

lemma InCases.not_atCaseEnd (h : InCases place) : ¬ AtCaseEnd place := by
  rintro ⟨later, rest, frames, rfl⟩
  exact EndsAway.not_nil h.guarded.1

end Execution

open Execution

/-- In the final tree of a unit, the code of every case ends with a statement through which control
leaves.  So no run comes to the end of a case, and a run that would fall into the next case there is like
one in which each switch is a chain of tests: the chain that is printed for Lua. -/
theorem closesCases_recoverTree {names : Bytecode.Names} {options : Options} {name : String}
    {bytes : List UInt8} {tree : Block}
    (h : (exec (recoverTree names options bytes) { context := unitContext name }).1 = .ok tree) :
    EveryIn closed tree.body ∧
      (∀ oracle n history place,
        (machine oracle tree).run n (.at [] (start tree)) = .at history place → ¬ AtCaseEnd place) ∧
      (∀ (V : Type) (judge : Judge V),
        Trace.SameTraces (judged { judge with fallsThrough := true } tree) (start tree)
          (chained judge tree) (start tree)) ∧
      ∀ labels place value cases, Print.Lua.stmtLines labels place (.switch value cases) =
        ⟨place.depth, "repeat"⟩ ::
          ⟨place.depth + 1, "local switch_value = " ++ Print.Lua.text value⟩ ::
          Print.Lua.chainLines labels place.inside true (Print.Lua.chain cases) ++
          [⟨place.depth, "until true"⟩] := by
  have hclosed := (closed_recoverTree h).2
  refine ⟨hclosed, ?_, fun V judge => ?_, Print.Lua.stmtLines_switch⟩
  · intro oracle n history place hrun
    have hplace : InCases place := Trace.Machine.run_keeps
      (fun _ _ _ _ hs hstep => hs.machine hclosed hstep) n (.start hclosed) hrun
    exact hplace.not_atCaseEnd
  · exact (simulation_chained hclosed judge).sameTraces ⟨.start hclosed, rfl⟩

/-- Code that dispatches on `x`.  One of the cases ends with `exit`. -/
def exitInCase : List UInt8 :=
  [0xff, 0xff, 0x05, 0xc0, 0, 0, 0, 0xa0, 0, 0, 0x05, 0x82, 0, 0, 0x02, 0xc0, 0x07, 0, 0, 0, 0, 0,
    0x52, 0x13, 0x0c, 0, 0, 0xb8, 0, 0, 0x05, 0x82, 0, 0, 0x02, 0xc0, 0x01, 0, 0, 0, 0, 0, 0x52,
    0x13, 0x0b, 0, 0, 0xb8, 0, 0, 0x05, 0x82, 0, 0, 0x02, 0xc0, 0x05, 0, 0, 0, 0, 0, 0x52, 0x13,
    0x06, 0, 0, 0xb8, 0x09, 0, 0, 0xb7, 0x01, 0, 0x0f, 0xc0, 0xff, 0xff, 0x55, 0x41, 0x01, 0, 0,
    0xa0, 0x09, 0, 0, 0xb7, 0x02, 0, 0x0f, 0xc0, 0xff, 0xff, 0x55, 0x41, 0x01, 0, 0, 0xa0, 0, 0, 0,
    0x9e, 0x03, 0, 0x0f, 0xc0, 0xff, 0xff, 0x55, 0x41, 0x01, 0, 0, 0xa0, 0x01, 0, 0, 0xb7, 0, 0, 0,
    0x9f, 0, 0, 0, 0x9e]

/-- Whether the code of a case ends with `exit`. -/
def endsWithExit (c : SwitchCase) : Bool :=
  match c.body.body.getLast? with
  | some .exit => true
  | _ => false

/-- Whether the statement is a switch with such a case. -/
def switchesToExit : Stmt → Bool
  | .switch _ cases => cases.any endsWithExit
  | _ => false

/-- The `break` at the end of that case is gone, and the `exit` closes the case. -/
theorem exitInCase_closed :
    ∃ tree, (exec (recoverTree { strings := ["x", "z"] } {} exitInCase)
        { context := unitContext "unit" }).1 = .ok tree ∧
      (∃ value cases, .switch value cases ∈ tree.body ∧ ∃ c ∈ cases, endsWithExit c = true) ∧
      EveryIn closed tree.body ∧
      ∀ (V : Type) (judge : Judge V),
        Trace.SameTraces (judged { judge with fallsThrough := true } tree) (start tree)
          (chained judge tree) (start tree) := by
  have htree : (exec (recoverTree { strings := ["x", "z"] } {} exitInCase)
      { context := unitContext "unit" }).1.toOption.any (fun tree =>
        tree.body.any switchesToExit) = true := by
    unfold recoverTree
    rw [Bytecode.decode_eq_decodeBounded]
    decide +kernel
  cases hrun : (exec (recoverTree { strings := ["x", "z"] } {} exitInCase)
      { context := unitContext "unit" }).1 with
  | error e =>
    rw [hrun] at htree
    cases htree
  | ok tree =>
    rw [hrun] at htree
    obtain ⟨s, hs, hcases⟩ := List.any_eq_true.mp htree
    obtain ⟨hclosed, -, halike, -⟩ := closesCases_recoverTree hrun
    refine ⟨tree, rfl, ?_, hclosed, halike⟩
    cases s with
    | switch value cases => exact ⟨value, cases, hs, List.any_eq_true.mp hcases⟩
    | _ => cases hcases

end Decompiler
