import Mathlib.Data.Option.Basic
import Decompiler.Proofs.LoopTrees
import Decompiler.Proofs.TreeExecution

/-!
# Running dispatches and switches

A dispatch and the switch that it becomes have the same meaning, but they do not look alike: the one has a
list of values with their targets, the other has cases in another order.  So the machine of this module
looks at what the two have in common, the value and the label to which control goes (`Report`).  Its
oracle gives a value for each dispatch and switch and says which case constants match it (`Judge`).

`Turns` says how a list of blocks and a flat tree run alike: statement by statement, until control leaves
through a jump.  A branch may have turned into a condition or switch whose arms or cases start with the
jumps that it made.  What stands behind a jump never runs, and so `Turns` says nothing about it; that is
what lets the blocks stand in any order, and inside of each other.  A unit follows another as soon as
jumps land alike in both (`simulation_of_landsAlike`).
-/

namespace Decompiler

namespace Execution

/-! ### The machine -/

/-- What can be observed of a run. -/
inductive Report where
  | event (event : Event)
  /-- A value was dispatched on, and control goes to a label. -/
  | dispatched (value : Expr) (target : Option LabelId)

/-- The answers to all that a tree leaves open, with a value for each dispatch and switch. -/
structure Judge (V : Type) where
  /-- Whether a test in its positive form holds. -/
  holds : List Report → Expr → Bool
  /-- Whether a scope has another instance. -/
  another : List Report → Expr → Bool
  /-- Which of its targets any other branch takes. -/
  branch : List Report → Stmt → Nat
  /-- The value of what is dispatched on. -/
  value : List Report → Expr → V
  /-- Whether a case constant matches a value. -/
  fits : V → Expr → Bool
  /-- Whether a case that runs off its end goes on with the next one or leaves the switch. -/
  fallsThrough : Bool

variable {V : Type}

/-- The answers at a point of a run. -/
def Judge.oracle (judge : Judge V) (history : List Report) : Oracle where
  holds _ := judge.holds history
  another _ := judge.another history
  choice _ _ _ := 0
  branch _ := judge.branch history
  fallsThrough := judge.fallsThrough

/-- Where a dispatch goes: to the target of the first case that matches, or else to the default. -/
def dispatchTo (matched : Expr → Bool) (cases : List (Expr × LabelId)) (default : LabelId) : LabelId :=
  ((cases.find? fun c => matched c.1).map Prod.snd).getD default

/-- A dispatch goes to one of its targets. -/
lemma dispatchTo_mem (matched : Expr → Bool) (cases : List (Expr × LabelId)) (default : LabelId) :
    dispatchTo matched cases default ∈ cases.map Prod.snd ++ [default] := by
  rw [dispatchTo]
  cases hfind : cases.find? fun c => matched c.1 with
  | none => simp
  | some c => exact List.mem_append_left _ (List.mem_map_of_mem (List.mem_of_find?_eq_some hfind))

/-- The cases of a switch from the one on that is entered: the first one with a value that matches, or
else the default case. -/
def enteredCases (matched : Expr → Bool) (cases : List SwitchCase) : List SwitchCase :=
  match cases.dropWhile fun c => !c.values.any matched with
  | [] => cases.dropWhile fun c => !c.isDefault
  | found => found

/-- The label to which control goes at once. -/
def leads? : List Stmt → Option LabelId
  | .goto target :: _ => some target
  | _ => none

/-- A step with its events as reports. -/
def relay : Outcome → Trace.Step Place Report Ending
  | .go events next => .go (events.map .event) next
  | .stop events ending => .stop (events.map .event) ending

/-- Goes on from a place, if there is one. -/
def reportOr (ending : Ending) (reports : List Report) :
    Option Place → Trace.Step Place Report Ending
  | some place => .go reports place
  | none => .stop reports ending

/-- A unit as a machine that reports where its dispatches and switches go. -/
def judged (judge : Judge V) (unit : Block) (history : List Report) (place : Place) :
    Trace.Step Place Report Ending :=
  match place.code with
  | .dispatch value cases default :: _ =>
    let target := dispatchTo (judge.fits (judge.value history value)) cases default
    reportOr (.lost target) [.dispatched value (some target)] (land? unit.body place.frames target)
  | .switch value cases :: rest =>
    let next := enterCase rest place.frames
      (enteredCases (judge.fits (judge.value history value)) cases)
    .go [.dispatched value (leads? next.code)] next
  | _ => relay (machine (judge.oracle history) unit [] place)

/-- Two units run alike under a judge. -/
def JudgedAlike (judge : Judge V) (a b : Block) : Prop :=
  Trace.SameTraces (judged judge a) (start a) (judged judge b) (start b)

/-! ### Single steps -/

variable {judge : Judge V} {unit : Block} {history : List Report}

lemma judged_eq_relay {s : Stmt} (hdispatch : ∀ value cases default, s ≠ .dispatch value cases default)
    (hswitch : ∀ value cases, s ≠ .switch value cases) (rest : List Stmt) (frames : List Frame) :
    judged judge unit history ⟨s :: rest, frames⟩ =
      relay (stmtStep (judge.oracle history) unit.body [] frames rest s) := by
  unfold judged
  split
  · rename_i heq
    exact absurd (List.cons.inj heq).1 (hdispatch _ _ _)
  · rename_i heq
    exact absurd (List.cons.inj heq).1 (hswitch _ _)
  · rfl

lemma relay_goOr (ending : Ending) (events : List Event) (place? : Option Place) :
    relay (goOr ending events place?) = reportOr ending (events.map .event) place? := by
  cases place? <;> rfl

/-- How control goes on from an elementary statement, whatever the unit, the code after it and the
frames around it are. -/
inductive Acts (judge : Judge V) (history : List Report) (s : Stmt) : Prop where
  | on (reports : List Report) (hs : s.isUnconditional = false)
      (hstep : ∀ unit rest frames, judged judge unit history ⟨s :: rest, frames⟩ =
        .go reports ⟨rest, frames⟩)
  | jump (reports : List Report) (target : LabelId) (htarget : target ∈ s.branchTargets)
      (hstep : ∀ unit rest frames, judged judge unit history ⟨s :: rest, frames⟩ =
        reportOr (.lost target) reports (land? unit.body frames target))
  | stop (reports : List Report) (ending : Ending)
      (hstep : ∀ unit rest frames, judged judge unit history ⟨s :: rest, frames⟩ =
        .stop reports ending)

/-- A branch that is no test takes one of its targets, or none. -/
lemma acts_of_branch {s : Stmt} (hs : s.isConditional = true) (hs' : s.isUnconditional = false)
    (hstep : ∀ unit rest frames, judged judge unit history ⟨s :: rest, frames⟩ =
      relay (plainStep (judge.oracle history) unit.body [] frames rest s)) :
    Acts judge history s := by
  cases htarget : s.branchTargets[judge.branch history s]? with
  | none =>
    refine .on [.event (.branched s (judge.branch history s))] hs' fun unit rest frames => ?_
    have hbranch : s.branchTargets[(judge.oracle history).branch [] s]? = none := htarget
    rw [hstep, plainStep, if_pos hs, hbranch]
    rfl
  | some target =>
    refine .jump [.event (.branched s (judge.branch history s))] target
      (List.mem_of_getElem? htarget) fun unit rest frames => ?_
    have hbranch : s.branchTargets[(judge.oracle history).branch [] s]? = some target := htarget
    rw [hstep, plainStep, if_pos hs, hbranch]
    exact relay_goOr _ _ _

/-- An elementary statement acts without regard to what is around it. -/
lemma acts_of_isElementary {s : Stmt} (hs : s.isElementary = true) : Acts judge history s := by
  cases s with
  | label id => exact .on [] rfl fun _ _ _ => rfl
  | push _ | assign _ _ | call _ _ | discard _ => exact .on _ rfl fun _ _ _ => rfl
  | raw offset op =>
    by_cases hcond : op.isConditional = true
    · refine acts_of_branch hcond ?_ fun unit rest frames => ?_
      · cases op <;> first | rfl | cases hcond
      · cases op <;> first | rfl | cases hcond
    · cases op with
      | ret => exact .stop _ _ fun _ _ _ => rfl
      | branchTrue | branchFalse | pushEnv | popEnv | dispatch => exact absurd rfl hcond
      | _ => exact .on _ rfl fun _ _ _ => rfl
  | goto target => exact .jump [] target List.mem_cons_self fun _ _ _ => relay_goOr _ _ _
  | condGoto test target =>
    by_cases hdecides : (judge.oracle history).decides [] test = true
    · refine .jump [.event ((judge.oracle history).asking [] test)] target List.mem_cons_self
        fun unit rest frames => ?_
      rw [judged_eq_relay (by simp) (by simp), stmtStep, leafStep, if_pos hdecides, relay_goOr]
      · rfl
      all_goals simp
    · refine .on [.event ((judge.oracle history).asking [] test)] rfl fun unit rest frames => ?_
      rw [judged_eq_relay (by simp) (by simp), stmtStep, leafStep, if_neg hdecides]
      · rfl
      all_goals simp
  | pushEnv _ _ | popEnv _ => exact acts_of_branch rfl rfl fun _ _ _ => rfl
  | dispatch value cases default =>
    exact .jump _ _ (dispatchTo_mem _ cases default) fun _ _ _ => rfl
  | ret value => exact .stop _ _ fun _ _ _ => rfl
  | exit => exact .stop _ _ fun _ _ _ => rfl
  | _ => cases hs

/-! ### Code that has been turned -/

/-- Where control is when a switch has been entered: in front of a jump, maybe in a case. -/
inductive Enters (target : LabelId) (frames : List Frame) : Place → Prop where
  | behind (code : List Stmt) : Enters target frames ⟨.goto target :: code, frames⟩
  | case (code rest : List Stmt) (later : List SwitchCase) :
      Enters target frames ⟨.goto target :: code, .case later rest :: frames⟩

/-- The code `b` runs like the code `a`.  Code is closed when control never runs off its end; nothing is
said of what stands behind the statement through which control leaves. -/
inductive Turns (bound : Nat) (fits : V → Expr → Bool) : Bool → List Stmt → List Stmt → Prop where
  | nil : Turns bound fits false [] []
  | elementary {closed : Bool} {s : Stmt} {rest rest' : List Stmt} (hs : s.isElementary = true)
      (htargets : ∀ id ∈ s.branchTargets, id < bound) (hrest : Turns bound fits closed rest rest') :
      Turns bound fits closed (s :: rest) (s :: rest')
  | final {s : Stmt} {rest rest' : List Stmt} (hs : s.isElementary = true)
      (hfinal : s.isUnconditional = true) (htargets : ∀ id ∈ s.branchTargets, id < bound) :
      Turns bound fits true (s :: rest) (s :: rest')
  /-- A block has been spliced. -/
  | block {block : BasicBlock} {label : LabelId} {body rest list : List Stmt}
      (hbody : block.body = .label label :: body) (h : Turns bound fits true block.body list) :
      Turns bound fits true (.basic block :: rest) list
  | loop {closed inside : Bool} {test : Option Expr} {block : Block} {body rest rest' : List Stmt}
      (hbody : Turns bound fits inside (code block) body)
      (hrest : Turns bound fits closed rest rest') :
      Turns bound fits closed (.loop test block :: rest) (.loop test ⟨none, body⟩ :: rest')
  | endless {inside : Bool} {block : Block} {body rest rest' : List Stmt}
      (hbody : Turns bound fits inside (code block) body) :
      Turns bound fits true (.loop none block :: rest) (.loop none ⟨none, body⟩ :: rest')
  | scope {closed inside : Bool} {env : Expr} {block : Block} {stop : Option LabelId}
      {body rest rest' : List Stmt} (hbody : Turns bound fits inside (code block) body)
      (hrest : Turns bound fits closed rest rest') :
      Turns bound fits closed (.scope env block stop :: rest) (.scope env ⟨none, body⟩ stop :: rest')
  /-- A branch has become a condition. -/
  | cond {test : Expr} {target other : LabelId} {rest thenBody elseBody rest' : List Stmt}
      (htarget : target < bound) (hother : other < bound) :
      Turns bound fits true (.condGoto test target :: .goto other :: rest)
        (.cond test ⟨none, .goto target :: thenBody⟩ ⟨none, .goto other :: elseBody⟩ :: rest')
  /-- A dispatch has become a switch. -/
  | switch {value : Expr} {cases : List (Expr × LabelId)} {default : LabelId} {list : List SwitchCase}
      {rest rest' : List Stmt} (htargets : ∀ v, dispatchTo (fits v) cases default < bound)
      (henters : ∀ v frames, Enters (dispatchTo (fits v) cases default) frames
        (enterCase rest' frames (enteredCases (fits v) list))) :
      Turns bound fits true (.dispatch value cases default :: rest) (.switch value list :: rest')

/-- What is left to do around two places at which closed code, or any code, runs alike. -/
inductive Around (bound : Nat) (fits : V → Expr → Bool) : Bool → List Frame → List Frame → Prop where
  | nil : Around bound fits false [] []
  | closed {frames frames' : List Frame} (h : Around bound fits false frames frames') :
      Around bound fits true frames frames'
  /-- Inside of a basic block. -/
  | block {closed : Bool} {rest : List Stmt} {frames frames' : List Frame}
      (h : Around bound fits closed frames frames') :
      Around bound fits true (.after rest :: frames) frames'
  /-- In an arm. -/
  | arm {closed : Bool} {rest : List Stmt} {frames frames' : List Frame}
      (h : Around bound fits closed frames frames') :
      Around bound fits true frames (.after rest :: frames')
  | case {closed : Bool} {later : List SwitchCase} {rest : List Stmt} {frames frames' : List Frame}
      (h : Around bound fits closed frames frames') :
      Around bound fits true frames (.case later rest :: frames')
  | loop {closed inside : Bool} {test : Option Expr} {body body' rest rest' : List Stmt}
      {frames frames' : List Frame} (hbody : Turns bound fits inside body body')
      (hrest : Turns bound fits closed rest rest') (h : Around bound fits closed frames frames') :
      Around bound fits false (.loop test body rest :: frames) (.loop test body' rest' :: frames')
  | endless {closed inside : Bool} {body body' rest rest' : List Stmt} {frames frames' : List Frame}
      (hbody : Turns bound fits inside body body') (h : Around bound fits closed frames frames') :
      Around bound fits false (.loop none body rest :: frames) (.loop none body' rest' :: frames')
  | scope {closed inside : Bool} {env : Expr} {stop : Option LabelId}
      {body body' rest rest' : List Stmt} {frames frames' : List Frame}
      (hbody : Turns bound fits inside body body') (hrest : Turns bound fits closed rest rest')
      (h : Around bound fits closed frames frames') :
      Around bound fits false (.scope env body stop rest :: frames)
        (.scope env body' stop rest' :: frames')

/-- A place and the place that has taken its place. -/
inductive Mirrors (bound : Nat) (fits : V → Expr → Bool) (p q : Place) : Prop where
  | intro {closed : Bool} (hcode : Turns bound fits closed p.code q.code)
      (hframes : Around bound fits closed p.frames q.frames)

variable {bound : Nat} {fits : V → Expr → Bool} {closed inside : Bool}

/-- What may stand around any code may stand around closed code. -/
lemma Around.weaken {frames frames' : List Frame} (h : Around bound fits false frames frames') :
    Around bound fits inside frames frames' := by
  cases inside with
  | false => exact h
  | true => exact .closed h

/-- What may stand around some code may stand around closed code. -/
lemma Around.closed_of {frames frames' : List Frame} (h : Around bound fits closed frames frames') :
    Around bound fits true frames frames' := by
  cases closed with
  | false => exact .closed h
  | true => exact h

/-- Jumps to a stop label lead to the end of the round of the same scope. -/
lemma Around.stopOf? {frames frames' : List Frame} {target : LabelId}
    (h : Around bound fits closed frames frames') :
    Option.Rel (Mirrors bound fits) (stopOf? target frames) (stopOf? target frames') := by
  induction h with
  | nil => exact .none
  | closed _ ih | block _ ih | arm _ ih | case _ ih => exact ih
  | loop _ _ _ ih | endless _ _ ih => exact ih
  | scope hbody hrest h ih =>
    rw [Execution.stopOf?, Execution.stopOf?]
    split
    · exact .some ⟨.nil, .scope hbody hrest h⟩
    · exact ih

/-! ### Following a unit -/

/-- Jumps to known labels land alike in two units. -/
def LandsAlike (bound : Nat) (fits : V → Expr → Bool) (a b : List Stmt) : Prop :=
  ∀ target, target < bound →
    Option.Rel (Mirrors bound fits) (findInList target [] a) (findInList target [] b)

variable {a b : Block}

lemma LandsAlike.land? (hlands : LandsAlike bound fits a.body b.body) {frames frames' : List Frame}
    {target : LabelId} (htarget : target < bound) (h : Around bound fits closed frames frames') :
    Option.Rel (Mirrors bound fits) (land? a.body frames target) (land? b.body frames' target) := by
  have hfind := hlands target htarget
  rw [Execution.land?, Execution.land?]
  generalize findInList target [] a.body = p at hfind ⊢
  generalize findInList target [] b.body = q at hfind ⊢
  cases hfind with
  | some h => exact .some h
  | none =>
    rw [Option.none_or, Option.none_or]
    exact h.stopOf?

/-- A step is matched by a run of the other machine from a place. -/
def Matched (bound : Nat) (judge : Judge V) (b : Block) (history : List Report) (q : Place) :
    Trace.Step Place Report Ending → Prop
  | .go reports next => ∃ k q', Trace.Machine.run (judged judge b) (k + 1) (.at history q) =
      .at (history ++ reports) q' ∧ Mirrors bound judge.fits next q'
  | .stop reports ending => ∃ k, Trace.Machine.run (judged judge b) k (.at history q) =
      .ended (history ++ reports) ending

section Following

variable {judge : Judge V} {p q : Place} {frames frames' : List Frame}

/-- A step that goes on is matched by one that does so alike. -/
lemma matched_go {reports : List Report} {next next' : Place}
    (hstep : judged judge b history q = .go reports next')
    (h : Mirrors bound judge.fits next next') :
    Matched bound judge b history q (.go reports next) :=
  ⟨0, next', run_one hstep, h⟩

/-- A step that ends is matched by one that ends alike. -/
lemma matched_stop {reports : List Report} {ending : Ending}
    (hstep : judged judge b history q = .stop reports ending) :
    Matched bound judge b history q (.stop reports ending) :=
  ⟨1, run_stop hstep⟩

/-- A jump is matched by one that lands alike. -/
lemma matched_jump {reports : List Report} {ending : Ending} {place? place?' : Option Place}
    (hstep : judged judge b history q = reportOr ending reports place?')
    (h : Option.Rel (Mirrors bound judge.fits) place? place?') :
    Matched bound judge b history q (reportOr ending reports place?) := by
  cases h with
  | some h => exact matched_go hstep h
  | none => exact matched_stop hstep

/-- A jump is matched by a step in front of a jump that lands alike. -/
lemma matched_step_jump {reports : List Report} {target : LabelId} {code : List Stmt}
    {place? : Option Place}
    (hstep : judged judge b history q = .go reports ⟨.goto target :: code, frames'⟩)
    (h : Option.Rel (Mirrors bound judge.fits) place? (land? b.body frames' target)) :
    Matched bound judge b history q (reportOr (.lost target) reports place?) := by
  have hfirst : Trace.Machine.run (judged judge b) 1 (.at history q) =
      .at (history ++ reports) ⟨.goto target :: code, frames'⟩ := run_one hstep
  have hjump : judged judge b (history ++ reports) ⟨.goto target :: code, frames'⟩ =
      reportOr (.lost target) [] (land? b.body frames' target) := relay_goOr _ _ _
  generalize land? b.body frames' target = place?' at h hjump
  cases h with
  | some h =>
    have hland : Trace.Machine.run (judged judge b) 1
        (.at (history ++ reports) ⟨.goto target :: code, frames'⟩) = .at (history ++ reports) _ :=
      run_silent hjump
    refine ⟨1, _, ?_, h⟩
    rw [Trace.Machine.run_add _ 1 1, hfirst, hland]
  | none =>
    have hlost : Trace.Machine.run (judged judge b) 1
        (.at (history ++ reports) ⟨.goto target :: code, frames'⟩) =
          .ended (history ++ reports ++ []) (.lost target) := run_stop hjump
    refine ⟨2, ?_⟩
    rw [Trace.Machine.run_add _ 1 1, hfirst, hlost, List.append_nil]

/-- The end of a list is matched. -/
lemma matched_end (h : Around bound judge.fits false frames frames') :
    Matched bound judge b history ⟨[], frames'⟩ (judged judge a history ⟨[], frames⟩) := by
  cases h with
  | nil => exact matched_stop rfl
  | @loop _ _ test _ _ _ _ _ _ hbody hrest h =>
    cases test with
    | none => exact matched_go rfl ⟨hbody, (Around.loop hbody hrest h).weaken⟩
    | some test =>
      refine matched_go rfl ?_
      split
      · exact ⟨hbody, (Around.loop hbody hrest h).weaken⟩
      · exact ⟨hrest, h⟩
  | endless hbody h => exact matched_go rfl ⟨hbody, (Around.endless hbody h).weaken⟩
  | scope hbody hrest h =>
    refine matched_go rfl ?_
    split
    · exact ⟨hbody, (Around.scope hbody hrest h).weaken⟩
    · exact ⟨hrest, h⟩

/-- An elementary statement is matched by itself. -/
lemma matched_elementary (hlands : LandsAlike bound judge.fits a.body b.body) {s : Stmt}
    {rest rest' : List Stmt} (hs : s.isElementary = true) (htargets : ∀ id ∈ s.branchTargets, id < bound)
    (hframes : Around bound judge.fits closed frames frames')
    (hrest : s.isUnconditional = false → Turns bound judge.fits closed rest rest') :
    Matched bound judge b history ⟨s :: rest', frames'⟩
      (judged judge a history ⟨s :: rest, frames⟩) := by
  have hacts : Acts judge history s := acts_of_isElementary hs
  cases hacts with
  | on reports hon hstep =>
    rw [hstep]
    exact matched_go (hstep _ _ _) ⟨hrest hon, hframes⟩
  | jump reports target htarget hstep =>
    rw [hstep]
    exact matched_jump (hstep _ _ _) (hlands.land? (htargets target htarget) hframes)
  | stop reports ending hstep =>
    rw [hstep]
    exact matched_stop (hstep _ _ _)

/-- A branch is matched by the condition that it has become. -/
lemma matched_cond (hlands : LandsAlike bound judge.fits a.body b.body) {test : Expr}
    {target other : LabelId} {rest thenBody elseBody rest' : List Stmt} (htarget : target < bound)
    (hother : other < bound) (hframes : Around bound judge.fits closed frames frames') :
    Matched bound judge b history
      ⟨.cond test ⟨none, .goto target :: thenBody⟩ ⟨none, .goto other :: elseBody⟩ :: rest', frames'⟩
      (judged judge a history ⟨.condGoto test target :: .goto other :: rest, frames⟩) := by
  by_cases hdecides : (judge.oracle history).decides [] test = true
  · have hsource : judged judge a history ⟨.condGoto test target :: .goto other :: rest, frames⟩ =
        reportOr (.lost target) [.event ((judge.oracle history).asking [] test)]
          (land? a.body frames target) := by
      rw [judged_eq_relay (by simp) (by simp), stmtStep, leafStep, if_pos hdecides, relay_goOr]
      · rfl
      all_goals simp
    have hstep : judged judge b history
        ⟨.cond test ⟨none, .goto target :: thenBody⟩ ⟨none, .goto other :: elseBody⟩ :: rest',
          frames'⟩ = .go [.event ((judge.oracle history).asking [] test)]
            ⟨.goto target :: thenBody, .after rest' :: frames'⟩ := by
      rw [judged_eq_relay (by simp) (by simp), stmtStep, if_pos hdecides]
      rfl
    rw [hsource]
    exact matched_step_jump hstep (hlands.land? htarget (.arm hframes))
  · have hsource : judged judge a history ⟨.condGoto test target :: .goto other :: rest, frames⟩ =
        .go [.event ((judge.oracle history).asking [] test)] ⟨.goto other :: rest, frames⟩ := by
      rw [judged_eq_relay (by simp) (by simp), stmtStep, leafStep, if_neg hdecides]
      · rfl
      all_goals simp
    have hstep : judged judge b history
        ⟨.cond test ⟨none, .goto target :: thenBody⟩ ⟨none, .goto other :: elseBody⟩ :: rest',
          frames'⟩ = .go [.event ((judge.oracle history).asking [] test)]
            ⟨.goto other :: elseBody, .after rest' :: frames'⟩ := by
      rw [judged_eq_relay (by simp) (by simp), stmtStep, if_neg hdecides]
      rfl
    rw [hsource]
    refine matched_go hstep ⟨.final rfl rfl ?_, .arm hframes⟩
    simpa [Stmt.branchTargets] using hother

/-- A dispatch is matched by the switch that it has become. -/
lemma matched_switch (hlands : LandsAlike bound judge.fits a.body b.body) {value : Expr}
    {cases : List (Expr × LabelId)} {default : LabelId} {list : List SwitchCase}
    {rest rest' : List Stmt} (htargets : ∀ v, dispatchTo (judge.fits v) cases default < bound)
    (henters : ∀ v frames, Enters (dispatchTo (judge.fits v) cases default) frames
      (enterCase rest' frames (enteredCases (judge.fits v) list)))
    (hframes : Around bound judge.fits closed frames frames') :
    Matched bound judge b history ⟨.switch value list :: rest', frames'⟩
      (judged judge a history ⟨.dispatch value cases default :: rest, frames⟩) := by
  have htarget := htargets (judge.value history value)
  have henter := henters (judge.value history value) frames'
  have hstep : judged judge b history ⟨.switch value list :: rest', frames'⟩ =
      .go [.dispatched value (leads? (enterCase rest' frames'
          (enteredCases (judge.fits (judge.value history value)) list)).code)]
        (enterCase rest' frames' (enteredCases (judge.fits (judge.value history value)) list)) := rfl
  generalize enterCase rest' frames' (enteredCases (judge.fits (judge.value history value)) list) =
    place at henter hstep
  cases henter with
  | behind code => exact matched_step_jump hstep (hlands.land? htarget hframes)
  | case code rest later => exact matched_step_jump hstep (hlands.land? htarget (.case hframes))

/-- Entering a block takes a step that the spliced code does not take. -/
def splicedSteps (place : Place) : Nat :=
  match place.code with
  | .basic _ :: _ => 1
  | _ => 0

/-- Each step of a unit is matched, or it enters a block that has been spliced. -/
lemma matched_of_mirrors (hlands : LandsAlike bound judge.fits a.body b.body)
    (h : Mirrors bound judge.fits p q) (history : List Report) :
    (∃ next, judged judge a history p = .go [] next ∧ Mirrors bound judge.fits next q ∧
        splicedSteps next < splicedSteps p) ∨
      Matched bound judge b history q (judged judge a history p) := by
  obtain ⟨code, frames⟩ := p
  obtain ⟨code', frames'⟩ := q
  obtain ⟨hcode, hframes⟩ := h
  dsimp only at hcode hframes
  cases hcode with
  | nil => exact .inr (matched_end hframes)
  | elementary hs htargets hrest => exact .inr (matched_elementary hlands hs htargets hframes fun _ => hrest)
  | final hs hfinal htargets =>
    refine .inr (matched_elementary hlands hs htargets hframes fun h => ?_)
    rw [hfinal] at h
    cases h
  | @block block label body rest list hbody h =>
    refine .inl ⟨⟨block.body, .after rest :: frames⟩, rfl, ⟨h, .block hframes⟩, ?_⟩
    rw [splicedSteps, hbody]
    exact Nat.zero_lt_one
  | loop hbody hrest => exact .inr (matched_go rfl ⟨.nil, .loop hbody hrest hframes⟩)
  | endless hbody => exact .inr (matched_go rfl ⟨.nil, .endless hbody hframes⟩)
  | scope hbody hrest => exact .inr (matched_go rfl ⟨.nil, .scope hbody hrest hframes⟩)
  | cond htarget hother => exact .inr (matched_cond hlands htarget hother hframes)
  | switch htargets henters => exact .inr (matched_switch hlands htargets henters hframes)

/-- A unit follows another as long as jumps land alike in both. -/
theorem simulation_of_landsAlike (hlands : LandsAlike bound judge.fits a.body b.body) :
    Trace.Simulation (judged judge a) (judged judge b) (Mirrors bound judge.fits) splicedSteps := by
  refine ⟨?_, ?_⟩
  · intro history p q reports next hpq hstep
    rcases matched_of_mirrors hlands hpq history with ⟨next', hstep', hnext, hrank⟩ | hmatched
    · rw [hstep] at hstep'
      cases hstep'
      exact .inl ⟨rfl, hnext, hrank⟩
    · rw [hstep] at hmatched
      exact .inr hmatched
  · intro history p q reports ending hpq hstep
    rcases matched_of_mirrors hlands hpq history with ⟨next', hstep', -, -⟩ | hmatched
    · rw [hstep] at hstep'
      cases hstep'
    · rwa [hstep] at hmatched

end Following

end Execution

end Decompiler
