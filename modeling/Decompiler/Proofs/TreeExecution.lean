import Decompiler.Flow.Flatten
import Decompiler.Proofs.Negation
import Decompiler.Proofs.Trace

/-!
# Running statement trees

The meaning of a tree of statements, as a machine that meets one statement after the other.  What the
tree leaves open is answered by an oracle, which may look at all that has happened: whether a test
holds, whether a scope has another instance, which case of a switch is taken.  A test and its negation
are the same question with the answer turned.

A place in a tree is the code that is left of the innermost list and the frames around it.  A jump
goes to the place of its label, wherever that is nested (`findInList`); a jump to the stop label of a
scope around it finishes the round of that scope.  Running off the end of the tree is leaving the unit.
-/

namespace Decompiler.Execution

/-! ### Places -/

/-- What is left to do around a list of statements. -/
inductive Frame where
  /-- The code after a nested list. -/
  | after (code : List Stmt)
  /-- A round of a loop. -/
  | loop (test : Option Expr) (body rest : List Stmt)
  /-- A round of a scope. -/
  | scope (env : Expr) (body : List Stmt) (stop : Option LabelId) (rest : List Stmt)
  /-- A case of a switch, with the cases after it. -/
  | case (later : List SwitchCase) (rest : List Stmt)

/-- A place in a tree: the code left of the innermost list, and the frames from the inside out. -/
structure Place where
  code : List Stmt
  frames : List Frame

/-- What runs when control enters a block: the jump to its entry, then its body. -/
def code (block : Block) : List Stmt :=
  Flatten.entryJump block.entry ++ block.body

/-- A block without an entry is its body. -/
@[simp] lemma code_mk_none (body : List Stmt) : code ⟨none, body⟩ = body := rfl

/-- The start of the first of some cases, or what comes after the switch when there is none. -/
def enterCase (rest : List Stmt) (frames : List Frame) : List SwitchCase → Place
  | [] => ⟨rest, frames⟩
  | c :: later => ⟨code c.body, .case later rest :: frames⟩

/-- Where a `break` leads: behind the innermost loop, scope or switch. -/
def leave? : List Frame → Option Place
  | [] => none
  | .after _ :: frames => leave? frames
  | .loop _ _ rest :: frames => some ⟨rest, frames⟩
  | .scope _ _ _ rest :: frames => some ⟨rest, frames⟩
  | .case _ rest :: frames => some ⟨rest, frames⟩

/-- Where a `continue` leads: to the end of the round of the innermost loop or scope. -/
def nextRound? : List Frame → Option Place
  | [] => none
  | .after _ :: frames => nextRound? frames
  | .loop test body rest :: frames => some ⟨[], .loop test body rest :: frames⟩
  | .scope env body stop rest :: frames => some ⟨[], .scope env body stop rest :: frames⟩
  | .case _ _ :: frames => nextRound? frames

/-- Where a jump to a stop label leads: to the end of the round of the scope around it that stops
there. -/
def stopOf? (target : LabelId) : List Frame → Option Place
  | [] => none
  | .scope env body stop rest :: frames =>
    if stop = some target then some ⟨[], .scope env body stop rest :: frames⟩
    else stopOf? target frames
  | _ :: frames => stopOf? target frames

mutual

/-- The place of a label in a statement that is followed by `rest`. -/
def findInStmt (target : LabelId) (rest : List Stmt) (frames : List Frame) : Stmt → Option Place
  | .basic block => findInList target (.after rest :: frames) block.body
  | .seq block => findInList target (.after rest :: frames) block.body
  | .cond _ thenBlock elseBlock =>
    (findInList target (.after rest :: frames) thenBlock.body).or
      (findInList target (.after rest :: frames) elseBlock.body)
  | .loop test block => findInList target (.loop test (code block) rest :: frames) block.body
  | .scope env block stop =>
    findInList target (.scope env (code block) stop rest :: frames) block.body
  | .switch _ cases => findInCases target rest frames cases
  | _ => none

/-- The place of a label in a list. -/
def findInList (target : LabelId) (frames : List Frame) : List Stmt → Option Place
  | [] => none
  | .label id :: rest =>
    if id = target then some ⟨.label id :: rest, frames⟩ else findInList target frames rest
  | s :: rest => (findInStmt target rest frames s).or (findInList target frames rest)

/-- The place of a label in the cases of a switch that is followed by `rest`. -/
def findInCases (target : LabelId) (rest : List Stmt) (frames : List Frame) :
    List SwitchCase → Option Place
  | [] => none
  | c :: later =>
    (findInList target (.case later rest :: frames) c.body.body).or
      (findInCases target rest frames later)

end

/-- Where a jump leads in the unit `root`. -/
def land? (root : List Stmt) (frames : List Frame) (target : LabelId) : Option Place :=
  (findInList target [] root).or (stopOf? target frames)

/-! ### Running -/

/-- What can be observed of a run. -/
inductive Event where
  /-- A statement was executed. -/
  | ran (s : Stmt)
  /-- A test was made, and this is the answer for its positive form. -/
  | tested (test : Expr) (answer : Bool)
  /-- A scope was asked for another instance. -/
  | asked (env : Expr) (answer : Bool)
  /-- A case was chosen among the values and default marks of a switch. -/
  | chose (value : Expr) (cases : List (List Expr × Bool)) (choice : Nat)
  /-- A branch that is no test took one of its targets. -/
  | branched (s : Stmt) (choice : Nat)

/-- How a run can end. -/
inductive Ending where
  /-- The unit was left, by `exit` or by running off its end. -/
  | finished
  | returned
  /-- There is no such label. -/
  | lost (target : LabelId)
  /-- A `break` or `continue` has nothing to leave or to repeat. -/
  | stray

/-- The answers to all that a tree leaves open. -/
structure Oracle where
  /-- Whether a test in its positive form holds. -/
  holds : List Event → Expr → Bool
  /-- Whether a scope has another instance. -/
  another : List Event → Expr → Bool
  /-- Which case of a switch is taken. -/
  choice : List Event → Expr → List (List Expr × Bool) → Nat
  /-- Which of its targets a branch takes. -/
  branch : List Event → Stmt → Nat
  /-- Whether a case that runs off its end goes on with the next one or leaves the switch. -/
  fallsThrough : Bool

/-- The question that a test asks: its positive form, and whether the test is the opposite of it. -/
def question (test : Expr) : Expr × Bool :=
  test.simplifyNot.1.polarity

namespace Oracle

/-- The record of a test. -/
def asking (oracle : Oracle) (history : List Event) (test : Expr) : Event :=
  .tested (question test).1 (oracle.holds history (question test).1)

/-- Whether a test holds. -/
def decides (oracle : Oracle) (history : List Event) (test : Expr) : Bool :=
  oracle.holds history (question test).1 != (question test).2

end Oracle

/-- What tells the cases of a switch apart. -/
def patterns (cases : List SwitchCase) : List (List Expr × Bool) :=
  cases.map fun c => (c.values, c.isDefault)

/-- A step of a run. -/
abbrev Outcome := Trace.Step Place Event Ending

/-- Goes on from a place, if there is one. -/
def goOr (ending : Ending) (events : List Event) : Option Place → Outcome
  | some place => .go events place
  | none => .stop events ending

/-- The step of a statement that runs and may jump, in front of `rest`. -/
def plainStep (oracle : Oracle) (root : List Stmt) (history : List Event) (frames : List Frame)
    (rest : List Stmt) (s : Stmt) : Outcome :=
  if s.isConditional then
    match s.branchTargets[oracle.branch history s]? with
    | some target =>
      goOr (.lost target) [.branched s (oracle.branch history s)] (land? root frames target)
    | none => .go [.branched s (oracle.branch history s)] ⟨rest, frames⟩
  else .go [.ran s] ⟨rest, frames⟩

/-- The step of a statement that is no structured one, in front of `rest`. -/
def leafStep (oracle : Oracle) (root : List Stmt) (history : List Event) (frames : List Frame)
    (rest : List Stmt) : Stmt → Outcome
  | .label _ => .go [] ⟨rest, frames⟩
  | .goto target => goOr (.lost target) [] (land? root frames target)
  | .condGoto test target =>
    if oracle.decides history test then
      goOr (.lost target) [oracle.asking history test] (land? root frames target)
    else .go [oracle.asking history test] ⟨rest, frames⟩
  | .breakOut => goOr .stray [] (leave? frames)
  | .continueLoop => goOr .stray [] (nextRound? frames)
  | .exit => .stop [] .finished
  | .ret value => .stop [.ran (.ret value)] .returned
  | .raw offset .ret => .stop [.ran (.raw offset .ret)] .returned
  | s => plainStep oracle root history frames rest s

/-- The step of a statement in front of `rest`.  A loop or scope starts as if it had just finished a
round. -/
def stmtStep (oracle : Oracle) (root : List Stmt) (history : List Event) (frames : List Frame)
    (rest : List Stmt) : Stmt → Outcome
  | .basic block => .go [] ⟨block.body, .after rest :: frames⟩
  | .seq block => .go [] ⟨code block, .after rest :: frames⟩
  | .cond test thenBlock elseBlock =>
    .go [oracle.asking history test]
      ⟨if oracle.decides history test then code thenBlock else code elseBlock,
        .after rest :: frames⟩
  | .loop test block => .go [] ⟨[], .loop test (code block) rest :: frames⟩
  | .scope env block stop => .go [] ⟨[], .scope env (code block) stop rest :: frames⟩
  | .switch value cases =>
    let choice := oracle.choice history value (patterns cases)
    .go [.chose value (patterns cases) choice] (enterCase rest frames (cases.drop choice))
  | s => leafStep oracle root history frames rest s

/-- The step at the end of a list. -/
def endStep (oracle : Oracle) (history : List Event) : List Frame → Outcome
  | [] => .stop [] .finished
  | .after rest :: frames => .go [] ⟨rest, frames⟩
  | .loop none body rest :: frames => .go [] ⟨body, .loop none body rest :: frames⟩
  | .loop (some test) body rest :: frames =>
    .go [oracle.asking history test]
      (if oracle.decides history test then ⟨body, .loop (some test) body rest :: frames⟩
        else ⟨rest, frames⟩)
  | .scope env body stop rest :: frames =>
    .go [.asked env (oracle.another history env)]
      (if oracle.another history env then ⟨body, .scope env body stop rest :: frames⟩
        else ⟨rest, frames⟩)
  | .case later rest :: frames =>
    .go [] (if oracle.fallsThrough then enterCase rest frames later else ⟨rest, frames⟩)

/-- A unit as a machine. -/
def machine (oracle : Oracle) (block : Block) : Trace.Machine Place Event Ending
  | history, ⟨[], frames⟩ => endStep oracle history frames
  | history, ⟨s :: rest, frames⟩ => stmtStep oracle block.body history frames rest s

/-- Where a unit starts. -/
def start (block : Block) : Place :=
  ⟨code block, []⟩

/-- Two units run alike, whatever the oracle answers. -/
def RunAlike (a b : Block) : Prop :=
  ∀ oracle : Oracle, Trace.SameTraces (machine oracle a) (start a) (machine oracle b) (start b)

/-! ### Negated tests -/

/-- A test and its folded negation ask the same question. -/
lemma question_negate (test : Expr) :
    question test.negate.simplifyNot.1 = ((question test).1, !(question test).2) := by
  rw [question, Expr.simplifyNot_simplifyNot, Expr.polarity_simplifyNot_negate]
  rfl

/-- A test and its folded negation leave the same record. -/
lemma Oracle.asking_negate (oracle : Oracle) (history : List Event) (test : Expr) :
    oracle.asking history test.negate.simplifyNot.1 = oracle.asking history test := by
  rw [asking, question_negate]
  rfl

/-- The folded negation of a test holds exactly when the test does not. -/
lemma Oracle.decides_negate (oracle : Oracle) (history : List Event) (test : Expr) :
    oracle.decides history test.negate.simplifyNot.1 = !oracle.decides history test := by
  rw [decides, question_negate, decides]
  exact Bool.bne_not _ _

/-! ### Finding labels -/

mutual

/-- A label is found in a statement exactly when it is defined there. -/
lemma findInStmt_eq_none_iff (target : LabelId) (rest : List Stmt) (frames : List Frame) :
    (s : Stmt) → (∀ id, s ≠ .label id) →
      (findInStmt target rest frames s = none ↔ target ∉ s.labels)
  | .label id, h => absurd rfl (h id)
  | .basic block, _ => by
    simpa only [findInStmt, Stmt.labels] using findInList_eq_none_iff target _ block.body
  | .seq block, _ => by
    simpa only [findInStmt, Stmt.labels] using findInList_eq_none_iff target _ block.body
  | .cond _ thenBlock elseBlock, _ => by
    simp only [findInStmt, Stmt.labels, Option.or_eq_none_iff, List.mem_append, not_or,
      findInList_eq_none_iff target _ thenBlock.body, findInList_eq_none_iff target _ elseBlock.body]
  | .loop _ block, _ => by
    simpa only [findInStmt, Stmt.labels] using findInList_eq_none_iff target _ block.body
  | .scope _ block _, _ => by
    simpa only [findInStmt, Stmt.labels] using findInList_eq_none_iff target _ block.body
  | .switch _ cases, _ => by
    simpa only [findInStmt, Stmt.labels] using findInCases_eq_none_iff target rest frames cases
  | .raw _ _, _ | .push _, _ | .assign _ _, _ | .call _ _, _ | .discard _, _ | .goto _, _
  | .condGoto _ _, _ | .pushEnv _ _, _ | .popEnv _, _ | .dispatch _ _ _, _ | .ret _, _ | .exit, _
  | .breakOut, _ | .continueLoop, _ => by
    simp only [findInStmt, Stmt.labels, List.not_mem_nil, not_false_eq_true]

/-- A label is found in a list exactly when it is defined there. -/
lemma findInList_eq_none_iff (target : LabelId) (frames : List Frame) :
    (list : List Stmt) → (findInList target frames list = none ↔ target ∉ Stmt.labelsOfList list)
  | [] => by simp only [findInList, Stmt.labelsOfList, List.not_mem_nil, not_false_eq_true]
  | s :: rest => by
    have ih := findInList_eq_none_iff target frames rest
    rw [Stmt.labelsOfList, List.mem_append, not_or, ← ih]
    by_cases hs : ∃ id, s = .label id
    · obtain ⟨id, rfl⟩ := hs
      rw [findInList, Stmt.labels, List.mem_singleton]
      by_cases hid : id = target
      · simp [hid]
      · simp [hid, Ne.symm hid]
    · have hs' : ∀ id, s ≠ .label id := fun id h => hs ⟨id, h⟩
      rw [findInList, Option.or_eq_none_iff, findInStmt_eq_none_iff target rest frames s hs']
      exact fun id h => hs' id h

/-- A label is found in the cases of a switch exactly when it is defined there. -/
lemma findInCases_eq_none_iff (target : LabelId) (rest : List Stmt) (frames : List Frame) :
    (cases : List SwitchCase) →
      (findInCases target rest frames cases = none ↔ target ∉ Stmt.labelsOfCases cases)
  | [] => by simp only [findInCases, Stmt.labelsOfCases, List.not_mem_nil, not_false_eq_true]
  | c :: later => by
    rw [findInCases, Stmt.labelsOfCases, Option.or_eq_none_iff, List.mem_append, not_or,
      findInList_eq_none_iff target _ c.body.body, findInCases_eq_none_iff target rest frames later]

end

/-- A list without a label in front. -/
lemma findInList_cons_of_ne {s : Stmt} (hs : ∀ id, s ≠ .label id) (target : LabelId)
    (frames : List Frame) (rest : List Stmt) :
    findInList target frames (s :: rest) =
      (findInStmt target rest frames s).or (findInList target frames rest) := by
  rw [findInList]
  exact fun id h => hs id h

/-- A statement that does not define a label is passed over in the search for it. -/
lemma findInList_cons_of_notMem {s : Stmt} {target : LabelId} (h : target ∉ s.labels)
    (frames : List Frame) (rest : List Stmt) :
    findInList target frames (s :: rest) = findInList target frames rest := by
  by_cases hs : ∃ id, s = .label id
  · obtain ⟨id, rfl⟩ := hs
    rw [Stmt.labels, List.mem_singleton] at h
    rw [findInList, if_neg (Ne.symm h)]
  · have hs' : ∀ id, s ≠ .label id := fun id heq => hs ⟨id, heq⟩
    rw [findInList_cons_of_ne hs', (findInStmt_eq_none_iff target rest frames s hs').mpr h,
      Option.none_or]

/-- A label that is found is where a jump lands. -/
lemma land?_of_find {root : List Stmt} {target : LabelId} {place : Place}
    (h : findInList target [] root = some place) (frames : List Frame) :
    land? root frames target = some place := by
  rw [land?, h, Option.some_or]

/-! ### Single steps -/

/-- One step of a run. -/
lemma run_one {σ α ε : Type} {m : Trace.Machine σ α ε} {history events : List α} {s t : σ}
    (h : m history s = .go events t) : m.run 1 (.at history s) = .at (history ++ events) t := by
  rw [Trace.Machine.run_succ, Trace.Machine.run_zero, Trace.Machine.advance_go h]

/-- One silent step of a run. -/
lemma run_silent {σ α ε : Type} {m : Trace.Machine σ α ε} {history : List α} {s t : σ}
    (h : m history s = .go [] t) : m.run 1 (.at history s) = .at history t := by
  rw [run_one h, List.append_nil]

/-- One step that ends a run. -/
lemma run_stop {σ α ε : Type} {m : Trace.Machine σ α ε} {history events : List α} {s : σ}
    {ending : ε} (h : m history s = .stop events ending) :
    m.run 1 (.at history s) = .ended (history ++ events) ending := by
  rw [Trace.Machine.run_succ, Trace.Machine.run_zero, Trace.Machine.advance_stop h]

/-! ### What holds of every statement

A property of all statements of a unit holds of all statements at every place that a run comes to. -/

/-- A property of statements and of the labels at which blocks are entered. -/
structure Property where
  stmt : Stmt → Prop
  entry : LabelId → Prop
  /-- Entering a block at a label is a jump there. -/
  goto : ∀ id, entry id → stmt (.goto id)

mutual

/-- Whether a property holds of a statement and of all that is nested in it. -/
def Every (P : Property) : Stmt → Prop
  | .basic block => P.stmt (.basic block) ∧ EveryIn P block.body
  | .seq block => P.stmt (.seq block) ∧ (∀ id ∈ block.entry, P.entry id) ∧ EveryIn P block.body
  | .cond test thenBlock elseBlock =>
    P.stmt (.cond test thenBlock elseBlock) ∧
      ((∀ id ∈ thenBlock.entry, P.entry id) ∧ EveryIn P thenBlock.body) ∧
      (∀ id ∈ elseBlock.entry, P.entry id) ∧ EveryIn P elseBlock.body
  | .loop test block =>
    P.stmt (.loop test block) ∧ (∀ id ∈ block.entry, P.entry id) ∧ EveryIn P block.body
  | .scope env block stop =>
    P.stmt (.scope env block stop) ∧ (∀ id ∈ block.entry, P.entry id) ∧ EveryIn P block.body
  | .switch value cases => P.stmt (.switch value cases) ∧ EveryCase P cases
  | s => P.stmt s

/-- Whether a property holds of every statement of a list. -/
def EveryIn (P : Property) : List Stmt → Prop
  | [] => True
  | s :: rest => Every P s ∧ EveryIn P rest

/-- Whether a property holds of every statement of the cases of a switch. -/
def EveryCase (P : Property) : List SwitchCase → Prop
  | [] => True
  | c :: rest =>
    ((∀ id ∈ c.body.entry, P.entry id) ∧ EveryIn P c.body.body) ∧ EveryCase P rest

end

/-- Whether a property holds of every statement of a frame. -/
def Frame.Every (P : Property) : Frame → Prop
  | .after code => EveryIn P code
  | .loop _ body rest => EveryIn P body ∧ EveryIn P rest
  | .scope _ body _ rest => EveryIn P body ∧ EveryIn P rest
  | .case later rest => EveryCase P later ∧ EveryIn P rest

/-- Whether a property holds of every statement at a place and around it. -/
def Place.Every (P : Property) (place : Place) : Prop :=
  EveryIn P place.code ∧ ∀ frame ∈ place.frames, frame.Every P

variable {P : Property}

/-- What holds of a statement with all that is nested in it holds of the statement. -/
lemma Every.self {s : Stmt} (h : Every P s) : P.stmt s := by
  cases s with
  | basic | seq | cond | loop | scope | switch =>
    rw [Every] at h
    exact h.1
  | label | raw | push | assign | call | discard | goto | condGoto | pushEnv | popEnv | dispatch
  | ret | exit | breakOut | continueLoop => simpa only [Every] using h

/-- A property holds of every statement of a list when it holds of each of its statements. -/
lemma everyIn_iff {list : List Stmt} : EveryIn P list ↔ ∀ s ∈ list, Every P s := by
  induction list with
  | nil => simp [EveryIn]
  | cons s rest ih => rw [EveryIn, ih, List.forall_mem_cons]

/-- A property holds of every statement of some cases when it holds of each of them. -/
lemma everyCase_iff {cases : List SwitchCase} :
    EveryCase P cases ↔
      ∀ c ∈ cases, (∀ id ∈ c.body.entry, P.entry id) ∧ EveryIn P c.body.body := by
  induction cases with
  | nil => simp [EveryCase]
  | cons c rest ih => rw [EveryCase, ih, List.forall_mem_cons]

/-- A property holds of a statement with all that is nested in it when it holds of the statement and of
what is in its blocks. -/
lemma every_iff {P : Property} (s : Stmt) : Every P s ↔ P.stmt s ∧
    (∀ block ∈ s.childBlocks, (∀ id ∈ block.entry, P.entry id) ∧ EveryIn P block.body) ∧
    ∀ block, s = .basic block → EveryIn P block.body := by
  cases s <;> simp [Every, Stmt.childBlocks, everyCase_iff]

mutual

/-- A property that follows from another one holds wherever that one holds. -/
lemma Every.mono {P Q : Property} (hstmt : ∀ s, P.stmt s → Q.stmt s)
    (hentry : ∀ id, P.entry id → Q.entry id) : (s : Stmt) → Every P s → Every Q s
  | .basic block, h => by
    rw [Every] at h
    exact ⟨hstmt _ h.1, EveryIn.mono hstmt hentry block.body h.2⟩
  | .seq block, h | .loop _ block, h | .scope _ block _, h => by
    rw [Every] at h
    exact ⟨hstmt _ h.1, fun id hid => hentry id (h.2.1 id hid),
      EveryIn.mono hstmt hentry block.body h.2.2⟩
  | .cond _ thenBlock elseBlock, h => by
    rw [Every] at h
    obtain ⟨hs, ⟨hthenEntry, hthen⟩, helseEntry, helse⟩ := h
    exact ⟨hstmt _ hs,
      ⟨fun id hid => hentry id (hthenEntry id hid), EveryIn.mono hstmt hentry thenBlock.body hthen⟩,
      fun id hid => hentry id (helseEntry id hid), EveryIn.mono hstmt hentry elseBlock.body helse⟩
  | .switch _ cases, h => by
    rw [Every] at h
    exact ⟨hstmt _ h.1, EveryCase.mono hstmt hentry cases h.2⟩
  | .label _, h | .raw _ _, h | .push _, h | .assign _ _, h | .call _ _, h | .discard _, h
  | .goto _, h | .condGoto _ _, h | .pushEnv _ _, h | .popEnv _, h | .dispatch _ _ _, h | .ret _, h
  | .exit, h | .breakOut, h | .continueLoop, h => hstmt _ h

/-- The same for the statements of a list. -/
lemma EveryIn.mono {P Q : Property} (hstmt : ∀ s, P.stmt s → Q.stmt s)
    (hentry : ∀ id, P.entry id → Q.entry id) : (list : List Stmt) → EveryIn P list → EveryIn Q list
  | [], _ => trivial
  | s :: rest, h => by
    rw [EveryIn] at h
    exact ⟨Every.mono hstmt hentry s h.1, EveryIn.mono hstmt hentry rest h.2⟩

/-- The same for the cases of a switch. -/
lemma EveryCase.mono {P Q : Property} (hstmt : ∀ s, P.stmt s → Q.stmt s)
    (hentry : ∀ id, P.entry id → Q.entry id) :
    (cases : List SwitchCase) → EveryCase P cases → EveryCase Q cases
  | [], _ => trivial
  | c :: rest, h => by
    rw [EveryCase] at h
    exact ⟨⟨fun id hid => hentry id (h.1.1 id hid), EveryIn.mono hstmt hentry c.body.body h.1.2⟩,
      EveryCase.mono hstmt hentry rest h.2⟩

end

/-- What holds of a block holds of what runs when control enters it. -/
lemma everyIn_code {block : Block} (hentry : ∀ id ∈ block.entry, P.entry id)
    (hbody : EveryIn P block.body) : EveryIn P (code block) := by
  rw [code, Flatten.entryJump]
  cases hb : block.entry with
  | none => exact hbody
  | some id => exact ⟨by simpa only [Every] using P.goto id (hentry id hb), hbody⟩

/-- What holds around a place and of the code after it holds around what is nested there. -/
lemma every_after {rest : List Stmt} {frames : List Frame} (hrest : EveryIn P rest)
    (hframes : ∀ frame ∈ frames, frame.Every P) :
    ∀ frame ∈ .after rest :: frames, frame.Every P :=
  List.forall_mem_cons.mpr ⟨hrest, hframes⟩

/-- What holds of some cases holds of the first of them. -/
lemma every_enterCase {rest : List Stmt} {frames : List Frame} {cases : List SwitchCase}
    (hrest : EveryIn P rest) (hframes : ∀ frame ∈ frames, frame.Every P)
    (hcases : EveryCase P cases) : (enterCase rest frames cases).Every P := by
  cases cases with
  | nil => exact ⟨hrest, hframes⟩
  | cons c later =>
    rw [EveryCase] at hcases
    exact ⟨everyIn_code hcases.1.1 hcases.1.2,
      List.forall_mem_cons.mpr ⟨⟨hcases.2, hrest⟩, hframes⟩⟩

/-- What holds of some cases holds of the last of them. -/
lemma everyCase_drop {cases : List SwitchCase} (h : EveryCase P cases) (n : Nat) :
    EveryCase P (cases.drop n) := by
  induction cases generalizing n with
  | nil => simpa only [List.drop_nil] using h
  | cons c rest ih =>
    cases n with
    | zero => exact h
    | succ n =>
      rw [EveryCase] at h
      exact ih h.2 n

/-- What holds around a place holds where a `break` leads. -/
lemma every_leave? {frames : List Frame} {place : Place}
    (hframes : ∀ frame ∈ frames, frame.Every P) (h : leave? frames = some place) :
    place.Every P := by
  induction frames with
  | nil => cases h
  | cons frame frames ih =>
    obtain ⟨hframe, hrest⟩ := List.forall_mem_cons.mp hframes
    cases frame with
    | after => exact ih hrest h
    | loop | scope | case =>
      cases h
      exact ⟨hframe.2, hrest⟩

/-- What holds around a place holds where a `continue` leads. -/
lemma every_nextRound? {frames : List Frame} {place : Place}
    (hframes : ∀ frame ∈ frames, frame.Every P) (h : nextRound? frames = some place) :
    place.Every P := by
  induction frames with
  | nil => cases h
  | cons frame frames ih =>
    cases frame with
    | after => exact ih (List.forall_mem_cons.mp hframes).2 h
    | case => exact ih (List.forall_mem_cons.mp hframes).2 h
    | loop | scope =>
      cases h
      exact ⟨trivial, hframes⟩

/-- What holds around a place holds where a jump to a stop label leads. -/
lemma every_stopOf? {target : LabelId} {frames : List Frame} {place : Place}
    (hframes : ∀ frame ∈ frames, frame.Every P) (h : stopOf? target frames = some place) :
    place.Every P := by
  induction frames with
  | nil => cases h
  | cons frame frames ih =>
    cases frame with
    | after => exact ih (List.forall_mem_cons.mp hframes).2 h
    | case => exact ih (List.forall_mem_cons.mp hframes).2 h
    | loop => exact ih (List.forall_mem_cons.mp hframes).2 h
    | scope env body stop rest =>
      rw [stopOf?] at h
      split at h
      · cases h
        exact ⟨trivial, hframes⟩
      · exact ih (List.forall_mem_cons.mp hframes).2 h

mutual

/-- What holds of a statement and around it holds at a label in it. -/
lemma every_findInStmt (target : LabelId) {rest : List Stmt} {frames : List Frame}
    (hrest : EveryIn P rest) (hframes : ∀ frame ∈ frames, frame.Every P) {place : Place} :
    (s : Stmt) → Every P s → findInStmt target rest frames s = some place → place.Every P
  | .basic block, hs, h => by
    rw [Every] at hs
    rw [findInStmt] at h
    exact every_findInList target (every_after hrest hframes) block.body hs.2 h
  | .seq block, hs, h => by
    rw [Every] at hs
    rw [findInStmt] at h
    exact every_findInList target (every_after hrest hframes) block.body hs.2.2 h
  | .cond test thenBlock elseBlock, hs, h => by
    rw [Every] at hs
    rw [findInStmt, Option.or_eq_some_iff] at h
    rcases h with h | ⟨-, h⟩
    · exact every_findInList target (every_after hrest hframes) thenBlock.body hs.2.1.2 h
    · exact every_findInList target (every_after hrest hframes) elseBlock.body hs.2.2.2 h
  | .loop test block, hs, h => by
    rw [Every] at hs
    rw [findInStmt] at h
    refine every_findInList target (List.forall_mem_cons.mpr ⟨?_, hframes⟩) block.body hs.2.2 h
    exact ⟨everyIn_code hs.2.1 hs.2.2, hrest⟩
  | .scope env block stop, hs, h => by
    rw [Every] at hs
    rw [findInStmt] at h
    refine every_findInList target (List.forall_mem_cons.mpr ⟨?_, hframes⟩) block.body hs.2.2 h
    exact ⟨everyIn_code hs.2.1 hs.2.2, hrest⟩
  | .switch _ cases, hs, h => by
    rw [Every] at hs
    rw [findInStmt] at h
    exact every_findInCases target hrest hframes cases hs.2 h
  | .label _, _, h | .raw _ _, _, h | .push _, _, h | .assign _ _, _, h | .call _ _, _, h
  | .discard _, _, h | .goto _, _, h | .condGoto _ _, _, h | .pushEnv _ _, _, h | .popEnv _, _, h
  | .dispatch _ _ _, _, h | .ret _, _, h | .exit, _, h | .breakOut, _, h
  | .continueLoop, _, h => by
    simp only [findInStmt, reduceCtorEq] at h

/-- What holds of a list and around it holds at a label in it. -/
lemma every_findInList (target : LabelId) {frames : List Frame}
    (hframes : ∀ frame ∈ frames, frame.Every P) {place : Place} :
    (list : List Stmt) → EveryIn P list → findInList target frames list = some place →
      place.Every P
  | [], _, h => by simp only [findInList, reduceCtorEq] at h
  | s :: rest, hs, h => by
    rw [EveryIn] at hs
    have ih : findInList target frames rest = some place → place.Every P :=
      every_findInList target hframes rest hs.2
    have ihs : findInStmt target rest frames s = some place → place.Every P :=
      every_findInStmt target hs.2 hframes s hs.1
    unfold findInList at h
    split at h
    · cases ‹_ = []›
    · rename_i id rest' heq
      cases heq
      split at h
      · cases h
        exact ⟨hs, hframes⟩
      · exact ih h
    · rename_i heq
      cases heq
      rcases Option.or_eq_some_iff.mp h with h | ⟨-, h⟩
      · exact ihs h
      · exact ih h

/-- What holds of the cases of a switch and around them holds at a label in them. -/
lemma every_findInCases (target : LabelId) {rest : List Stmt} {frames : List Frame}
    (hrest : EveryIn P rest) (hframes : ∀ frame ∈ frames, frame.Every P) {place : Place} :
    (cases : List SwitchCase) → EveryCase P cases →
      findInCases target rest frames cases = some place → place.Every P
  | [], _, h => by simp only [findInCases, reduceCtorEq] at h
  | c :: later, hc, h => by
    rw [EveryCase] at hc
    rw [findInCases, Option.or_eq_some_iff] at h
    rcases h with h | ⟨-, h⟩
    · refine every_findInList target (List.forall_mem_cons.mpr ⟨?_, hframes⟩) c.body.body hc.1.2 h
      exact ⟨hc.2, hrest⟩
    · exact every_findInCases target hrest hframes later hc.2 h

end

/-- What holds of a unit and around a place in it holds where a jump leads. -/
lemma every_land? {root : List Stmt} {frames : List Frame} {target : LabelId} {place : Place}
    (hroot : EveryIn P root) (hframes : ∀ frame ∈ frames, frame.Every P)
    (h : land? root frames target = some place) : place.Every P := by
  rcases Option.or_eq_some_iff.mp h with h | ⟨-, h⟩
  · exact every_findInList target (fun _ hmem => absurd hmem List.not_mem_nil) root hroot h
  · exact every_stopOf? hframes h

/-- A step that goes on if there is a place does so at that place. -/
lemma goOr_eq_go {ending : Ending} {events events' : List Event} {place? : Option Place}
    {next : Place} (h : goOr ending events place? = .go events' next) : place? = some next := by
  cases place? with
  | none => cases h
  | some place =>
    cases h
    rfl

/-- What holds at a place holds after the step at the end of a list. -/
lemma every_endStep {oracle : Oracle} {history events : List Event} {frames : List Frame}
    {next : Place} (hframes : ∀ frame ∈ frames, frame.Every P)
    (h : endStep oracle history frames = .go events next) : next.Every P := by
  cases frames with
  | nil => cases h
  | cons frame frames =>
    obtain ⟨hframe, hrest⟩ := List.forall_mem_cons.mp hframes
    cases frame with
    | after code =>
      cases h
      exact ⟨hframe, hrest⟩
    | loop test body rest =>
      cases test with
      | none =>
        cases h
        exact ⟨hframe.1, hframes⟩
      | some test =>
        cases h
        split
        · exact ⟨hframe.1, hframes⟩
        · exact ⟨hframe.2, hrest⟩
    | scope env body stop rest =>
      cases h
      split
      · exact ⟨hframe.1, hframes⟩
      · exact ⟨hframe.2, hrest⟩
    | case later rest =>
      cases h
      split
      · exact every_enterCase hframe.2 hrest hframe.1
      · exact ⟨hframe.2, hrest⟩

/-- What holds of a unit and at a place holds after the step of a statement without blocks. -/
lemma every_leafStep {oracle : Oracle} {root : List Stmt} {history events : List Event}
    {frames : List Frame} {rest : List Stmt} {s : Stmt} {next : Place} (hroot : EveryIn P root)
    (hrest : EveryIn P rest) (hframes : ∀ frame ∈ frames, frame.Every P)
    (h : leafStep oracle root history frames rest s = .go events next) : next.Every P := by
  unfold leafStep at h
  split at h
  · cases h
    exact ⟨hrest, hframes⟩
  · exact every_land? hroot hframes (goOr_eq_go h)
  · split at h
    · exact every_land? hroot hframes (goOr_eq_go h)
    · cases h
      exact ⟨hrest, hframes⟩
  · exact every_leave? hframes (goOr_eq_go h)
  · exact every_nextRound? hframes (goOr_eq_go h)
  · cases h
  · cases h
  · cases h
  · unfold plainStep at h
    split at h
    · split at h
      · exact every_land? hroot hframes (goOr_eq_go h)
      · cases h
        exact ⟨hrest, hframes⟩
    · cases h
      exact ⟨hrest, hframes⟩

/-- What holds of a unit and at a place holds after the step of a statement. -/
lemma every_stmtStep {oracle : Oracle} {root : List Stmt} {history events : List Event}
    {frames : List Frame} {rest : List Stmt} {s : Stmt} {next : Place} (hroot : EveryIn P root)
    (hs : Every P s) (hrest : EveryIn P rest) (hframes : ∀ frame ∈ frames, frame.Every P)
    (h : stmtStep oracle root history frames rest s = .go events next) : next.Every P := by
  unfold stmtStep at h
  split at h
  · rw [Every] at hs
    cases h
    exact ⟨hs.2, every_after hrest hframes⟩
  · rw [Every] at hs
    cases h
    exact ⟨everyIn_code hs.2.1 hs.2.2, every_after hrest hframes⟩
  · rw [Every] at hs
    cases h
    refine ⟨?_, every_after hrest hframes⟩
    dsimp only
    split
    · exact everyIn_code hs.2.1.1 hs.2.1.2
    · exact everyIn_code hs.2.2.1 hs.2.2.2
  · rw [Every] at hs
    cases h
    refine ⟨trivial, List.forall_mem_cons.mpr ⟨?_, hframes⟩⟩
    exact ⟨everyIn_code hs.2.1 hs.2.2, hrest⟩
  · rw [Every] at hs
    cases h
    refine ⟨trivial, List.forall_mem_cons.mpr ⟨?_, hframes⟩⟩
    exact ⟨everyIn_code hs.2.1 hs.2.2, hrest⟩
  · rw [Every] at hs
    cases h
    exact every_enterCase hrest hframes (everyCase_drop hs.2 _)
  · exact every_leafStep hroot hrest hframes h

/-- What holds of all statements of a unit holds at every place that a step comes to. -/
theorem every_machine {oracle : Oracle} {block : Block} {history events : List Event}
    {place next : Place} (hroot : EveryIn P block.body) (hplace : place.Every P)
    (h : machine oracle block history place = .go events next) : next.Every P := by
  obtain ⟨code, frames⟩ := place
  obtain ⟨hcode, hframes⟩ := hplace
  cases code with
  | nil => exact every_endStep hframes h
  | cons s rest =>
    rw [EveryIn] at hcode
    exact every_stmtStep hroot hcode.1 hcode.2 hframes h

/-! ### Flat trees -/

/-- There are no basic blocks, and no block is entered at a label. -/
def isFlat : Property where
  stmt s := ∀ block, s ≠ .basic block
  entry _ := False
  goto _ h := h.elim

/-- A block that is entered at no label has no entry. -/
lemma entry_eq_none {entry : Option LabelId} (h : ∀ id ∈ entry, isFlat.entry id) : entry = none :=
  Option.eq_none_iff_forall_not_mem.mpr h

/-- A unit without basic blocks and without entries. -/
structure FlatUnit (block : Block) : Prop where
  entry : block.entry = none
  body : EveryIn isFlat block.body

/-! ### Known targets -/

/-- All branches lead to one of some labels. -/
def targetsIn (known : List LabelId) : Property where
  stmt s := ∀ id ∈ s.branchTargets, id ∈ known
  entry id := id ∈ known
  goto _ h := List.forall_mem_singleton.mpr h

mutual

/-- All branches of a statement lead to its targets. -/
lemma every_targetsIn {known : List LabelId} :
    (s : Stmt) → (∀ id ∈ s.targets, id ∈ known) → Every (targetsIn known) s
  | .basic block, h => by
    rw [Stmt.targets] at h
    exact ⟨List.forall_mem_nil _, everyIn_targetsIn block.body h⟩
  | .seq block, h => by
    rw [Stmt.targets, List.forall_mem_append] at h
    refine ⟨List.forall_mem_nil _, ?_, everyIn_targetsIn block.body h.2⟩
    exact fun id hid => h.1 id (Option.mem_toList.mpr hid)
  | .cond test thenBlock elseBlock, h => by
    simp only [Stmt.targets, List.forall_mem_append] at h
    refine ⟨List.forall_mem_nil _, ⟨?_, everyIn_targetsIn thenBlock.body h.1.2⟩, ?_,
      everyIn_targetsIn elseBlock.body h.2.2⟩
    · exact fun id hid => h.1.1 id (Option.mem_toList.mpr hid)
    · exact fun id hid => h.2.1 id (Option.mem_toList.mpr hid)
  | .loop test block, h => by
    rw [Stmt.targets, List.forall_mem_append] at h
    refine ⟨List.forall_mem_nil _, ?_, everyIn_targetsIn block.body h.2⟩
    exact fun id hid => h.1 id (Option.mem_toList.mpr hid)
  | .scope env block stop, h => by
    rw [Stmt.targets, List.forall_mem_append] at h
    refine ⟨List.forall_mem_nil _, ?_, everyIn_targetsIn block.body h.2⟩
    exact fun id hid => h.1 id (Option.mem_toList.mpr hid)
  | .switch value cases, h => by
    rw [Stmt.targets] at h
    exact ⟨List.forall_mem_nil _, everyCase_targetsIn cases h⟩
  | .label _, h | .raw _ _, h | .push _, h | .assign _ _, h | .call _ _, h | .discard _, h
  | .goto _, h | .condGoto _ _, h | .pushEnv _ _, h | .popEnv _, h | .dispatch _ _ _, h | .ret _, h
  | .exit, h | .breakOut, h | .continueLoop, h => by
    simpa only [Stmt.targets, Every, targetsIn] using h

/-- All branches of a list lead to its targets. -/
lemma everyIn_targetsIn {known : List LabelId} :
    (list : List Stmt) → (∀ id ∈ Stmt.targetsOfList list, id ∈ known) →
      EveryIn (targetsIn known) list
  | [], _ => trivial
  | s :: rest, h => by
    rw [Stmt.targetsOfList, List.forall_mem_append] at h
    exact ⟨every_targetsIn s h.1, everyIn_targetsIn rest h.2⟩

/-- All branches of the cases of a switch lead to their targets. -/
lemma everyCase_targetsIn {known : List LabelId} :
    (cases : List SwitchCase) → (∀ id ∈ Stmt.targetsOfCases cases, id ∈ known) →
      EveryCase (targetsIn known) cases
  | [], _ => trivial
  | c :: rest, h => by
    simp only [Stmt.targetsOfCases, List.forall_mem_append] at h
    refine ⟨⟨?_, everyIn_targetsIn c.body.body h.1.2⟩, everyCase_targetsIn rest h.2⟩
    exact fun id hid => h.1.1 id (Option.mem_toList.mpr hid)

end

end Decompiler.Execution
