import Mathlib.Data.List.Forall2
import Decompiler.Proofs.KeptConditions
import Decompiler.Proofs.RecoveredSwitches
import Decompiler.Proofs.TreePlaces

/-!
# Lists whose conditions have been recovered run like before

The recovery of conditions carries a block to another one (`Carries`) when the code of the one turns into
the spliced code of the other, when each label stands at matching places in both, and when the same
statements stand in both.  A list of blocks whose loops and scopes are carried, and whose items are then
arranged, is carried as well (`carries_of_recovered`).

For the places this is the point: an item is arranged in an arm, in a case or in the list itself, and
around closed code these frames do not matter (`Arranges.exists_place`).
-/

namespace Decompiler

namespace Conditions

open Execution Flatten

variable {V : Type} {bound : Nat} {fits : V → Expr → Bool}

/-! ### Carried statements -/

/-- A label stands at matching places of two units. -/
def Meets (bound : Nat) (fits : V → Expr → Bool) (unit unit' : Block) (id : LabelId) : Prop :=
  ∃ rest rest' frames frames', IsPlace unit (.label id :: rest) frames ∧
    IsPlace unit' (.label id :: rest') frames' ∧
    Mirrors bound fits ⟨.label id :: rest, frames⟩ ⟨.label id :: rest', frames'⟩

/-- The spliced code of `block'` runs like that of `block`, with each label at matching places, and with the
same statements. -/
structure Carries (bound : Nat) (fits : V → Expr → Bool) (block block' : Block) : Prop where
  turns : ∃ closed, Turns bound fits closed (code block) (spliced block')
  meets : ∀ unit unit' frames frames', IsPlace unit (code block) frames →
    IsPlace unit' (spliced block') frames' → Around bound fits false frames frames' →
    ∀ id ∈ Stmt.labelsOfList block.body, Meets bound fits unit unit' id
  counts : ∀ test, Balanced bound test →
    Stmt.countList test (spliced block') = Stmt.countList test (spliced block)

/-- A statement of a block and what has become of it: the same, or a loop or scope whose body has been
carried. -/
inductive Carried (bound : Nat) (fits : V → Expr → Bool) : Stmt → Stmt → Prop where
  | elementary {s : Stmt} (hs : s.isElementary = true) (htargets : ∀ id ∈ s.branchTargets, id < bound)
      (hdistinct : ∀ cases ∈ s.dispatches, Distinct fits cases) : Carried bound fits s s
  | loop {test : Option Expr} {block block' : Block} (h : Carries bound fits block block') :
      Carried bound fits (.loop test block) (.loop test block')
  | scope {env : Expr} {block block' : Block} {stop : Option LabelId}
      (h : Carries bound fits block block') :
      Carried bound fits (.scope env block stop) (.scope env block' stop)

lemma spliceStmt_of_isElementary {s : Stmt} (hs : s.isElementary = true) : spliceStmt s = s := by
  cases s with
  | basic | seq | cond | loop | scope | switch | breakOut | continueLoop => cases hs
  | _ => simp [spliceStmt]

variable {closed : Bool} {unit unit' : Block} {frames frames' : List Frame} {s s' : Stmt}
  {init init' x y rest rest' : List Stmt}

/-- A carried statement turns into the statement it is carried to, spliced. -/
lemma Carried.turns (h : Carried bound fits s s') (hrest : Turns bound fits closed rest rest') :
    Turns bound fits closed (s :: rest) (spliceStmt s' :: rest') := by
  cases h with
  | elementary hs htargets =>
    rw [spliceStmt_of_isElementary hs]
    exact .elementary hs htargets hrest
  | loop h =>
    obtain ⟨inside, hbody⟩ := h.turns
    exact .loop hbody hrest
  | scope h =>
    obtain ⟨inside, hbody⟩ := h.turns
    exact .scope hbody hrest

/-- Carried statements in front of code that is turned. -/
lemma turns_append (h : List.Forall₂ (Carried bound fits) init init')
    (hturns : Turns bound fits closed x y) :
    Turns bound fits closed (init ++ x) (spliceStmts init' ++ y) := by
  induction h with
  | nil => exact hturns
  | cons hs _ ih => exact hs.turns ih

/-- The labels of a carried statement stand at matching places. -/
lemma Carried.meets (h : Carried bound fits s s') (hplace : IsPlace unit (s :: rest) frames)
    (hplace' : IsPlace unit' (spliceStmt s' :: rest') frames')
    (hturns : Turns bound fits closed (s :: rest) (spliceStmt s' :: rest'))
    (hframes : Around bound fits closed frames frames') :
    ∀ id ∈ s.labels, Meets bound fits unit unit' id := by
  intro id hid
  cases h with
  | elementary hs =>
    rw [spliceStmt_of_isElementary hs] at hplace' hturns
    cases s with
    | label id' =>
      rw [Stmt.labels, List.mem_singleton] at hid
      subst hid
      exact ⟨rest, rest', frames, frames', hplace, hplace', ⟨hturns, hframes⟩⟩
    | basic | seq | cond | loop | scope | switch | breakOut | continueLoop => cases hs
    | _ => simp only [Stmt.labels, List.not_mem_nil] at hid
  | @loop test block block' h =>
    have hin : IsPlace unit (code block) (.loop test (code block) rest :: frames) :=
      hplace.inside (by simp [innerLists])
    have hin' : IsPlace unit' (spliced block') (.loop test (spliced block') rest' :: frames') :=
      hplace'.inside (by simp [spliceStmt, innerLists, spliced])
    have haround : Around bound fits false (.loop test (code block) rest :: frames)
        (.loop test (spliced block') rest' :: frames') := by
      generalize hlist : Stmt.loop test block :: rest = list at hturns
      generalize hlist' : spliceStmt (.loop test block') :: rest' = list' at hturns
      cases hturns with
      | nil | block => cases hlist
      | scope | cond | switch => cases hlist
      | elementary hs | final hs =>
        cases hlist
        cases hs
      | loop hbody hrest =>
        cases hlist
        cases hlist'
        exact .loop hbody hrest hframes
      | endless hbody =>
        cases hlist
        cases hlist'
        exact .endless hbody hframes
    exact h.meets unit unit' _ _ hin hin' haround id (by rwa [Stmt.labels] at hid)
  | @scope env block block' stop h =>
    have hin : IsPlace unit (code block) (.scope env (code block) stop rest :: frames) :=
      hplace.inside (by simp [innerLists])
    have hin' : IsPlace unit' (spliced block')
        (.scope env (spliced block') stop rest' :: frames') :=
      hplace'.inside (by simp [spliceStmt, innerLists, spliced])
    have haround : Around bound fits false (.scope env (code block) stop rest :: frames)
        (.scope env (spliced block') stop rest' :: frames') := by
      generalize hlist : Stmt.scope env block stop :: rest = list at hturns
      generalize hlist' : spliceStmt (.scope env block' stop) :: rest' = list' at hturns
      cases hturns with
      | nil | block => cases hlist
      | loop | endless | cond | switch => cases hlist
      | elementary hs | final hs =>
        cases hlist
        cases hs
      | scope hbody hrest =>
        cases hlist
        cases hlist'
        exact .scope hbody hrest hframes
    exact h.meets unit unit' _ _ hin hin' haround id (by rwa [Stmt.labels] at hid)

/-- The labels of carried statements stand at matching places. -/
lemma meets_append (h : List.Forall₂ (Carried bound fits) init init')
    (hturns : Turns bound fits closed x y) (hplace : IsPlace unit (init ++ x) frames)
    (hplace' : IsPlace unit' (spliceStmts init' ++ y) frames')
    (hframes : Around bound fits closed frames frames') :
    ∀ id ∈ Stmt.labelsOfList init, Meets bound fits unit unit' id := by
  induction h with
  | nil => simp [Stmt.labelsOfList]
  | cons hs hrest ih =>
    intro id hid
    rw [Stmt.labelsOfList, List.mem_append] at hid
    rcases hid with hid | hid
    · exact hs.meets hplace hplace' (hs.turns (turns_append hrest hturns)) hframes id hid
    · exact ih hplace.tail hplace'.tail id hid

/-- A carried statement counts for what it was. -/
lemma Carried.counts (h : Carried bound fits s s') {test : Stmt → Bool}
    (htest : Balanced bound test) :
    (spliceStmt s').count test = (spliceStmt s).count test := by
  cases h with
  | elementary hs => rfl
  | @loop e block block' h =>
    have hhead := htest.loop e ⟨none, spliced block'⟩ ⟨none, spliced block⟩
    have hbody := h.counts test htest
    have hcount : ∀ b : Block, (spliceStmt (.loop e b)).count test =
        Stmt.mark test (.loop e ⟨none, spliced b⟩) + Stmt.countList test (spliced b) := fun b => by
      rw [spliceStmt, Stmt.count]
      rfl
    rw [hcount, hcount, hhead, hbody]
  | @scope env block block' stop h =>
    have hhead := htest.scope env ⟨none, spliced block'⟩ ⟨none, spliced block⟩ stop
    have hbody := h.counts test htest
    have hcount : ∀ b : Block, (spliceStmt (.scope env b stop)).count test =
        Stmt.mark test (.scope env ⟨none, spliced b⟩ stop) + Stmt.countList test (spliced b) :=
      fun b => by
        rw [spliceStmt, Stmt.count]
        rfl
    rw [hcount, hcount, hhead, hbody]

/-- Carried statements count for what they were. -/
lemma countList_carried (h : List.Forall₂ (Carried bound fits) init init') {test : Stmt → Bool}
    (htest : Balanced bound test) :
    Stmt.countList test (spliceStmts init') = Stmt.countList test (spliceStmts init) := by
  induction h with
  | nil => rfl
  | cons hs _ ih => simp only [spliceStmts, Stmt.countList, hs.counts htest, ih]

/-! ### Carried blocks -/

/-- What has become of an elementary statement is the statement. -/
lemma Carried.eq_of_isElementary (h : Carried bound fits s s') (hs' : s'.isElementary = true) :
    s = s' ∧ (∀ id ∈ s'.branchTargets, id < bound) ∧
      ∀ cases ∈ s'.dispatches, Distinct fits cases := by
  cases h with
  | elementary hs htargets hdistinct => exact ⟨rfl, htargets, hdistinct⟩
  | loop | scope => cases hs'

lemma exists_append_of_forall₂ {α β : Type} {R : α → β → Prop} {list : List α} {a b : List β}
    (h : List.Forall₂ R list (a ++ b)) :
    ∃ c d, list = c ++ d ∧ List.Forall₂ R c a ∧ List.Forall₂ R d b :=
  ⟨list.take a.length, list.drop a.length, (List.take_append_drop _ _).symm,
    List.forall₂_take_append list a b h, List.forall₂_drop_append list a b h⟩

/-- A statement that closes a block, whatever stands behind the statement it is carried to. -/
lemma Carried.turns_of_closes (h : Carried bound fits s s') (hs : s.closes = true)
    (rest rest' : List Stmt) : Turns bound fits true (s :: rest) (spliceStmt s' :: rest') := by
  cases h with
  | elementary helementary htargets =>
    have hfinal : s.isUnconditional = true := by
      cases s with
      | goto | ret | exit => rfl
      | loop => cases helementary
      | _ => cases hs
    rw [spliceStmt_of_isElementary helementary]
    exact .final helementary hfinal htargets
  | @loop test _ _ h =>
    obtain ⟨inside, hbody⟩ := h.turns
    cases test with
    | none => exact .endless hbody
    | some test => cases hs
  | scope => cases hs

/-- A block in order turns into the block that it is carried to, spliced in front of whatever follows. -/
lemma turns_of_inOrder {body body' : List Stmt} (h : List.Forall₂ (Carried bound fits) body body')
    (horder : Stmt.inOrder body = true) (rest : List Stmt) :
    Turns bound fits true body (spliceStmts body' ++ rest) := by
  induction h with
  | nil => cases horder
  | @cons s s' more more' hs hmore ih =>
    cases more with
    | nil => exact hs.turns_of_closes horder _ _
    | cons t more => exact hs.turns (ih (Stmt.inOrder_tail (by simp) horder))

/-- The labels of a block in order stand at matching places. -/
lemma meets_of_inOrder {body body' : List Stmt} (h : List.Forall₂ (Carried bound fits) body body')
    (horder : Stmt.inOrder body = true) (hplace : IsPlace unit body frames)
    (hplace' : IsPlace unit' (spliceStmts body' ++ rest) frames')
    (hframes : Around bound fits true frames frames') :
    ∀ id ∈ Stmt.labelsOfList body, Meets bound fits unit unit' id := by
  induction h with
  | nil => cases horder
  | @cons s s' more more' hs hmore ih =>
    intro id hid
    rw [Stmt.labelsOfList, List.mem_append] at hid
    rcases hid with hid | hid
    · exact hs.meets hplace hplace' (turns_of_inOrder (.cons hs hmore) horder rest) hframes id hid
    · cases more with
      | nil => cases hid
      | cons t more =>
        exact ih (Stmt.inOrder_tail (by simp) horder) hplace.tail hplace'.tail id hid

/-- What is known of a block and of the code that has taken its place in front of `rest`. -/
structure Replaces (bound : Nat) (fits : V → Expr → Bool) (body list : List Stmt) : Prop where
  turns : Turns bound fits true body list
  meets : ∀ unit unit' frames frames', IsPlace unit body frames → IsPlace unit' list frames' →
    Around bound fits true frames frames' →
    ∀ id ∈ Stmt.labelsOfList body, Meets bound fits unit unit' id

/-- Carried statements in front of an end without labels. -/
lemma replaces_append (h : List.Forall₂ (Carried bound fits) init init')
    (hturns : Turns bound fits true x y) (hlabels : Stmt.labelsOfList x = []) :
    Replaces bound fits (init ++ x) (spliceStmts init' ++ y) where
  turns := turns_append h hturns
  meets unit unit' frames frames' hplace hplace' hframes id hid := by
    rw [Stmt.labelsOfList_append, hlabels, List.append_nil] at hid
    exact meets_append h hturns hplace hplace' hframes id hid

/-- A block that has taken the place of an item replaces the block from which the item comes. -/
lemma Reshaped.replaces {items : List Stmt} {i : Nat} {block block' new : BasicBlock}
    {bodies : List (List Stmt)} (h : Reshaped items i new bodies)
    (hitem : items[i]? = some (.basic block'))
    (hbody : List.Forall₂ (Carried bound fits) block.body block'.body)
    (horder : Stmt.inOrder block.body = true) (rest : List Stmt) :
    Replaces bound fits block.body (spliceStmts new.body ++ rest) := by
  cases h with
  | same hnew =>
    rw [hitem] at hnew
    cases hnew
    exact ⟨turns_of_inOrder hbody horder rest, fun _ _ _ _ => meets_of_inOrder hbody horder⟩
  | @cond head init' thenBody elseBody test target other hhead hheadBody =>
    rw [hitem] at hhead
    cases hhead
    rw [hheadBody] at hbody
    obtain ⟨init, ending, heq, hinit, hending⟩ := exists_append_of_forall₂ hbody
    rw [heq]
    cases hending with
    | cons hbranch hending =>
      cases hending with
      | cons hgoto hnil =>
        cases hnil
        obtain ⟨rfl, htarget, -⟩ := hbranch.eq_of_isElementary rfl
        obtain ⟨rfl, hother, -⟩ := hgoto.eq_of_isElementary rfl
        have hturns : Turns bound fits true [.condGoto test target, .goto other]
            (spliceStmts [.cond test ⟨some target, thenBody⟩ ⟨some other, elseBody⟩] ++ rest) :=
          .cond (htarget target List.mem_cons_self) (hother other List.mem_cons_self)
        have hreplaces := replaces_append hinit hturns rfl
        rwa [← List.append_assoc, ← spliceStmts_append] at hreplaces
  | @switch head init' value cases default fall own last hhead hheadBody _ hown =>
    rw [hitem] at hhead
    cases hhead
    rw [hheadBody] at hbody
    obtain ⟨init, ending, heq, hinit, hending⟩ := exists_append_of_forall₂ hbody
    rw [heq] at horder ⊢
    cases hending with
    | cons hdispatch hending =>
      cases hending with
      | cons hgoto hnil =>
        cases hnil
        obtain ⟨rfl, htargets, hdistinct⟩ := hdispatch.eq_of_isElementary rfl
        obtain ⟨rfl, -, -⟩ := hgoto.eq_of_isElementary rfl
        obtain rfl := Stmt.eq_of_inOrder horder
        have hdistinct' := hdistinct cases List.mem_cons_self
        have hturns : Turns bound fits true [.dispatch value cases default, .goto default]
            (spliceStmts (.switch value (sortCases own ++ defaultCase default last) ::
              fallJump default last) ++ rest) :=
          .switch (fun v => htargets _ (dispatchTo_mem _ _ _))
            (fun v frames => enters_switch hown hdistinct' last rest v frames)
        have hreplaces := replaces_append hinit hturns rfl
        rwa [← List.append_assoc, ← spliceStmts_append] at hreplaces

/-! ### Places of arms and cases -/

/-- A case of a switch is one of the lists in it. -/
lemma exists_mem_innerCases {list : List SwitchCase} {c : SwitchCase} (hc : c ∈ list)
    (rest : List Stmt) : ∃ later, (code c.body, .case later rest) ∈ innerCases rest list := by
  induction list with
  | nil => cases hc
  | cons d later ih =>
    rcases List.mem_cons.mp hc with rfl | hc
    · exact ⟨later, List.mem_cons_self⟩
    · obtain ⟨later', hmem⟩ := ih hc
      exact ⟨later', List.mem_cons_of_mem _ hmem⟩

variable {items : List Stmt} {i : Nat} {list : List Stmt} {ids : Multiset Nat}

/-- A list stands in the same unit inside of a frame that does not matter around closed code. -/
def StandsIn (bound : Nat) (fits : V → Expr → Bool) (unit : Block) (outer : List Frame)
    (list : List Stmt) : Prop :=
  ∃ frames', IsPlace unit list frames' ∧ ∀ closed frames, Around bound fits closed frames outer →
    Around bound fits true frames frames'

lemma StandsIn.refl (h : IsPlace unit list frames) : StandsIn bound fits unit frames list :=
  ⟨frames, h, fun _ _ h => h.closed_of⟩

lemma StandsIn.trans {list' : List Stmt} (h : StandsIn bound fits unit frames list)
    (h' : ∀ frames', IsPlace unit list frames' → StandsIn bound fits unit frames' list') :
    StandsIn bound fits unit frames list' := by
  obtain ⟨frames₁, hplace, haround⟩ := h
  obtain ⟨frames₂, hplace', haround'⟩ := h' frames₁ hplace
  exact ⟨frames₂, hplace', fun closed frames h => haround' _ _ (haround closed frames h)⟩

lemma StandsIn.append {front : List Stmt} (h : StandsIn bound fits unit frames (front ++ list)) :
    StandsIn bound fits unit frames list :=
  h.trans fun _ hplace => .refl hplace.of_append

/-- The arms and cases of a block stand inside of it. -/
lemma Reshaped.standsIn {new : BasicBlock} {bodies : List (List Stmt)} {body : List Stmt}
    (h : Reshaped items i new bodies) (hbody : body ∈ bodies)
    (hplace : IsPlace unit (spliceStmts new.body ++ rest) frames) :
    StandsIn bound fits unit frames (splice body) := by
  cases h with
  | same => cases hbody
  | @cond head init thenBody elseBody test target other =>
    rw [spliceStmts_append, List.append_assoc] at hplace
    have hcond : IsPlace unit (.cond test ⟨none, .goto target :: splice thenBody⟩
        ⟨none, .goto other :: splice elseBody⟩ :: rest) frames := hplace.of_append
    have harm : ∀ label arm, (arm, Frame.after rest) ∈ innerLists rest
        (.cond test ⟨none, .goto target :: splice thenBody⟩ ⟨none, .goto other :: splice elseBody⟩) →
        arm = .goto label :: splice body → StandsIn bound fits unit frames (splice body) := by
      rintro label _ hin rfl
      have hstands : StandsIn bound fits unit frames ([.goto label] ++ splice body) :=
        ⟨_, hcond.inside hin, fun _ _ h => .arm h⟩
      exact hstands.append
    simp only [List.mem_cons, List.not_mem_nil, or_false] at hbody
    rcases hbody with rfl | rfl
    · exact harm target _ List.mem_cons_self rfl
    · exact harm other _ (List.mem_cons_of_mem _ List.mem_cons_self) rfl
  | @switch head init value cases default fall own last =>
    rw [spliceStmts_append, List.append_assoc] at hplace
    have hswitch := hplace.of_append
    have hcase : ∀ c ∈ sortCases own ++ defaultCase fall last,
        StandsIn bound fits unit frames (splice c.body.body) := by
      intro c hc
      have hmem : { c with body := ⟨none, spliced c.body⟩ } ∈
          spliceCases (sortCases own ++ defaultCase fall last) := by
        rw [spliceCases_eq_map]
        exact List.mem_map_of_mem hc
      obtain ⟨later, hlater⟩ := exists_mem_innerCases hmem
        (spliceStmts (fallJump fall last) ++ rest)
      have hstands : StandsIn bound fits unit frames (entryJump c.body.entry ++ splice c.body.body) :=
        ⟨_, hswitch.inside hlater, fun _ _ h => .case h⟩
      exact hstands.append
    rcases List.mem_append.mp hbody with hbody | hbody
    · obtain ⟨c, hc, rfl⟩ := List.mem_map.mp hbody
      obtain ⟨f, hf, hperm⟩ := sortCases_perm own
      have hmem : f c ∈ sortCases own := hperm.mem_iff.mpr (List.mem_map_of_mem hc)
      have hstands := hcase (f c) (List.mem_append_left _ hmem)
      rwa [(hf c).body] at hstands
    · cases last with
      | none => cases hbody
      | some body' =>
        rw [List.mem_singleton.mp hbody]
        exact hcase _ (List.mem_append_right _ List.mem_cons_self)

lemma exists_of_mem_sum {parts : List (List Stmt × Multiset Nat)}
    (h : i ∈ (parts.map Prod.snd).sum) : ∃ part ∈ parts, i ∈ part.2 := by
  induction parts with
  | nil => simp at h
  | cons part later ih =>
    rw [List.map_cons, List.sum_cons, Multiset.mem_add] at h
    rcases h with h | h
    · exact ⟨part, List.mem_cons_self, h⟩
    · obtain ⟨part', hpart', h⟩ := ih h
      exact ⟨part', List.mem_cons_of_mem _ hpart', h⟩

/-- Every item that has been arranged has a block in its place, somewhere in the list, its arms and its
cases. -/
theorem Arranges.exists_place (h : Arranges items bound list ids) {outer : List Frame}
    (hstands : StandsIn bound fits unit outer (splice list ++ rest)) (hi : i ∈ ids) :
    ∃ new bodies rest', Reshaped items i new bodies ∧
      StandsIn bound fits unit outer (spliceStmts new.body ++ rest') := by
  induction h generalizing rest with
  | nil => simp at hi
  | @block j block parts list ids hblock _ _ ihParts ih =>
    rw [splice, List.append_assoc] at hstands
    rcases Multiset.mem_cons.mp hi with rfl | hi
    · exact ⟨block, _, _, hblock, hstands⟩
    rcases Multiset.mem_add.mp hi with hi | hi
    · obtain ⟨part, hpart, hi⟩ := exists_of_mem_sum hi
      have hinside : StandsIn bound fits unit outer (splice part.1 ++ []) := by
        rw [List.append_nil]
        exact hstands.trans fun _ hplace => hblock.standsIn (List.mem_map_of_mem hpart) hplace
      exact ihParts part hpart hinside hi
    · exact ih hstands.append hi
  | caseEnd _ _ ih =>
    rw [splice, List.append_assoc] at hstands
    exact ih hstands.append hi

/-! ### Carried lists -/

/-- What takes the place of an item comes from a block. -/
lemma Reshaped.exists_item {new : BasicBlock} {bodies : List (List Stmt)}
    (h : Reshaped items i new bodies) : ∃ block, items[i]? = some (.basic block) := by
  cases h with
  | same hitem => exact ⟨_, hitem⟩
  | cond hitem => exact ⟨_, hitem⟩
  | switch hitem => exact ⟨_, hitem⟩

/-- An item of a list and what has become of it: a block in order whose statements have been carried. -/
def CarriedItem (bound : Nat) (fits : V → Expr → Bool) (s s' : Stmt) : Prop :=
  ∃ block block' : BasicBlock, s = .basic block ∧ s' = .basic block' ∧
    (∃ label body, block.body = .label label :: body) ∧ Stmt.inOrder block.body = true ∧
    List.Forall₂ (Carried bound fits) block.body block'.body

/-- The item at a position and what has become of it. -/
lemma exists_carriedItem {blocks : List Stmt} (h : List.Forall₂ (CarriedItem bound fits) blocks items)
    (hs : blocks[i]? = some s) : ∃ s', items[i]? = some s' ∧ CarriedItem bound fits s s' := by
  induction h generalizing i with
  | nil => cases hs
  | cons hitem _ ih =>
    cases i with
    | zero =>
      cases hs
      exact ⟨_, rfl, hitem⟩
    | succ i => exact ih hs

/-- A label of a list is in one of its items. -/
lemma exists_item_of_label {blocks : List Stmt} {id : LabelId}
    (hid : id ∈ Stmt.labelsOfList blocks) :
    ∃ (i : Nat) (s : Stmt), blocks[i]? = some s ∧ id ∈ s.labels := by
  induction blocks with
  | nil => cases hid
  | cons s rest ih =>
    rw [Stmt.labelsOfList, List.mem_append] at hid
    rcases hid with hid | hid
    · exact ⟨0, s, rfl, hid⟩
    · obtain ⟨i, t, hi, ht⟩ := ih hid
      exact ⟨i + 1, t, hi, ht⟩

/-- An item of a list stands at a place, with the items after it. -/
lemma exists_place_of_item {blocks : List Stmt} (hplace : IsPlace unit blocks frames)
    (hs : blocks[i]? = some s) : ∃ rest, IsPlace unit (s :: rest) frames := by
  have hlt := (List.getElem?_eq_some_iff.mp hs).1
  have hdrop : blocks.drop i = s :: blocks.drop (i + 1) := by
    rw [List.drop_eq_getElem_cons hlt, (List.getElem?_eq_some_iff.mp hs).2]
  refine ⟨blocks.drop (i + 1), IsPlace.of_append (a := blocks.take i) ?_⟩
  rwa [← hdrop, List.take_append_drop]

/-- A list of blocks whose loops and scopes have been carried, and whose items have then been arranged. -/
theorem carries_of_recovered {entry : Option LabelId} {blocks : List Stmt} {result : Block}
    (hblocks : List.Forall₂ (CarriedItem bound fits) blocks items)
    (hentry : ∀ id ∈ entry, id < bound) (h : Recovered bound ⟨entry, items⟩ result) :
    Carries bound fits ⟨entry, blocks⟩ result where
  turns := by
    cases entry with
    | some id =>
      refine ⟨true, ?_⟩
      rw [code, spliced, h.entry]
      refine .final rfl rfl ?_
      simpa [Stmt.branchTargets] using hentry
    | none =>
      obtain ⟨first, bodies, rest, hresult, hfirst⟩ := h.first rfl
      rw [spliced, h.entry, hresult, splice]
      cases hblocks with
      | nil =>
        obtain ⟨_, hitem⟩ := hfirst.exists_item
        cases hitem
      | cons hitem _ =>
        obtain ⟨block, block', rfl, rfl, ⟨label, body, hbody⟩, horder, hcarried⟩ := hitem
        exact ⟨true, .block hbody (hfirst.replaces rfl hcarried horder _).turns⟩
  meets := by
    intro unit unit' frames frames' hplace hplace' hframes id hid
    obtain ⟨i, s, hs, hid⟩ := exists_item_of_label hid
    obtain ⟨_, hitem, block, block', rfl, rfl, -, horder, hcarried⟩ := exists_carriedItem hblocks hs
    obtain ⟨rest, hrest⟩ := exists_place_of_item hplace.of_code hs
    have hin : IsPlace unit block.body (.after rest :: frames) := hrest.inside (by simp [innerLists])
    have hlist : IsPlace unit' (splice result.body ++ []) frames' := by
      rw [List.append_nil]
      exact hplace'.of_append
    have hi : i ∈ Multiset.range items.length :=
      Multiset.mem_range.mpr (List.getElem?_eq_some_iff.mp hitem).1
    have hstands : StandsIn bound fits unit' frames' (splice result.body ++ []) := .refl hlist
    obtain ⟨new, bodies, rest', hnew, frames₁, hplace₁, haround⟩ := h.arranges.exists_place hstands hi
    have hreplaces := hnew.replaces hitem hcarried horder rest'
    refine hreplaces.meets unit unit' _ _ hin hplace₁ ?_ id (by rwa [Stmt.labels] at hid)
    exact .block (haround _ _ hframes)
  counts := by
    intro test htest
    have hitems : Stmt.countList test (splice items) = Stmt.countList test (splice blocks) := by
      clear h
      induction hblocks with
      | nil => rfl
      | cons hitem _ ih =>
        obtain ⟨block, block', rfl, rfl, -, -, hcarried⟩ := hitem
        simp only [splice, Stmt.countList_append, countList_carried hcarried htest, ih]
    rw [h.countList_spliced htest, countList_spliced, countList_spliced, hitems]

end Conditions

end Decompiler
