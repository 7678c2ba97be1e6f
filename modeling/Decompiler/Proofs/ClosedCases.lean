import Decompiler.Proofs.ConditionRecovery
import Decompiler.Proofs.RemainingJumps

/-!
# Cases that do not run off their end

The last statement of each case of a switch is one through which control leaves (`IsClosed`).  The
recovery of conditions leaves a case empty behind the jump to its target, or puts a block with a `break`
at its end (`IsRecovered`).  In the spliced tree the jump or the `break` is the last statement, and what
comes after keeps it closed: a `break` is dropped only behind a statement through which control has left
already, and no jump at the end of a case is dropped, because control would not come to its target anyway.

The steps of the recovery are followed with an invariant, that of all items in their slots: whatever order
they come in, what they build has a property that the items have, if its parts can be put together
(`Recoverable`).
-/

namespace Decompiler

/-- Whether control leaves through the statement, so that it can end a case. -/
def Stmt.endsCase : Stmt → Bool
  | .breakOut | .continueLoop | .goto _ | .ret _ | .exit => true
  | _ => false

namespace Execution

/-! ### Lists that control leaves at their end -/

/-- The last statement of a list is one through which control leaves. -/
def EndsAway (list : List Stmt) : Prop :=
  ∃ init last, list = init ++ [last] ∧ last.endsCase = true

namespace EndsAway

variable {s : Stmt} {list rest : List Stmt}

lemma singleton_iff : EndsAway [s] ↔ s.endsCase = true := by
  constructor
  · rintro ⟨init, last, heq, hlast⟩
    cases init with
    | nil => rwa [(List.cons.inj heq).1]
    | cons _ init => cases init <;> cases (List.cons.inj heq).2
  · exact fun h => ⟨[], s, rfl, h⟩

lemma not_nil : ¬ EndsAway [] := by
  rintro ⟨init, last, h, -⟩
  cases init <;> cases h

lemma append (init : List Stmt) (h : EndsAway list) : EndsAway (init ++ list) := by
  obtain ⟨init', last, rfl, hlast⟩ := h
  exact ⟨init ++ init', last, (List.append_assoc _ _ _).symm, hlast⟩

/-- A list whose first statement is not the last one. -/
lemma tail (h : EndsAway (s :: rest)) (hs : s.endsCase = false ∨ rest ≠ []) : EndsAway rest := by
  obtain ⟨init, last, heq, hlast⟩ := h
  cases init with
  | nil =>
    obtain ⟨rfl, rfl⟩ := List.cons.inj heq
    rcases hs with hs | hs
    · rw [hlast] at hs
      cases hs
    · exact absurd rfl hs
  | cons _ init => exact ⟨init, last, (List.cons.inj heq).2, hlast⟩

end EndsAway

/-! ### Properties of cases -/

/-- Every case of every switch has a property, and there are no stack operations. -/
def casesAre (good : SwitchCase → Prop) : Property where
  stmt
    | .raw _ _ => False
    | .switch _ cases => ∀ c ∈ cases, good c
    | _ => True
  entry _ := True
  goto _ _ := trivial

/-- A case that ends with a statement through which control leaves, and a default case without values. -/
structure IsClosed (c : SwitchCase) : Prop where
  ends : EndsAway c.body.body
  values : c.isDefault = true → c.values = []

/-- A case as it is recovered: it starts with a jump, and a `break` ends what is behind it. -/
structure IsRecovered (c : SwitchCase) : Prop where
  entry : c.body.entry ≠ none
  body : c.body.body = [] ∨
    ∃ init label, c.body.body = init ++ [.basic { body := [.label label, .breakOut] }]
  values : c.isDefault = true → c.values = []

variable {good : SwitchCase → Prop}

/-! ### Loops -/

mutual

/-- What may stand in a scope before loops are recovered has no switch. -/
lemma every_of_isInner : (s : Stmt) → s.isInner = true → Every (casesAre good) s
  | .scope _ body _, h => by
    simp only [Stmt.isInner, Bool.and_eq_true] at h
    exact ⟨trivial, fun _ _ => trivial, everyIn_of_innerList body.body h.2⟩
  | .assign _ _, _ | .call _ _, _ | .discard _, _ => trivial

/-- What may stand in a scope before loops are recovered has no switch. -/
lemma everyIn_of_innerList :
    (list : List Stmt) → Stmt.innerList list = true → EveryIn (casesAre good) list
  | [], _ => trivial
  | s :: rest, h => by
    rw [Stmt.innerList, Bool.and_eq_true] at h
    exact ⟨every_of_isInner s h.1, everyIn_of_innerList rest h.2⟩

end

/-- A simple statement has no switch. -/
lemma every_of_isSimple {s : Stmt} (h : s.isSimple = true) : Every (casesAre good) s := by
  cases s with
  | assign | call | discard | scope => exact every_of_isInner _ h
  | raw | breakOut | continueLoop | basic | seq | cond | loop | switch => cases h
  | _ => trivial

/-- Simple blocks have no switch. -/
lemma every_of_simpleBlocks {blocks : List BasicBlock}
    (h : AllStmts (Stmt.isSimple · = true) blocks) :
    ∀ s ∈ (blockOfBasicBlocks blocks).body, Every (casesAre good) s := by
  rintro s hs
  obtain ⟨block, hblock, rfl⟩ := List.mem_map.mp hs
  exact ⟨trivial, everyIn_iff.mpr fun s hs => every_of_isSimple (h block hblock s hs)⟩

end Execution

open Execution

/-- The block that ends a recovered case. -/
def Stmt.IsCaseEnd (s : Stmt) : Prop :=
  ∃ label, s = .basic { body := [.label label, .breakOut] }

/-- Properties of statements that the recovery of loops and conditions keeps: `Q i` is the one at a place
and `Q (inRound i)` the one in a loop or scope there.  A recovered case may end in a `break`, which need not
have the property. -/
structure Recoverable {ι : Type} (Q : ι → Stmt → Prop) (inRound : ι → ι) : Prop where
  label : ∀ i id, Q i (.label id)
  goto : ∀ i target, Q i (.goto target)
  basic : ∀ i block, Q i (.basic block) ↔ ∀ s ∈ block.body, Q i s
  loop : ∀ i test block, Q i (.loop test block) ↔ ∀ s ∈ block.body, Q (inRound i) s
  scope : ∀ i env block stop, Q i (.scope env block stop) ↔ ∀ s ∈ block.body, Q (inRound i) s
  cond : ∀ i test target other (thenBody elseBody : List Stmt), (∀ s ∈ thenBody, Q i s) →
    (∀ s ∈ elseBody, Q i s) → Q i (.cond test ⟨some target, thenBody⟩ ⟨some other, elseBody⟩)
  switch : ∀ i value (cases : List SwitchCase),
    (∀ c ∈ cases, IsRecovered c ∧ ∀ s ∈ c.body.body, Q i s ∨ s.IsCaseEnd) →
      Q i (.switch value cases)

/-- The recovery of loops keeps what the items have in all places. -/
lemma Loops.Arranges.forall_mem {ι : Type} {Q : ι → Stmt → Prop} {inRound : ι → ι}
    (hQ : Recoverable Q inRound) {items list : List Stmt} {bound : Nat} {ids : Multiset Nat}
    (hitems : ∀ s ∈ items, ∀ i, Q i s) (h : Loops.Arranges items bound list ids) :
    ∀ i, ∀ s ∈ list, Q i s := by
  induction h with
  | nil => simp
  | item hitem _ ih =>
    exact fun i => List.forall_mem_cons.mpr ⟨hitems _ (List.mem_of_getElem? hitem) i, ih i⟩
  | @scope _ _ head _ init body _ env _ _ _ _ _ hhead hbody _ _ _ _ _ ihInner ih =>
    refine fun i => List.forall_mem_cons.mpr ⟨(hQ.basic i _).mpr ?_, ih i⟩
    have hhead' := (hQ.basic i _).mp (hitems _ (List.mem_of_getElem? hhead) i)
    rw [hbody, List.forall_mem_append] at hhead'
    refine List.forall_mem_append.mpr ⟨hhead'.1, ?_⟩
    simpa [hQ.goto, hQ.scope] using ihInner (inRound i)
  | tested _ _ _ _ _ ihInner ih =>
    refine fun i => List.forall_mem_cons.mpr ⟨(hQ.basic i _).mpr ?_, ih i⟩
    simpa [hQ.label, hQ.goto, hQ.loop] using ihInner (inRound i)
  | endless _ _ _ ihInner ih =>
    refine fun i => List.forall_mem_cons.mpr ⟨(hQ.basic i _).mpr ?_, ih i⟩
    simpa [hQ.label, hQ.loop] using ihInner (inRound i)

/-! ### Conditions and switches -/

namespace Conditions

section Kept

variable {ι : Type} {Q : ι → Stmt → Prop} {inRound : ι → ι} {i : ι} {inner : Inner} {layout : Layout}
  {region : Region}

/-- All items in their slots have a property. -/
def AllSlots (P : Stmt → Prop) (s : RecoveryState) : Prop :=
  ∀ i item, s.slot i = some item → P item

/-- A recovery of arms gives lists with a property. -/
def Recovering (P : Stmt → Prop) (inner : Inner) : Prop :=
  ∀ region entry, Upholds (AllSlots P) (inner region entry) fun list => ∀ s ∈ list, P s

lemma upholds_take {P : Stmt → Prop} (item : Nat) : Upholds (AllSlots P) (Recovery.take item) P := by
  intro s a t hs hrun
  cases hslot : s.slot item with
  | none =>
    rw [Recovery.take, exec_bind_of_ok (Recovery.exec_slot? item s), hslot] at hrun
    cases hrun
  | some found =>
    rw [Recovery.exec_take hslot] at hrun
    cases hrun
    refine ⟨fun i item' h => hs i item' ?_, hs item a hslot⟩
    rw [Recovery.slot_setIfInBounds] at h
    split at h
    · cases h
    · exact h

lemma upholds_basicBlock? {P : Stmt → Prop} (item : Nat) :
    Upholds (AllSlots P) (Recovery.basicBlock? item) fun found => ∀ block ∈ found, P (.basic block) := by
  intro s a t hs hrun
  rw [Recovery.exec_basicBlock?] at hrun
  cases hrun
  exact ⟨hs, fun block hblock => hs item _ (Recovery.basicOf?_eq_some hblock)⟩

lemma upholds_remove {P : Stmt → Prop} (item : Nat) :
    Upholds (AllSlots P) (Recovery.remove region item) fun _ => True := by
  rw [Recovery.remove]
  split
  · exact .pure trivial
  · exact .throw

lemma upholds_claimAll {P : Stmt → Prop} (content : Region) :
    Upholds (AllSlots P) (Recovery.claimAll region content) fun _ => True :=
  .foldlM (fun _ item _ => upholds_remove item) trivial

lemma upholds_drain {P : Stmt → Prop} : Upholds (AllSlots P) (Recovery.drain region)
    fun placed => ∀ p ∈ placed, P p.2 :=
  .mapM fun item => (upholds_take item).bind fun _ hs => .pure hs

/-- The block that ends a case. -/
lemma upholds_caseEnd {P : Stmt → Prop} : Upholds (AllSlots P) caseEnd Stmt.IsCaseEnd := by
  intro s a t hs hrun
  cases hrun
  exact ⟨hs, _, rfl⟩

/-- A block without its branch. -/
lemma upholds_openBlock (hQ : Recoverable Q inRound) (item : Nat) :
    Upholds (AllSlots (Q i)) (openBlock region item) fun opened => ∀ s ∈ opened.1.body, Q i s := by
  refine (upholds_remove item).bind fun rest _ => ?_
  have htake : Upholds (AllSlots (Q i)) (takeBlock item) fun block => ∀ s ∈ block.body, Q i s := by
    refine (upholds_take item).bind fun s hs => ?_
    split
    · exact .pure ((hQ.basic i _).mp hs)
    · exact .throw
  exact htake.bind fun block hblock => .pure fun s hs => hblock s (List.mem_of_mem_take hs)

lemma upholds_claimDominated {P : Stmt → Prop} (hinner : Recovering P inner) (node : Nat) :
    Upholds (AllSlots P) (claimDominated inner layout region node)
      fun claimed => ∀ s ∈ claimed.1, P s :=
  (upholds_claimAll _).bind fun _ _ => (hinner _ node).bind fun _ hbody => .pure hbody

/-- The code of an arm, which is entered at a label. -/
lemma upholds_arm {P : Stmt → Prop} (hinner : Recovering P inner) (label : LabelId) :
    Upholds (AllSlots P) (arm inner layout region label)
      fun side => side.1.entry = some label ∧ ∀ s ∈ side.1.body, P s := by
  unfold arm
  split
  · exact .pure ⟨rfl, by simp⟩
  · split
    · exact (upholds_claimDominated hinner _).bind fun _ hbody => .pure ⟨rfl, hbody⟩
    · exact .pure ⟨rfl, by simp⟩

/-- What may take the place of an item. -/
def PlacesItem (P : Stmt → Prop) (found : Option (Stmt × Region)) : Prop :=
  ∀ result ∈ found, P result.1

lemma upholds_recoverCondition (hQ : Recoverable Q inRound) (hinner : Recovering (Q i) inner)
    (item : Nat) :
    Upholds (AllSlots (Q i)) (recoverCondition inner layout region item) (PlacesItem (Q i)) := by
  refine (upholds_basicBlock? item).bind fun found hfound => ?_
  split
  · exact .pure (by simp [PlacesItem])
  · refine (upholds_openBlock hQ item).bind fun opened hopened => ?_
    refine (upholds_arm hinner _).bind ?_
    rintro ⟨⟨_, thenBody⟩, _⟩ ⟨rfl, hthen⟩
    refine (upholds_arm hinner _).bind ?_
    rintro ⟨⟨_, elseBody⟩, _⟩ ⟨rfl, helse⟩
    refine .pure ?_
    rintro _ ⟨⟩
    refine (hQ.basic i _).mpr (List.forall_mem_append.mpr ⟨hopened, List.forall_mem_singleton.mpr ?_⟩)
    exact hQ.cond i _ _ _ thenBody elseBody hthen helse

/-- Some cases are as they are recovered, and their code has a property up to the `break` at the end. -/
def CasesRecovered (P : Stmt → Prop) (cases : List SwitchCase) : Prop :=
  ∀ c ∈ cases, IsRecovered c ∧ ∀ s ∈ c.body.body, P s ∨ s.IsCaseEnd

lemma CasesRecovered.append {P : Stmt → Prop} {cases : List SwitchCase} {c : SwitchCase}
    (h : CasesRecovered P cases) (hc : IsRecovered c)
    (hbody : ∀ s ∈ c.body.body, P s ∨ s.IsCaseEnd) : CasesRecovered P (cases ++ [c]) :=
  List.forall_mem_append.mpr ⟨h, List.forall_mem_singleton.mpr ⟨hc, hbody⟩⟩

/-- Code behind which a `break` has been put. -/
lemma forall_mem_caseEnd {P : Stmt → Prop} {body : List Stmt} {last : Stmt} (h : ∀ s ∈ body, P s)
    (hlast : last.IsCaseEnd) : ∀ s ∈ body ++ [last], P s ∨ s.IsCaseEnd :=
  List.forall_mem_append.mpr ⟨fun s hs => .inl (h s hs), List.forall_mem_singleton.mpr (.inr hlast)⟩

lemma upholds_recoverCase {P : Stmt → Prop} (hinner : Recovering P inner) (joins : List Nat)
    (progress : List SwitchCase × Region) (group : LabelId × List Expr)
    (h : CasesRecovered P progress.1) :
    Upholds (AllSlots P) (recoverCase inner layout joins progress group)
      fun progress => CasesRecovered P progress.1 := by
  unfold recoverCase
  dsimp only
  split
  · exact .pure (h.append ⟨by simp, .inl rfl, by simp⟩ (by simp))
  · refine (upholds_claimDominated hinner _).bind fun claimed hclaimed => ?_
    refine upholds_caseEnd.bind fun last hlast => .pure ?_
    obtain ⟨label, rfl⟩ := hlast
    exact h.append ⟨by simp, .inr ⟨_, label, rfl⟩, by simp⟩ (forall_mem_caseEnd hclaimed ⟨label, rfl⟩)

lemma upholds_recoverDefault {P : Stmt → Prop} (hinner : Recovering P inner) (joins : List Nat)
    (fall : LabelId) :
    Upholds (AllSlots P) (recoverDefault inner layout joins region fall)
      fun found => ∀ result ∈ found,
        IsRecovered result.1 ∧ ∀ s ∈ result.1.body.body, P s ∨ s.IsCaseEnd := by
  unfold recoverDefault
  split
  · exact .pure (by simp)
  · split
    · exact .pure (by simp)
    · refine (upholds_claimDominated hinner _).bind fun claimed hclaimed => ?_
      refine upholds_caseEnd.bind fun last hlast => .pure ?_
      obtain ⟨label, rfl⟩ := hlast
      rintro _ ⟨⟩
      exact ⟨⟨by simp, .inr ⟨_, label, rfl⟩, fun _ => rfl⟩, forall_mem_caseEnd hclaimed ⟨label, rfl⟩⟩

/-- Sorting leaves the code of the cases as it is. -/
lemma CasesRecovered.sortCases {P : Stmt → Prop} {cases : List SwitchCase} (h : CasesRecovered P cases) :
    CasesRecovered P (sortCases cases) := by
  intro c hc
  obtain ⟨d, hd, hsame⟩ := exists_sameCase hc
  obtain ⟨hrecovered, hbody⟩ := h d hd
  rw [hsame.body]
  refine ⟨⟨?_, ?_, fun hdefault => ?_⟩, hbody⟩
  · rw [hsame.body]
    exact hrecovered.entry
  · rw [hsame.body]
    exact hrecovered.body
  · have hvalues := hrecovered.values (hsame.isDefault ▸ hdefault)
    exact List.perm_nil.mp (hvalues ▸ hsame.values)

lemma upholds_recoverSwitch (hQ : Recoverable Q inRound) (hinner : Recovering (Q i) inner)
    (item : Nat) :
    Upholds (AllSlots (Q i)) (recoverSwitch inner layout region item) (PlacesItem (Q i)) := by
  refine (upholds_basicBlock? item).bind fun found hfound => ?_
  split
  · exact .pure (by simp [PlacesItem])
  · rename_i dispatch _
    refine (upholds_openBlock hQ item).bind fun opened hopened => ?_
    have hcases : Upholds (AllSlots (Q i))
        ((groups dispatch.cases []).foldlM (recoverCase inner layout (joins layout dispatch))
          ([], opened.2)) fun progress => CasesRecovered (Q i) progress.1 :=
      .foldlM (fun progress group h => upholds_recoverCase hinner _ progress group h)
        (List.forall_mem_nil _)
    refine hcases.bind fun progress hprogress => ?_
    refine (upholds_recoverDefault hinner _ _).bind fun found hdefault => ?_
    split
    · rename_i last rest
      obtain ⟨hlast, hbody⟩ := hdefault (last, rest) rfl
      refine .pure ?_
      rintro _ ⟨⟩
      have hswitch := hQ.switch i dispatch.value _ (hprogress.sortCases.append hlast hbody)
      exact (hQ.basic i _).mpr (List.forall_mem_append.mpr
        ⟨hopened, List.forall_mem_singleton.mpr hswitch⟩)
    · refine .pure ?_
      rintro _ ⟨⟩
      have hswitch := hQ.switch i dispatch.value _ hprogress.sortCases
      refine (hQ.basic i _).mpr (List.forall_mem_append.mpr ⟨hopened, ?_⟩)
      exact List.forall_mem_cons.mpr ⟨hswitch, List.forall_mem_singleton.mpr (hQ.goto i _)⟩

lemma upholds_recoverAt (hQ : Recoverable Q inRound) (hinner : Recovering (Q i) inner)
    (progress : List Stmt × Region) (node : Nat) (h : ∀ s ∈ progress.1, Q i s) :
    Upholds (AllSlots (Q i)) (recoverAt inner layout progress node)
      fun progress => ∀ s ∈ progress.1, Q i s := by
  obtain ⟨placed, region⟩ := progress
  have hplace : ∀ {s : Stmt}, Q i s → ∀ t ∈ placed ++ [s], Q i t :=
    fun hs => List.forall_mem_append.mpr ⟨h, List.forall_mem_singleton.mpr hs⟩
  unfold recoverAt
  dsimp only
  split
  · split
    · refine (upholds_recoverSwitch hQ hinner _).bind fun found hfound => ?_
      split
      · exact .pure (hplace (hfound _ rfl))
      · refine (upholds_recoverCondition hQ hinner _).bind fun found hfound => ?_
        split
        · exact .pure (hplace (hfound _ rfl))
        · refine (upholds_remove _).bind fun rest _ => ?_
          exact (upholds_take _).bind fun s hs => .pure (hplace hs)
    · exact .pure h
  · exact .pure h

/-- What the recovery of conditions makes of a region keeps a property of the items. -/
theorem recovering_recover (hQ : Recoverable Q inRound) (layout : Layout) (fuel : Nat) :
    Recovering (Q i) (recover layout fuel) := by
  have hdrain : ∀ {region : Region} {placed : List Stmt}, (∀ s ∈ placed, Q i s) →
      Upholds (AllSlots (Q i)) (do return placed ++ (← Recovery.drain region).map Prod.snd)
        fun list => ∀ s ∈ list, Q i s := by
    intro region placed hplaced
    refine upholds_drain.bind fun drained hdrained => .pure ?_
    refine List.forall_mem_append.mpr ⟨hplaced, fun s hs => ?_⟩
    obtain ⟨p, hp, rfl⟩ := List.mem_map.mp hs
    exact hdrained p hp
  induction fuel with
  | zero =>
    intro region entry
    exact @hdrain region [] (List.forall_mem_nil _)
  | succ fuel ih =>
    intro region entry
    rw [recover]
    have hwalk : Upholds (AllSlots (Q i)) ((layout.tree.depthFirst entry).foldlM
        (recoverAt (recover layout fuel) layout) ([], region))
        fun progress => ∀ s ∈ progress.1, Q i s :=
      .foldlM (fun progress node h => upholds_recoverAt hQ ih progress node h) (List.forall_mem_nil _)
    exact hwalk.bind fun progress hprogress => hdrain hprogress

/-- A step that mints labels and reports messages gives something with a property. -/
abbrev Gives {α : Type} (step : Pass α) (post : α → Prop) : Prop :=
  Upholds (fun _ => True) step post

lemma gives_recoverBlockStep (hQ : Recoverable Q inRound) (entry : Option LabelId) {body : List Stmt}
    (h : ∀ s ∈ body, Q i s) :
    Gives (recoverBlockStep entry body) fun block => ∀ s ∈ block.body, Q i s := by
  intro context result context' _ hrun
  change recoverBlock { entry, body } context = _ at hrun
  refine ⟨trivial, ?_⟩
  rw [recoverBlock] at hrun
  split at hrun
  · cases hrun
    exact h
  · simp only [Recovery.run_eq] at hrun
    generalize hexec : exec (recover _ _ _ _) _ = outcome at hrun
    obtain ⟨result' | body', t⟩ := outcome
    · cases hrun
    · cases hrun
      refine (recovering_recover hQ _ _ _ _ _ _ _ ?_ hexec).2
      intro j item hitem
      rw [RecoveryState.slot_start] at hitem
      exact h item (List.mem_of_getElem? hitem)

mutual

lemma gives_inItem (hQ : Recoverable Q inRound) (i : ι) :
    (s : Stmt) → Q i s → Gives (inItem s) (Q i)
  | .basic block, h => by
    rw [inItem]
    refine (gives_inBasicBlock hQ i block.body ((hQ.basic i _).mp h)).bind fun body hbody => ?_
    exact .pure ((hQ.basic i _).mpr hbody)
  | .label _, h | .raw _ _, h | .push _, h | .assign _ _, h | .call _ _, h | .discard _, h
  | .goto _, h | .condGoto _ _, h | .pushEnv _ _, h | .popEnv _, h | .dispatch _ _ _, h | .ret _, h
  | .exit, h | .breakOut, h | .continueLoop, h | .seq _, h | .cond _ _ _, h | .loop _ _, h
  | .switch _ _, h | .scope _ _ _, h => .pure h

lemma gives_inItems (hQ : Recoverable Q inRound) (i : ι) :
    (list : List Stmt) → (∀ s ∈ list, Q i s) → Gives (inItems list) fun list => ∀ s ∈ list, Q i s
  | [], _ => .pure (List.forall_mem_nil _)
  | s :: rest, h => by
    rw [inItems]
    obtain ⟨hs, hrest⟩ := List.forall_mem_cons.mp h
    refine (gives_inItem hQ i s hs).bind fun s' hs' => ?_
    refine (gives_inItems hQ i rest hrest).bind fun rest' hrest' => ?_
    exact .pure (List.forall_mem_cons.mpr ⟨hs', hrest'⟩)

lemma gives_inLoop (hQ : Recoverable Q inRound) (i : ι) :
    (s : Stmt) → Q i s → Gives (inLoop s) (Q i)
  | .loop test body, h => by
    rw [inLoop]
    refine (gives_inItems hQ _ body.body ((hQ.loop i _ _).mp h)).bind fun items hitems => ?_
    refine (gives_recoverBlockStep hQ body.entry hitems).bind fun block hblock => ?_
    exact .pure ((hQ.loop i _ _).mpr hblock)
  | .scope env body stop, h => by
    rw [inLoop]
    refine (gives_inItems hQ _ body.body ((hQ.scope i _ _ _).mp h)).bind fun items hitems => ?_
    refine (gives_recoverBlockStep hQ body.entry hitems).bind fun block hblock => ?_
    exact .pure ((hQ.scope i _ _ _).mpr hblock)
  | .label _, h | .raw _ _, h | .push _, h | .assign _ _, h | .call _ _, h | .discard _, h
  | .goto _, h | .condGoto _ _, h | .pushEnv _ _, h | .popEnv _, h | .dispatch _ _ _, h | .ret _, h
  | .exit, h | .breakOut, h | .continueLoop, h | .basic _, h | .seq _, h | .cond _ _ _, h
  | .switch _ _, h => .pure h

lemma gives_inBasicBlock (hQ : Recoverable Q inRound) (i : ι) :
    (list : List Stmt) → (∀ s ∈ list, Q i s) →
      Gives (inBasicBlock list) fun list => ∀ s ∈ list, Q i s
  | [], _ => .pure (List.forall_mem_nil _)
  | s :: rest, h => by
    rw [inBasicBlock]
    obtain ⟨hs, hrest⟩ := List.forall_mem_cons.mp h
    refine (gives_inLoop hQ i s hs).bind fun s' hs' => ?_
    refine (gives_inBasicBlock hQ i rest hrest).bind fun rest' hrest' => ?_
    exact .pure (List.forall_mem_cons.mpr ⟨hs', hrest'⟩)

end

end Kept

/-- The cases of all switches are as they are recovered. -/
abbrev recovered : Property := casesAre IsRecovered

/-- A property of the statements of a tree is kept if it holds of whatever the recovery builds, where the
cases of a switch are as they are recovered. -/
lemma recoverable_every {P : Property} (hentry : ∀ id, P.entry id) (hlabel : ∀ id, P.stmt (.label id))
    (hbasic : ∀ block, P.stmt (.basic block)) (hbreak : P.stmt .breakOut)
    (hstructured : ∀ s, s.isStructured = true →
      (∀ value cases, s = .switch value cases → ∀ c ∈ cases, IsRecovered c) → P.stmt s) :
    Recoverable (fun _ : Unit => Every P) id where
  label _ id := hlabel id
  goto _ target := P.goto target (hentry target)
  basic _ block := by simp [Every, everyIn_iff, hbasic]
  loop _ test block := by simp [Every, everyIn_iff, hentry, hstructured (.loop test block) rfl (by simp)]
  scope _ env block stop := by
    simp [Every, everyIn_iff, hentry, hstructured (.scope env block stop) rfl (by simp)]
  cond _ test target other thenBody elseBody hthen helse :=
    ⟨hstructured _ rfl (by simp), ⟨fun _ _ => hentry _, everyIn_iff.mpr hthen⟩, fun _ _ => hentry _,
      everyIn_iff.mpr helse⟩
  switch _ value cases h := by
    refine ⟨hstructured _ rfl ?_, everyCase_iff.mpr fun c hc => ⟨fun _ _ => hentry _, ?_⟩⟩
    · rintro _ _ ⟨⟩ c hc
      exact (h c hc).1
    · refine everyIn_iff.mpr fun s hs => ((h c hc).2 s hs).elim id ?_
      rintro ⟨label, rfl⟩
      exact ⟨hbasic _, hlabel label, hbreak, trivial⟩

/-- The recovery keeps it that switches are recovered. -/
lemma recoverable_recovered : Recoverable (fun _ : Unit => Every recovered) id := by
  refine recoverable_every (fun _ => trivial) (fun _ => trivial) (fun _ => trivial) trivial ?_
  intro s hs hcases
  cases s with
  | switch value cases => exact hcases value cases rfl
  | cond | loop | scope | seq => trivial
  | _ => cases hs

end Conditions

/-- The recovery of conditions keeps the properties that its steps keep. -/
theorem Recoverable.findConditions {ι : Type} {Q : ι → Stmt → Prop} {inRound : ι → ι}
    (hQ : Recoverable Q inRound) {i : ι} {block tree : Block} {context context' : Context}
    (h : ∀ s ∈ block.body, Q i s) (hrun : findConditions block context = (.ok tree, context')) :
    ∀ s ∈ tree.body, Q i s := by
  have hstep : Conditions.Gives (do
      let items ← Conditions.inItems block.body
      Conditions.recoverBlockStep block.entry items) fun tree => ∀ s ∈ tree.body, Q i s :=
    (Conditions.gives_inItems hQ i block.body h).bind fun items hitems =>
      Conditions.gives_recoverBlockStep hQ block.entry hitems
  exact (hstep context tree context' trivial hrun).2

/-- The switches of a recovered tree are recovered. -/
lemma Loops.Arranges.recovered_findConditions {blocks : List BasicBlock} {loops tree : Block}
    {bound : Nat} {ids : Multiset Nat} {context context' : Context}
    (hsimple : AllStmts (Stmt.isSimple · = true) blocks)
    (h : Loops.Arranges (blocks.map Stmt.basic) bound loops.body ids)
    (hrun : findConditions loops context = (.ok tree, context')) :
    EveryIn Conditions.recovered tree.body := by
  have hitems := fun s hs (_ : Unit) => @every_of_simpleBlocks IsRecovered _ hsimple s hs
  have hloops := h.forall_mem Conditions.recoverable_recovered hitems ()
  exact everyIn_iff.mpr (Conditions.recoverable_recovered.findConditions (i := ()) hloops hrun)

/-! ### Spliced trees -/

/-- The cases of all switches are closed. -/
abbrev Execution.closed : Property := casesAre IsClosed

namespace Flatten

/-- A recovered case is closed when it has been spliced. -/
lemma isClosed_spliced {c : SwitchCase} (h : IsRecovered c) :
    IsClosed { c with body := ⟨none, spliced c.body⟩ } where
  ends := by
    obtain ⟨label, hlabel⟩ := Option.ne_none_iff_exists'.mp h.entry
    rw [spliced, hlabel, entryJump]
    rcases h.body with hbody | ⟨init, last, hbody⟩
    · rw [hbody]
      exact EndsAway.singleton_iff.mpr rfl
    · rw [hbody, splice_append]
      have hend : EndsAway (splice [.basic { body := [.label last, .breakOut] }]) :=
        ⟨[.label last], .breakOut, rfl, rfl⟩
      exact (hend.append _).append _
  values := h.values

/-- Splicing closes the cases of recovered switches. -/
lemma spliceable_closed :
    Spliceable (fun _ : Unit => Every Conditions.recovered) (fun _ => Every closed) id id := by
  refine spliceable_every (fun _ _ => trivial) fun s hs => ?_
  cases s with
  | switch value list =>
    rw [spliceStmt, spliceCases_eq_map]
    exact List.forall_mem_map.mpr fun c hc => isClosed_spliced (hs c hc)
  | raw => exact hs
  | _ => trivial

/-- Recovered switches have closed cases when they have been spliced. -/
theorem closed_spliced {block : Block} (h : EveryIn Conditions.recovered block.body) :
    EveryIn closed (spliced block) :=
  everyIn_iff.mpr (spliceable_closed.spliced (i := ()) (fun _ _ => trivial) (everyIn_iff.mp h))

end Flatten

/-! ### Simplified trees -/

namespace Jumps

/-- Where control does not run off the end of a list it still does not without the jumps of the list. -/
lemma endsAway_newList {flow : Flow} (hafter : flow.after = []) {list : List Stmt}
    (preceding : List LabelId) (h : EndsAway list) : EndsAway (newList flow preceding list) := by
  induction list generalizing preceding with
  | nil => exact absurd h EndsAway.not_nil
  | cons s rest ih =>
    by_cases hrest : rest = []
    · subst hrest
      rw [EndsAway.singleton_iff] at h
      cases s with
      | goto target =>
        rw [newList_goto, newList_nil, List.append_nil]
        rcases jump_cases flow target [] with ⟨hmem, -⟩ | ⟨_, -, -, h⟩ | ⟨_, -, -, h⟩ | h
        · -- Control comes to no label behind the end of a case.
          rw [fallthrough, hafter] at hmem
          cases hmem
        all_goals
          rw [h]
          exact EndsAway.singleton_iff.mpr rfl
      | breakOut | continueLoop | ret | exit =>
        rw [newList_cons (by simp), newStmt_of_leaf rfl, newList_nil]
        exact EndsAway.singleton_iff.mpr rfl
      | _ => cases h
    · have htail := h.tail (.inr hrest)
      by_cases hs : ∃ target, s = .goto target
      · obtain ⟨target, rfl⟩ := hs
        rw [newList_goto]
        exact (ih [] htail).append _
      · rw [newList_cons fun target h => hs ⟨target, h⟩]
        exact (ih _ htail).append [_]

lemma isClosed_newCases {flow : Flow} (hafter : flow.after = []) {cases : List SwitchCase}
    (h : ∀ c ∈ cases, IsClosed c) : ∀ c ∈ newCases flow cases, IsClosed c := by
  induction cases with
  | nil => simp
  | cons c later ih =>
    obtain ⟨hc, hlater⟩ := List.forall_mem_cons.mp h
    rw [newCases_cons]
    exact List.forall_mem_cons.mpr ⟨⟨endsAway_newList hafter [] hc.ends, hc.values⟩, ih hlater⟩

end Jumps

namespace Cleanup

/-- A statement through which control leaves is left as it is. -/
lemma inStmt_of_endsCase {named : List LabelId} {s : Stmt} (h : s.endsCase = true) :
    (inStmt named s).1 = s := by
  cases s with
  | goto | ret | exit | breakOut | continueLoop => rfl
  | _ => cases h

/-- A statement through which control leaves is dropped only where control does not come. -/
lemma dead_of_endsCase {named : List LabelId} {dead dead' : Bool} {s : Stmt} (h : s.endsCase = true)
    (hreach : reach named dead s = some dead') : dead = true := by
  cases s with
  | goto | ret | exit | breakOut | continueLoop =>
    cases dead
    · cases hreach
    · rfl
  | _ => cases h

/-- Behind which statements control does not come: without stack operations, those through which it
leaves. -/
lemma endsCase_of_isUnconditional {s : Stmt} (hs : Every closed s) (h : s.isUnconditional = true) :
    s.endsCase = true := by
  cases s with
  | goto | ret | exit | breakOut | continueLoop => rfl
  | raw => exact hs.elim
  | _ => cases h

/-- Where control does not run off the end of a list it does not after the list has been cleaned up: its
last statement is left, or one before it that made it unreachable. -/
lemma endsAway_inList (named : List LabelId) (dead : Bool) {list : List Stmt}
    (hclosed : EveryIn closed list) (h : EndsAway list) :
    EndsAway (inList named dead list).1 ∨ dead = true ∧ (inList named dead list).1 = [] := by
  induction list generalizing dead with
  | nil => exact absurd h EndsAway.not_nil
  | cons s rest ih =>
    rw [EveryIn] at hclosed
    rw [inList]
    cases hreach : reach named dead s with
    | some dead' =>
      by_cases hrest : rest = []
      · subst hrest
        exact .inr ⟨dead_of_endsCase (EndsAway.singleton_iff.mp h) hreach, rfl⟩
      · obtain rfl := eq_of_reach_eq_some hreach
        exact ih dead' hclosed.2 (h.tail (.inr hrest))
    | none =>
      refine .inl ?_
      by_cases hrest : rest = []
      · subst hrest
        have hs := EndsAway.singleton_iff.mp h
        exact EndsAway.singleton_iff.mpr ((congrArg _ (inStmt_of_endsCase hs)).trans hs)
      · rcases ih s.isUnconditional hclosed.2 (h.tail (.inr hrest)) with hlast | ⟨hdead, hempty⟩
        · exact hlast.append [_]
        · have hs := endsCase_of_isUnconditional hclosed.1 hdead
          dsimp only
          rw [hempty]
          exact EndsAway.singleton_iff.mpr ((congrArg _ (inStmt_of_endsCase hs)).trans hs)

lemma isClosed_inCases (named : List LabelId) {cases : List SwitchCase}
    (h : ∀ c ∈ cases, IsClosed c) (hclosed : EveryCase closed cases) :
    ∀ c ∈ (inCases named cases).1, IsClosed c := by
  induction cases with
  | nil => simp [inCases]
  | cons c rest ih =>
    obtain ⟨hc, hrest⟩ := List.forall_mem_cons.mp h
    rw [EveryCase] at hclosed
    refine List.forall_mem_cons.mpr ⟨⟨?_, hc.values⟩, ih hrest hclosed.2⟩
    rcases endsAway_inList named false hclosed.1.2 hc.ends with hends | ⟨hdead, -⟩
    · exact hends
    · cases hdead

end Cleanup

/-- Closed cases stay closed. -/
lemma Execution.closed_stays : closed.Stays where
  structured s hs hswitch := by
    cases s with
    | cond | loop | scope | seq => trivial
    | switch value cases => exact absurd rfl (hswitch value cases)
    | _ => cases hs
  breakOut := trivial
  continueLoop := trivial
  newCases _ _ _ hafter h := Jumps.isClosed_newCases hafter h
  inCases named _ _ h hclosed := Cleanup.isClosed_inCases named h hclosed

/-! ### Units -/

/-- The final tree of a unit is flat, and its switches have closed cases. -/
theorem closed_recoverTree {names : Bytecode.Names} {options : Options} {name : String}
    {bytes : List UInt8} {tree : Block}
    (h : (exec (recoverTree names options bytes) { context := unitContext name }).1 = .ok tree) :
    FlatUnit tree ∧ EveryIn closed tree.body := by
  obtain ⟨blocks, context, -, hwf, hsimple, htree⟩ := recoverTree_eq_ok h
  obtain ⟨loops, t, built, recovered, u, -, hbuilt, hconditions, hsimplified⟩ :=
    treeOf_eq_ok (hwf.soundBlocks_of_isSimple hsimple) htree
  have hrecovered := hbuilt.recovered_findConditions hsimple hconditions
  have hflat := (Flatten.flatUnit_splice recovered).simplified
  rw [← hsimplified] at hflat
  exact ⟨hflat, closed_stays.simplify hsimplified (Flatten.closed_spliced hrecovered)⟩

end Decompiler
