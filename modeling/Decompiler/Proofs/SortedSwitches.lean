import Decompiler.Proofs.CaseOrder
import Decompiler.Proofs.ConditionRecovery
import Decompiler.Proofs.RecoveredSwitches

/-!
# Where sorted switches go

A dispatch goes to the target of the first of its entries that matches a value.  The switch that is
recovered from it has one case for each target, with all of its values, and the cases are in the order of
their least values, targets of which neither has the lesser value in the order in which they are first
mentioned (`Precedes`).  So the switch goes to the first target in that order with an entry that matches
(`switchTo?_eq_iff`).  That is the target of the dispatch as long as entries of different targets do not
match the same value, and in any other case only when the target that comes first as an entry also comes
first as a case.
-/

namespace Decompiler

namespace Conditions

open Bytecode Execution

variable {cases : List (Expr × LabelId)} {found : List (LabelId × List Expr)}

/-! ### Groups -/

/-- The entries of a group. -/
def pairsOf (group : LabelId × List Expr) : List (Expr × LabelId) :=
  group.2.map fun value => (value, group.1)

/-- Adding a value to the group of its target adds an entry. -/
lemma perm_addValue {label : LabelId} (hnodup : (found.map Prod.fst).Nodup)
    (hmem : label ∈ found.map Prod.fst) (value : Expr) :
    ((found.map fun (l, values) => (l, if l = label then values ++ [value] else values)).flatMap
      pairsOf).Perm ((value, label) :: found.flatMap pairsOf) := by
  induction found with
  | nil => cases hmem
  | cons group rest ih =>
    obtain ⟨l, values⟩ := group
    rw [List.map_cons, List.nodup_cons] at hnodup
    rw [List.map_cons, List.flatMap_cons, List.flatMap_cons]
    by_cases hl : l = label
    · -- The other groups are those of other targets.
      subst hl
      have hrest : (rest.map fun (l', values) => (l', if l' = l then values ++ [value] else values)) =
          rest := by
        refine (List.map_congr_left fun group hgroup => ?_).trans (List.map_id rest)
        have hne : group.1 ≠ l := fun h => hnodup.1 (List.mem_map.mpr ⟨group, hgroup, h⟩)
        simp [hne]
      rw [hrest]
      simp only [pairsOf, if_true, List.map_append, List.map_cons, List.map_nil, List.append_assoc,
        List.singleton_append]
      exact List.perm_middle
    · have hmem : label ∈ rest.map Prod.fst := by
        rcases List.mem_cons.mp hmem with h | h
        · exact absurd h.symm hl
        · exact h
      have hother : pairsOf (l, if l = label then values ++ [value] else values) = pairsOf (l, values) := by
        rw [if_neg hl]
      rw [hother]
      exact ((ih hnodup.2 hmem).append_left _).trans List.perm_middle

/-- Grouping keeps the entries of a dispatch. -/
lemma perm_groups (hnodup : (found.map Prod.fst).Nodup) :
    ((groups cases found).flatMap pairsOf).Perm (found.flatMap pairsOf ++ cases) := by
  induction cases generalizing found with
  | nil => simp [groups]
  | cons c rest ih =>
    obtain ⟨value, label⟩ := c
    rw [groups]
    split
    · rename_i hsome
      rw [isSome_lookup_iff] at hsome
      refine (ih (by simpa [Function.comp_def] using hnodup)).trans ?_
      exact ((perm_addValue hnodup hsome value).append_right rest).trans List.perm_middle.symm
    · rename_i hnone
      rw [isSome_lookup_iff] at hnone
      refine (ih ?_).trans (by simp [pairsOf])
      rw [List.map_append, List.nodup_append']
      exact ⟨hnodup, List.nodup_singleton _, by simpa using hnone⟩

/-- The groups are in the order in which their targets are first mentioned, where `seen` are the targets
of the entries that have been gone through. -/
lemma pairwise_groups {seen : List LabelId} (hseen : ∀ l, l ∈ found.map Prod.fst ↔ l ∈ seen)
    (h : (found.map Prod.fst).Pairwise fun l m =>
      (seen ++ cases.map Prod.snd).idxOf l < (seen ++ cases.map Prod.snd).idxOf m) :
    ((groups cases found).map Prod.fst).Pairwise fun l m =>
      (seen ++ cases.map Prod.snd).idxOf l < (seen ++ cases.map Prod.snd).idxOf m := by
  induction cases generalizing found seen with
  | nil => exact h
  | cons c rest ih =>
    obtain ⟨value, label⟩ := c
    have hwhole : seen ++ ((value, label) :: rest).map Prod.snd =
        (seen ++ [label]) ++ rest.map Prod.snd := by simp
    rw [hwhole] at h ⊢
    rw [groups]
    split
    · rename_i hsome
      rw [isSome_lookup_iff, hseen] at hsome
      refine ih (fun l => ?_) ?_
      · simp only [List.map_map, Function.comp_def, List.mem_append, List.mem_singleton]
        rw [hseen]
        constructor
        · exact .inl
        · rintro (hl | rfl)
          · exact hl
          · exact hsome
      · simpa [Function.comp_def] using h
    · rename_i hnone
      rw [isSome_lookup_iff, hseen] at hnone
      refine ih (fun l => ?_) ?_
      · rw [List.map_append, List.mem_append, List.mem_append, hseen]
        rfl
      · rw [List.map_append, List.pairwise_append]
        refine ⟨h, List.pairwise_singleton _ _, ?_⟩
        intro l hl m hm
        obtain rfl : m = label := by simpa using hm
        have hl := (hseen l).mp hl
        have hlt := List.idxOf_lt_length_of_mem hl
        rw [List.append_assoc, List.idxOf_append_of_mem hl, List.idxOf_append_of_notMem hnone]
        omega

/-! ### The order of the targets -/

/-- Some value of a target comes before all values of another one. -/
def Ahead (cases : List (Expr × LabelId)) (label other : LabelId) : Prop :=
  ∃ value, (value, label) ∈ cases ∧ ∀ later, (later, other) ∈ cases → valueBefore value later = true

/-- The case of a target stands before that of another one: it has the lesser value, or neither has and it
is mentioned first. -/
def Precedes (cases : List (Expr × LabelId)) (label other : LabelId) : Prop :=
  Ahead cases label other ∨ ¬ Ahead cases other label ∧
    (cases.map Prod.snd).idxOf label < (cases.map Prod.snd).idxOf other

/-- A case that holds the values of a target in ascending order. -/
structure CaseFor (cases : List (Expr × LabelId)) (label : LabelId) (c : SwitchCase) : Prop where
  isDefault : c.isDefault = false
  entry : c.body.entry = some label
  mem_values : ∀ value, value ∈ c.values ↔ (value, label) ∈ cases
  nonempty : c.values ≠ []
  ascending : c.values.Pairwise fun a b => valueKey a ≤ valueKey b

/-- The place of a case among the others, which is that of its first value. -/
def caseKey (c : SwitchCase) : WithBot (WithTop ℚ) ⊕ₗ String :=
  valueKey (c.values.head?.getD (.const (.bool false)))

namespace CaseFor

variable {label other : LabelId} {c d : SwitchCase}

/-- The first value of a case is the least value of its target. -/
lemma exists_least (h : CaseFor cases label c) :
    ∃ value, c.values.head? = some value ∧ (value, label) ∈ cases ∧ caseKey c = valueKey value ∧
      ∀ later, (later, label) ∈ cases → valueKey value ≤ valueKey later := by
  obtain ⟨value, rest, hvalues⟩ := List.exists_cons_of_ne_nil h.nonempty
  have hhead : c.values.head? = some value := by rw [hvalues]; rfl
  refine ⟨value, hhead, (h.mem_values value).mp (List.mem_of_head? hhead), by rw [caseKey, hhead]; rfl, ?_⟩
  intro later hlater
  have hmem := (h.mem_values later).mpr hlater
  have hascending := h.ascending
  rw [hvalues] at hmem hascending
  rcases List.mem_cons.mp hmem with rfl | hmem
  · exact le_rfl
  · exact List.rel_of_pairwise_cons hascending hmem

/-- A case comes before another by its first value exactly when its target is ahead. -/
lemma caseKey_lt_iff (hordered : ∀ c ∈ cases, IsOrdered c.1) (hc : CaseFor cases label c)
    (hd : CaseFor cases other d) : caseKey c < caseKey d ↔ Ahead cases label other := by
  obtain ⟨least, -, hleast, hkey, hle⟩ := hc.exists_least
  obtain ⟨least', -, hleast', hkey', hle'⟩ := hd.exists_least
  have hbefore : ∀ {a b : Expr} {l m : LabelId}, (a, l) ∈ cases → (b, m) ∈ cases →
      (valueBefore a b = true ↔ valueKey a < valueKey b) :=
    fun ha hb => valueBefore_iff (hordered _ ha) (hordered _ hb)
  rw [hkey, hkey']
  constructor
  · intro hlt
    exact ⟨least, hleast, fun later hlater => (hbefore hleast hlater).mpr (hlt.trans_le (hle' _ hlater))⟩
  · rintro ⟨value, hvalue, hall⟩
    exact (hle value hvalue).trans_lt ((hbefore hvalue hleast').mp (hall _ hleast'))

/-- The comparison of cases is that of their keys. -/
lemma caseBefore_iff (hordered : ∀ c ∈ cases, IsOrdered c.1) (hc : CaseFor cases label c)
    (hd : CaseFor cases other d) : caseBefore c d = true ↔ caseKey c < caseKey d := by
  obtain ⟨least, hhead, hleast, hkey, -⟩ := hc.exists_least
  obtain ⟨least', hhead', hleast', hkey', -⟩ := hd.exists_least
  rw [caseBefore, hhead, hhead', hkey, hkey']
  exact valueBefore_iff (hordered _ hleast) (hordered _ hleast')

end CaseFor

/-- Of two targets, only one comes first. -/
lemma Precedes.asymm {label other : LabelId} {c d : SwitchCase}
    (hordered : ∀ c ∈ cases, IsOrdered c.1) (hc : CaseFor cases label c) (hd : CaseFor cases other d)
    (h : Precedes cases label other) : ¬ Precedes cases other label := by
  have hnot : ¬ (Ahead cases label other ∧ Ahead cases other label) := by
    rw [← hc.caseKey_lt_iff hordered hd, ← hd.caseKey_lt_iff hordered hc]
    exact fun hboth => lt_asymm hboth.1 hboth.2
  rintro (hahead | ⟨hnone, hidx⟩)
  · rcases h with hahead' | ⟨hnone', -⟩
    · exact hnot ⟨hahead', hahead⟩
    · exact hnone' hahead
  · rcases h with hahead' | ⟨-, hidx'⟩
    · exact hnone hahead'
    · omega

/-! ### Sorted cases -/

/-- Whether the target of one case is mentioned before that of another. -/
def MentionedBefore (cases : List (Expr × LabelId)) (c d : SwitchCase) : Prop :=
  ∀ label other, c.body.entry = some label → d.body.entry = some other →
    (cases.map Prod.snd).idxOf label < (cases.map Prod.snd).idxOf other

variable {own : List SwitchCase}

/-- The cases with their values in order. -/
def sortedValues (c : SwitchCase) : SwitchCase :=
  { c with values := stableSort valueBefore c.values }

/-- Constants are sorted. -/
lemma sortCases_eq (hown : List.Forall₂ OfGroup (groups cases []) own)
    (hordered : ∀ c ∈ cases, IsOrdered c.1) :
    sortCases own = stableSort caseBefore (own.map sortedValues) := by
  have hall : (own.flatMap CaseOf.values).all (fun value => value.constant?.isSome) = true := by
    rw [List.all_eq_true]
    intro value hvalue
    obtain ⟨c, hc, hvalue⟩ := List.mem_flatMap.mp hvalue
    obtain ⟨group, hgroup, hof⟩ := exists_of_forall₂ hown hc
    have hmem := mem_groups.mp ⟨group, hgroup, rfl, hof.values ▸ hvalue⟩
    obtain ⟨constant, hconstant, -⟩ := hordered _ (hmem.resolve_right (by simp))
    rw [hconstant]
    rfl
  rw [sortCases, if_pos hall]
  rfl

/-- The case of a group, with its values in order. -/
lemma caseFor_of_ofGroup (hordered : ∀ c ∈ cases, IsOrdered c.1) {group : LabelId × List Expr}
    (hgroup : group ∈ groups cases []) {c : SwitchCase} (h : OfGroup group c) :
    CaseFor cases group.1 (sortedValues c) := by
  have hnodup : ((groups cases []).map Prod.fst).Nodup := nodup_groups List.nodup_nil
  have hvalues : ∀ value, value ∈ group.2 ↔ (value, group.1) ∈ cases := by
    intro value
    constructor
    · intro hvalue
      exact (mem_groups.mp ⟨group, hgroup, rfl, hvalue⟩).resolve_right (by simp)
    · intro hentry
      obtain ⟨other, hother, hlabel, hvalue⟩ := mem_groups.mpr (.inl hentry)
      rwa [List.inj_on_of_nodup_map hnodup hother hgroup hlabel] at hvalue
  have hperm : (sortedValues c).values.Perm group.2 := h.values ▸ perm_stableSort _ _
  have hless : ∀ a ∈ c.values, ∀ b ∈ c.values, valueBefore a b = true ↔ valueKey a < valueKey b := by
    rw [h.values]
    exact fun a ha b hb => valueBefore_iff (hordered _ ((hvalues a).mp ha)) (hordered _ ((hvalues b).mp hb))
  refine ⟨h.isDefault, h.entry, fun value => hperm.mem_iff.trans (hvalues value), ?_, ?_⟩
  · have hlabel := (mem_map_groups.mp (List.mem_map_of_mem hgroup)).resolve_left (by simp)
    obtain ⟨⟨value, label⟩, hentry, heq⟩ := List.mem_map.mp hlabel
    dsimp only at heq
    rw [heq] at hentry
    exact List.ne_nil_of_mem (hperm.mem_iff.mpr ((hvalues value).mpr hentry))
  · refine (pairwise_stableSort hless (List.pairwise_of_forall fun _ _ => trivial)).imp ?_
    rintro a b (hlt | ⟨heq, -⟩)
    · exact hlt.le
    · exact heq.le

/-- The entries of a case, with the label at which it is entered. -/
def entriesOf (c : SwitchCase) : List (Expr × Option LabelId) :=
  c.values.map fun value => (value, c.body.entry)

/-- The entries of the cases of the groups are those of the groups. -/
lemma flatMap_entriesOf {list : List (LabelId × List Expr)} (hown : List.Forall₂ OfGroup list own) :
    own.flatMap entriesOf = (list.flatMap pairsOf).map fun entry => (entry.1, some entry.2) := by
  induction hown with
  | nil => rfl
  | cons hof _ ih =>
    rw [List.flatMap_cons, List.flatMap_cons, List.map_append, ih, entriesOf, hof.values, hof.entry]
    simp [pairsOf]

/-- Sorting keeps the entries of the cases. -/
lemma perm_entriesOf (hown : List.Forall₂ OfGroup (groups cases []) own) :
    ((sortCases own).flatMap entriesOf).Perm (cases.map fun entry => (entry.1, some entry.2)) := by
  obtain ⟨f, hf, hperm⟩ := sortCases_perm own
  have hsame : ∀ c ∈ own, (entriesOf (f c)).Perm (entriesOf c) := fun c _ => by
    rw [entriesOf, entriesOf, (hf c).body]
    exact (hf c).values.map _
  have hsorted : ((sortCases own).flatMap entriesOf).Perm (own.flatMap fun c => entriesOf (f c)) := by
    have hright := hperm.flatMap_right entriesOf
    rwa [List.flatMap_map] at hright
  have hgroups : ((groups cases []).flatMap pairsOf).Perm cases := perm_groups List.nodup_nil
  refine hsorted.trans ((List.Perm.flatMap_left own hsame).trans ?_)
  rw [flatMap_entriesOf hown]
  exact hgroups.map _

/-- The sorted cases of a dispatch, in their order. -/
structure SortedFor (cases : List (Expr × LabelId)) (sorted : List SwitchCase) : Prop where
  caseFor : ∀ c ∈ sorted, ∃ label, CaseFor cases label c
  exists_case : ∀ entry ∈ cases, ∃ c ∈ sorted, CaseFor cases entry.2 c
  precedes : sorted.Pairwise fun c d => ∀ label other, CaseFor cases label c → CaseFor cases other d →
    Precedes cases label other
  perm : (sorted.flatMap entriesOf).Perm (cases.map fun entry => (entry.1, some entry.2))

/-- Related lists are mapped to related elements of a pairwise relation. -/
lemma pairwise_of_forall₂ {α β : Type} {R : α → β → Prop} {P : α → α → Prop} {Q : β → β → Prop}
    {a : List α} {b : List β} (h : List.Forall₂ R a b) (hpq : ∀ x y x' y', R x y → R x' y' → P x x' → Q y y')
    (hp : a.Pairwise P) : b.Pairwise Q := by
  induction h with
  | nil => exact .nil
  | cons hxy hrest ih =>
    obtain ⟨hfirst, hp⟩ := List.pairwise_cons.mp hp
    refine List.pairwise_cons.mpr ⟨fun y hy => ?_, ih hp⟩
    obtain ⟨x, hx, hxy'⟩ := exists_of_forall₂ hrest hy
    exact hpq _ _ _ _ hxy hxy' (hfirst x hx)

/-- The recovered cases of a dispatch are its sorted cases. -/
lemma sortedFor_sortCases (hown : List.Forall₂ OfGroup (groups cases []) own)
    (hordered : ∀ c ∈ cases, IsOrdered c.1) : SortedFor cases (sortCases own) := by
  have hlisted : ∀ c ∈ own.map sortedValues, ∃ group ∈ groups cases [], CaseFor cases group.1 c := by
    intro c hc
    obtain ⟨d, hd, rfl⟩ := List.mem_map.mp hc
    obtain ⟨group, hgroup, hof⟩ := exists_of_forall₂ hown hd
    exact ⟨group, hgroup, caseFor_of_ofGroup hordered hgroup hof⟩
  have hperm : (sortCases own).Perm (own.map sortedValues) := by
    rw [sortCases_eq hown hordered]
    exact perm_stableSort _ _
  have hmentioned : (own.map sortedValues).Pairwise (MentionedBefore cases) := by
    have hgroups : ((groups cases []).map Prod.fst).Pairwise fun l m =>
        ([] ++ cases.map Prod.snd).idxOf l < ([] ++ cases.map Prod.snd).idxOf m :=
      pairwise_groups (by simp) .nil
    rw [List.pairwise_map] at hgroups ⊢
    refine pairwise_of_forall₂ hown ?_ hgroups
    intro group c other d hc hd hlt label label' hlabel hlabel'
    have h := Option.some.inj (hc.entry.symm.trans hlabel)
    have h' := Option.some.inj (hd.entry.symm.trans hlabel')
    rw [← h, ← h']
    exact hlt
  refine ⟨fun c hc => ?_, fun entry hentry => ?_, ?_, ?_⟩
  · obtain ⟨group, -, hcase⟩ := hlisted c (hperm.mem_iff.mp hc)
    exact ⟨group.1, hcase⟩
  · obtain ⟨group, hgroup, hlabel, -⟩ := mem_groups.mpr (.inl hentry)
    obtain ⟨c, hc, hof⟩ := exists_of_forall₂ hown.flip hgroup
    refine ⟨_, hperm.mem_iff.mpr (List.mem_map_of_mem hc), ?_⟩
    rw [← hlabel]
    exact caseFor_of_ofGroup hordered hgroup hof
  · have hless : ∀ c ∈ own.map sortedValues, ∀ d ∈ own.map sortedValues,
        caseBefore c d = true ↔ caseKey c < caseKey d := by
      intro c hc d hd
      obtain ⟨group, -, hcase⟩ := hlisted c hc
      obtain ⟨other, -, hcase'⟩ := hlisted d hd
      exact hcase.caseBefore_iff hordered hcase'
    rw [sortCases_eq hown hordered]
    refine (pairwise_stableSort hless hmentioned).imp ?_
    · rintro c d (hlt | ⟨heq, hbefore⟩) label other hc hd
      · exact .inl ((hc.caseKey_lt_iff hordered hd).mp hlt)
      · refine .inr ⟨fun hahead => ?_, hbefore label other hc.entry hd.entry⟩
        exact heq.not_gt ((hd.caseKey_lt_iff hordered hc).mpr hahead)
  · exact perm_entriesOf hown

/-! ### Where a switch goes -/

/-- Where a switch goes: to the label at which the case is entered, or else where the code behind it leads.
-/
def switchTo? (matched : Expr → Bool) (cases : List SwitchCase) (behind : List Stmt) : Option LabelId :=
  match (enteredCases matched cases).head? with
  | some c => c.body.entry
  | none => leads? behind

/-- Sorting keeps where a value goes: when no entry matches it, the dispatch goes where the code behind it
leads; and the case of the first entry that matches stands before those of all other targets with entries
that match. -/
def KeepsTarget (matched : Expr → Bool) (cases : List (Expr × LabelId)) (default fall : LabelId) : Prop :=
  match cases.find? fun entry => matched entry.1 with
  | none => default = fall
  | some first => ∀ entry ∈ cases, matched entry.1 = true → entry.2 ≠ first.2 →
      Precedes cases first.2 entry.2

variable {matched : Expr → Bool} {sorted : List SwitchCase} {default fall : LabelId}
  {last : Option (List Stmt)}

/-- Where a switch goes when no entry matches. -/
lemma switchTo?_of_none (hsorted : SortedFor cases sorted)
    (hnone : ∀ entry ∈ cases, matched entry.1 = false) :
    switchTo? matched (sorted ++ defaultCase fall last) (fallJump fall last) = some fall := by
  have hpass : ∀ c ∈ sorted, c.values.any matched = false ∧ (!c.isDefault) = true := by
    intro c hc
    obtain ⟨label, hcase⟩ := hsorted.caseFor c hc
    refine ⟨List.any_eq_false.mpr fun value hvalue => ?_, by rw [hcase.isDefault]; rfl⟩
    simp [hnone _ ((hcase.mem_values value).mp hvalue)]
  have hall : ∀ c ∈ sorted ++ defaultCase fall last, c.values.any matched = false := by
    refine List.forall_mem_append.mpr ⟨fun c hc => (hpass c hc).1, ?_⟩
    cases last <;> simp [defaultCase]
  rw [switchTo?, enteredCases_of_none hall, List.dropWhile_append_of_pos fun c hc => (hpass c hc).2]
  cases last <;> rfl

/-- The first case with an entry that matches is the one that is entered. -/
lemma switchTo?_of_split {before after : List SwitchCase} {c : SwitchCase} {label : LabelId}
    (hbefore : ∀ d ∈ before, d.values.any matched = false) (hc : c.values.any matched = true)
    (hlabel : c.body.entry = some label) :
    switchTo? matched ((before ++ c :: after) ++ defaultCase fall last) (fallJump fall last) =
      some label := by
  have hdrop : (((before ++ c :: after) ++ defaultCase fall last).dropWhile
      fun d => !d.values.any matched) = c :: (after ++ defaultCase fall last) := by
    rw [List.append_assoc, List.dropWhile_append_of_pos fun d hd => by rw [hbefore d hd]; rfl,
      List.cons_append, List.dropWhile_cons, if_neg (by simp [hc])]
  rw [switchTo?, enteredCases, hdrop]
  exact hlabel

/-- A sorted switch goes where the dispatch goes exactly when sorting keeps where the value goes. -/
theorem switchTo?_eq_iff (hordered : ∀ entry ∈ cases, IsOrdered entry.1) (hsorted : SortedFor cases sorted) :
    switchTo? matched (sorted ++ defaultCase fall last) (fallJump fall last) =
      some (dispatchTo matched cases default) ↔ KeepsTarget matched cases default fall := by
  unfold KeepsTarget
  cases hfind : cases.find? fun entry => matched entry.1 with
  | none =>
    have hnone : ∀ entry ∈ cases, matched entry.1 = false := fun entry hentry => by
      simpa using List.find?_eq_none.mp hfind entry hentry
    rw [switchTo?_of_none hsorted hnone, dispatchTo_eq_default hnone, Option.some.injEq, eq_comm]
  | some first =>
    have hfirst := List.mem_of_find?_eq_some hfind
    have hmatch : matched first.1 = true := by simpa using List.find?_some hfind
    have hgoes : dispatchTo matched cases default = first.2 := by rw [dispatchTo, hfind]; rfl
    have hany : ∀ {c : SwitchCase} {label : LabelId}, CaseFor cases label c →
        (c.values.any matched = true ↔ ∃ value, (value, label) ∈ cases ∧ matched value = true) :=
      fun hcase => by simp only [List.any_eq_true, hcase.mem_values]
    -- The first of the sorted cases with an entry that matches.
    obtain ⟨own, hown, hcaseOwn⟩ := hsorted.exists_case first hfirst
    have hsome : (sorted.find? fun c => c.values.any matched).isSome = true :=
      List.find?_isSome.mpr ⟨own, hown, (hany hcaseOwn).mpr ⟨first.1, hfirst, hmatch⟩⟩
    obtain ⟨c, hc⟩ := Option.isSome_iff_exists.mp hsome
    obtain ⟨hcmatch, before, after, rfl, hbefore⟩ := List.find?_eq_some_iff_append.mp hc
    have hbefore : ∀ d ∈ before, d.values.any matched = false := fun d hd => by
      simpa using hbefore d hd
    have hcmem : c ∈ before ++ c :: after := List.mem_append_right _ List.mem_cons_self
    obtain ⟨label, hcase⟩ := hsorted.caseFor c hcmem
    have hlater : ∀ {d : SwitchCase} {other : LabelId}, d ∈ before ++ c :: after →
        CaseFor cases other d → d.values.any matched = true → other ≠ label →
        Precedes cases label other := by
      intro d other hd hcase' hdmatch hne
      rcases List.mem_append.mp hd with hd | hd
      · rw [hbefore d hd] at hdmatch
        cases hdmatch
      rcases List.mem_cons.mp hd with rfl | hd
      · exact absurd (Option.some.inj (hcase'.entry.symm.trans hcase.entry)) hne
      · have hpairs := (List.pairwise_append.mp hsorted.precedes).2.1
        exact List.rel_of_pairwise_cons hpairs hd label other hcase hcase'
    rw [switchTo?_of_split hbefore hcmatch hcase.entry, hgoes, Option.some.injEq]
    constructor
    · rintro rfl entry hentry hmatch' hne
      obtain ⟨d, hd, hcase'⟩ := hsorted.exists_case entry hentry
      exact hlater hd hcase' ((hany hcase').mpr ⟨entry.1, hentry, hmatch'⟩) hne
    · intro hkeeps
      by_contra hne
      obtain ⟨value, hentry, hmatch'⟩ := (hany hcase).mp hcmatch
      have hforth := hkeeps (value, label) hentry hmatch' hne
      have hback := hlater hown hcaseOwn ((hany hcaseOwn).mpr ⟨first.1, hfirst, hmatch⟩) (Ne.symm hne)
      exact hforth.asymm hordered hcaseOwn hcase hback

/-- Where a value goes is kept when all entries that match it have one target, and the default is where the
code behind the dispatch leads. -/
lemma keepsTarget_of_same (hdefault : default = fall)
    (h : ∀ a ∈ cases, ∀ b ∈ cases, matched a.1 = true → matched b.1 = true → a.2 = b.2) :
    KeepsTarget matched cases default fall := by
  unfold KeepsTarget
  split
  · exact hdefault
  · rename_i first hfind
    intro entry hentry hmatch hne
    have hfirst : matched first.1 = true := by simpa using List.find?_some hfind
    exact absurd (h entry hentry first (List.mem_of_find?_eq_some hfind) hmatch hfirst) hne

/-! ### The recovery of a dispatch -/

/-- The recovery of a dispatch on constants none of which is a NaN gives a switch with the same entries.
It goes where the dispatch goes exactly when sorting keeps where the value goes. -/
theorem recoverSwitch_switchTo?_iff {items : List Stmt} {layout : Layout} {fuel item : Nat}
    {region : Region} {s : RecoveryState} {block : BasicBlock} {init : List Stmt} {value : Expr}
    (hholds : Holds (Original items) region s) (hitem : region.mem item = true)
    (hblock : items[item]? = some (.basic block)) (hinit : init ≠ [])
    (hbody : block.body = init ++ [.dispatch value cases default, .goto fall])
    (hordered : ∀ entry ∈ cases, IsOrdered entry.1) :
    Yields (recoverSwitch (recover layout fuel) layout region item) s fun found _ =>
      ∃ switch behind rest,
        found = some (.basic { block with body := init ++ .switch value switch :: behind }, rest) ∧
        (switch.flatMap entriesOf).Perm (cases.map fun entry => (entry.1, some entry.2)) ∧
        ∀ matched : Expr → Bool,
          switchTo? matched switch behind = some (dispatchTo matched cases default) ↔
            KeepsTarget matched cases default fall := by
  obtain ⟨found, hslot, horiginal⟩ := hholds item hitem
  obtain rfl : found = block := Stmt.basic.inj (Option.some.inj (horiginal.symm.trans hblock))
  have hleft := Left.start hholds (Nat.zero_le _)
  refine (yields_recoverSwitch_of_dispatch (arranging_recover layout fuel) hleft hitem hslot hinit
    hbody).mono ?_
  rintro _ t ⟨own, last, rest, rfl, hown, -⟩
  have hsorted := sortedFor_sortCases hown hordered
  refine ⟨_, _, rest, rfl, ?_, fun matched => switchTo?_eq_iff hordered hsorted⟩
  have hdefault : (defaultCase fall last).flatMap entriesOf = [] := by
    cases last <;> rfl
  rw [List.flatMap_append, hdefault, List.append_nil]
  exact hsorted.perm

/-- Names for four labels. -/
def fourLabels : Context where
  labels := { names := ["L0", "L1", "L2", "L3"] }
  diagnostics := { unit := "unit" }

/-- A dispatch with two targets of its own. -/
def twoTargets (cases : List (Expr × LabelId)) : Block where
  entry := some 0
  body :=
    [.basic { body := [.label 0, .dispatch (.var (Variable.temporary "v")) cases 3, .goto 3] },
      .basic { body := [.label 1, .call "f" [], .goto 3] },
      .basic { body := [.label 2, .call "g" [], .goto 3] },
      .basic { body := [.label 3, .exit] }]

/-- Three constants with two targets, the second of which has the least one. -/
def threeConstants : List (Expr × LabelId) :=
  [(.const (.int 5), 1), (.const (.int 1), 2), (.const (.int 7), 1)]

/-- Each number goes where it went, although the cases change places. -/
theorem threeConstants_kept :
    Yields (recoverSwitch (recover (.ofBlock (twoTargets threeConstants)) 5)
        (.ofBlock (twoTargets threeConstants)) (Layout.ofBlock (twoTargets threeConstants)).fullRegion 0)
      (.start (twoTargets threeConstants).body fourLabels) fun found _ =>
      ∃ block rest init value switch behind, found = some (.basic block, rest) ∧
        block.body = init ++ .switch value switch :: behind ∧
        (switch.flatMap entriesOf).Perm (threeConstants.map fun entry => (entry.1, some entry.2)) ∧
        ∀ v : Int, switchTo? (·.isLiteral v) switch behind =
          some (dispatchTo (·.isLiteral v) threeConstants 3) := by
  have hholds : Holds (Original (twoTargets threeConstants).body)
      (Layout.ofBlock (twoTargets threeConstants)).fullRegion
      (.start (twoTargets threeConstants).body fourLabels) := by
    refine holds_fullRegion (fun i item hitem => ?_) fourLabels
    obtain ⟨b, rfl⟩ : ∃ b, item = .basic b := by
      have hmem := List.mem_of_getElem? hitem
      simp only [twoTargets, List.mem_cons, List.not_mem_nil, or_false] at hmem
      rcases hmem with rfl | rfl | rfl | rfl <;> exact ⟨_, rfl⟩
    exact ⟨b, rfl, hitem⟩
  have hordered : ∀ entry ∈ threeConstants, IsOrdered entry.1 := by
    simp [threeConstants, IsOrdered, Expr.constant?, Constant.IsOrdered, Constant.number?]
  have hinit : [Stmt.label 0] ≠ [] := List.cons_ne_nil _ _
  refine (recoverSwitch_switchTo?_iff hholds (by decide) rfl hinit rfl hordered).mono ?_
  rintro found t ⟨switch, behind, rest, rfl, hperm, hgoes⟩
  refine ⟨_, rest, _, _, switch, behind, rfl, rfl, hperm, fun v => (hgoes _).mpr ?_⟩
  refine keepsTarget_of_same rfl ?_
  simp [threeConstants, Expr.isLiteral, Constant.integer?]
  omega

/-- A constant that stands twice, once for each target. -/
def repeatedConstant : List (Expr × LabelId) :=
  [(.const (.int 5), 1), (.const (.int 1), 2), (.const (.int 5), 2)]

/-- The dispatch takes the number to the first target, and the recovered switch takes it to the second,
whose case comes first for its least constant. -/
theorem repeatedConstant_moved :
    dispatchTo (·.isLiteral 5) repeatedConstant 3 = 1 ∧
      ∃ block rest init value switch behind t,
        exec (recoverSwitch (recover (.ofBlock (twoTargets repeatedConstant)) 5)
          (.ofBlock (twoTargets repeatedConstant))
          (Layout.ofBlock (twoTargets repeatedConstant)).fullRegion 0)
          (.start (twoTargets repeatedConstant).body fourLabels) = (.ok (some (.basic block, rest)), t) ∧
        block.body = init ++ .switch value switch :: behind ∧
        switchTo? (·.isLiteral 5) switch behind = some 2 := by
  refine ⟨by decide, _, _, [.label 0], _, _, _, _, rfl, rfl, ?_⟩
  decide +kernel

end Conditions

end Decompiler
