import Mathlib.Data.List.Nodup
import Decompiler.Proofs.Rewriting

/-!
# Sweeps that change nothing

A sweep tries its rules at positions that move on while the list changes under them.  `Tries` is the
walk of one rule over the list, with no bound on its steps; `tryRule` walks to the end because what an
edit inserts is no pattern for the rule that inserted it, so that each position costs two steps at most.

A walk that changes nothing has asked the rule at every position of one and the same list.  A quiet
sweep therefore ends at a list that no rule edits (`IsNormal`), and on such a list every sweep is quiet.
By induction on the sweeps, a run that ends of itself does so after the same number of sweeps under
every bound that allows for them, and the bound is all that stops it under a smaller one.
-/

namespace Decompiler

/-! ### Rules that ask for nothing -/

namespace Rule

/-- A rule asks for no edit at a site, whatever the names and messages are. -/
def Declines (rule : Rule) (site : Site) : Prop :=
  ∀ context, (rule.edit? site context).1 = none

/-- Whether a rule asks for an edit does not depend on the names and messages. -/
lemma declines_of_edit?_eq_none {rule : Rule} {site : Site} {context : Context}
    (h : (rule.edit? site context).1 = none) : rule.Declines site := by
  intro other
  cases rule with
  | countedLoop =>
    change (CountedLoop.edit? site context).1 = none at h
    change (CountedLoop.edit? site other).1 = none
    unfold CountedLoop.edit? at h ⊢
    split at h
    · rfl
    · cases h
  | switchDispatch =>
    change (SwitchDispatch.edit? site context).1 = none at h
    change (SwitchDispatch.edit? site other).1 = none
    unfold SwitchDispatch.edit? at h ⊢
    split at h
    · rfl
    · split at h
      · exact h
      · rfl
  | deadBlocks =>
    change (deadBlocksEdit? site context).1 = none at h
    change (deadBlocksEdit? site other).1 = none
    unfold deadBlocksEdit? at h ⊢
    split at h
    · rfl
    · rename_i label _
      by_cases hkept : site.pos = 0 ∨ site.refcount label ≠ 0
      · rw [if_pos hkept]
      · rw [if_neg hkept] at h
        split at h
        · cases h
        · cases h
  | withScope | shortCircuit | ternary | join | logicNot | popz => exact h

/-- A rule that asks for nothing mints no label. -/
lemma labels_of_edit?_eq_none {rule : Rule} {site : Site} {context context' : Context}
    (h : rule.edit? site context = (none, context')) : context'.labels = context.labels := by
  cases rule with
  | countedLoop =>
    change CountedLoop.edit? site context = (none, context') at h
    unfold CountedLoop.edit? at h
    split at h
    · cases h
      rfl
    · cases h
  | switchDispatch =>
    change SwitchDispatch.edit? site context = (none, context') at h
    unfold SwitchDispatch.edit? at h
    split at h
    · cases h
      rfl
    · split at h
      · rw [(Prod.mk.inj h).2]
      · cases h
        rfl
  | deadBlocks =>
    change deadBlocksEdit? site context = (none, context') at h
    unfold deadBlocksEdit? at h
    split at h
    · cases h
      rfl
    · split at h
      · cases h
        rfl
      · split at h
        · cases h
        · cases h
  | withScope | shortCircuit | ternary | join | logicNot | popz =>
    have hcontext : context = context' := congrArg Prod.snd h
    rw [hcontext]

/-- A rule that inserts anything inserts one block, at which it asks for nothing. -/
lemma insert_eq_of_edit? {rule : Rule} {site : Site} {edit : Edit} {context context' : Context}
    (h : rule.edit? site context = (some edit, context')) :
    edit.insert = [] ∨
      ∃ block, edit.insert = [block] ∧ ∀ map pos, rule.Declines ⟨map, pos, block⟩ := by
  cases rule with
  | countedLoop =>
    obtain ⟨counter, _, _, head, _, _, _, _, _, -, -, -, -, -, -, -, -, -, -, rfl⟩ :=
      CountedLoop.edit?_eq_some h
    refine .inr ⟨_, rfl, fun map pos other => ?_⟩
    -- The inserted test starts with the temporary where the head of a loop has a `dup`.
    have hmatch : ∀ label,
        CountedLoop.match? ⟨map, pos, CountedLoop.testBlock head counter label⟩ = none :=
      fun _ => rfl
    change (CountedLoop.edit? _ other).1 = none
    rw [CountedLoop.edit?, hmatch]
  | switchDispatch =>
    obtain ⟨-, _, _, _, _, _, _, _, _, -, -, -, -, -, -, rfl⟩ := SwitchDispatch.edit?_eq_some h
    exact .inl rfl
  | withScope =>
    obtain ⟨_, _, _, _, _, _, _, _, _, _, -, -, -, -, -, -, -, -, -, -, rfl⟩ :=
      WithScope.edit?_eq_some (congrArg Prod.fst h)
    exact .inl rfl
  | shortCircuit =>
    obtain ⟨_, _, _, _, _, _, _, _, _, _, _, -, -, -, -, -, -, rfl⟩ :=
      ShortCircuit.edit?_eq_some (congrArg Prod.fst h)
    exact .inl rfl
  | ternary =>
    obtain ⟨_, _, _, _, _, _, _, _, -, -, -, -, -, -, -, -, hedit⟩ :=
      Ternary.edit?_eq_some (congrArg Prod.fst h)
    rcases hedit with ⟨_, _, _, -, rfl⟩ | rfl
    · exact .inl rfl
    · exact .inl rfl
  | join =>
    obtain ⟨_, _, _, _, _, _, -, -, -, -, -, -, -, -, rfl⟩ :=
      Join.edit?_eq_some (congrArg Prod.fst h)
    exact .inl rfl
  | logicNot =>
    have h : logicNotEdit? site = some edit := congrArg Prod.fst h
    unfold logicNotEdit? at h
    split at h
    · cases h
      exact .inl rfl
    · cases h
  | popz =>
    have h : popzEdit? site = some edit := congrArg Prod.fst h
    unfold popzEdit? at h
    split at h
    · cases h
    · cases h
      exact .inl rfl
  | deadBlocks =>
    obtain ⟨_, -, -, -, rfl⟩ := deadBlocksEdit?_eq_some (congrArg Prod.fst h)
    exact .inl rfl

end Rule

/-! ### Where a walk goes on -/

namespace Edit

/-- No position is deleted twice. -/
lemma nodup_foldlM_removal {blocks : List BasicBlock} {pos : Nat} {replaced : List Nat}
    {remove : List LabelId} {before removed : List Nat} (hbefore : before.Nodup)
    (h : remove.foldlM (removal blocks pos replaced) before = .ok removed) : removed.Nodup := by
  induction remove generalizing before with
  | nil =>
    cases h
    exact hbefore
  | cons label rest ih =>
    rw [List.foldlM_cons] at h
    obtain ⟨next, hnext, h⟩ := Except.bind_eq_ok_iff.mp h
    obtain ⟨i, -, hnext⟩ := Except.bind_eq_ok_iff.mp hnext
    split at hnext
    · cases hnext
    rename_i hguard
    cases hnext
    refine ih ?_ h
    simp only [Bool.or_eq_true, List.contains_iff_mem, not_or] at hguard
    exact hbefore.append (List.nodup_singleton i) (by simpa using hguard.2)

section Place

variable (edit : Edit) (pos : Nat) (replaced : List (Nat × BasicBlock)) (removed : List Nat)

/-- What an edit makes of the blocks from position `start` on. -/
def placeAll (blocks : List BasicBlock) (start : Nat) : List BasicBlock :=
  (blocks.zipIdx start).flatMap fun (block, i) => edit.place pos replaced removed block i

/-- Behind the head the list does not grow. -/
lemma length_placeAll_le (blocks : List BasicBlock) (start : Nat) (hstart : pos < start) :
    (edit.placeAll pos replaced removed blocks start).length ≤ blocks.length := by
  induction blocks generalizing start with
  | nil => simp [placeAll]
  | cons block rest ih =>
    have hrest := ih (start + 1) (by omega)
    have hfirst : (edit.place pos replaced removed block start).length ≤ 1 := by
      unfold place
      rw [if_neg (show ¬ start = pos by omega)]
      split <;> simp
    simp only [placeAll, List.zipIdx_cons, List.flatMap_cons, List.length_append,
      List.length_cons] at hrest ⊢
    omega

/-- Before the head the list loses the positions that are deleted. -/
lemma length_placeAll_of_le (blocks : List BasicBlock) (start : Nat)
    (hpos : start + blocks.length ≤ pos) :
    (edit.placeAll pos replaced removed blocks start).length +
      (List.range' start blocks.length).countP removed.contains = blocks.length := by
  induction blocks generalizing start with
  | nil => simp [placeAll]
  | cons block rest ih =>
    rw [List.length_cons] at hpos
    have hrest := ih (start + 1) (by omega)
    have hfirst : (edit.place pos replaced removed block start).length +
        (if removed.contains start then 1 else 0) = 1 := by
      unfold place
      rw [if_neg (show ¬ start = pos by omega)]
      split <;> simp_all
    simp only [placeAll, List.zipIdx_cons, List.flatMap_cons, List.length_append,
      List.length_cons, List.range'_succ, List.countP_cons] at hrest ⊢
    omega

/-- The blocks before the head, the new head with what is inserted, and the blocks behind it. -/
lemma placeAll_around {removed : List Nat} {blocks : List BasicBlock} (hpos : pos < blocks.length)
    (hkept : pos ∉ removed) :
    edit.placeAll pos replaced removed blocks 0 =
      edit.placeAll pos replaced removed (blocks.take pos) 0 ++ (edit.head.toList ++ edit.insert) ++
        edit.placeAll pos replaced removed (blocks.drop (pos + 1)) (pos + 1) := by
  have hplace : edit.place pos replaced removed blocks[pos] pos =
      edit.head.toList ++ edit.insert := by
    simp [place, hkept]
  have hsplit : blocks = blocks.take pos ++ blocks[pos] :: blocks.drop (pos + 1) := by
    rw [List.getElem_cons_drop, List.take_append_drop]
  have htake : (blocks.take pos).length = pos := List.length_take_of_le (Nat.le_of_lt hpos)
  conv_lhs => rw [hsplit]
  rw [placeAll, List.zipIdx_append, List.flatMap_append, List.zipIdx_cons, List.flatMap_cons, htake,
    Nat.zero_add]
  simp only [hplace, placeAll, List.append_assoc]

end Place

/-- Positions that are deleted, counted in the list of deletions and among all positions. -/
lemma countP_removed {removed : List Nat} (hnodup : removed.Nodup) (pos : Nat) :
    removed.countP (· < pos) = (List.range pos).countP removed.contains := by
  rw [List.countP_eq_length_filter, List.countP_eq_length_filter]
  refine List.Perm.length_eq ?_
  rw [List.perm_ext_iff_of_nodup (hnodup.filter _) (List.nodup_range.filter _)]
  intro i
  simp [and_comm]

/-- The walk goes on right after the new head, which what is left of the blocks before it comes before.
-/
lemma apply_eq_ok_resume {edit : Edit} {blocks after : List BasicBlock} {pos resume : Nat}
    (hpos : pos < blocks.length) (h : edit.apply blocks pos = .ok (after, resume)) :
    ∃ replaced removed, edit.Applied blocks pos replaced removed after ∧
      resume = (edit.placeAll pos replaced removed (blocks.take pos) 0).length +
        edit.head.toList.length := by
  obtain ⟨replaced, hreplaced, h⟩ := Except.bind_eq_ok_iff.mp h
  obtain ⟨removed, hremoved, h⟩ := Except.bind_eq_ok_iff.mp h
  cases h
  refine ⟨replaced, removed, applied_of_eq_ok hreplaced hremoved, ?_⟩
  have hnodup : removed.Nodup := nodup_foldlM_removal List.nodup_nil hremoved
  have htake : (blocks.take pos).length = pos := List.length_take_of_le (Nat.le_of_lt hpos)
  have hbefore := length_placeAll_of_le edit pos replaced removed (blocks.take pos) 0 (by omega)
  rw [htake, ← List.range_eq_range', ← countP_removed hnodup] at hbefore
  cases hhead : edit.head with
  | none =>
    simp only [Option.isSome_none, Bool.false_eq_true, if_false, Option.toList_none,
      List.length_nil]
    omega
  | some block =>
    simp only [Option.isSome_some, if_true, Option.toList_some, List.length_singleton]
    omega

/-- An edit leaves the blocks before its head, then the new head and what is inserted, then no more
blocks than there were behind the head.  The walk goes on right after the new head. -/
lemma apply_eq_ok_around {edit : Edit} {blocks after : List BasicBlock} {pos resume : Nat}
    (hpos : pos < blocks.length) (h : edit.apply blocks pos = .ok (after, resume)) :
    ∃ before behind, after = before ++ edit.head.toList ++ (edit.insert ++ behind) ∧
      behind.length + pos < blocks.length ∧ resume = before.length + edit.head.toList.length := by
  obtain ⟨replaced, removed, happ, hresume⟩ := apply_eq_ok_resume hpos h
  refine ⟨edit.placeAll pos replaced removed (blocks.take pos) 0,
    edit.placeAll pos replaced removed (blocks.drop (pos + 1)) (pos + 1), ?_, ?_, hresume⟩
  · refine happ.after_eq.trans ((placeAll_around edit pos replaced hpos happ.pos_kept).trans ?_)
    simp only [List.append_assoc]
  · have hle := length_placeAll_le edit pos replaced removed (blocks.drop (pos + 1)) (pos + 1)
      (Nat.lt_succ_self pos)
    rw [List.length_drop] at hle
    omega

end Edit

namespace Fixpoint

/-! ### The walk of a rule -/

/-- A rule walks over a list from a position on, until it is behind the last block or an edit fails.
-/
inductive Tries (rule : Rule) : Nat → State → Outcome Unit → Prop where
  | finished {pos : Nat} {state : State} (hend : state.blocks[pos]? = none) :
      Tries rule pos state (.ok (), state)
  | declined {pos : Nat} {state : State} {head : BasicBlock} {context : Context}
      {outcome : Outcome Unit} (hhead : state.blocks[pos]? = some head)
      (hedit : rule.edit? ⟨.ofBlocks state.blocks, pos, head⟩ state.context = (none, context))
      (hrest : Tries rule (pos + 1) { state with context } outcome) : Tries rule pos state outcome
  | failed {pos : Nat} {state : State} {head : BasicBlock} {context : Context} {edit : Edit}
      {error : Error} (hhead : state.blocks[pos]? = some head)
      (hedit : rule.edit? ⟨.ofBlocks state.blocks, pos, head⟩ state.context = (some edit, context))
      (happly : edit.apply state.blocks pos = .error error) :
      Tries rule pos state (.error error, { state with context })
  | edited {pos resume : Nat} {state : State} {head : BasicBlock} {context : Context} {edit : Edit}
      {blocks : List BasicBlock} {outcome : Outcome Unit} (hhead : state.blocks[pos]? = some head)
      (hedit : rule.edit? ⟨.ofBlocks state.blocks, pos, head⟩ state.context = (some edit, context))
      (happly : edit.apply state.blocks pos = .ok (blocks, resume))
      (hrest : Tries rule resume { blocks, context, changed := true } outcome) :
      Tries rule pos state outcome

/-- A walk reaches its end when there are two steps for each position.  The last of them is not
needed where the rule asks for nothing, as it does at what it has just inserted. -/
lemma tries_tryFrom (rule : Rule) {fuel pos : Nat} {state : State}
    (hfuel : 2 * (state.blocks.length - pos) < fuel ∨
      2 * (state.blocks.length - pos) ≤ fuel ∧ ∃ head, state.blocks[pos]? = some head ∧
        rule.Declines ⟨.ofBlocks state.blocks, pos, head⟩) :
    Tries rule pos state (tryFrom rule fuel (.ofBlocks state.blocks) pos state) := by
  induction fuel generalizing pos state with
  | zero =>
    obtain hfuel | ⟨hfuel, head, hhead, -⟩ := hfuel
    · omega
    · obtain ⟨hlt, -⟩ := List.getElem?_eq_some_iff.mp hhead
      omega
  | succ fuel ih =>
    rw [tryFrom]
    cases hhead : state.blocks[pos]? with
    | none => exact .finished hhead
    | some head =>
      obtain ⟨hlt, -⟩ := List.getElem?_eq_some_iff.mp hhead
      cases hedit : rule.edit? ⟨.ofBlocks state.blocks, pos, head⟩ state.context with
      | mk edit context =>
        cases edit with
        | none =>
          simp only [hedit]
          refine .declined hhead hedit (ih (.inl ?_))
          simp only
          omega
        | some edit =>
          have hfuel : 2 * (state.blocks.length - pos) < fuel + 1 := by
            refine hfuel.resolve_right ?_
            rintro ⟨-, head', hhead', hdeclines⟩
            rw [hhead] at hhead'
            cases hhead'
            have hnone := hdeclines state.context
            rw [hedit] at hnone
            cases hnone
          cases happly : edit.apply state.blocks pos with
          | error e =>
            simp only [hedit, happly]
            exact .failed hhead hedit happly
          | ok result =>
            obtain ⟨blocks, resume⟩ := result
            simp only [hedit, happly]
            refine .edited hhead hedit happly (ih ?_)
            obtain ⟨before, behind, rfl, hbehind, rfl⟩ := Edit.apply_eq_ok_around hlt happly
            simp only [List.length_append]
            obtain hinsert | ⟨block, hinsert, hdeclines⟩ := Rule.insert_eq_of_edit? hedit
            · left
              rw [hinsert, List.length_nil]
              omega
            · right
              rw [hinsert, List.length_singleton]
              refine ⟨by omega, block, ?_, hdeclines _ _⟩
              rw [List.getElem?_append_right (by simp), List.length_append, Nat.sub_self]
              rfl

/-- Trying a rule at every block is its walk over the whole list. -/
theorem tries_tryRule (rule : Rule) (state : State) : Tries rule 0 state (tryRule rule state) :=
  tries_tryFrom rule (.inl (by omega))

/-! ### Quiet walks and sweeps -/

/-- No rule asks for an edit anywhere in the list. -/
def IsNormal (rules : List Rule) (blocks : List BasicBlock) : Prop :=
  ∀ rule ∈ rules, ∀ pos head, blocks[pos]? = some head →
    rule.Declines ⟨.ofBlocks blocks, pos, head⟩

/-- One state is as the other, save for messages. -/
structure Still (state state' : State) : Prop where
  blocks : state'.blocks = state.blocks
  labels : state'.context.labels = state.context.labels
  changed : state'.changed = state.changed

lemma Still.refl (state : State) : Still state state := ⟨rfl, rfl, rfl⟩

lemma Still.trans {a b c : State} (h : Still a b) (h' : Still b c) : Still a c :=
  ⟨h'.blocks.trans h.blocks, h'.labels.trans h.labels, h'.changed.trans h.changed⟩

namespace Tries

variable {rule : Rule} {pos : Nat} {state : State} {outcome : Outcome Unit}

/-- Once something has changed, the walk says so at its end. -/
lemma changed_of_changed (h : Tries rule pos state outcome) (hchanged : state.changed = true) :
    outcome.2.changed = true := by
  induction h with
  | finished => exact hchanged
  | declined _ _ _ ih => exact ih hchanged
  | failed => exact hchanged
  | edited _ _ _ _ ih => exact ih rfl

/-- A walk that changes nothing leaves the list as it is, and the rule asks for nothing from the
start of the walk on. -/
lemma quiet (h : Tries rule pos state outcome) (hok : outcome.1 = .ok ())
    (hquiet : outcome.2.changed = false) :
    Still state outcome.2 ∧ ∀ i head, pos ≤ i → state.blocks[i]? = some head →
      rule.Declines ⟨.ofBlocks state.blocks, i, head⟩ := by
  induction h with
  | @finished pos state hend =>
    refine ⟨.refl _, fun i head hi hhead => ?_⟩
    have hlen := List.getElem?_eq_none_iff.mp hend
    obtain ⟨hlt, -⟩ := List.getElem?_eq_some_iff.mp hhead
    omega
  | @declined pos state head context outcome hhead hedit _ ih =>
    obtain ⟨hstill, hrest⟩ := ih hok hquiet
    refine ⟨⟨hstill.blocks, hstill.labels.trans (Rule.labels_of_edit?_eq_none hedit),
      hstill.changed⟩, fun i head' hi hhead' => ?_⟩
    rcases Nat.eq_or_lt_of_le hi with rfl | hlt
    · rw [hhead] at hhead'
      cases hhead'
      exact Rule.declines_of_edit?_eq_none (congrArg Prod.fst hedit)
    · exact hrest i head' hlt hhead'
  | failed => cases hok
  | edited _ _ _ hrest _ =>
    rw [hrest.changed_of_changed rfl] at hquiet
    cases hquiet

/-- Where the rule asks for nothing, the walk ends well and leaves the list as it is. -/
lemma of_declines (h : Tries rule pos state outcome)
    (hnormal : ∀ i head, state.blocks[i]? = some head →
      rule.Declines ⟨.ofBlocks state.blocks, i, head⟩) :
    outcome.1 = .ok () ∧ Still state outcome.2 := by
  induction h with
  | finished => exact ⟨rfl, .refl _⟩
  | declined _ hedit _ ih =>
    obtain ⟨hok, hstill⟩ := ih hnormal
    exact ⟨hok, hstill.blocks, hstill.labels.trans (Rule.labels_of_edit?_eq_none hedit),
      hstill.changed⟩
  | @failed pos state head _ _ _ hhead hedit =>
    have hnone := hnormal pos head hhead state.context
    rw [hedit] at hnone
    cases hnone
  | @edited pos _ state head _ _ _ _ hhead hedit =>
    have hnone := hnormal pos head hhead state.context
    rw [hedit] at hnone
    cases hnone

end Tries

/-- Once something has changed, the sweep says so at its end. -/
lemma changed_sweep {rules : List Rule} {state : State} (hchanged : state.changed = true) :
    (sweep rules state).2.changed = true := by
  induction rules generalizing state with
  | nil => exact hchanged
  | cons rule rules ih =>
    have hrule := (tries_tryRule rule state).changed_of_changed hchanged
    rw [sweep]
    cases htry : tryRule rule state with
    | mk result next =>
      rw [htry] at hrule
      cases result with
      | error e => exact hrule
      | ok _ => exact ih hrule

/-- A sweep that changes nothing leaves the list as it is, and no rule asks for an edit of it. -/
lemma sweep_quiet {rules : List Rule} {state : State} (hok : (sweep rules state).1 = .ok ())
    (hquiet : (sweep rules state).2.changed = false) :
    Still state (sweep rules state).2 ∧ IsNormal rules state.blocks := by
  induction rules generalizing state with
  | nil => exact ⟨.refl _, fun rule hrule => by cases hrule⟩
  | cons rule rules ih =>
    have htries := tries_tryRule rule state
    rw [sweep] at hok hquiet ⊢
    cases htry : tryRule rule state with
    | mk result next =>
      rw [htry] at htries hok hquiet
      cases result with
      | error e => cases hok
      | ok _ =>
        have hnext : next.changed = false := by
          rw [← Bool.not_eq_true]
          intro hchanged
          rw [changed_sweep hchanged] at hquiet
          cases hquiet
        obtain ⟨hstill, hrule⟩ := htries.quiet rfl hnext
        obtain ⟨hstill', hrules⟩ := ih hok hquiet
        refine ⟨hstill.trans hstill', fun rule' hmem => ?_⟩
        rcases List.mem_cons.mp hmem with rfl | hmem
        · exact fun i head => hrule i head (Nat.zero_le i)
        · rw [← hstill.blocks]
          exact hrules rule' hmem

/-- On a list that no rule edits a sweep ends well and changes nothing. -/
lemma sweep_of_isNormal {rules : List Rule} (state : State)
    (hnormal : IsNormal rules state.blocks) :
    (sweep rules state).1 = .ok () ∧ Still state (sweep rules state).2 := by
  induction rules generalizing state with
  | nil => exact ⟨rfl, .refl _⟩
  | cons rule rules ih =>
    have htries := tries_tryRule rule state
    rw [sweep]
    cases htry : tryRule rule state with
    | mk result next =>
      rw [htry] at htries
      obtain ⟨hok, hstill⟩ := htries.of_declines (hnormal rule List.mem_cons_self)
      cases hok
      obtain ⟨hok', hstill'⟩ := ih next (by
        rw [hstill.blocks]
        exact fun rule' hmem => hnormal rule' (List.mem_cons_of_mem _ hmem))
      exact ⟨hok', hstill.trans hstill'⟩

/-! ### Runs that end of themselves -/

/-- Sweeps that end of themselves do so under every bound that allows for them, and are cut short
under every smaller one. -/
lemma sweeps_eq_ok {rules : List Rule} {remaining done n : Nat} {state last : State}
    (h : sweeps rules remaining done state = (.ok n, last)) :
    ∃ k, n = done + k ∧ k ≤ remaining ∧ IsNormal rules last.blocks ∧
      (∀ r, k ≤ r → sweeps rules r done state = (.ok n, last)) ∧
      ∀ r < k, (sweeps rules r done state).1 = .error (.fixpointExceeded (done + r)) := by
  induction remaining generalizing done state with
  | zero => cases h
  | succ remaining ih =>
    rw [sweeps] at h
    cases hsweep : sweep rules { state with changed := false } with
    | mk result next =>
      rw [hsweep] at h
      cases result with
      | error e => cases h
      | ok _ =>
        simp only at h
        by_cases hchanged : next.changed = true
        · rw [if_pos hchanged] at h
          obtain ⟨k, rfl, hk, hnormal, hlarge, hsmall⟩ := ih h
          refine ⟨k + 1, by omega, by omega, hnormal, ?_, ?_⟩
          · intro r hr
            obtain ⟨r, rfl⟩ := Nat.exists_eq_add_of_le' hr
            rw [← Nat.add_assoc, sweeps, hsweep]
            simp only [if_pos hchanged]
            exact hlarge (r + k) (Nat.le_add_left k r)
          · intro r hr
            cases r with
            | zero => rfl
            | succ r =>
              rw [sweeps, hsweep]
              simp only [if_pos hchanged]
              rw [hsmall r (by omega), Nat.add_right_comm, Nat.add_assoc]
        · rw [if_neg hchanged] at h
          cases h
          have hquiet : (sweep rules { state with changed := false }).2.changed = false := by
            rw [hsweep]
            exact Bool.not_eq_true _ ▸ hchanged
          obtain ⟨hstill, hnormal⟩ := sweep_quiet (by rw [hsweep]) hquiet
          rw [hsweep] at hstill
          refine ⟨1, rfl, by omega, ?_, ?_, ?_⟩
          · rw [hstill.blocks]
            exact hnormal
          · intro r hr
            obtain ⟨r, rfl⟩ := Nat.exists_eq_add_of_le' hr
            rw [sweeps, hsweep]
            simp only [if_neg hchanged]
          · intro r hr
            obtain rfl : r = 0 := by omega
            rfl

/-- On a list that no rule edits one sweep is enough, and it changes neither the list nor the names. -/
lemma runFixpoint_of_isNormal {rules : List Rule} {blocks : List BasicBlock}
    (hnormal : IsNormal rules blocks) {maxSweeps : Nat} (hmax : 1 ≤ maxSweeps) (context : Context) :
    (runFixpoint rules maxSweeps blocks context).1 = .ok 1 ∧
      (runFixpoint rules maxSweeps blocks context).2.blocks = blocks ∧
      (runFixpoint rules maxSweeps blocks context).2.context.labels = context.labels := by
  obtain ⟨remaining, rfl⟩ := Nat.exists_eq_add_of_le' hmax
  obtain ⟨hok, hstill⟩ := sweep_of_isNormal { blocks, context } hnormal
  rw [runFixpoint, sweeps]
  cases hsweep : sweep rules { blocks, context } with
  | mk result next =>
    rw [hsweep] at hok hstill
    cases hok
    have hquiet : next.changed = false := hstill.changed
    simp only [hquiet, Bool.false_eq_true, if_false]
    exact ⟨trivial, hstill.blocks, hstill.labels⟩

/-- A run that ends of itself keeps to its bound and leaves a list that no rule edits.  A second run
over that list is one quiet sweep.  Under a bound that allows for the sweeps the run is the same, and
under a smaller one it is cut short. -/
theorem runFixpoint_eq_ok {rules : List Rule} {maxSweeps n : Nat} {blocks : List BasicBlock}
    {context : Context} {last : State}
    (h : runFixpoint rules maxSweeps blocks context = (.ok n, last)) :
    n ≤ maxSweeps ∧ IsNormal rules last.blocks ∧
      (∀ bound, 1 ≤ bound → ∀ context',
        (runFixpoint rules bound last.blocks context').1 = .ok 1 ∧
          (runFixpoint rules bound last.blocks context').2.blocks = last.blocks ∧
          (runFixpoint rules bound last.blocks context').2.context.labels = context'.labels) ∧
      (∀ bound, n ≤ bound → runFixpoint rules bound blocks context = (.ok n, last)) ∧
      ∀ bound < n, (runFixpoint rules bound blocks context).1 = .error (.fixpointExceeded bound) := by
  obtain ⟨k, rfl, hk, hnormal, hlarge, hsmall⟩ := sweeps_eq_ok h
  simp only [Nat.zero_add] at hlarge hsmall ⊢
  exact ⟨hk, hnormal, fun bound hbound context' => runFixpoint_of_isNormal hnormal hbound context',
    hlarge, hsmall⟩

/-- A loop that counts down from three on the stack. -/
def stackCountdown : List BasicBlock :=
  [{ body := [.label 0, .raw 0 (.push (.int 3)), .raw 4 (.dup 0), .raw 8 (.push (.int 0)),
      .raw 12 (.binary .le), .raw 16 (.branchTrue 2), .goto 1] },
    { body := [.label 1, .raw 20 (.push (.int 1)), .raw 24 (.binary .sub), .raw 28 (.dup 0),
      .raw 32 (.branchTrue 1), .goto 2] },
    { body := [.label 2, .raw 36 .popz, .exit] }]

/-- Names for the blocks of the loop, and no messages. -/
def stackCountdownNames : Context where
  labels := { names := ["start", "body", "exit"] }
  diagnostics := { unit := "main" }

theorem stackCountdown_runFixpoint :
    (runFixpoint Rule.forStackOps 10 stackCountdown stackCountdownNames).1 = .ok 2 ∧
      (runFixpoint Rule.forStackOps 10 stackCountdown stackCountdownNames).2.blocks.length = 4 ∧
      IsNormal Rule.forStackOps
        (runFixpoint Rule.forStackOps 10 stackCountdown stackCountdownNames).2.blocks ∧
      (runFixpoint Rule.forStackOps 1 stackCountdown stackCountdownNames).1 =
        .error (.fixpointExceeded 1) := by
  have hok : (runFixpoint Rule.forStackOps 10 stackCountdown stackCountdownNames).1 = .ok 2 := rfl
  have hrun := runFixpoint_eq_ok (Prod.ext hok rfl)
  exact ⟨hok, by decide +kernel, hrun.2.1, hrun.2.2.2.2 1 (by decide)⟩

end Fixpoint

end Decompiler
