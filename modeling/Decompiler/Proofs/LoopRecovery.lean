import Mathlib.Data.Multiset.Range
import Mathlib.Tactic.Abel
import Decompiler.Proofs.Arrangements
import Decompiler.Proofs.RecoverySteps

/-!
# Recovering loops without a fault

A step of the recovery of loops claims items of its region, hands them to the recovery of the body, and
finds all others in their slots, as they were (`Shrinks`).  What it makes of the items is an arrangement
of them (`Arranges`).  One case breaks this.  A scope takes all that the entry of its body dominates, and
that may be the very block at whose end it starts.  Its slot is empty then, and what the scope has taken
is lost (`Lost`); if the block heads a loop as well, the recovery fails.

`recoverUntil` is the recovery that stops right there, with an error of our choice.  The two go the same
way step for step (`tracks_recover`), so that the recovery of loops fails exactly when that one stops, and
never with another fault.
-/

namespace Decompiler

namespace Loops

/-! ### The recovery that stops -/

/-- As `recoverAt`, but stops at a loop whose header has been taken by its own scope. -/
def recoverAtUntil (stop : Error) (inner : Inner) (layout : Layout) (withoutLoop : Nat → Bool)
    (progress : Progress) (node : Nat) : Recovery Progress :=
  match FlowNode.ofIndex node with
  | .item item =>
    if progress.region.mem item then do
      let region ← recoverScope inner layout progress.region item
      if layout.tree.inFrontier node node && !withoutLoop node then
        if region.mem item then recoverLoop inner layout { progress with region } item
        else throw stop
      else return { progress with region }
    else return progress
  | _ => return progress

/-- As `recover`, but stops at a loop whose header has been taken by its own scope. -/
def recoverUntil (stop : Error) (layout : Layout) : Nat → Inner
  | 0, region, _, _ => return inListOrder (← Recovery.drain region)
  | fuel + 1, region, entry, excludeEntry => do
    let withoutLoop node := node == entry && excludeEntry
    let progress ← (layout.tree.breadthFirst entry).foldlM
      (recoverAtUntil stop (recoverUntil stop layout fuel) layout withoutLoop) { region }
    return inListOrder (progress.placed ++ (← Recovery.drain progress.region))

/-- The fault of a loop whose header is gone. -/
def headerGone : Error :=
  .invariant (.block .noLabel)

/-- Two steps that succeed alike, or else the one fails for want of a header where the other stops, and
then for the reason `why`. -/
def Tracks {α : Type} (stop : Error) (why : Prop) (x y : Recovery α) (s : RecoveryState)
    (post : α → RecoveryState → Prop) : Prop :=
  (∃ a t, exec x s = (.ok a, t) ∧ exec y s = (.ok a, t) ∧ post a t) ∨
    ∃ t, exec x s = (.error headerGone, t) ∧ exec y s = (.error stop, t) ∧ why

namespace Tracks

variable {α β : Type} {stop : Error} {why : Prop} {s : RecoveryState}

/-- A step that succeeds tracks itself. -/
lemma of_yields {x : Recovery α} {post : α → RecoveryState → Prop} (h : Yields x s post) :
    Tracks stop why x x s post := by
  obtain ⟨a, t, hrun, hpost⟩ := h
  exact .inl ⟨a, t, hrun, hrun, hpost⟩

/-- One pair of steps after the other. -/
lemma bind {x y : Recovery α} {f g : α → Recovery β} {mid : α → RecoveryState → Prop}
    {post : β → RecoveryState → Prop} (hxy : Tracks stop why x y s mid)
    (hfg : ∀ a t, mid a t → Tracks stop why (f a) (g a) t post) :
    Tracks stop why (x >>= f) (y >>= g) s post := by
  rcases hxy with ⟨a, t, hx, hy, hmid⟩ | ⟨t, hx, hy, hwhy⟩
  · have hrest := hfg a t hmid
    unfold Tracks at hrest ⊢
    rwa [exec_bind_of_ok hx, exec_bind_of_ok hy]
  · exact .inr ⟨t, exec_bind_of_error hx, exec_bind_of_error hy, hwhy⟩

/-- A weaker postcondition. -/
lemma mono {x y : Recovery α} {post post' : α → RecoveryState → Prop}
    (h : Tracks stop why x y s post) (hpost : ∀ a t, post a t → post' a t) :
    Tracks stop why x y s post' := by
  rcases h with ⟨a, t, hx, hy, h⟩ | h
  · exact .inl ⟨a, t, hx, hy, hpost a t h⟩
  · exact .inr h

/-- A pair of loops keeps what each pair of rounds keeps. -/
lemma foldlM {f g : β → α → Recovery β} {inv : β → RecoveryState → Prop} {list : List α}
    (hfg : ∀ b, ∀ a ∈ list, ∀ s, inv b s → Tracks stop why (f b a) (g b a) s inv) {b : β}
    (h : inv b s) : Tracks stop why (list.foldlM f b) (list.foldlM g b) s inv := by
  induction list generalizing b s with
  | nil => exact of_yields (.pure h)
  | cons a rest ih =>
    rw [List.foldlM_cons, List.foldlM_cons]
    refine (hfg b a List.mem_cons_self s h).bind fun b t hb => ?_
    exact ih (fun b a ha => hfg b a (List.mem_cons_of_mem _ ha)) hb

end Tracks

/-! ### What a region holds -/

/-- The block in slot `i` is still the item it was, or a scope has been put to its end; `ids` are the
items that it is made of. -/
def Intact (items : List Stmt) (bound i : Nat) (block : BasicBlock) (ids : Multiset Nat) : Prop :=
  Arranges items bound [.basic block] ids ∧
    (items[i]? = some (.basic block) ∧ ids = {i} ∨
      ∃ kept env body stop after, block.body = kept ++ [.scope env body stop, .goto after])

/-- An intact block without a scope before its last jump is the item it was. -/
lemma Intact.original {items : List Stmt} {bound i : Nat} {block : BasicBlock} {ids : Multiset Nat}
    (h : Intact items bound i block ids) {init : List Stmt} {branch : Stmt} {target : LabelId}
    (hbody : block.body = init ++ [branch, .goto target])
    (hbranch : ∀ env body stop, branch ≠ .scope env body stop) :
    items[i]? = some (.basic block) ∧ ids = {i} := by
  rcases h.2 with horiginal | ⟨kept, env, body, stop, after, hscope⟩
  · exact horiginal
  · rw [hbody] at hscope
    have htail := (List.append_inj' hscope rfl).2
    simp only [List.cons.injEq] at htail
    exact absurd htail.1 (hbranch env body stop)

/-- The slots of a region hold intact blocks, which are made of the items `ids`. -/
def Stocked (items : List Stmt) (bound : Nat) (region : Region) (s : RecoveryState)
    (ids : Multiset Nat) : Prop :=
  ∃ stock : Nat → Multiset Nat,
    Holds (fun i block => Intact items bound i block (stock i)) region s ∧
      ids = ((Region.members region).map stock).sum

namespace Stocked

variable {items : List Stmt} {bound : Nat} {region content rest : Region} {s t : RecoveryState}
  {ids : Multiset Nat}

/-- A part of a region and the rest are stocked apart. -/
lemma split (h : Stocked items bound region s ids) (hcontent : Within content region)
    (hrest : ∀ i, rest.mem i = (region.mem i && !content.mem i)) :
    ∃ a b, ids = a + b ∧ Stocked items bound content s a ∧ Stocked items bound rest s b := by
  obtain ⟨stock, hholds, rfl⟩ := h
  refine ⟨_, _, ?_, ⟨stock, hholds.mono hcontent, rfl⟩, ⟨stock, hholds.mono ?_, rfl⟩⟩
  · rw [Region.members_eq_add hcontent hrest, Multiset.map_add, Multiset.sum_add]
  · intro i hi
    rw [hrest, Bool.and_eq_true] at hi
    exact hi.1

/-- A part of a region and the rest make up the stock of the region. -/
lemma join {a b : Multiset Nat} (hcontent : Within content region)
    (hrest : ∀ i, rest.mem i = (region.mem i && !content.mem i))
    (ha : Stocked items bound content s a) (hb : Stocked items bound rest s b) :
    Stocked items bound region s (a + b) := by
  obtain ⟨stock, hholds, rfl⟩ := ha
  obtain ⟨stock', hholds', rfl⟩ := hb
  refine ⟨fun i => if content.mem i then stock i else stock' i, ?_, ?_⟩
  · intro i hi
    by_cases hin : content.mem i = true
    · simp only [if_pos hin]
      exact hholds i hin
    · simp only [if_neg hin]
      exact hholds' i (by simp [hrest, hi, hin])
  · rw [Region.members_eq_add hcontent hrest, Multiset.map_add, Multiset.sum_add]
    refine congrArg₂ (· + ·) (congrArg _ ?_) (congrArg _ ?_)
    · refine Multiset.map_congr rfl fun i hi => ?_
      rw [Region.members, Multiset.mem_coe, NodeSet.mem_toList] at hi
      rw [if_pos hi]
    · refine Multiset.map_congr rfl fun i hi => ?_
      rw [Region.members, Multiset.mem_coe, NodeSet.mem_toList, hrest, Bool.and_eq_true,
        Bool.not_eq_true'] at hi
      rw [if_neg (by simp [hi.2])]

/-- A region keeps its stock as long as no slot of it changes. -/
lemma keep (h : Stocked items bound region s ids) (hkeeps : Keeps content s t)
    (hout : ∀ i, region.mem i = true → content.mem i = false) : Stocked items bound region t ids := by
  obtain ⟨stock, hholds, rfl⟩ := h
  exact ⟨stock, hholds.keep hkeeps hout, rfl⟩

/-- The stock of a single item. -/
lemma only_iff {i : Nat} : Stocked items bound (.only i) s ids ↔
    ∃ block, s.slot i = some (.basic block) ∧ Intact items bound i block ids := by
  constructor
  · rintro ⟨stock, hholds, rfl⟩
    obtain ⟨block, hslot, hintact⟩ := hholds i (by simp)
    refine ⟨block, hslot, ?_⟩
    rwa [Region.members_only, Multiset.map_singleton, Multiset.sum_singleton]
  · rintro ⟨block, hslot, hintact⟩
    refine ⟨fun _ => ids, ?_, by rw [Region.members_only, Multiset.map_singleton, Multiset.sum_singleton]⟩
    intro j hj
    rw [Region.mem_only, decide_eq_true_eq] at hj
    subst hj
    exact ⟨block, hslot, hintact⟩

/-- The block of an item of the region. -/
lemma exists_block (h : Stocked items bound region s ids) {i : Nat} (hi : region.mem i = true) :
    ∃ block stock, s.slot i = some (.basic block) ∧ Intact items bound i block stock := by
  obtain ⟨stock, hholds, -⟩ := h
  obtain ⟨block, hslot, hintact⟩ := hholds i hi
  exact ⟨block, stock i, hslot, hintact⟩

/-- An item that is still in its slot is among those that the region is made of. -/
lemma mem_of_original (h : Stocked items bound region s ids) {i : Nat} (hi : region.mem i = true)
    {block : BasicBlock} (hslot : s.slot i = some (.basic block))
    (horiginal : ∀ stock, Intact items bound i block stock → stock = {i}) : i ∈ ids := by
  obtain ⟨a, b, rfl, ha, -⟩ := h.split (within_only hi) (region.mem_erase_only i)
  obtain ⟨block', hslot', hintact⟩ := only_iff.mp ha
  rw [hslot] at hslot'
  cases hslot'
  rw [horiginal a hintact]
  simp

end Stocked

/-- What is left of a region `outer` on the way from `s₀` to `s`: the slots of what is left hold intact
blocks, which are made of the items `ids`, those of the rest are empty, and those outside are as they
were. -/
structure Shrinks (items : List Stmt) (bound : Nat) (outer : Region) (s₀ : RecoveryState)
    (region : Region) (s : RecoveryState) (ids : Multiset Nat) : Prop where
  within : Within region outer
  stocked : Stocked items bound region s ids
  emptied : ∀ i, outer.mem i = true → region.mem i = false → s.slot i = none
  keeps : Keeps outer s₀ s

namespace Shrinks

variable {items : List Stmt} {bound : Nat} {outer region rest content : Region}
  {s₀ s t : RecoveryState} {ids : Multiset Nat}

/-- Nothing is claimed yet. -/
lemma start (h : Stocked items bound region s ids) : Shrinks items bound region s region s ids where
  within := fun _ hi => hi
  stocked := h
  emptied := by
    intro i hi hi'
    rw [hi] at hi'
    cases hi'
  keeps := .refl

/-- A part of the region is claimed; once it is emptied, the rest is what is left. -/
lemma claim (h : Shrinks items bound outer s₀ region s ids) (hcontent : Within content region)
    (hrest : ∀ i, rest.mem i = (region.mem i && !content.mem i)) :
    ∃ a b, ids = a + b ∧ Stocked items bound content s a ∧
      ∀ t, Emptied content t → Keeps content s t → Shrinks items bound outer s₀ rest t b := by
  obtain ⟨a, b, hids, ha, hb⟩ := h.stocked.split hcontent hrest
  refine ⟨a, b, hids, ha, fun t hemptied hkeeps => ⟨?_, hb.keep hkeeps ?_, ?_, ?_⟩⟩
  · intro i hi
    rw [hrest, Bool.and_eq_true] at hi
    exact h.within i hi.1
  · intro i hi
    rw [hrest, Bool.and_eq_true, Bool.not_eq_true'] at hi
    exact hi.2
  · intro i hi hi'
    cases hin : content.mem i with
    | true => exact hemptied i hin
    | false =>
      rw [hrest, hin, Bool.not_false, Bool.and_true] at hi'
      rw [hkeeps.slots i hin]
      exact h.emptied i hi hi'
  · exact h.keeps.trans (hkeeps.mono fun i hi => h.within i (hcontent i hi))

/-- One item is claimed and taken. -/
lemma take (h : Shrinks items bound outer s₀ region s ids) {i : Nat} (hi : region.mem i = true)
    {block : BasicBlock} (hslot : s.slot i = some (.basic block)) :
    ∃ a b, ids = a + b ∧ Intact items bound i block a ∧
      ∀ t, t.slot i = none → Keeps (.only i) s t →
        Shrinks items bound outer s₀ (region.erase i) t b := by
  obtain ⟨a, b, hids, ha, hnext⟩ := h.claim (within_only hi) (region.mem_erase_only i)
  obtain ⟨block', hslot', hintact⟩ := Stocked.only_iff.mp ha
  rw [hslot] at hslot'
  cases hslot'
  refine ⟨a, b, hids, hintact, fun t hempty hkeeps => hnext t ?_ hkeeps⟩
  intro j hj
  rw [Region.mem_only, decide_eq_true_eq] at hj
  rwa [← hj]

/-- Names and messages do not matter. -/
lemma congr (h : Shrinks items bound outer s₀ region s ids) (hkeeps : Keeps .empty s t) :
    Shrinks items bound outer s₀ region t ids where
  within := h.within
  stocked := h.stocked.keep hkeeps (by simp)
  emptied := by
    intro i hi hi'
    rw [hkeeps.slots i (by simp)]
    exact h.emptied i hi hi'
  keeps := h.keeps.trans (hkeeps.mono within_empty)

/-- One item of what is left gets another block. -/
lemma set (h : Shrinks items bound outer s₀ region s ids) {i : Nat} (hi : region.mem i = true)
    {old : BasicBlock} (hslot : s.slot i = some (.basic old)) :
    ∃ a b, ids = a + b ∧ Intact items bound i old a ∧
      ∀ t block a', t.slot i = some (.basic block) → Keeps (.only i) s t →
        Intact items bound i block a' → Shrinks items bound outer s₀ region t (a' + b) := by
  obtain ⟨a, b, hids, ha, hb⟩ := h.stocked.split (within_only hi) (region.mem_erase_only i)
  obtain ⟨block', hslot', hintact⟩ := Stocked.only_iff.mp ha
  rw [hslot] at hslot'
  cases hslot'
  refine ⟨a, b, hids, hintact, fun t block a' hset hkeeps hblock => ⟨h.within, ?_, ?_, ?_⟩⟩
  · refine .join (within_only hi) (region.mem_erase_only i) (Stocked.only_iff.mpr ⟨block, hset, hblock⟩) ?_
    refine hb.keep hkeeps fun j hj => ?_
    simp only [NodeSet.mem_erase, Bool.and_eq_true, decide_eq_true_eq] at hj
    simp [hj.2]
  · intro j hj hj'
    have hji : i ≠ j := by
      rintro rfl
      rw [hi] at hj'
      cases hj'
    rw [hkeeps.slots j (by simp [hji])]
    exact h.emptied j hj hj'
  · exact h.keeps.trans (hkeeps.mono (within_only (h.within i hi)))

end Shrinks

/-! ### Scopes -/

/-- A block at whose end a scope starts that is closed by a block of its own, and the entry of whose
body dominates the block itself. -/
def ScopeOverHead (layout : Layout) (items : List Stmt) (item : Nat) : Prop :=
  ∃ block popBlock env skip enter pop body label after,
    items[item]? = some (.basic block) ∧ scopeStart? block = some (env, skip, enter) ∧
      layout.flow.itemOf? skip = some pop ∧ layout.flow.itemOf? enter = some body ∧
      items[pop]? = some (.basic popBlock) ∧
      popBlock.body = [.label label, .popEnv enter, .goto after] ∧
      pop ≠ item ∧ body ≠ item ∧ pop ≠ body ∧
      layout.tree.dominates (FlowNode.item body).index (FlowNode.item item).index = true

/-- The statements of a block at whose end a scope starts. -/
lemma scopeStart?_eq_some {block : BasicBlock} {env : Expr} {skip enter : LabelId}
    (h : scopeStart? block = some (env, skip, enter)) :
    ∃ init, init ≠ [] ∧ block.body = init ++ [.pushEnv env skip, .goto enter] := by
  unfold scopeStart? at h
  split at h
  · rename_i ht
    cases h
    obtain ⟨init, hne, hbody, -⟩ := BasicBlockOf.tail?_eq_some ht
    exact ⟨init, hne, hbody⟩
  · cases h

/-- The parts of a scope: both its ends are in the region, and the lower one is a block of its own. -/
lemma yields_scopeParts? (layout : Layout) (region : Region) (item : Nat) (env : Expr)
    (skip enter : LabelId) (s : RecoveryState) :
    Yields (scopeParts? layout region item env skip enter) s fun found t => t = s ∧
      ∀ parts, found = some parts → parts.env = env ∧ parts.skip = skip ∧ parts.enter = enter ∧
        layout.flow.itemOf? skip = some parts.pop ∧ layout.flow.itemOf? enter = some parts.body ∧
        parts.pop ≠ item ∧ parts.body ≠ item ∧ parts.pop ≠ parts.body ∧
        region.mem parts.pop = true ∧ region.mem parts.body = true ∧
        ∃ popBlock label, s.slot parts.pop = some (.basic popBlock) ∧
          popBlock.body = [.label label, .popEnv enter, .goto parts.after] := by
  unfold scopeParts?
  split
  · rename_i pop body hpop hbody
    split
    · exact .pure ⟨rfl, by simp⟩
    · rename_i hguard
      simp only [not_or, Bool.not_eq_true', Bool.not_eq_false] at hguard
      obtain ⟨hpopItem, hbodyItem, hpopBody, hpopIn, hbodyIn⟩ := hguard
      refine (Recovery.yields_basicBlock? pop s).bind ?_
      rintro found t ⟨rfl, hfound⟩
      split
      · rename_i label back after hbodyEq
        obtain ⟨popBlock, hpopBlock, hpopBody'⟩ := Option.map_eq_some_iff.mp hbodyEq
        rw [hfound] at hpopBlock
        split
        · rename_i hback
          refine .pure ⟨rfl, ?_⟩
          rintro parts ⟨rfl⟩
          exact ⟨rfl, rfl, rfl, hpop, hbody, hpopItem, hbodyItem, hpopBody, hpopIn, hbodyIn,
            popBlock, label, Recovery.basicOf?_eq_some hpopBlock, hback ▸ hpopBody'⟩
        · exact .pure ⟨rfl, by simp⟩
      · exact .pure ⟨rfl, by simp⟩
  · exact .pure ⟨rfl, by simp⟩

/-- The items with these labels are where the layout says. -/
def Locates (layout : Layout) (items : List Stmt) : Prop :=
  ∀ label i, layout.flow.itemOf? label = some i → ∃ item, items[i]? = some item ∧ label ∈ item.labels

/-- The items that got lost: none, or some scope has taken its own head. -/
def Lost (layout : Layout) (items : List Stmt) (ids : Multiset Nat) : Prop :=
  ids = 0 ∨ ∃ i ∈ ids, ScopeOverHead layout items i

/-- What gets lost in two places. -/
lemma Lost.add {layout : Layout} {items : List Stmt} {a b : Multiset Nat}
    (ha : Lost layout items a) (hb : Lost layout items b) : Lost layout items (a + b) := by
  rcases ha with rfl | ⟨i, hi, hover⟩
  · rwa [zero_add]
  · exact .inr ⟨i, Multiset.mem_add.mpr (.inl hi), hover⟩

/-- What the recovery of a body leaves: an arrangement of what was in the region, apart from what got
lost, and no item of the region. -/
def BodyPost (layout : Layout) (items : List Stmt) (bound : Nat) (region : Region) (s : RecoveryState)
    (ids : Multiset Nat) (body : List Stmt) (t : RecoveryState) : Prop :=
  (∃ built lost, ids = built + lost ∧ Arranges items bound body built ∧ Lost layout items lost) ∧
    Emptied region t ∧ Keeps region s t

/-- Two ways to recover a body that track each other from every region that holds intact blocks. -/
def TracksInner (stop : Error) (why : Prop) (layout : Layout) (items : List Stmt) (bound : Nat)
    (inner inner' : Inner) : Prop :=
  ∀ region entry excludeEntry s ids, Stocked items bound region s ids → bound ≤ s.minted →
    Tracks stop why (inner region entry excludeEntry) (inner' region entry excludeEntry) s
      (BodyPost layout items bound region s ids)

/-- Closing a scope puts it to the end of its head. -/
lemma yields_closeScope {items : List Stmt} {bound : Nat} {outer region : Region}
    {s₀ s : RecoveryState} {ids : Multiset Nat} (h : Shrinks items bound outer s₀ region s ids)
    {item : Nat} (hitem : region.mem item = true) {head popBlock : BasicBlock} {parts : ScopeParts}
    {init body : List Stmt} {built : Multiset Nat} (hslot : s.slot item = some (.basic head))
    (hinit : init ≠ [])
    (hbody : head.body = init ++ [.pushEnv parts.env parts.skip, .goto parts.enter])
    (hpop : items[parts.pop]? = some (.basic popBlock))
    (hpopBody : popBlock.body = [.label parts.skip, .popEnv parts.enter, .goto parts.after])
    (hbuilt : Arranges items bound body built) :
    Yields (closeScope item parts body) s fun _ t =>
      Shrinks items bound outer s₀ region t (parts.pop ::ₘ (built + ids)) := by
  refine (Recovery.yields_basicBlock? item s).bind ?_
  rintro found t ⟨rfl, rfl⟩
  rw [hslot]
  refine (Recovery.yields_setSlot hslot).mono ?_
  rintro _ u ⟨hset, hkeeps⟩
  obtain ⟨a, b, rfl, hintact, hnext⟩ := h.set hitem hslot
  obtain ⟨hhead, rfl⟩ := hintact.original hbody (by simp)
  have hkept : head.body.take (head.body.length - 2) = init := by
    simp [hbody]
  rw [hkept] at hset
  have hnew : Arranges items bound [.basic { head with body := init ++
      [.scope parts.env ⟨some parts.enter, body⟩ (some parts.skip), .goto parts.after] }]
      (item ::ₘ parts.pop ::ₘ (built + 0)) :=
    .scope hhead hbody hinit hpop hpopBody hbuilt .nil
  have hshrinks := hnext u _ _ hset hkeeps ⟨hnew, .inr ⟨init, _, _, _, _, rfl⟩⟩
  have hids : item ::ₘ parts.pop ::ₘ (built + 0) + b = parts.pop ::ₘ (built + ({item} + b)) := by
    simp only [← Multiset.singleton_add]
    abel
  rwa [hids] at hshrinks

/-- The recovery of a scope leaves a smaller region.  The head is still in it, unless the entry of the
body dominates the head. -/
lemma tracks_recoverScope {stop : Error} {why : Prop} {layout : Layout} {items : List Stmt}
    {bound : Nat} {inner inner' : Inner}
    (hinner : TracksInner stop why layout items bound inner inner') (hlocates : Locates layout items)
    {outer region : Region} {s₀ s : RecoveryState} (hbound : bound ≤ s₀.minted) {ids : Multiset Nat}
    (h : Shrinks items bound outer s₀ region s ids) {item : Nat} (hitem : region.mem item = true) :
    Tracks stop why (recoverScope inner layout region item) (recoverScope inner' layout region item) s
      fun rest t =>
        (∃ left lost, ids = left + lost ∧ Lost layout items lost ∧
          Shrinks items bound outer s₀ rest t left) ∧
        (rest.mem item = false → ScopeOverHead layout items item) := by
  obtain ⟨head, stock, hslot, hintact⟩ := h.stocked.exists_block hitem
  have hsame : ∀ t, Shrinks items bound outer s₀ region t ids →
      (∃ left lost, ids = left + lost ∧ Lost layout items lost ∧
        Shrinks items bound outer s₀ region t left) ∧
      (region.mem item = false → ScopeOverHead layout items item) := by
    intro t ht
    refine ⟨⟨ids, 0, (add_zero ids).symm, .inl rfl, ht⟩, by simp [hitem]⟩
  refine Tracks.bind (.of_yields (Recovery.yields_basicBlock? item s)) ?_
  rintro found s' ⟨rfl, rfl⟩
  rw [hslot]
  cases hstart : scopeStart? head with
  | none =>
    simp only [Recovery.basicOf?, Option.bind_some, hstart]
    exact .of_yields (.pure (hsame s' h))
  | some start =>
    obtain ⟨env, skip, enter⟩ := start
    obtain ⟨init, hinit, hbody⟩ := scopeStart?_eq_some hstart
    simp only [Recovery.basicOf?, Option.bind_some, hstart]
    refine Tracks.bind (.of_yields (yields_scopeParts? layout region item env skip enter s')) ?_
    rintro found t ⟨rfl, hparts⟩
    cases found with
    | none =>
      refine Tracks.bind (.of_yields (Recovery.yields_reportError _ _ t)) ?_
      intro _ u hu
      exact .of_yields (.pure (hsame u (h.congr hu)))
    | some parts =>
      obtain ⟨rfl, rfl, rfl, hskip, henter, hpopItem, hbodyItem, hpopBody, hpopIn, hbodyIn, popBlock,
        label, hpopSlot, hpopStmts⟩ := hparts parts rfl
      dsimp only
      -- The block that ends a round is taken first.
      obtain ⟨popIds, left, rfl, hpopIntact, htake⟩ := h.take hpopIn hpopSlot
      have hpopSplit : popBlock.body = [.label label] ++ [.popEnv parts.enter, .goto parts.after] :=
        hpopStmts
      obtain ⟨hpop, rfl⟩ := hpopIntact.original hpopSplit (by simp)
      obtain ⟨popItem, hpopItem', hlabel⟩ := hlocates _ _ hskip
      rw [hpop] at hpopItem'
      cases hpopItem'
      obtain rfl : parts.skip = label := by
        simpa [Stmt.labels, hpopStmts, Stmt.labelsOfList] using hlabel
      -- What the scope takes: the items below the entry of its body, the closing block apart.
      generalize hcontent : (layout.dominated region (FlowNode.item parts.body).index).erase
        parts.pop = content
      have hmem : ∀ i, content.mem i = true → region.mem i = true ∧ i ≠ parts.pop ∧
          layout.tree.dominates (FlowNode.item parts.body).index (FlowNode.item i).index = true := by
        intro i hi
        rw [← hcontent, NodeSet.mem_erase, Bool.and_eq_true, decide_eq_true_eq] at hi
        obtain ⟨hregion, hdominates⟩ := Layout.mem_dominated hi.1
        exact ⟨hregion, Ne.symm hi.2, hdominates⟩
      have hpopOut : content.mem parts.pop = false := by
        rw [← hcontent]
        simp
      have hwithin : Within content region := fun i hi => (hmem i hi).1
      refine Tracks.bind (.of_yields (Recovery.yields_claimAll hwithin t)) ?_
      rintro claimed t' ⟨rfl, hclaimed⟩
      have hpopClaimed : claimed.mem parts.pop = true := by
        rw [hclaimed, hpopIn, hpopOut]
        rfl
      refine Tracks.bind (.of_yields (Recovery.yields_remove hpopClaimed t')) ?_
      rintro _ _ ⟨rfl, rfl⟩
      refine Tracks.bind (.of_yields (Recovery.yields_take hpopSlot)) ?_
      rintro _ u ⟨-, hpopEmpty, hkeeps⟩
      have htaken : Shrinks items bound outer s₀ (region.erase parts.pop) u left :=
        htake u hpopEmpty hkeeps
      have hwithin' : Within content (region.erase parts.pop) := by
        intro i hi
        rw [NodeSet.mem_erase, (hmem i hi).1, Bool.true_and, decide_eq_true_eq]
        exact Ne.symm (hmem i hi).2.1
      have hrest : ∀ i, (claimed.erase parts.pop).mem i =
          ((region.erase parts.pop).mem i && !content.mem i) := by
        intro i
        rw [NodeSet.mem_erase, NodeSet.mem_erase, hclaimed, Bool.and_right_comm]
      obtain ⟨taken, left, rfl, hstocked, hclaim⟩ := htaken.claim hwithin' hrest
      refine Tracks.bind
        (hinner content _ false u taken hstocked (hbound.trans htaken.keeps.minted)) ?_
      rintro body v ⟨⟨built, lost, rfl, hbuilt, hlost⟩, hemptied, hkept⟩
      have hclosing : Shrinks items bound outer s₀ (claimed.erase parts.pop) v left :=
        hclaim v hemptied hkept
      cases hin : content.mem item with
      | false =>
        have hitem' : (claimed.erase parts.pop).mem item = true := by
          rw [NodeSet.mem_erase, hclaimed, hitem, hin]
          simp [hpopItem]
        have hslot' : v.slot item = some (.basic head) := by
          rw [hkept.slots item hin, hkeeps.slots item (by simp [hpopItem]), hslot]
        refine Tracks.bind (.of_yields
          (yields_closeScope hclosing hitem' hslot' hinit hbody hpop hpopStmts hbuilt)) ?_
        intro _ w hw
        refine .of_yields (.pure ⟨⟨_, lost, ?_, hlost, hw⟩, by simp [hitem']⟩)
        rw [← Multiset.singleton_add]
        abel
      | true =>
        -- The head has gone into its own body, and nothing is left to put the scope to.
        have hover : ScopeOverHead layout items item :=
          ⟨head, popBlock, parts.env, parts.skip, parts.enter, parts.pop, parts.body, parts.skip,
            parts.after, (hintact.original hbody (by simp)).1, hstart, hskip, henter, hpop, hpopStmts,
            hpopItem, hbodyItem, hpopBody, (hmem item hin).2.2⟩
        have hgone : exec (closeScope item parts body) v = (.ok (), v) := by
          unfold closeScope
          rw [exec_bind_of_ok (Recovery.exec_basicBlock? item v), hemptied item hin]
          rfl
        have hclosed : Yields (closeScope item parts body) v fun _ w => w = v := ⟨_, _, hgone, rfl⟩
        refine Tracks.bind (.of_yields hclosed) ?_
        rintro _ w rfl
        have hslot' : u.slot item = some (.basic head) := by
          rw [hkeeps.slots item (by simp [hpopItem]), hslot]
        have hlostItem : item ∈ built + lost :=
          hstocked.mem_of_original hin hslot' fun _ hintact => (hintact.original hbody (by simp)).2
        refine .of_yields (.pure ⟨⟨left, {parts.pop} + (built + lost), ?_, .inr ⟨item, ?_, hover⟩,
          hclosing⟩, fun _ => hover⟩)
        · abel
        · exact Multiset.mem_add.mpr (.inr hlostItem)

/-! ### Loops -/

/-- What is pulled into a loop lies in the region, and the head dominates it. -/
lemma of_mem_pulled {layout : Layout} {region : Region} {head : Nat} {exit : LabelId} {i : Nat}
    (h : (pulled layout region head exit).mem i = true) :
    region.mem i = true ∧ layout.tree.dominates head (FlowNode.item i).index = true := by
  unfold pulled at h
  split at h
  · simp at h
  · dsimp only at h
    rw [NodeSet.mem_filter, Bool.and_eq_true, Bool.and_eq_true] at h
    exact ⟨h.1, h.2.2⟩

/-- The state of affairs between two nodes: what is left, what has been placed and what got lost make up
what there was. -/
def Underway (layout : Layout) (items : List Stmt) (bound : Nat) (outer : Region) (s₀ : RecoveryState)
    (ids : Multiset Nat) (progress : Progress) (s : RecoveryState) : Prop :=
  ∃ left built lost, ids = left + built + lost ∧ Lost layout items lost ∧
    Arranges items bound (progress.placed.map Prod.snd) built ∧
    Shrinks items bound outer s₀ progress.region s left

/-- The header of a loop with a test. -/
lemma exists_body_of_test? {layout : Layout} {content : Region} {header : BasicBlock} {test : Test}
    (h : test? layout content header = some test) :
    ∃ label e target other, header.body = [.label label, .condGoto e target, .goto other] ∧
      (test = ⟨e, target, other⟩ ∨ test = ⟨e.negate, other, target⟩) := by
  unfold test? at h
  obtain ⟨⟨e, target, other⟩, hsingle, htest⟩ := Option.bind_eq_some_iff.mp h
  obtain ⟨label, hbody⟩ := singleBranch?_eq_some hsingle
  refine ⟨label, e, target, other, hbody, ?_⟩
  dsimp only at htest
  split at htest
  · cases htest
    exact .inl rfl
  · cases htest
    exact .inr rfl
  · cases htest

/-- A loop with a test takes its header out of its slot. -/
lemma yields_testedLoop {item : Nat} {test : Test} {body : List Stmt} {header : BasicBlock}
    {label : LabelId} {rest : List Stmt} {s : RecoveryState}
    (hslot : s.slot item = some (.basic header)) (hheader : header.body = .label label :: rest) :
    Yields (testedLoop item test body) s fun loop t =>
      loop = .basic { header with body := [.label label,
        .loop (some test.condition) ⟨some test.enter, body⟩, .goto test.exit] } ∧
        t.slot item = none ∧ Keeps (.only item) s t := by
  refine (Recovery.yields_take hslot).bind ?_
  rintro _ t ⟨rfl, hempty, hkeeps⟩
  exact .pure ⟨by simp [hheader], hempty, hkeeps⟩

/-- An endless loop stands behind a new label. -/
lemma yields_endlessLoop (head : LabelId) (body : List Stmt) (s : RecoveryState) :
    Yields (endlessLoop head body) s fun loop t =>
      loop = .basic { body := [.label s.minted, .loop none ⟨some head, body⟩] } ∧
        Keeps .empty s t := by
  refine (Recovery.yields_fresh stem s).bind ?_
  rintro label t ⟨rfl, hkeeps⟩
  exact .pure ⟨rfl, hkeeps⟩

section Tracking

variable {stop : Error} {why : Prop} {layout : Layout} {items : List Stmt} {bound : Nat}
  {inner inner' : Inner} {outer : Region} {s₀ s : RecoveryState} {ids : Multiset Nat}
  {progress : Progress}

/-- The recovery of a loop whose header is still in the region. -/
lemma tracks_recoverLoop (hsound : SoundBlocks items)
    (hinner : TracksInner stop why layout items bound inner inner') (hbound : bound ≤ s₀.minted)
    (hprogress : Underway layout items bound outer s₀ ids progress s) {item : Nat}
    (hitem : progress.region.mem item = true) :
    Tracks stop why (recoverLoop inner layout progress item)
      (recoverLoop inner' layout progress item) s (Underway layout items bound outer s₀ ids) := by
  obtain ⟨left, placed, gone, rfl, hgone, hplaced, h⟩ := hprogress
  obtain ⟨header, stock, hslot, hintact⟩ := h.stocked.exists_block hitem
  have hcontent : Within (layout.loopContent progress.region (FlowNode.item item).index)
      progress.region := Layout.within_loopContent
  have hown : (layout.loopContent progress.region (FlowNode.item item).index).mem item = true :=
    Layout.mem_loopContent hitem
  unfold recoverLoop
  dsimp only
  generalize layout.loopContent progress.region (FlowNode.item item).index = content at hcontent hown
  refine Tracks.bind (.of_yields (Recovery.yields_basicBlock? item s)) ?_
  rintro _ t ⟨rfl, rfl⟩
  simp only [hslot, Recovery.basicOf?, Option.bind_some]
  cases htest : test? layout content header with
  | some test =>
    obtain ⟨label, e, target, other, hheader, htest⟩ := exists_body_of_test? htest
    dsimp only
    refine Tracks.bind (.of_yields (Recovery.yields_remove hown t)) ?_
    rintro _ _ ⟨rfl, rfl⟩
    refine Tracks.bind (.of_yields (Recovery.yields_remove hitem _)) ?_
    rintro _ t ⟨rfl, rfl⟩
    -- The header stays in its slot while the rest of the loop is recovered.
    have hwithin : Within ((content.erase item).union
        (pulled layout (progress.region.erase item) (FlowNode.item item).index test.exit))
        (progress.region.erase item) := by
      intro i hi
      rw [NodeSet.mem_union, Bool.or_eq_true] at hi
      rcases hi with hi | hi
      · rw [NodeSet.mem_erase, Bool.and_eq_true] at hi ⊢
        exact ⟨hcontent i hi.1, hi.2⟩
      · exact (of_mem_pulled hi).1
    generalize (content.erase item).union
      (pulled layout (progress.region.erase item) (FlowNode.item item).index test.exit) = body
      at hwithin
    refine Tracks.bind (.of_yields (Recovery.yields_claimAll hwithin t)) ?_
    rintro rest _ ⟨rfl, hrest⟩
    have hwithin' : Within body progress.region := by
      intro i hi
      have := hwithin i hi
      rw [NodeSet.mem_erase, Bool.and_eq_true] at this
      exact this.1
    have hout : body.mem item = false := by
      cases hin : body.mem item with
      | false => rfl
      | true =>
        have := hwithin item hin
        simp at this
    obtain ⟨taken, left, rfl, hstocked, hclaim⟩ :=
      h.claim hwithin' (fun i => NodeSet.mem_filter (fun i => !body.mem i) progress.region i)
    refine Tracks.bind
      (hinner body _ false _ taken hstocked (hbound.trans h.keeps.minted)) ?_
    rintro stmts u ⟨⟨built, lost, rfl, hbuilt, hlost⟩, hemptied, hkept⟩
    have hslot' : u.slot item = some (.basic header) := by
      rw [hkept.slots item hout, hslot]
    have hitem' : (progress.region.filter fun i => !body.mem i).mem item = true := by
      simp [hitem, hout]
    obtain ⟨headIds, left, rfl, hintact', htake⟩ := (hclaim u hemptied hkept).take hitem' hslot'
    have hsplit : header.body = [.label label] ++ [.condGoto e target, .goto other] := hheader
    obtain ⟨horiginal, rfl⟩ := hintact'.original hsplit (by simp)
    refine Tracks.bind (.of_yields (yields_testedLoop hslot' hheader)) ?_
    rintro loop v ⟨rfl, hempty, hkeeps⟩
    have hregion : rest = (progress.region.filter fun i => !body.mem i).erase item := by
      refine Region.ext fun i => ?_
      rw [hrest]
      simp [Bool.and_right_comm]
    have hloop : Arranges items bound [_] (item ::ₘ (built + 0)) :=
      .tested horiginal hheader htest hbuilt .nil
    refine .of_yields (.pure ⟨left, placed + (item ::ₘ (built + 0)), gone + lost, ?_,
      hgone.add hlost, ?_, hregion ▸ htake v hempty hkeeps⟩)
    · rw [← Multiset.singleton_add]
      abel
    · rw [List.map_append]
      exact hplaced.append hloop
  | none =>
    obtain ⟨⟨label, hlabel⟩, -⟩ :=
      BasicBlockOf.exists_label_of_isSound (hintact.1.isSound hsound)
    simp only [hlabel]
    refine Tracks.bind (.of_yields (Recovery.yields_claimAll hcontent t)) ?_
    rintro rest _ ⟨rfl, hrest⟩
    obtain ⟨taken, left, rfl, hstocked, hclaim⟩ := h.claim hcontent hrest
    refine Tracks.bind (hinner content _ true _ taken hstocked (hbound.trans h.keeps.minted)) ?_
    rintro stmts u ⟨⟨built, lost, rfl, hbuilt, hlost⟩, hemptied, hkept⟩
    have hclaimed := hclaim u hemptied hkept
    refine Tracks.bind (.of_yields (yields_endlessLoop label stmts u)) ?_
    rintro loop v ⟨rfl, hkeeps⟩
    have hloop : Arranges items bound
        [.basic { body := [.label u.minted, .loop none ⟨some label, stmts⟩] }] (built + 0) :=
      .endless (hbound.trans hclaimed.keeps.minted) hbuilt .nil
    refine .of_yields (.pure ⟨left, placed + (built + 0), gone + lost, ?_, hgone.add hlost, ?_,
      hclaimed.congr hkeeps⟩)
    · abel
    · rw [List.map_append]
      exact hplaced.append hloop

/-- The recovery of a loop whose header is gone fails for want of a label. -/
lemma exec_recoverLoop_of_gone (layout : Layout) (progress : Progress) {item : Nat}
    {s : RecoveryState} (h : s.slot item = none) :
    exec (recoverLoop inner layout progress item) s = (.error headerGone, s) := by
  unfold recoverLoop
  rw [exec_bind_of_ok (Recovery.exec_basicBlock? item s), h]
  rfl

/-- The header of some loop starts a scope whose body's entry dominates it. -/
def ScopeOverHeader (layout : Layout) (items : List Stmt) : Prop :=
  ∃ item, ScopeOverHead layout items item ∧
    layout.tree.inFrontier (FlowNode.item item).index (FlowNode.item item).index = true

/-- The two recoveries at one node go the same way, up to the loop whose header is gone. -/
lemma tracks_recoverAt (hsound : SoundBlocks items) (hlocates : Locates layout items)
    (hinner : TracksInner stop (ScopeOverHeader layout items) layout items bound inner inner')
    (withoutLoop : Nat → Bool) (hbound : bound ≤ s₀.minted)
    (h : Underway layout items bound outer s₀ ids progress s) (node : Nat) :
    Tracks stop (ScopeOverHeader layout items) (recoverAt inner layout withoutLoop progress node)
      (recoverAtUntil stop inner' layout withoutLoop progress node) s
      (Underway layout items bound outer s₀ ids) := by
  cases hnode : FlowNode.ofIndex node with
  | entry | exit =>
    simp only [recoverAt, recoverAtUntil, hnode]
    exact .of_yields (.pure h)
  | item item =>
    simp only [recoverAt, recoverAtUntil, hnode]
    by_cases hitem : progress.region.mem item = true
    · rw [if_pos hitem, if_pos hitem]
      obtain ⟨left, placed, gone, rfl, hgone, hplaced, hshrinks⟩ := h
      refine Tracks.bind (tracks_recoverScope hinner hlocates hbound hshrinks hitem) ?_
      rintro region t ⟨⟨left, lost, rfl, hlost, hregion⟩, hover⟩
      have hprogress : Underway layout items bound outer s₀ (left + lost + placed + gone)
          { progress with region } t := by
        refine ⟨left, placed, gone + lost, ?_, hgone.add hlost, hplaced, hregion⟩
        abel
      by_cases hfrontier : (layout.tree.inFrontier node node && !withoutLoop node) = true
      · rw [if_pos hfrontier, if_pos hfrontier]
        by_cases hin : region.mem item = true
        · rw [if_pos hin]
          exact tracks_recoverLoop hsound hinner hbound hprogress hin
        · rw [if_neg hin]
          rw [Bool.not_eq_true] at hin
          have hslot : t.slot item = none :=
            hregion.emptied item (hshrinks.within item hitem) hin
          have hindex : node = (FlowNode.item item).index :=
            (FlowNode.index_of_ofIndex hnode).symm
          rw [hindex, Bool.and_eq_true] at hfrontier
          exact .inr ⟨t, exec_recoverLoop_of_gone layout _ hslot, rfl, item, hover hin,
            hfrontier.1⟩
      · rw [if_neg hfrontier, if_neg hfrontier]
        exact .of_yields (.pure hprogress)
    · rw [if_neg hitem, if_neg hitem]
      exact .of_yields (.pure h)

/-- Blocks that are placed one by one. -/
lemma arranges_of_intact {stock : Nat → Multiset Nat} {placed : List (Nat × Stmt)}
    (h : ∀ p ∈ placed, ∃ block, p.2 = .basic block ∧ Intact items bound p.1 block (stock p.1)) :
    Arranges items bound (placed.map Prod.snd)
      (((placed.map Prod.fst : List Nat) : Multiset Nat).map stock).sum := by
  induction placed with
  | nil => exact .nil
  | cons p rest ih =>
    obtain ⟨block, heq, hblock⟩ := h p List.mem_cons_self
    have hrest := ih fun q hq => h q (List.mem_cons_of_mem _ hq)
    simp only [List.map_cons, ← Multiset.cons_coe, Multiset.map_cons, Multiset.sum_cons, heq]
    exact hblock.1.append hrest

/-- Draining what is left arranges it, together with what was placed before. -/
lemma yields_drainAll (h : Underway layout items bound outer s₀ ids progress s) :
    Yields (do return inListOrder (progress.placed ++ (← Recovery.drain progress.region))) s
      (BodyPost layout items bound outer s₀ ids) := by
  obtain ⟨left, built, lost, rfl, hlost, hbuilt, hshrinks⟩ := h
  have hnone : ∀ i, NodeSet.empty.mem i = (progress.region.mem i && !progress.region.mem i) := by
    simp
  obtain ⟨_, _, _, _, hclaim⟩ := hshrinks.claim (fun _ hi => hi) hnone
  obtain ⟨stock, hholds, rfl⟩ := hshrinks.stocked
  refine (Recovery.yields_drain hholds).bind ?_
  rintro drained t ⟨hfst, hdrained, hemptied, hkeeps⟩
  have hend := hclaim t hemptied hkeeps
  refine .pure ⟨⟨built + ((Region.members progress.region).map stock).sum, lost, ?_, ?_, hlost⟩,
    fun i hi => hend.emptied i hi (by simp), hend.keeps⟩
  · abel
  · have hrest := arranges_of_intact hdrained
    rw [hfst] at hrest
    have hall := hbuilt.append hrest
    rw [← List.map_append] at hall
    exact hall.perm ((perm_stableSort _ _).map Prod.snd).symm

/-- The recovery of loops goes the same way as the one that stops, up to the loop whose header is gone.
-/
theorem tracks_recover (stop : Error) (hsound : SoundBlocks items) (hlocates : Locates layout items)
    (bound fuel : Nat) :
    TracksInner stop (ScopeOverHeader layout items) layout items bound (recover layout fuel)
      (recoverUntil stop layout fuel) := by
  induction fuel with
  | zero =>
    intro region entry excludeEntry s ids h hbound
    have hstart : Underway layout items bound region s ids { region } s :=
      ⟨ids, 0, 0, by simp, .inl rfl, .nil, .start h⟩
    have hdrained := yields_drainAll hstart
    simp only [List.nil_append] at hdrained
    rw [recover, recoverUntil]
    exact .of_yields hdrained
  | succ fuel ih =>
    intro region entry excludeEntry s ids h hbound
    have hstart : Underway layout items bound region s ids { region } s :=
      ⟨ids, 0, 0, by simp, .inl rfl, .nil, .start h⟩
    rw [recover, recoverUntil]
    refine Tracks.bind (?_ : Tracks stop _ _ _ s (Underway layout items bound region s ids)) ?_
    · exact Tracks.foldlM
        (fun progress node _ s' h' => tracks_recoverAt hsound hlocates ih _ hbound h' node) hstart
    intro progress t h'
    exact .of_yields (yields_drainAll h')

end Tracking

/-- Every label of a list is where its layout says. -/
lemma locates_ofBlock (block : Block) : Locates (Layout.ofBlock block) block.body := by
  intro label i h
  obtain ⟨before, later, howners, -⟩ := List.lookup_eq_some_iff.mp h
  have hmem : (label, i) ∈ FlowGraph.ownersOf block.body := by
    have : (Layout.ofBlock block).flow.owners = FlowGraph.ownersOf block.body := rfl
    rw [← this, howners]
    simp
  rw [FlowGraph.ownersOf, List.mem_reverse, List.mem_flatMap] at hmem
  obtain ⟨⟨item, j⟩, hitem, hlabel⟩ := hmem
  obtain ⟨l, hl, heq⟩ := List.mem_map.mp hlabel
  cases heq
  exact ⟨item, List.mem_zipIdx_iff_getElem?.mp hitem, hl⟩

end Loops

/-- As `findLoops`, but stops at a loop whose header has been taken by its own scope. -/
def findLoopsUntil (stop : Error) (block : Block) (context : Context) :
    Except Error Block × Context :=
  let layout := Layout.ofBlock block
  let recovery := Loops.recoverUntil stop layout (2 * block.body.length + 2) layout.fullRegion
    layout.flow.first.index false
  let (result, context) := recovery.run block.body context
  (result.map fun body => { block with body }, context)

/-- At the start every item is in its slot. -/
lemma Loops.stocked_fullRegion {block : Block} (h : SoundBlocks block.body) (context : Context) :
    Stocked block.body context.labels.names.length (Layout.ofBlock block).fullRegion
      (.start block.body context) (.range block.body.length) := by
  refine ⟨fun i => {i}, holds_fullRegion ?_ context, ?_⟩
  · intro i item hitem
    obtain ⟨b, rfl, -⟩ := h item (List.mem_of_getElem? hitem)
    exact ⟨b, rfl, .item hitem .nil, .inl ⟨hitem, rfl⟩⟩
  · rw [members_fullRegion, Multiset.sum_map_singleton]

/-- The recovery of loops of a list of sound blocks gives an arrangement of them, apart from what gets
lost when a scope takes its own head.  Or else it fails for want of a label, exactly where the recovery
that stops does, and the header of some loop starts a scope whose body's entry dominates it. -/
theorem findLoops_cases {block : Block} (h : SoundBlocks block.body) (stop : Error)
    (context : Context) :
    (∃ body context' built lost, findLoops block context = (.ok { block with body }, context') ∧
        findLoopsUntil stop block context = (.ok { block with body }, context') ∧
        .range block.body.length = built + lost ∧
        Loops.Arranges block.body context.labels.names.length body built ∧
        Loops.Lost (Layout.ofBlock block) block.body lost) ∨
      ∃ context', findLoops block context = (.error Loops.headerGone, context') ∧
        findLoopsUntil stop block context = (.error stop, context') ∧
        Loops.ScopeOverHeader (Layout.ofBlock block) block.body := by
  have htracks := Loops.tracks_recover stop h (Loops.locates_ofBlock block)
    context.labels.names.length (2 * block.body.length + 2) _
    (Layout.ofBlock block).flow.first.index false _ _ (Loops.stocked_fullRegion h context)
    (Nat.le_refl _)
  simp only [findLoops, findLoopsUntil, Recovery.run_eq]
  rcases htracks with ⟨body, t, hrun, hrun', ⟨built, lost, hids, hbuilt, hlost⟩, -⟩ |
    ⟨t, hrun, hrun', hwhy⟩
  · rw [hrun, hrun']
    exact .inl ⟨body, t.context, built, lost, rfl, rfl, hids, hbuilt, hlost⟩
  · rw [hrun, hrun']
    exact .inr ⟨t.context, rfl, rfl, hwhy⟩

end Decompiler
