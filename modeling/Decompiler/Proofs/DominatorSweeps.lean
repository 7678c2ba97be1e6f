import Decompiler.Graph.Dominators
import Decompiler.Proofs.DepthFirstOrder
import Mathlib.Data.List.NodupEquivFin
import Mathlib.Tactic.Linarith

/-!
# The sweeps for the immediate dominators

The nodes of the graph here are the places of a reverse postorder: the root is place `0`, and every
other place has an edge from an earlier one (`IsOrdered`).  `Chain up a i` says that the walk up from
`i` comes to `a`.

Two facts carry the correctness of the sweeps.  What guards a place and is not the place itself also
guards the place that is put above it (`Sound.guards_above`).  This is local: it stays true whatever
the later updates do elsewhere.  And after `r` sweeps each path with fewer than `r` edges that lead
back to a place that is not later passes all of the chain of its end (`Covered`).  A path that passes
no place twice has fewer such edges than there are places, so that after as many sweeps the chain of
a place has exactly the places that guard it (`Settled.chain_iff`).  As this determines what is above
each place, one more sweep changes nothing.
-/

namespace Decompiler

namespace Dominators

/-- The graph has a first place, and every other place has an edge from an earlier one. -/
structure IsOrdered (places : Digraph) : Prop where
  proper : places.Proper
  pos : 0 < places.size
  exists_earlier : ∀ i < places.size, 0 < i → ∃ p < i, (p, i) ∈ places.edges

/-- The walk up from `i` comes to `a`. -/
inductive Chain (up : Uppers) (a : Nat) : Nat → Prop
  | here : Chain up a a
  | up {i d : Nat} (habove : above up i = some d) (hchain : Chain up a d) : Chain up a i

/-- What holds of the places that are known between any two updates. -/
structure Sound (places : Digraph) (up : Uppers) : Prop where
  size : up.size = places.size
  root : above up 0 = some 0
  /-- What is above a place is earlier and known itself. -/
  earlier : ∀ i d, 0 < i → above up i = some d → d < i ∧ (above up d).isSome
  guards_above : ∀ i d a, 0 < i → above up i = some d → a ≠ i → places.Guards 0 a i →
    places.Guards 0 a d

variable {places : Digraph} {up : Uppers} {a b c d i j p r : Nat}

/-! ## Chains -/

namespace Chain

lemma trans (hab : Chain up a b) (hbc : Chain up b c) : Chain up a c := by
  induction hbc with
  | here => exact hab
  | up habove hchain ih => exact .up habove ih

/-- The chain of another place than the first one goes on above it. -/
lemma of_above (h : Chain up a i) (hne : a ≠ i) (habove : above up i = some d) : Chain up a d := by
  cases h with
  | here => exact absurd rfl hne
  | up habove' hchain =>
    rw [habove] at habove'
    obtain rfl := Option.some.inj habove'
    exact hchain

lemma le (hup : Sound places up) (h : Chain up a i) : a ≤ i := by
  induction h with
  | here => exact le_refl a
  | @up i d habove hchain ih =>
    rcases Nat.eq_zero_or_pos i with rfl | hi
    · rw [hup.root] at habove
      obtain rfl := Option.some.inj habove
      exact ih
    · exact ih.trans (hup.earlier i d hi habove).1.le

lemma eq_zero (hup : Sound places up) (h : Chain up a 0) : a = 0 :=
  Nat.le_zero.1 (h.le hup)

/-- A place that guards another one guards the chain of the other one down to `c`, or it is itself on
that part of the chain. -/
lemma guards_or_between (hup : Sound places up) (h : Chain up c p) (hguards : places.Guards 0 a p) :
    places.Guards 0 a c ∨ Chain up a p ∧ Chain up c a := by
  induction h with
  | here => exact .inl hguards
  | @up p d habove hchain ih =>
    by_cases hne : a = p
    · subst hne
      exact .inr ⟨.here, .up habove hchain⟩
    · have hd : places.Guards 0 a d := by
        rcases Nat.eq_zero_or_pos p with rfl | hp
        · exact absurd hguards.eq_root hne
        · exact hup.guards_above p d a hp habove hne hguards
      exact (ih hd).imp_right fun ⟨ha, hc⟩ => ⟨.up habove ha, hc⟩

end Chain

/-! ## Walks that meet -/

/-- The walks up from two known places meet at the last place that the two chains share. -/
lemma meet_spec (hup : Sound places up) (fuel : Nat) (ha : (above up a).isSome)
    (hb : (above up b).isSome) (hfuel : a + b ≤ fuel) :
    ∃ c, meet up fuel a b = some c ∧ (above up c).isSome ∧ Chain up c a ∧ Chain up c b ∧
      ∀ x, Chain up x a → Chain up x b → Chain up x c := by
  induction fuel generalizing a b with
  | zero =>
    obtain ⟨rfl, rfl⟩ : a = 0 ∧ b = 0 := by omega
    exact ⟨0, by simp [meet], ha, .here, .here, fun x hx _ => hx⟩
  | succ fuel ih =>
    rw [meet]
    by_cases hab : a = b
    · subst hab
      exact ⟨a, by simp, ha, .here, .here, fun x hx _ => hx⟩
    rw [if_neg hab]
    by_cases hlt : b < a
    · rw [if_pos hlt]
      obtain ⟨a', habove⟩ := Option.isSome_iff_exists.1 ha
      obtain ⟨hless, hknown⟩ := hup.earlier a a' (by omega) habove
      obtain ⟨c, hmeet, hc, hca, hcb, hlast⟩ := ih hknown hb (by omega)
      refine ⟨c, by simp [habove, hmeet], hc, .up habove hca, hcb, fun x hxa hxb => ?_⟩
      have hne : x ≠ a := by
        have hle := hxb.le hup
        omega
      exact hlast x (hxa.of_above hne habove) hxb
    · rw [if_neg hlt]
      obtain ⟨b', habove⟩ := Option.isSome_iff_exists.1 hb
      obtain ⟨hless, hknown⟩ := hup.earlier b b' (by omega) habove
      obtain ⟨c, hmeet, hc, hca, hcb, hlast⟩ := ih ha hknown (by omega)
      refine ⟨c, by simp [habove, hmeet], hc, hca, .up habove hcb, fun x hxa hxb => ?_⟩
      have hne : x ≠ b := by
        have hle := hxa.le hup
        omega
      exact hlast x hxa (hxb.of_above hne habove)

/-- What the known places of a list have in common: nothing if there are none, and else the last
place that their chains share. -/
def Gathers (up : Uppers) (seen : List Nat) : Option Nat → Prop
  | none => ∀ p ∈ seen, above up p = none
  | some c => (above up c).isSome ∧ (∃ p ∈ seen, (above up p).isSome) ∧
      (∀ p ∈ seen, (above up p).isSome → Chain up c p) ∧
      ∀ x, (∀ p ∈ seen, (above up p).isSome → Chain up x p) → Chain up x c

lemma gathers_join (hup : Sound places up) {seen : List Nat} {known : Option Nat}
    (hknown : Gathers up seen known) (p : Nat) :
    ∃ next, join up known p = some next ∧ Gathers up (seen ++ [p]) next := by
  unfold join
  by_cases hp : (above up p).isSome
  · rw [if_neg (by simp [Option.isSome_iff_ne_none.1 hp])]
    cases known with
    | none =>
      have hseen : ∀ q ∈ seen, ¬ (above up q).isSome := fun q hq => by simp [hknown q hq]
      refine ⟨some p, rfl, hp, ⟨p, by simp, hp⟩, fun q hq hsome => ?_, fun x hx => ?_⟩
      · rcases List.mem_append.1 hq with hq | hq
        · exact absurd hsome (hseen q hq)
        · rw [List.mem_singleton.1 hq]
          exact .here
      · exact hx p (by simp) hp
    | some q =>
      obtain ⟨hq, hexists, hchain, hlast⟩ := hknown
      obtain ⟨c, hmeet, hc, hcp, hcq, hmost⟩ := meet_spec hup (p + q) hp hq le_rfl
      refine ⟨some c, by simp [hmeet], hc, ⟨p, by simp, hp⟩, fun k hk hsome => ?_, fun x hx => ?_⟩
      · rcases List.mem_append.1 hk with hk | hk
        · exact hcq.trans (hchain k hk hsome)
        · rw [List.mem_singleton.1 hk]
          exact hcp
      · refine hmost x (hx p (by simp) hp) (hlast x fun k hk hsome => ?_)
        exact hx k (List.mem_append_left _ hk) hsome
  · have hnone : above up p = none := by simpa using hp
    rw [if_pos (by simp [hnone])]
    refine ⟨known, rfl, ?_⟩
    cases known with
    | none =>
      intro k hk
      rcases List.mem_append.1 hk with hk | hk
      · exact hknown k hk
      · rw [List.mem_singleton.1 hk]
        exact hnone
    | some q =>
      obtain ⟨hq, ⟨k, hk, hsome⟩, hchain, hlast⟩ := hknown
      refine ⟨hq, ⟨k, List.mem_append_left _ hk, hsome⟩, fun k hk hsome => ?_, fun x hx => ?_⟩
      · rcases List.mem_append.1 hk with hk | hk
        · exact hchain k hk hsome
        · rw [List.mem_singleton.1 hk, hnone] at hsome
          simp at hsome
      · exact hlast x fun k hk hsome => hx k (List.mem_append_left _ hk) hsome

lemma gathers_foldlM (hup : Sound places up) (sources : List Nat) {seen : List Nat}
    {known : Option Nat} (hknown : Gathers up seen known) :
    ∃ last, sources.foldlM (join up) known = some last ∧ Gathers up (seen ++ sources) last := by
  induction sources generalizing seen known with
  | nil => exact ⟨known, rfl, by simpa using hknown⟩
  | cons p rest ih =>
    obtain ⟨next, hnext, hgathers⟩ := gathers_join hup hknown p
    obtain ⟨last, hlast, hall⟩ := ih hgathers
    exact ⟨last, by simp [hnext, hlast], by simpa using hall⟩

/-! ## Updates -/

lemma above_set (hi : i < up.size) (c j : Nat) :
    above (up.setIfInBounds i (some c)) j = if i = j then some c else above up j := by
  unfold above
  rw [Array.getElem?_setIfInBounds]
  split <;> rfl

lemma above_set_self (hi : i < up.size) (c : Nat) :
    above (up.setIfInBounds i (some c)) i = some c := by
  rw [above_set hi, if_pos rfl]

lemma above_set_of_ne (hi : i < up.size) (c : Nat) (hne : i ≠ j) :
    above (up.setIfInBounds i (some c)) j = above up j := by
  rw [above_set hi, if_neg hne]

lemma isSome_above_set (hi : i < up.size) (c : Nat) (hj : (above up j).isSome) :
    (above (up.setIfInBounds i (some c)) j).isSome := by
  rw [above_set hi]
  split
  · rfl
  · exact hj

/-- An update of a place with an earlier known predecessor puts above it what its predecessors have in
common. -/
lemma update_spec (hup : Sound places up) (hedge : (p, i) ∈ places.edges) (hlt : p < i)
    (hp : (above up p).isSome) :
    ∃ c, update places up i = some (up.setIfInBounds i (some c)) ∧ c < i ∧
      Gathers up (places.predecessors i) (some c) := by
  have hstart : Gathers up [] none := fun p hp => absurd hp List.not_mem_nil
  obtain ⟨last, hlast, hgathers⟩ := gathers_foldlM hup (places.predecessors i) hstart
  rw [List.nil_append] at hgathers
  have hmem : p ∈ places.predecessors i := Digraph.mem_predecessors.2 hedge
  cases last with
  | none => simp [hgathers p hmem] at hp
  | some c =>
    have hle : c ≤ p := (hgathers.2.2.1 p hmem hp).le hup
    exact ⟨c, by simp [update, hlast], by omega, hgathers⟩

/-- What guards a place and is another one guards what the predecessors have in common. -/
lemma Sound.guards_gathered (hup : Sound places up)
    (hgathers : Gathers up (places.predecessors i) (some c)) (hne : a ≠ i)
    (hguards : places.Guards 0 a i) : places.Guards 0 a c := by
  obtain ⟨-, ⟨q, hq, hsome⟩, hchain, hlast⟩ := hgathers
  by_contra hnot
  have hbetween : ∀ p ∈ places.predecessors i, (above up p).isSome →
      Chain up a p ∧ Chain up c a := fun p hp hknown =>
    ((hchain p hp hknown).guards_or_between hup
      (hguards.of_edge hne (Digraph.mem_predecessors.1 hp))).resolve_left hnot
  have hac : a ≤ c := (hlast a fun p hp hknown => (hbetween p hp hknown).1).le hup
  have hca : c ≤ a := (hbetween q hq hsome).2.le hup
  obtain rfl : a = c := le_antisymm hac hca
  exact hnot (.refl places 0 a)

/-- An update keeps what holds between updates. -/
lemma Sound.set (hup : Sound places up) (hi : 0 < i) (hsize : i < places.size) (hlt : c < i)
    (hgathers : Gathers up (places.predecessors i) (some c)) :
    Sound places (up.setIfInBounds i (some c)) := by
  have hbound : i < up.size := by rw [hup.size]; exact hsize
  refine ⟨by simp [hup.size], ?_, fun j d hj habove => ?_, fun j d a hj habove hne hguards => ?_⟩
  · rw [above_set_of_ne hbound c (by omega), hup.root]
  · rw [above_set hbound] at habove
    split at habove
    · rename_i hij
      obtain rfl := Option.some.inj habove
      exact ⟨hij ▸ hlt, isSome_above_set hbound c hgathers.1⟩
    · obtain ⟨hless, hknown⟩ := hup.earlier j d hj habove
      exact ⟨hless, isSome_above_set hbound c hknown⟩
  · rw [above_set hbound] at habove
    split at habove
    · rename_i hij
      obtain rfl := Option.some.inj habove
      subst hij
      exact hup.guards_gathered hgathers hne hguards
    · exact hup.guards_above j d a hj habove hne hguards

/-- The chain of a place before the one that is updated stays as it is. -/
lemma chain_set_iff_of_lt (hup : Sound places up) (hi : i < up.size) (c : Nat) (hlt : j < i) :
    Chain (up.setIfInBounds i (some c)) a j ↔ Chain up a j := by
  constructor
  · intro h
    induction h with
    | here => exact .here
    | @up j d habove hchain ih =>
      rw [above_set_of_ne hi c (by omega)] at habove
      have hle : d ≤ j := (Chain.up habove .here : Chain up d j).le hup
      exact .up habove (ih (by omega))
  · intro h
    induction h with
    | here => exact .here
    | @up j d habove hchain ih =>
      have hle : d ≤ j := (Chain.up habove .here : Chain up d j).le hup
      exact .up (by rw [above_set_of_ne hi c (by omega), habove]) (ih (by omega))

/-- What is on a chain after an update was on it before, or the chain comes to the place that is
updated and goes on from there. -/
lemma chain_of_set (hi : i < up.size) (h : Chain (up.setIfInBounds i (some c)) a j) :
    Chain up a j ∨ Chain up i j ∧ Chain (up.setIfInBounds i (some c)) a i := by
  induction h with
  | here => exact .inl .here
  | @up j d habove hchain ih =>
    by_cases hij : i = j
    · subst hij
      exact .inr ⟨.here, .up habove hchain⟩
    · rw [above_set_of_ne hi c hij] at habove
      exact ih.imp (.up habove) fun ⟨hbefore, hafter⟩ => ⟨.up habove hbefore, hafter⟩

/-! ## Edges that lead back -/

/-- The number of edges of a path that lead to a place that is not later. -/
def retreats : List Nat → Nat
  | b :: a :: rest => (if b ≤ a then 1 else 0) + retreats (a :: rest)
  | _ => 0

lemma retreats_step {nodes : List Nat} (h : places.Path 0 a nodes) (b : Nat) :
    retreats (b :: nodes) = (if b ≤ a then 1 else 0) + retreats nodes := by
  cases h <;> rfl

lemma retreats_le_of_suffix {front nodes : List Nat} (h : front <:+ nodes) :
    retreats front ≤ retreats nodes := by
  induction nodes with
  | nil => rw [List.suffix_nil.1 h]
  | cons b rest ih =>
    rcases List.suffix_cons_iff.1 h with rfl | h
    · exact le_rfl
    · refine (ih h).trans ?_
      cases rest with
      | nil => exact Nat.zero_le _
      | cons a rest => exact Nat.le_add_left _ _

lemma retreats_lt {nodes : List Nat} (h : places.Path 0 a nodes) : retreats nodes < nodes.length := by
  induction h with
  | start => simp [retreats]
  | @step a b nodes hpath hedge ih =>
    rw [retreats_step hpath, List.length_cons]
    split <;> omega

/-- Each path to the place with fewer than `r` edges that lead back passes all of its chain. -/
def Covered (places : Digraph) (up : Uppers) (r j : Nat) : Prop :=
  ∀ nodes, places.Path 0 j nodes → retreats nodes < r → ∀ a, Chain up a j → a ∈ nodes

/-- The state of a sweep, the one with number `r`, before the update of the place `i`. -/
structure Progress (places : Digraph) (r i : Nat) (up : Uppers) : Prop where
  sound : Sound places up
  known : ∀ j < places.size, j < i ∨ 0 < r → (above up j).isSome
  done : ∀ j < i, Covered places up (r + 1) j
  waiting : ∀ j < places.size, i ≤ j → Covered places up r j

/-- The chain of an updated place is passed by paths with one more edge that leads back. -/
lemma Progress.covered_set (hup : Progress places r i up) (hi : 0 < i) (hsize : i < places.size)
    (hproper : places.Proper) (hlt : c < i)
    (hgathers : Gathers up (places.predecessors i) (some c)) :
    Covered places (up.setIfInBounds i (some c)) (r + 1) i := by
  intro nodes hpath hretreats a hchain
  have hbound : i < up.size := by rw [hup.sound.size]; exact hsize
  by_cases hne : a = i
  · rw [hne]
    exact hpath.last_mem
  have hac : Chain up a c :=
    (chain_set_iff_of_lt hup.sound hbound c hlt).1
      (hchain.of_above hne (above_set_self hbound c))
  cases hpath with
  | start => omega
  | @step p _ nodes hpath hedge =>
    rw [retreats_step hpath] at hretreats
    have hchain : (above up p).isSome → Chain up a p := fun hsome =>
      hac.trans (hgathers.2.2.1 p (Digraph.mem_predecessors.2 hedge) hsome)
    refine List.mem_cons_of_mem _ ?_
    -- an edge from a later place leads back, and what is above that place is from the sweep before
    by_cases hle : i ≤ p
    · rw [if_pos hle] at hretreats
      have hp : p < places.size := (hproper _ hedge).1
      have hsome := hup.known p hp (.inr (by omega))
      exact hup.waiting p hp hle nodes hpath (by omega) a (hchain hsome)
    · rw [if_neg hle] at hretreats
      have hsome := hup.known p (by omega) (.inl (by omega))
      exact hup.done p (by omega) nodes hpath (by omega) a (hchain hsome)

/-- One update of a sweep. -/
lemma Progress.update (hordered : IsOrdered places) (hup : Progress places r i up) (hi : 0 < i)
    (hsize : i < places.size) :
    ∃ next, update places up i = some next ∧ Progress places r (i + 1) next := by
  obtain ⟨p, hp, hedge⟩ := hordered.exists_earlier i hsize hi
  have hknown := hup.known p (by omega) (.inl hp)
  obtain ⟨c, hupdate, hlt, hgathers⟩ := update_spec hup.sound hedge hp hknown
  have hbound : i < up.size := by rw [hup.sound.size]; exact hsize
  have hcovered := hup.covered_set hi hsize hordered.proper hlt hgathers
  refine ⟨_, hupdate, hup.sound.set hi hsize hlt hgathers, fun j hj hcase => ?_, fun j hj => ?_,
    fun j hj hle nodes hpath hretreats a hchain => ?_⟩
  · by_cases hij : i = j
    · rw [hij, above_set_self (by rw [hup.sound.size]; exact hj)]
      rfl
    · refine isSome_above_set hbound c (hup.known j hj (hcase.imp_left fun hless => ?_))
      omega
  · by_cases hij : j = i
    · exact hij ▸ hcovered
    · intro nodes hpath hretreats a hchain
      rw [chain_set_iff_of_lt hup.sound hbound c (by omega)] at hchain
      exact hup.done j (by omega) nodes hpath hretreats a hchain
  · rcases chain_of_set hbound hchain with hbefore | ⟨hpassed, hafter⟩
    · exact hup.waiting j hj (by omega) nodes hpath hretreats a hbefore
    · -- the path passes the updated place, and its part up to there passes what is above
      have hmem := hup.waiting j hj (by omega) nodes hpath hretreats i hpassed
      obtain ⟨front, hfront, hsuffix⟩ := hpath.exists_suffix hmem
      have hless := retreats_le_of_suffix hsuffix
      exact hsuffix.subset (hcovered front hfront (by omega) a hafter)

/-! ## Sweeps -/

lemma Progress.foldlM (hordered : IsOrdered places) (count : Nat)
    (hup : Progress places r i up) (hi : 0 < i) (hsize : i + count ≤ places.size) :
    ∃ next, (List.range' i count).foldlM (Dominators.update places) up = some next ∧
      Progress places r (i + count) next := by
  induction count generalizing i up with
  | zero => exact ⟨up, rfl, hup⟩
  | succ count ih =>
    obtain ⟨mid, hmid, hprogress⟩ := hup.update hordered hi (by omega)
    obtain ⟨next, hnext, hdone⟩ := ih hprogress (by omega) (by omega)
    refine ⟨next, by simp [List.range'_succ, hmid, hnext], ?_⟩
    have harith : i + (count + 1) = i + 1 + count := by omega
    exact harith ▸ hdone

/-- After a sweep everything is as it has to be before the next one. -/
lemma Progress.sweep (hordered : IsOrdered places) (hup : Progress places r 1 up) :
    ∃ next, sweep places up = some next ∧ Progress places (r + 1) 1 next := by
  have hpos := hordered.pos
  obtain ⟨next, hnext, hdone⟩ := hup.foldlM hordered (places.size - 1) Nat.one_pos (by omega)
  have hsize : 1 + (places.size - 1) = places.size := by omega
  rw [hsize] at hdone
  refine ⟨next, ?_, hdone.sound, fun j hj _ => hdone.known j hj (.inl hj), fun j hj => ?_,
    fun j hj _ => hdone.done j hj⟩
  · rw [Dominators.sweep, List.range_eq_range', List.tail_range']
    exact hnext
  · obtain rfl : j = 0 := by omega
    intro nodes hpath _ a hchain
    rw [hchain.eq_zero hdone.sound]
    exact hpath.start_mem

lemma progress_initial (hordered : IsOrdered places) : Progress places 0 1 (initial places) := by
  have hpos := hordered.pos
  have habove : ∀ j, above (initial places) j = if 0 = j then some 0 else none := by
    intro j
    rw [initial, above_set (by simpa using hpos)]
    split
    · rfl
    · simp only [above, Array.getElem?_replicate]
      split <;> rfl
  have hsound : Sound places (initial places) := by
    refine ⟨by simp [initial], by simp [habove], fun i d hi h => ?_, fun i d a hi h => ?_⟩ <;>
    · rw [habove, if_neg (by omega)] at h
      simp at h
  refine ⟨hsound, fun j hj hcase => ?_, fun j hj => ?_, fun j hj _ => ?_⟩
  · obtain rfl : j = 0 := by omega
    simp [habove]
  · obtain rfl : j = 0 := by omega
    intro nodes hpath _ a hchain
    rw [hchain.eq_zero hsound]
    exact hpath.start_mem
  · intro nodes hpath hretreats
    exact absurd hretreats (Nat.not_lt_zero _)

/-! ## When nothing changes any more -/

/-- All places are known, and each path passes all of the chain of its end. -/
structure Settled (places : Digraph) (up : Uppers) : Prop where
  sound : Sound places up
  known : ∀ j < places.size, (above up j).isSome
  guards : ∀ j < places.size, ∀ a, Chain up a j → places.Guards 0 a j

lemma Progress.settled (hordered : IsOrdered places) (hup : Progress places r 1 up)
    (hr : places.size ≤ r) : Settled places up := by
  have hpos := hordered.pos
  refine ⟨hup.sound, fun j hj => hup.known j hj (.inr (by omega)), fun j hj a hchain => ?_⟩
  intro nodes hpath
  obtain ⟨front, hfront, hnodup, hsub⟩ := hpath.exists_nodup
  have hbelow : ∀ m ∈ front, m ∈ List.range places.size := by
    intro m hm
    obtain ⟨cut, hcut, -⟩ := hfront.exists_suffix hm
    exact List.mem_range.2 (hordered.proper.lt_of_reaches hpos ⟨cut, hcut⟩)
  have hlength : front.length ≤ places.size := by
    simpa using (hnodup.subperm hbelow).length_le
  have hretreats := retreats_lt hfront
  refine hsub a ?_
  rcases Nat.eq_zero_or_pos j with rfl | hj0
  · rw [hchain.eq_zero hup.sound]
    exact hfront.start_mem
  · exact hup.waiting j hj hj0 front hfront (by omega) a hchain

/-- The chain of a place has the places that guard it. -/
theorem Settled.chain_iff (hup : Settled places up) (hi : i < places.size) :
    Chain up a i ↔ places.Guards 0 a i := by
  refine ⟨hup.guards i hi a, fun hguards => ?_⟩
  induction i using Nat.strong_induction_on with
  | _ i ih =>
    by_cases hne : a = i
    · rw [hne]
      exact .here
    · have hpos : 0 < i := by
        rcases Nat.eq_zero_or_pos i with rfl | hpos
        · exact absurd hguards.eq_root hne
        · exact hpos
      obtain ⟨d, habove⟩ := Option.isSome_iff_exists.1 (hup.known i hi)
      obtain ⟨hlt, -⟩ := hup.sound.earlier i d hpos habove
      have hd := hup.sound.guards_above i d a hpos habove hne hguards
      exact .up habove (ih d hlt (by omega) hd)

/-- What is above a place is another one, guards it, and is guarded by all others that do. -/
theorem Settled.above_spec (hup : Settled places up) (hi : i < places.size) (hpos : 0 < i)
    (habove : above up i = some d) :
    d < i ∧ places.Guards 0 d i ∧ ∀ a, a ≠ i → places.Guards 0 a i → places.Guards 0 a d :=
  ⟨(hup.sound.earlier i d hpos habove).1, hup.guards i hi d (.up habove .here),
    fun a => hup.sound.guards_above i d a hpos habove⟩

/-- There is one way only to be settled. -/
lemma Settled.unique {up' : Uppers} (hup : Settled places up) (hup' : Settled places up') :
    up = up' := by
  have habove : ∀ j < places.size, above up j = above up' j := by
    intro j hj
    obtain ⟨d, hd⟩ := Option.isSome_iff_exists.1 (hup.known j hj)
    obtain ⟨d', hd'⟩ := Option.isSome_iff_exists.1 (hup'.known j hj)
    rw [hd, hd']
    rcases Nat.eq_zero_or_pos j with rfl | hpos
    · rw [← hd, ← hd', hup.sound.root, hup'.sound.root]
    · obtain ⟨hlt, hguards, hlast⟩ := hup.above_spec hj hpos hd
      obtain ⟨hlt', hguards', hlast'⟩ := hup'.above_spec hj hpos hd'
      have hdd' : d ≤ d' := ((hup.chain_iff (by omega)).2 (hlast' d (by omega) hguards)).le hup.sound
      have hd'd : d' ≤ d := ((hup.chain_iff (by omega)).2 (hlast d' (by omega) hguards')).le hup.sound
      rw [le_antisymm hdd' hd'd]
  refine Array.ext (by rw [hup.sound.size, hup'.sound.size]) fun j hj hj' => ?_
  have hsize : j < places.size := by rw [← hup.sound.size]; exact hj
  have hsame := habove j hsize
  simpa [above, hj, hj'] using hsame

/-- When a sweep changes nothing, no later one does. -/
lemma Progress.stay (hordered : IsOrdered places) (hup : Progress places r 1 up)
    (hstable : Dominators.sweep places up = some up) (k : Nat) : Progress places (r + k) 1 up := by
  induction k with
  | zero => exact hup
  | succ k ih =>
    obtain ⟨next, hnext, hprogress⟩ := ih.sweep hordered
    rw [hstable] at hnext
    exact Option.some.inj hnext ▸ hprogress

lemma Progress.settle (hordered : IsOrdered places) {k rounds : Nat} (hup : Progress places r 1 up)
    (hk : places.size ≤ r + k) (hrounds : k < rounds) :
    ∃ last, settle places rounds up = some last ∧ Settled places last ∧
      Dominators.sweep places last = some last := by
  induction rounds generalizing k r up with
  | zero => omega
  | succ rounds ih =>
    obtain ⟨next, hnext, hprogress⟩ := hup.sweep hordered
    rw [Dominators.settle, hnext, Option.bind_some]
    by_cases hstable : next = up
    · rw [if_pos hstable]
      rw [hstable] at hnext
      exact ⟨up, rfl, (hup.stay hordered hnext k).settled hordered hk, hnext⟩
    · rw [if_neg hstable]
      rcases Nat.eq_zero_or_pos k with rfl | hpos
      · have hsettled := hup.settled hordered hk
        have hsettled' := hprogress.settled hordered (by omega)
        exact absurd (hsettled'.unique hsettled) hstable
      · exact ih (k := k - 1) hprogress (by omega) (by omega)

/-- The sweeps come to an end, with the places that guard a place above it. -/
theorem exists_uppers? (hordered : IsOrdered places) :
    ∃ up, uppers? places = some up ∧ Settled places up ∧ sweep places up = some up :=
  (progress_initial hordered).settle hordered (k := places.size) (by omega) (by omega)

end Dominators

end Decompiler
