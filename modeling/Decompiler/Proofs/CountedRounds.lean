import Decompiler.Proofs.CountedRuns

/-!
# Rounds of counted loops

The own operations of a counted loop compare its counter and count it down, on the stack before the edit and
in the temporary after it.  With them a step of the loop is matched by some steps of the edited loop
(`Layout.Turns.step`), and a run by a run with the same operations and the same rounds
(`Layout.Turns.run`, `exists_alike_run`).
-/

namespace Decompiler

open Bytecode

namespace CountedLoop

open StackMachine

variable {w : World}

namespace Layout

variable {l : Layout} {num : Int → w.Value} {base : List w.Value} {n : Int} {label : LabelId}
  {rest : List Stmt} {r : Run w} {c c' d : Config w}

/-! ### The loop's own operations -/

section

variable {before after : List BasicBlock} {bound bound' : Nat} {names : Names} (h : l.Turns before after)
  (hwf : WellFormed bound before) (hwf' : WellFormed bound' after) (hreserves : w.Reserves l.counter)
  (hcounts : w.Counts num)

/-- A step that is not seen. -/
lemma reaches_quiet {own : Config w → Bool} {log : List (Event w)} {e : Config w}
    (hnext : c.next? names after = some d) (hown : own c = true) (htail : l.atTail c = false)
    (hreaches : Reaches names after (l.shows own) log d e) :
    Reaches names after (l.shows own) log c e := by
  have hhead := hreaches.head hnext
  rwa [shows_own hown htail] at hhead

include h

/-- The body is not the exit. -/
lemma Turns.label_ne_exit_of_body (henter : c.enter? before l.loop.body = some d) :
    d.label ≠ l.loop.exit := by
  obtain ⟨stmts, -, rfl⟩ := Config.enter?_eq_some henter
  exact h.exit_ne_body.symm

/-- A step of the new block is not seen. -/
lemma Turns.reaches_minted {log : List (Event w)} {e : Config w} (hlabel : c.label = l.minted)
    (hnext : c.next? names after = some d)
    (hreaches : Reaches names after (l.shows l.ownNew) log d e) :
    Reaches names after (l.shows l.ownNew) log c e :=
  reaches_quiet hnext (by simp [ownNew, hlabel]) (by simp [atTail, hlabel, h.minted_ne_tail]) hreaches

include hreserves in
/-- The new block compares the temporary. -/
lemma Turns.reaches_test :
    Reaches names after (l.shows l.ownNew) []
      (l.startTest base (r.hold l.counter (num n)))
      ⟨l.minted, [.raw l.loop.offset (.branchTrue l.loop.exit), .goto l.loop.body],
        w.binary .le (num n) (w.constant (.int 0)) :: base, r.hold l.counter (num n)⟩ := by
  refine h.reaches_minted rfl rfl (h.reaches_minted rfl rfl (h.reaches_minted rfl ?_ (.refl _)))
  simp only [startTest, Config.next?, operate, stackStep, Run.hold, Run.write, hreserves.read_own]
  rfl

include hwf hwf' hreserves hcounts

/-- With no rounds left the new block goes to the exit. -/
lemma Turns.reaches_exit (hn : n ≤ 0) :
    Reaches names after (l.shows l.ownNew) []
      (l.startTest base (r.hold l.counter (num n)))
      ⟨l.loop.exit, l.exitRest, base, r.hold l.counter (num n)⟩ := by
  have htruthy : w.truthy (w.binary .le (num n) (w.constant (.int 0))) = true := by
    rw [hcounts.le_zero n _ rfl, decide_eq_true hn]
  refine (h.reaches_test hreserves).trans (h.reaches_minted rfl ?_ (.refl _))
  rw [Config.next?_of_truthy htruthy]
  exact (h.enter_exit hwf hwf' _).2

/-- With rounds left the new block goes to the body. -/
lemma Turns.reaches_body (hn : 0 < n) (hlands : l.lands (base.length + 1) d = true)
    (henter : Config.enter? before ⟨label, rest, num n :: base, r⟩ l.loop.body = some d) :
    ∃ d', Reaches names after (l.shows l.ownNew) []
        (l.startTest base (r.hold l.counter (num n))) d' ∧
      l.Alike num base n d d' := by
  change Config.enter? before ⟨label, rest, [] ++ num n :: base, r⟩ l.loop.body = some d at henter
  have henters : ∃ d', Config.enter? after
      ⟨l.minted, [.goto l.loop.body], base, r.hold l.counter (num n)⟩ l.loop.body = some d' ∧
        l.Alike num base n d d' := h.enters hwf hwf' hn hlands henter
  obtain ⟨d', henter', halike⟩ := henters
  have htruthy : w.truthy (w.binary .le (num n) (w.constant (.int 0))) = false := by
    rw [hcounts.le_zero n _ rfl, decide_eq_false (by omega)]
  have hjump : Reaches names after (l.shows l.ownNew) []
      ⟨l.minted, [.goto l.loop.body], base, r.hold l.counter (num n)⟩ d' :=
    h.reaches_minted rfl henter' (.refl _)
  exact ⟨d', (h.reaches_test hreserves).trans
    (h.reaches_minted rfl (Config.next?_of_not_truthy htruthy ..) hjump), halike⟩

omit hwf hreserves hcounts in
/-- The new head puts the counter into the temporary. -/
lemma Turns.reaches_headEnd :
    Reaches names after (l.shows l.ownNew) [] ⟨l.head, l.newHead, num n :: base, r⟩
      (l.startTest base (r.hold l.counter (num n))) := by
  have hjump : Reaches names after (l.shows l.ownNew) []
      ⟨l.head, [.goto l.minted], base, r.hold l.counter (num n)⟩
      (l.startTest base (r.hold l.counter (num n))) :=
    reaches_quiet (Config.enter?_of_bodyOf hwf' h.test_after _) (by simp [ownNew, newHead, headEnd])
      (by simp [atTail, h.tail_ne_head.symm]) (.refl _)
  exact reaches_quiet rfl (by simp [ownNew]) (by simp [atTail, h.tail_ne_head.symm]) hjump

omit hwf in
/-- The new tail counts the temporary down. -/
lemma Turns.reaches_tailEnd (hstep : l.step.step.integer? = some 1) (hn : 0 ≤ n) :
    Reaches names after (l.shows l.ownNew) []
      ⟨l.tail, l.newTail.drop 1, num (n + 1) :: base, r.hold l.counter (num (n + 1))⟩
      (l.startTest base (r.hold l.counter (num n))) := by
  have hquiet : ∀ {stmts : List Stmt} {stack : List w.Value} {run : Run w}, stmts.length < 5 →
      l.ownNew (⟨l.tail, stmts, stack, run⟩ : Config w) = true ∧
        l.atTail (⟨l.tail, stmts, stack, run⟩ : Config w) = false := by
    intro stmts stack run hlength
    simp [ownNew, atTail, newTail, oldTail, hlength.le, hlength.ne]
  have hjump : Reaches names after (l.shows l.ownNew) []
      ⟨l.tail, [.goto l.minted], base, r.hold l.counter (num n)⟩
      (l.startTest base (r.hold l.counter (num n))) :=
    reaches_quiet (Config.enter?_of_bodyOf hwf' h.test_after _) (hquiet (by simp)).1 (hquiet (by simp)).2
      (.refl _)
  have hstore : Reaches names after (l.shows l.ownNew) []
      ⟨l.tail, l.newTail.drop 3, num n :: base, r.hold l.counter (num (n + 1))⟩
      (l.startTest base (r.hold l.counter (num n))) := by
    refine reaches_quiet ?_ (hquiet (by simp [newTail])).1 (hquiet (by simp [newTail])).2 hjump
    rw [← hold_hold hreserves r (num (n + 1)) (num n)]
    rfl
  have hcount : Reaches names after (l.shows l.ownNew) []
      ⟨l.tail, l.newTail.drop 2, w.constant l.step.step :: num (n + 1) :: base,
        r.hold l.counter (num (n + 1))⟩
      (l.startTest base (r.hold l.counter (num n))) := by
    refine reaches_quiet ?_ (hquiet (by simp [newTail])).1 (hquiet (by simp [newTail])).2 hstore
    rw [← hcounts.sub_succ hn hstep]
    rfl
  exact reaches_quiet rfl (hquiet (by simp [newTail])).1 (hquiet (by simp [newTail])).2 hcount

/-- The head's own operations.  The edited loop takes its steps when the counter has been compared. -/
lemma Turns.step_head {i : Nat} (hi : i ≤ 4) (hn : i = 4 → 0 < n)
    (hnext : Config.next? names before ⟨l.head, l.oldHead.drop i, l.headStack num n i ++ base, r⟩ = some d)
    (hlands : l.lands (base.length + 1) d = true) :
    ∃ d', Reaches names after (l.shows l.ownNew) [] ⟨l.head, l.newHead, num n :: base, r⟩ d' ∧
      l.Alike num base n d d' ∧ (d.label = l.loop.exit → n ≤ 0) := by
  have hexit : l.head = l.loop.exit → n ≤ 0 := fun heq => absurd heq.symm h.exit_ne_head
  match i, hi with
  | 0, _ =>
    obtain rfl := Option.some.inj hnext
    exact ⟨_, .refl _, .head (show 1 ≤ 4 by omega) (by omega), hexit⟩
  | 1, _ =>
    obtain rfl := Option.some.inj hnext
    exact ⟨_, .refl _, .head (show 2 ≤ 4 by omega) (by omega), hexit⟩
  | 2, _ =>
    obtain rfl := Option.some.inj hnext
    exact ⟨_, .refl _, .head (show 3 ≤ 4 by omega) (by omega), hexit⟩
  | 3, _ =>
    have htruthy := hcounts.le_zero n l.zero h.zero
    change Config.next? names before ⟨l.head, .raw l.loop.offset (.branchTrue l.loop.exit) ::
      l.oldHead.drop 4, w.binary .le (num n) (w.constant l.zero) :: num n :: base, r⟩ = some d at hnext
    by_cases hzero : n ≤ 0
    · rw [decide_eq_true hzero] at htruthy
      rw [Config.next?_of_truthy htruthy, (h.enter_exit hwf hwf' _).1, Option.some.injEq] at hnext
      subst hnext
      exact ⟨_, (h.reaches_headEnd hwf').trans (h.reaches_exit hwf hwf' hreserves hcounts hzero), .exit,
        fun _ => hzero⟩
    · rw [decide_eq_false hzero] at htruthy
      rw [Config.next?_of_not_truthy htruthy, Option.some.injEq] at hnext
      subst hnext
      exact ⟨_, .refl _, .head (le_refl 4) (fun _ => not_le.mp hzero), hexit⟩
  | 4, _ =>
    obtain ⟨d', hreaches, halike⟩ := h.reaches_body hwf hwf' hreserves hcounts (hn rfl) hlands hnext
    exact ⟨d', (h.reaches_headEnd hwf').trans hreaches, halike,
      fun heq => absurd heq (h.label_ne_exit_of_body hnext)⟩

/-- The tail's own operations after the first one.  The edited loop takes its steps when the counter has been
counted down and tested. -/
lemma Turns.step_turn (hstep : l.step.step.integer? = some 1) {i : Nat} (hn : 0 ≤ n)
    (hi : 1 ≤ i ∧ i ≤ 4) (hzero : i = 4 → n = 0)
    (hnext : Config.next? names before ⟨l.tail, l.oldTail.drop i, l.tailStack num n i ++ base, r⟩ = some d)
    (hlands : l.lands (base.length + 1) d = true) :
    ∃ d', Reaches names after (l.shows l.ownNew) []
        ⟨l.tail, l.newTail.drop 1, num (n + 1) :: base, r.hold l.counter (num (n + 1))⟩ d' ∧
      l.Alike num base n d d' ∧ (d.label = l.loop.exit → n ≤ 0) := by
  have hexit : l.tail = l.loop.exit → n ≤ 0 := fun heq => absurd heq.symm h.exit_ne_tail
  have hcount : Reaches names after (l.shows l.ownNew) []
      ⟨l.tail, l.newTail.drop 1, num (n + 1) :: base, r.hold l.counter (num (n + 1))⟩
      (l.startTest base (r.hold l.counter (num n))) :=
    h.reaches_tailEnd hwf' hreserves hcounts hstep hn
  match i, hi with
  | 1, _ =>
    have hstage : Config.next? names before
        ⟨l.tail, l.oldTail.drop 1, w.constant l.step.step :: num (n + 1) :: base, r⟩ =
          some ⟨l.tail, l.oldTail.drop 2, num n :: base, r⟩ := by
      rw [← hcounts.sub_succ hn hstep]
      rfl
    obtain rfl := Option.some.inj (hstage.symm.trans hnext)
    exact ⟨_, .refl _, .turn hn (show 1 ≤ 2 ∧ 2 ≤ 4 by omega) (by omega), hexit⟩
  | 2, _ =>
    obtain rfl := Option.some.inj hnext
    exact ⟨_, .refl _, .turn hn (show 1 ≤ 3 ∧ 3 ≤ 4 by omega) (by omega), hexit⟩
  | 3, _ =>
    have htruthy := hcounts.truthy n hn
    change Config.next? names before ⟨l.tail, .raw (l.offset 5) (.branchTrue l.loop.body) ::
      l.oldTail.drop 4, num n :: num n :: base, r⟩ = some d at hnext
    by_cases hzero : n = 0
    · rw [decide_eq_false (not_not.mpr hzero)] at htruthy
      rw [Config.next?_of_not_truthy htruthy, Option.some.injEq] at hnext
      subst hnext
      exact ⟨_, .refl _, .turn hn (show 1 ≤ 4 ∧ 4 ≤ 4 by omega) (fun _ => hzero), hexit⟩
    · rw [decide_eq_true hzero] at htruthy
      rw [Config.next?_of_truthy htruthy] at hnext
      obtain ⟨d', hreaches, halike⟩ :=
        h.reaches_body hwf hwf' hreserves hcounts (by omega) hlands hnext
      exact ⟨d', hcount.trans hreaches, halike, fun heq => absurd heq (h.label_ne_exit_of_body hnext)⟩
  | 4, _ =>
    change Config.enter? before ⟨l.tail, [.goto l.loop.exit], num n :: base, r⟩ l.loop.exit = some d
      at hnext
    rw [(h.enter_exit hwf hwf' _).1, Option.some.injEq] at hnext
    subst hnext
    have hdone : n ≤ 0 := (hzero rfl).le
    exact ⟨_, hcount.trans (h.reaches_exit hwf hwf' hreserves hcounts hdone), .exit, fun _ => hdone⟩

omit hwf hwf' hcounts in
/-- The first of the tail's own operations. -/
lemma Turns.step_tail (hn : 0 < n)
    (hnext : Config.next? names before ⟨l.tail, l.oldTail, num n :: base, r⟩ = some d) :
    ∃ d', Reaches names after (l.shows l.ownNew) [.round]
        ⟨l.tail, l.newTail, base, r.hold l.counter (num n)⟩ d' ∧
      l.Alike num base (n - 1) d d' ∧ d.label ≠ l.loop.exit := by
  obtain rfl := Option.some.inj hnext
  have hread : Config.next? names after ⟨l.tail, l.newTail, base, r.hold l.counter (num n)⟩ =
      some ⟨l.tail, l.newTail.drop 1, num n :: base, r.hold l.counter (num n)⟩ := by
    simp only [newTail, Config.next?, operate, stackStep, Run.hold, Run.write, hreserves.read_own]
    rfl
  have hround : l.shows l.ownNew (⟨l.tail, l.newTail, base, r.hold l.counter (num n)⟩ : Config w) =
      [.round] := shows_atTail (by simp [atTail, newTail, oldTail])
  have hreaches : Reaches names after (l.shows l.ownNew) [.round]
      ⟨l.tail, l.newTail, base, r.hold l.counter (num n)⟩
      ⟨l.tail, l.newTail.drop 1, num n :: base, r.hold l.counter (num n)⟩ := by
    rw [← hround]
    exact .single hread
  refine ⟨_, hreaches, ?_, h.exit_ne_tail.symm⟩
  have hturn : l.Alike num base (n - 1)
      ⟨l.tail, l.oldTail.drop 1, w.constant l.step.step :: num (n - 1 + 1) :: base, r⟩
      ⟨l.tail, l.newTail.drop 1, num (n - 1 + 1) :: base, r.hold l.counter (num (n - 1 + 1))⟩ :=
    .turn (by omega) (show 1 ≤ 1 ∧ 1 ≤ 4 by omega) (by omega)
  rw [sub_add_cancel] at hturn
  exact hturn

end

/-! ### Whole runs -/

/-- Where a careful step ends. -/
lemma lands_of_careful {breaks : Bool} {height : Nat} (hcareful : l.careful breaks height c d = true) :
    l.lands height d = true :=
  (Bool.and_eq_true_iff.mp hcareful).2

/-- A careful step is not behind the exit. -/
lemma label_ne_exit_of_careful {breaks : Bool} {height : Nat}
    (hcareful : l.careful breaks height c d = true) : c.label ≠ l.loop.exit := by
  simp only [careful, untouched, Bool.and_eq_true, bne_iff_ne] at hcareful
  exact hcareful.1.1.1

/-- Only the tail's own operations are a round. -/
lemma rounds_shows_of_not_own (hown : l.own c = false) : rounds (l.shows l.own c) = 0 := by
  simp only [shows, hown, atTail_of_own hown, Bool.false_eq_true, if_false]
  split
  · rfl
  · rfl

section

variable {before after : List BasicBlock} {bound bound' : Nat} {names : Names} (h : l.Turns before after)
  (hwf : WellFormed bound before) (hwf' : WellFormed bound' after) (hreserves : w.Reserves l.counter)
  (hcounts : w.Counts num) (hstep : l.step.step.integer? = some 1) {breaks : Bool}
include h hwf hwf' hreserves hcounts hstep

/-- What a step of the loop does, the edited loop does as well. -/
theorem Turns.step (halike : l.Alike num base n c c') (hnext : c.next? names before = some d)
    (hcareful : l.careful breaks (base.length + 1) c d = true) :
    ∃ n' d', Reaches names after (l.shows l.ownNew) (l.shows l.own c) c' d' ∧
      l.Alike num base n' d d' ∧ n.toNat = rounds (l.shows l.own c) + n'.toNat ∧
      (breaks = false → d.label = l.loop.exit → n' ≤ 0) := by
  have hlands := lands_of_careful hcareful
  cases halike with
  | @head i r hi hn =>
    have hquiet : l.shows l.own (⟨l.head, l.oldHead.drop i, l.headStack num n i ++ base, r⟩ : Config w) =
        [] := shows_own (by simp [own]) (by simp [atTail, h.tail_ne_head.symm])
    obtain ⟨d', hreaches, halike, hexit⟩ :=
      h.step_head hwf hwf' hreserves hcounts hi hn hnext hlands
    rw [hquiet]
    exact ⟨n, d', hreaches, halike, (Nat.zero_add _).symm, fun _ => hexit⟩
  | outside hn hrest hown =>
    obtain ⟨d', hnext', halike, hshows⟩ :=
      h.step_outside hwf hwf' hreserves hn hrest hown hnext hcareful
    refine ⟨n, d', hshows ▸ .single hnext', halike, ?_, ?_⟩
    · rw [rounds_shows_of_not_own hown, Nat.zero_add]
    · -- Without breaks only the loop's own operations go to the exit.
      intro hbreaks hexit
      simp [careful, hown, hbreaks, hexit] at hcareful
  | @tail r hn =>
    have hround : l.shows l.own (⟨l.tail, l.oldTail, num n :: base, r⟩ : Config w) = [.round] :=
      shows_atTail (by simp [atTail])
    obtain ⟨d', hreaches, halike, hexit⟩ := h.step_tail hreserves hn hnext
    rw [hround]
    refine ⟨n - 1, d', hreaches, halike, ?_, fun _ heq => absurd heq hexit⟩
    change n.toNat = 1 + (n - 1).toNat
    omega
  | @turn i r hn hi hzero =>
    have hquiet : l.shows l.own (⟨l.tail, l.oldTail.drop i, l.tailStack num n i ++ base, r⟩ : Config w) =
        [] := by
      refine shows_own (by simp [own]) ?_
      simp only [atTail, oldTail, List.length_drop, List.length_cons, List.length_nil, beq_self_eq_true,
        Bool.true_and, beq_eq_false_iff_ne]
      omega
    obtain ⟨d', hreaches, halike, hexit⟩ :=
      h.step_turn hwf hwf' hreserves hcounts hstep hn hi hzero hnext hlands
    rw [hquiet]
    exact ⟨n, d', hreaches, halike, (Nat.zero_add _).symm, fun _ => hexit⟩
  | exit => exact absurd rfl (label_ne_exit_of_careful hcareful)

/-- What a run of the loop does, the edited loop does as well. -/
theorem Turns.run {steps : Nat} {log : List (Event w)}
    (hrun : run? names before (l.shows l.own) (l.careful breaks (base.length + 1)) steps c = some (log, d))
    (halike : l.Alike num base n c c') :
    ∃ n' d', Reaches names after (l.shows l.ownNew) log c' d' ∧ l.Alike num base n' d d' ∧
      n.toNat = rounds log + n'.toNat ∧
      (breaks = false → (c.label = l.loop.exit → n ≤ 0) → d.label = l.loop.exit → n' ≤ 0) := by
  -- The runs stay side by side from step to step, and the rounds that are left make up for those seen.
  induction steps generalizing n c c' log with
  | zero =>
    obtain ⟨rfl, rfl⟩ := Prod.mk.inj (Option.some.inj hrun)
    exact ⟨n, c', .refl c', halike, (Nat.zero_add _).symm, fun _ hexit => hexit⟩
  | succ steps ih =>
    obtain ⟨middle, rest, hnext, hcareful, hrest, rfl⟩ := exists_of_run?_succ hrun
    obtain ⟨n', middle', hreaches, halike, hrounds, hexit⟩ :=
      h.step hwf hwf' hreserves hcounts hstep halike hnext hcareful
    obtain ⟨n'', d', hreaches', halike', hrounds', hexit'⟩ := ih hrest halike
    refine ⟨n'', d', hreaches.trans hreaches', halike', ?_, fun hbreaks _ => ?_⟩
    · rw [hrounds, hrounds', rounds, rounds, rounds, List.countP_append, Nat.add_assoc]
    · exact hexit' hbreaks (hexit hbreaks)

end

/-- At the exit the counter is the only difference. -/
lemma Turns.exit_of_alike {before after : List BasicBlock} (h : l.Turns before after)
    (halike : l.Alike num base n c c') (hexit : c.label = l.loop.exit) (names : Names) :
    ∃ d, c.next? names before = some d ∧ c' = { d with run := d.run.hold l.counter (num n) } := by
  cases halike with
  | head => exact absurd hexit.symm h.exit_ne_head
  | outside hn hrest hown =>
    cases hrest with
    | same hlabel =>
      simp only [List.mem_cons, not_or] at hlabel
      exact absurd hexit hlabel.2.2.1
    | head => exact absurd hexit.symm h.exit_ne_head
    | tail => exact absurd hexit.symm h.exit_ne_tail
  | tail | turn => exact absurd hexit.symm h.exit_ne_tail
  | exit => exact ⟨_, rfl, rfl⟩

end Layout

section

variable {site : Site} {blocks : List BasicBlock} {context : Context} {found : Match}
  {num : Int → w.Value}

/-- Where the rule for counted loops finds a loop that counts down by one, its edit is carried out, and every
careful run of the loop, from the head's own operations to the exit, has its counterpart in the edited loop:
it shows the same operations and the same rounds and comes to the same place.  At the exit, when its first
operation has taken the counter away, the stacks are the same, and the memories but for the temporary; and
when only the loop itself goes to the exit, there have been as many rounds as the counter said. -/
theorem exists_alike_run (hwf : WellFormed context.labels.names.length blocks) (hsite : site.IsAt blocks)
    (hfound : match? site = some found) (hstep : found.tail.step.integer? = some 1)
    (hreserves : w.Reserves (counterName context)) (hcounts : w.Counts num) (names : Names) :
    ∃ edit context' after resume,
      edit? site context = (some edit, context') ∧ edit.apply blocks site.pos = .ok (after, resume) ∧
      (∃ l : Layout, l.Of site found context) ∧
      ∀ l : Layout, l.Of site found context →
        ∀ (n : Int) (base : List w.Value) (r : Run w) (breaks : Bool) (steps : Nat)
          (log : List (Event w)) (c : Config w),
          run? names blocks (l.shows l.own) (l.careful breaks (base.length + 1)) steps
              (l.start (num n :: base) r) = some (log, c) →
            ∃ (left : Int) (c' : Config w),
              Reaches names after (l.shows l.ownNew) log (l.startNew (num n :: base) r) c' ∧
              l.Alike num base left c c' ∧ rounds log + left.toNat = n.toNat ∧
              (c.label = l.loop.exit → ∃ d, c.next? names blocks = some d ∧
                c' = { d with run := d.run.hold l.counter (num left) }) ∧
              (breaks = false → c.label = l.loop.exit → rounds log = n.toNat) := by
  obtain ⟨name, counters, hedit⟩ := edit?_of_match? context hfound
  obtain ⟨l, hl⟩ := exists_layout hwf hsite hfound
  have hfits := fits hwf hsite hl.head rfl hedit
  obtain ⟨after, resume, happly⟩ := hfits.apply_ok hwf hsite.head_eq hl.head
  obtain ⟨replaced, removed, happ⟩ := Edit.apply_eq_ok happly
  have hwf' := happ.wellFormed hwf hfits hsite.head_eq hl.head
  refine ⟨_, _, after, resume, hedit, happly, ⟨l, hl⟩, ?_⟩
  intro l hl n base r breaks steps log c hrun
  have h := hl.turns hwf hsite hfound happly
  have hstart : l.Alike num base n (l.start (num n :: base) r) (l.startNew (num n :: base) r) :=
    .head (Nat.zero_le 4) (by omega)
  obtain ⟨left, c', hreaches, halike, hrounds, hexit⟩ :=
    h.run hwf hwf' (hl.counter ▸ hreserves) hcounts (hl.step ▸ hstep) hrun hstart
  refine ⟨left, c', hreaches, halike, hrounds.symm, fun hlabel => h.exit_of_alike halike hlabel names, ?_⟩
  intro hbreaks hlabel
  have hleft := hexit hbreaks (fun heq => absurd heq.symm h.exit_ne_head) hlabel
  omega

end

/-! ### Loops of integers -/

/-- A machine of integers, in which a call gives the sum of its arguments. -/
def plainWorld : World where
  Value := Int
  Instance := Int
  Memory := Location Int Int → Int
  undefined := 0
  constant c := c.integer?.getD 0
  unary op a :=
    match op with
    | .not => if a = 0 then 1 else 0
    | .neg => -a
  binary := integerBinary
  truthy a := a != 0
  equal a b := a == b
  instanceOf a := a
  named name := name.length
  read p memory := memory p
  write p v memory := Function.update memory p v
  call _ args memory := (args.sum, memory)
  enter _ memory := (false, memory)
  leave memory := (false, memory)

/-- The integers count. -/
lemma plainWorld_counts : plainWorld.Counts id where
  le_zero n c hc := by
    by_cases hn : n ≤ 0 <;> simp [plainWorld, integerBinary, hc, hn]
  sub_one n c _ hc := by simp [plainWorld, integerBinary, hc]
  truthy n _ := by
    by_cases hn : n = 0 <;> simp [plainWorld, hn]

/-- A temporary is a variable of its own. -/
lemma plainWorld_reserves (name : String) : plainWorld.Reserves name where
  read_own (v : Int) (m : Location Int Int → Int) := by
    change Function.update m (.temporary name) v (.temporary name) = v
    exact Function.update_self ..
  write_own (u v : Int) (m : Location Int Int → Int) := by
    change Function.update (Function.update m _ u) _ v = Function.update m (.temporary name) v
    exact Function.update_idem ..
  read_other (p : Location Int Int) (v : Int) (m : Location Int Int → Int) hp := by
    have hne : p ≠ .temporary name := fun heq => hp (heq ▸ rfl)
    change Function.update m (.temporary name) v p = m p
    exact Function.update_of_ne hne ..
  write_other (p : Location Int Int) (u v : Int) (m : Location Int Int → Int) hp := by
    have hne : .temporary name ≠ p := fun heq => hp (heq ▸ rfl)
    change Function.update (Function.update m (.temporary name) v) p u =
      Function.update (Function.update m p u) (.temporary name) v
    exact Function.update_comm hne ..
  call _ _ _ _ := rfl
  enter _ _ _ := rfl
  leave _ _ := rfl

/-- The head of a loop with two rounds. -/
def twice : BasicBlock where
  body := [.label 0, .raw 0 (.push (.int 2)), .raw 1 (.dup 0), .raw 2 (.push (.int 0)), .raw 3 (.binary .le),
    .raw 4 (.branchTrue 2), .goto 1]

/-- The body of a loop, which counts at its end. -/
def bodyOf (stmts : List Stmt) : BasicBlock where
  body := .label 1 :: (stmts ++ [.raw 7 (.push (.int 1)), .raw 8 (.binary .sub), .raw 9 (.dup 0),
    .raw 10 (.branchTrue 1), .goto 2])

/-- The exit of a loop. -/
def afterLoop : BasicBlock where
  body := [.label 2, .raw 11 .popz, .exit]

/-- A loop of three blocks. -/
def loopOf (stmts : List Stmt) : List BasicBlock :=
  [twice, bodyOf stmts, afterLoop]

/-- The place of such a loop. -/
def siteOf (stmts : List Stmt) : Site :=
  ⟨.ofBlocks (loopOf stmts), 0, twice⟩

/-- What the rule finds there. -/
def matchOf (stmts : List Stmt) : Match where
  head := { exit := 2, body := 1, offset := 4 }
  tailBlock := bodyOf stmts
  tail := { step := .int 1, offset := 7 }
  exitBlock := afterLoop

/-- The code of such a loop. -/
def layoutOf (stmts : List Stmt) : Layout where
  head := 0
  tail := 1
  minted := 3
  counter := "repeat_0"
  loop := { exit := 2, body := 1, offset := 4 }
  step := { step := .int 1, offset := 7 }
  zero := .int 0
  headInit := [.label 0, .raw 0 (.push (.int 2))]
  tailInit := .label 1 :: stmts
  exitRest := [.exit]
  offset := fun i => [1, 2, 3, 8, 9, 10, 11].getD i 0

/-- A number of labels. -/
def labelled (count : Nat) : Context where
  labels := ⟨List.replicate count "label", []⟩
  diagnostics := ⟨"unit", []⟩

/-- The layout is the one of the loop. -/
lemma layoutOf_of (stmts : List Stmt) : (layoutOf stmts).Of (siteOf stmts) (matchOf stmts) (labelled 3) where
  head := rfl
  head_body := rfl
  tail := rfl
  tail_body := rfl
  exit_body := rfl
  loop := rfl
  step := rfl
  counter := rfl
  minted := rfl

/-- A number on the stack. -/
def counted (n : Int) : List plainWorld.Value :=
  [n]

/-- A run that starts with an empty memory. -/
def blank : Run plainWorld :=
  ⟨fun _ => (0 : Int), []⟩

/-- What can be told of a run: the rounds, where it is, the stack, and the calls. -/
def summary (x : List (Event plainWorld) × Config plainWorld) :
    Nat × LabelId × List Int × List (String × List Int) :=
  (rounds x.1, x.2.label, x.2.stack, x.2.run.calls)

/-- A body that stores a value. -/
def storing : List Stmt :=
  [.raw 5 (.push (.int 7)), .raw 6 (.pop ⟨"x", -1, false⟩ false)]

/-- The two rounds of a loop that stores a value. -/
theorem storing_alike :
    WellFormed 3 (loopOf storing) ∧ ∃ edit context' after resume log c d left c',
      edit? (siteOf storing) (labelled 3) = (some edit, context') ∧
      edit.apply (loopOf storing) 0 = .ok (after, resume) ∧
      run? {} (loopOf storing) ((layoutOf storing).shows (layoutOf storing).own)
        ((layoutOf storing).careful false 1) 18 ((layoutOf storing).start (counted 2) blank) =
          some (log, c) ∧
      Reaches {} after ((layoutOf storing).shows (layoutOf storing).ownNew) log
        ((layoutOf storing).startNew (counted 2) blank) c' ∧
      rounds log = 2 ∧ c.next? {} (loopOf storing) = some d ∧
      c' = { d with run := d.run.hold "repeat_0" left } := by
  have hwf : WellFormed (labelled 3).labels.names.length (loopOf storing) := by decide
  have hfound : match? (siteOf storing) = some (matchOf storing) := rfl
  obtain ⟨edit, context', after, resume, hedit, happly, -, hruns⟩ :=
    exists_alike_run hwf ⟨rfl, rfl⟩ hfound rfl (plainWorld_reserves _) plainWorld_counts {}
  have hrun : (run? {} (loopOf storing) ((layoutOf storing).shows (layoutOf storing).own)
      ((layoutOf storing).careful false 1) 18 ((layoutOf storing).start (counted 2) blank)).map summary =
        some (2, 2, [0], []) := rfl
  obtain ⟨⟨log, c⟩, hrun, hsummary⟩ := Option.map_eq_some_iff.mp hrun
  simp only [summary, Prod.mk.injEq] at hsummary
  obtain ⟨left, c', hreaches, -, -, hexit, -⟩ :=
    hruns (layoutOf storing) (layoutOf_of storing) 2 [] blank false 18 log c hrun
  obtain ⟨d, hnext, hrest⟩ := hexit hsummary.2.1
  exact ⟨hwf, edit, context', after, resume, log, c, d, left, c', hedit, happly, hrun, hreaches,
    hsummary.1, hnext, hrest⟩

/-- A body that leaves a value above the counter. -/
def leaving : List Stmt :=
  [.raw 5 (.push (.int 1))]

/-- A body that reads the temporary. -/
def reading : List Stmt :=
  [.raw 5 (.pushTemporary "repeat_0"), .raw 6 (.call "f" 1), .raw 6 .popz]

/-- A loop that goes to its own head in each round, with another value. -/
def restarting : List BasicBlock :=
  [{ body := [.label 0, .raw 1 (.dup 0), .raw 2 (.push (.int 0)), .raw 3 (.binary .le),
      .raw 4 (.branchTrue 2), .goto 1] },
    { body := [.label 1, .raw 12 (.pushVar ⟨"again", -1, false⟩), .raw 13 (.branchTrue 4), .goto 3] },
    afterLoop,
    { body := [.label 3, .raw 14 (.push (.int 1)), .raw 15 (.pop ⟨"again", -1, false⟩ false),
      .raw 16 (.push (.int 9)), .goto 0] },
    { body := [.label 4, .raw 17 (.push (.int 0)), .raw 18 (.pop ⟨"again", -1, false⟩ false),
      .raw 19 .popz, .goto 5] },
    { body := [.label 5, .raw 7 (.push (.int 1)), .raw 8 (.binary .sub), .raw 9 (.dup 0),
      .raw 10 (.branchTrue 1), .goto 2] }]

/-- The place of that loop. -/
def restartingSite : Site :=
  ⟨.ofBlocks restarting, 0, restarting[0]⟩

/-- The code of that loop. -/
def restartingLayout : Layout :=
  { layoutOf [] with tail := 5, minted := 6, headInit := [.label 0], tailInit := [.label 5] }

/-- What a run comes to in which the code in the loop leaves the counter alone and does not write the
temporary. -/
def runBefore (l : Layout) (site : Site) (steps : Nat) (n : Int) :
    Option (Nat × LabelId × List Int × List (String × List Int)) :=
  (run? {} site.blocks (l.shows l.own) (l.untouched 1) steps (l.start (counted n) blank)).map summary

/-- What a run comes to after the edit. -/
def runAfter (l : Layout) (site : Site) (context : Context) (steps : Nat) (n : Int) :
    Option (Nat × LabelId × List Int × List (String × List Int)) := do
  let edit ← (edit? site context).1
  let (after, _) ← (edit.apply site.blocks site.pos).toOption
  (run? {} after (l.shows l.ownNew) (fun c _ => c.label != l.loop.exit) steps
    (l.startNew (counted n) blank)).map summary

/-- It is not enough that the code in the loop leaves the counter alone and does not write the temporary.  A
value above the counter is counted down in its place; what is read from the temporary shows; and the head
takes the top value for its counter. -/
theorem runs_differ :
    (WellFormed 3 (loopOf leaving) ∧ match? (siteOf leaving) = some (matchOf leaving) ∧
      runBefore (layoutOf leaving) (siteOf leaving) 11 2 = some (1, 2, [0, 2], []) ∧
      runAfter (layoutOf leaving) (siteOf leaving) (labelled 3) 28 2 = some (2, 2, [1, 1], [])) ∧
    (WellFormed 3 (loopOf reading) ∧ match? (siteOf reading) = some (matchOf reading) ∧
      runBefore (layoutOf reading) (siteOf reading) 13 1 = some (1, 2, [0], [("f", [0])]) ∧
      runAfter (layoutOf reading) (siteOf reading) (labelled 3) 19 1 = some (1, 2, [], [("f", [1])])) ∧
    WellFormed 6 restarting ∧ (match? restartingSite).map (fun found => found.tail.step) = some (.int 1) ∧
      runBefore restartingLayout restartingSite 28 1 = some (1, 2, [0], []) ∧
      runAfter restartingLayout restartingSite (labelled 6) 25 1 = some (0, 4, [], []) ∧
      runAfter restartingLayout restartingSite (labelled 6) 26 1 = none :=
  ⟨⟨by decide, rfl, rfl, rfl⟩, ⟨by decide, rfl, rfl, rfl⟩, by decide, rfl, rfl, rfl, rfl⟩

end CountedLoop

end Decompiler
