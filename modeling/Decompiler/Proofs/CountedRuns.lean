import Decompiler.Proofs.BlockRuns
import Decompiler.Proofs.CountedCode

/-!
# Runs of counted loops

A counted loop keeps its counter on the stack, below all that the body puts there, and after the edit in a
temporary.  The two runs go side by side (`Layout.Alike`): while the body runs, the one stack is the other
without the counter, and the temporary holds it (`Layout.Turns.step_outside`); the loop's own operations,
which differ, come in between.

This asks of the body that it leaves the counter and the temporary alone (`Layout.untouched`).  But that is
not enough: the end of the tail counts down the value on top of the stack, and the exit takes the top value
off, and so the counter must be on top there (`Layout.careful`).
-/

namespace Decompiler

open Bytecode

namespace StackMachine

variable {w : World} {blocks : List BasicBlock} {label : LabelId} {stmts : List Stmt} {c d : Config w}

/-- Integers among the values of a machine. -/
structure World.Counts (w : World) (num : Int → w.Value) : Prop where
  le_zero : ∀ n c, c.integer? = some 0 →
    w.truthy (w.binary .le (num n) (w.constant c)) = decide (n ≤ 0)
  sub_one : ∀ n c, 0 < n → c.integer? = some 1 → w.binary .sub (num n) (w.constant c) = num (n - 1)
  truthy : ∀ n, 0 ≤ n → w.truthy (num n) = decide (n ≠ 0)

/-- Counting down to a number that is not negative. -/
lemma World.Counts.sub_succ {num : Int → w.Value} (h : w.Counts num) {n : Int} {one : Constant}
    (hn : 0 ≤ n) (hone : one.integer? = some 1) :
    w.binary .sub (num (n + 1)) (w.constant one) = num n := by
  rw [h.sub_one _ _ (by omega) hone, add_sub_cancel_right]

/-- What a label finds is the block with that label. -/
lemma bodyOf?_eq_some (h : bodyOf? blocks label = some stmts) : BodyOf blocks label stmts := by
  obtain ⟨block, hblock, rfl⟩ := Option.map_eq_some_iff.mp h
  exact ⟨block, List.mem_of_find?_eq_some hblock, by simpa using List.find?_some hblock, rfl⟩

/-- A label finds its block. -/
lemma bodyOf?_of_bodyOf {bound : Nat} (hwf : WellFormed bound blocks) (h : BodyOf blocks label stmts) :
    bodyOf? blocks label = some stmts := by
  obtain ⟨block, hblock, hlabel, -⟩ := id h
  have hfind : (bodyOf? blocks label).isSome := by
    rw [bodyOf?, Option.isSome_map, List.find?_isSome]
    exact ⟨block, hblock, by simp [hlabel]⟩
  obtain ⟨stmts', hstmts'⟩ := Option.isSome_iff_exists.mp hfind
  rw [hstmts', hwf.bodyOf_unique (bodyOf?_eq_some hstmts') h]

/-- Where a run goes on behind a label. -/
lemma Config.enter?_eq_some (h : c.enter? blocks label = some d) :
    ∃ stmts, BodyOf blocks label stmts ∧ d = { c with label, rest := stmts.tail } := by
  obtain ⟨stmts, hstmts, rfl⟩ := Option.map_eq_some_iff.mp h
  exact ⟨stmts, bodyOf?_eq_some hstmts, rfl⟩

/-- A run goes on behind a label of the list. -/
lemma Config.enter?_of_bodyOf {bound : Nat} (hwf : WellFormed bound blocks)
    (h : BodyOf blocks label stmts) (c : Config w) :
    c.enter? blocks label = some { c with label, rest := stmts.tail } := by
  rw [Config.enter?, bodyOf?_of_bodyOf hwf h]
  rfl

end StackMachine

namespace CountedLoop

open StackMachine

variable {w : World}

/-- What is seen of a run: the operations that are not the loop's own, with the values that they take, and
the rounds. -/
inductive Event (w : World) where
  | op (stmt : Stmt) (operands : List w.Value)
  | round

/-- Whether a round is seen. -/
def Event.isRound : Event w → Bool
  | .round => true
  | .op _ _ => false

/-- The number of rounds. -/
def rounds (log : List (Event w)) : Nat :=
  log.countP Event.isRound

namespace Layout

variable (l : Layout)

/-! ### Runs -/

/-- The run is at the start of the head's own operations. -/
def atHead (c : Config w) : Bool :=
  c.label == l.head && c.rest.length == l.oldHead.length

/-- The run is at the start of the tail's own operations. -/
def atTail (c : Config w) : Bool :=
  c.label == l.tail && c.rest.length == l.oldTail.length

/-- The run is at the loop's own operations. -/
def own (c : Config w) : Bool :=
  c.label == l.head && c.rest.length ≤ l.oldHead.length ||
    c.label == l.tail && c.rest.length ≤ l.oldTail.length

/-- The run is at the own operations of the loop after the edit. -/
def ownNew (c : Config w) : Bool :=
  c.label == l.head && c.rest.length ≤ l.newHead.length ||
    c.label == l.tail && c.rest.length ≤ l.newTail.length || c.label == l.minted

/-- What is seen of a step, where the loop's own operations are given. -/
def shows (own : Config w → Bool) (c : Config w) : List (Event w) :=
  if l.atTail c then [.round]
  else if own c then []
  else
    match c.rest with
    | s :: _ => [.op s (c.stack.take (popped s))]
    | [] => []

/-- The next operation leaves the lowest `height` values on the stack alone, and it does not write the
temporary. -/
def spares (height : Nat) (c : Config w) : Bool :=
  match c.rest with
  | s :: _ =>
    decide (popped s + height ≤ c.stack.length) &&
      match s with
      | .raw _ (.popTemporary name) => name != l.counter
      | _ => true
  | [] => true

/-- The next operation does not read the temporary. -/
def ignores (c : Config w) : Bool :=
  match c.rest with
  | .raw _ (.pushTemporary name) :: _ => name != l.counter
  | _ => true

/-- The stack has `height` values where the tail counts down and at the exit, and the run is not at the start
of the head's own operations. -/
def lands (height : Nat) (d : Config w) : Bool :=
  !l.atHead d && (!(l.atTail d || d.label == l.loop.exit) || d.stack.length == height)

/-- A step of a run that has not come to the exit, in which the code in the loop leaves the counter, the
highest of `height` values, and the temporary alone. -/
def untouched (height : Nat) (c _ : Config w) : Bool :=
  c.label != l.loop.exit && (l.own c || l.spares height c)

/-- A step that can also be done with the counter in the temporary.  Only with `breaks` the code in the loop
may go to the exit by itself. -/
def careful (breaks : Bool) (height : Nat) (c d : Config w) : Bool :=
  l.untouched height c d && (l.own c || l.ignores c && (breaks || d.label != l.loop.exit)) &&
    l.lands height d

/-- The loop starts with a value on top of the stack. -/
def start (stack : List w.Value) (run : Run w) : Config w :=
  { label := l.head, rest := l.oldHead, stack, run }

/-- The edited loop starts with a value on top of the stack. -/
def startNew (stack : List w.Value) (run : Run w) : Config w :=
  { label := l.head, rest := l.newHead, stack, run }

/-- The edited loop is behind the label of the new block. -/
def startTest (stack : List w.Value) (run : Run w) : Config w :=
  { label := l.minted, rest := (testBlock l.loop l.counter l.minted).body.tail, stack, run }

/-! ### Runs side by side -/

/-- What is left of a block before and after the edit. -/
inductive Beside : LabelId → List Stmt → List Stmt → Prop where
  | same {label : LabelId} {rest : List Stmt} (h : label ∉ [l.head, l.tail, l.loop.exit, l.minted]) :
      Beside label rest rest
  | head (more : List Stmt) : Beside l.head (more ++ l.oldHead) (more ++ l.newHead)
  | tail (more : List Stmt) : Beside l.tail (more ++ l.oldTail) (more ++ l.newTail)

variable (num : Int → w.Value) (base : List w.Value)

/-- The values on the stack after some of the head's own operations. -/
def headStack (n : Int) : Nat → List w.Value
  | 1 => [num n, num n]
  | 2 => [w.constant l.zero, num n, num n]
  | 3 => [w.binary .le (num n) (w.constant l.zero), num n]
  | _ => [num n]

/-- The values on the stack after some of the tail's own operations, when `n` rounds are left. -/
def tailStack (n : Int) : Nat → List w.Value
  | 1 => [w.constant l.step.step, num (n + 1)]
  | 3 => [num n, num n]
  | _ => [num n]

/-- The runs of a loop before and after the edit, with a value of the counter.  In the head's own operations
the edited loop waits for the other one (`head`), and in the tail's own operations from the second one on
(`turn`), where the temporary still holds the old value. -/
inductive Alike : Int → Config w → Config w → Prop where
  | head {n : Int} {i : Nat} {r : Run w} (hi : i ≤ 4) (hn : i = 4 → 0 < n) :
      Alike n ⟨l.head, l.oldHead.drop i, l.headStack num n i ++ base, r⟩
        ⟨l.head, l.newHead, num n :: base, r⟩
  | outside {n : Int} {label : LabelId} {rest rest' : List Stmt} {above : List w.Value} {r : Run w}
      (hn : 0 < n) (hrest : l.Beside label rest rest')
      (hown : l.own ⟨label, rest, above ++ num n :: base, r⟩ = false) :
      Alike n ⟨label, rest, above ++ num n :: base, r⟩
        ⟨label, rest', above ++ base, r.hold l.counter (num n)⟩
  | tail {n : Int} {r : Run w} (hn : 0 < n) :
      Alike n ⟨l.tail, l.oldTail, num n :: base, r⟩ ⟨l.tail, l.newTail, base, r.hold l.counter (num n)⟩
  | turn {n : Int} {i : Nat} {r : Run w} (hn : 0 ≤ n) (hi : 1 ≤ i ∧ i ≤ 4) (hzero : i = 4 → n = 0) :
      Alike n ⟨l.tail, l.oldTail.drop i, l.tailStack num n i ++ base, r⟩
        ⟨l.tail, l.newTail.drop 1, num (n + 1) :: base, r.hold l.counter (num (n + 1))⟩
  | exit {n : Int} {r : Run w} :
      Alike n ⟨l.loop.exit, .raw (l.offset 6) .popz :: l.exitRest, num n :: base, r⟩
        ⟨l.loop.exit, l.exitRest, base, r.hold l.counter (num n)⟩

variable {l num base} {n : Int} {label label' target : LabelId} {rest rest' stmts : List Stmt} {s : Stmt}
  {above : List w.Value} {r : Run w} {c c' d : Config w}

/-- The next operation outside the loop's own ones, as it is seen. -/
lemma shows_cons {own : Config w → Bool} (hcode : c.rest = s :: rest) (hown : own c = false)
    (htail : l.atTail c = false) : l.shows own c = [.op s (c.stack.take (popped s))] := by
  simp [shows, hcode, hown, htail]

/-- The loop's own operations are not seen. -/
lemma shows_own {own : Config w → Bool} (hown : own c = true) (htail : l.atTail c = false) :
    l.shows own c = [] := by
  simp [shows, hown, htail]

/-- The start of the tail's own operations is seen as a round. -/
lemma shows_atTail {own : Config w → Bool} (htail : l.atTail c = true) : l.shows own c = [.round] := by
  simp [shows, htail]

/-- The tail's own operations are the loop's own. -/
lemma atTail_of_own (hown : l.own c = false) : l.atTail c = false := by
  simp only [own, Bool.or_eq_false_iff, Bool.and_eq_false_iff, decide_eq_false_iff_not] at hown
  simp only [atTail, Bool.and_eq_false_iff, beq_eq_false_iff_ne]
  exact hown.2.imp (by simp) (fun hlong hlength => hlong hlength.le)

/-- The new tail's own operations are the loop's own. -/
lemma atTail_of_ownNew (hown : l.ownNew c = false) : l.atTail c = false := by
  simp only [ownNew, Bool.or_eq_false_iff, Bool.and_eq_false_iff, decide_eq_false_iff_not] at hown
  simp only [atTail, Bool.and_eq_false_iff, beq_eq_false_iff_ne]
  exact hown.1.2.imp (by simp) (fun hlong hlength => hlong hlength.le)

/-- What a careful step in the loop looks at. -/
lemma spares_of_careful {breaks : Bool} {height : Nat} (hcode : c.rest = s :: rest)
    (hown : l.own c = false) (hcareful : l.careful breaks height c d = true) :
    popped s + height ≤ c.stack.length ∧ usesTemporary l.counter s = false ∧ l.lands height d = true ∧
      (breaks || d.label != l.loop.exit) = true := by
  simp only [careful, untouched, hown, Bool.false_or, Bool.and_eq_true, spares, ignores, hcode,
    decide_eq_true_eq] at hcareful
  obtain ⟨⟨⟨-, hspares, hpop⟩, hpush, hbreaks⟩, hlands⟩ := hcareful
  refine ⟨hspares, ?_, hlands, hbreaks⟩
  unfold usesTemporary
  split
  · simpa using hpush
  · simpa using hpop
  · rfl

/-- Where the tail counts and at the exit, nothing lies above the counter. -/
lemma eq_nil_of_lands (h : l.lands (base.length + 1) ⟨label, rest, above ++ num n :: base, r⟩ = true)
    (hplace : l.atTail (⟨label, rest, above ++ num n :: base, r⟩ : Config w) = true ∨
      label = l.loop.exit) : above = [] := by
  simp only [lands, Bool.and_eq_true, Bool.or_eq_true, Bool.not_eq_true', Bool.or_eq_false_iff,
    beq_iff_eq, beq_eq_false_iff_ne, List.length_append, List.length_cons, Nat.add_eq_right] at h
  obtain ⟨-, ⟨htail, hexit⟩ | habove⟩ := h
  · rcases hplace with hplace | hplace
    · rw [htail] at hplace
      cases hplace
    · exact absurd hplace hexit
  · exact List.eq_nil_of_length_eq_zero habove

/-- Outside the loop's own operations both runs have the same statement before them. -/
lemma Beside.exists_next {stack : List w.Value} (h : l.Beside label (s :: rest) rest')
    (hown : l.own ⟨label, s :: rest, stack, r⟩ = false) :
    ∃ rest'', rest' = s :: rest'' ∧ l.Beside label rest rest'' := by
  generalize hcode : s :: rest = code at h hown
  cases h with
  | same hlabel => exact ⟨rest, hcode.symm, .same hlabel⟩
  | head more =>
    cases more with
    | nil => simp [own] at hown
    | cons s' more =>
      obtain ⟨rfl, rfl⟩ := List.cons.inj hcode
      exact ⟨_, rfl, .head more⟩
  | tail more =>
    cases more with
    | nil => simp [own] at hown
    | cons s' more =>
      obtain ⟨rfl, rfl⟩ := List.cons.inj hcode
      exact ⟨_, rfl, .tail more⟩

section

variable {before after : List BasicBlock} {bound bound' : Nat} {names : Names} (h : l.Turns before after)
  (hwf : WellFormed bound before) (hwf' : WellFormed bound' after)

include h

/-- The runs stay side by side where the counter is on top of the stack if it has to be. -/
lemma Turns.alike_of_beside (hn : 0 < n) (hrest : l.Beside label rest rest')
    (hlands : l.lands (base.length + 1) ⟨label, rest, above ++ num n :: base, r⟩ = true) :
    l.Alike num base n ⟨label, rest, above ++ num n :: base, r⟩
      ⟨label, rest', above ++ base, r.hold l.counter (num n)⟩ := by
  cases id hrest with
  | same hlabel =>
    simp only [List.mem_cons, not_or] at hlabel
    exact .outside hn hrest (by simp [own, hlabel.1, hlabel.2.1])
  | head more =>
    cases more with
    | nil => simp [lands, atHead] at hlands
    | cons s more =>
      refine .outside hn hrest ?_
      simp only [own, List.length_append, List.length_cons, beq_self_eq_true,
        beq_eq_false_iff_ne.mpr h.tail_ne_head.symm, Bool.true_and, Bool.false_and, Bool.or_false,
        decide_eq_false_iff_not]
      omega
  | tail more =>
    cases more with
    | nil =>
      obtain rfl := eq_nil_of_lands hlands (.inl (by simp [atTail]))
      exact .tail hn
    | cons s more =>
      refine .outside hn hrest ?_
      simp only [own, List.length_append, List.length_cons, beq_self_eq_true,
        beq_eq_false_iff_ne.mpr h.tail_ne_head, Bool.true_and, Bool.false_and, Bool.false_or,
        decide_eq_false_iff_not]
      omega

lemma Turns.minted_ne_head : l.minted ≠ l.head :=
  fun heq => h.minted_new _ (heq ▸ h.head_before)

lemma Turns.minted_ne_tail : l.minted ≠ l.tail :=
  fun heq => h.minted_new _ (heq ▸ h.tail_before)

/-- Outside the loop's own operations the other run is outside them as well. -/
lemma Turns.ownNew_of_beside {stack stack' : List w.Value} {r' : Run w} (hrest : l.Beside label rest rest')
    (hown : l.own ⟨label, rest, stack, r⟩ = false) : l.ownNew ⟨label, rest', stack', r'⟩ = false := by
  cases hrest with
  | same hlabel =>
    simp only [List.mem_cons, List.not_mem_nil, or_false, not_or] at hlabel
    simp [ownNew, hlabel.1, hlabel.2.1, hlabel.2.2.2]
  | head more =>
    have hlong : more.length ≠ 0 := by simpa [own, h.tail_ne_head.symm] using hown
    simp only [ownNew, List.length_append, beq_self_eq_true, beq_eq_false_iff_ne.mpr h.tail_ne_head.symm,
      beq_eq_false_iff_ne.mpr h.minted_ne_head.symm, Bool.true_and, Bool.false_and, Bool.or_false,
      decide_eq_false_iff_not]
    omega
  | tail more =>
    have hlong : more.length ≠ 0 := by simpa [own, h.tail_ne_head] using hown
    simp only [ownNew, List.length_append, beq_self_eq_true, beq_eq_false_iff_ne.mpr h.tail_ne_head,
      beq_eq_false_iff_ne.mpr h.minted_ne_tail.symm, Bool.true_and, Bool.false_and, Bool.or_false,
      Bool.false_or, decide_eq_false_iff_not]
    omega

/-- A block before the edit and what the edit makes of it. -/
lemma Turns.exists_beside (hbody : BodyOf before target stmts) (hexit : target ≠ l.loop.exit)
    (hwf : WellFormed bound before) :
    ∃ stmts', BodyOf after target stmts' ∧ l.Beside target stmts.tail stmts'.tail := by
  by_cases hhead : target = l.head
  · subst hhead
    obtain rfl := hwf.bodyOf_unique hbody h.head_before
    refine ⟨_, h.head_after, ?_⟩
    rw [List.tail_append_of_ne_nil h.headInit, List.tail_append_of_ne_nil h.headInit]
    exact .head _
  by_cases htail : target = l.tail
  · subst htail
    obtain rfl := hwf.bodyOf_unique hbody h.tail_before
    refine ⟨_, h.tail_after, ?_⟩
    rw [List.tail_append_of_ne_nil h.tailInit, List.tail_append_of_ne_nil h.tailInit]
    exact .tail _
  have hminted : target ≠ l.minted := by
    rintro rfl
    exact h.minted_new stmts hbody
  have hother : target ∉ [l.head, l.tail, l.loop.exit, l.minted] := by
    simp [hhead, htail, hexit, hminted]
  exact ⟨stmts, (h.kept target stmts hother).mpr hbody, .same hother⟩

include hwf hwf'

/-- The exit of the loop, before and after the edit. -/
lemma Turns.enter_exit (c : Config w) :
    c.enter? before l.loop.exit =
        some { c with label := l.loop.exit, rest := .raw (l.offset 6) .popz :: l.exitRest } ∧
      c.enter? after l.loop.exit = some { c with label := l.loop.exit, rest := l.exitRest } :=
  ⟨Config.enter?_of_bodyOf hwf h.exit_before c, Config.enter?_of_bodyOf hwf' h.exit_after c⟩

/-- Where one run goes to, the other one goes as well. -/
lemma Turns.enters (hn : 0 < n) (hlands : l.lands (base.length + 1) d = true)
    (henter : Config.enter? before ⟨label, rest, above ++ num n :: base, r⟩ target = some d) :
    ∃ d', Config.enter? after ⟨label', rest', above ++ base, r.hold l.counter (num n)⟩ target = some d' ∧
      l.Alike num base n d d' := by
  by_cases hexit : target = l.loop.exit
  · subst hexit
    rw [(h.enter_exit hwf hwf' _).1, Option.some.injEq] at henter
    subst henter
    obtain rfl := eq_nil_of_lands hlands (.inr rfl)
    exact ⟨_, (h.enter_exit hwf hwf' _).2, .exit⟩
  · obtain ⟨stmts, hbody, rfl⟩ := Config.enter?_eq_some henter
    obtain ⟨stmts', hbody', hrest⟩ := h.exists_beside hbody hexit hwf
    exact ⟨_, Config.enter?_of_bodyOf hwf' hbody' _, h.alike_of_beside hn hrest hlands⟩

/-- Outside the loop's own operations both runs do the same. -/
lemma Turns.step_outside {breaks : Bool} (hreserves : w.Reserves l.counter) (hn : 0 < n)
    (hrest : l.Beside label rest rest')
    (hown : l.own ⟨label, rest, above ++ num n :: base, r⟩ = false)
    (hnext : Config.next? names before ⟨label, rest, above ++ num n :: base, r⟩ = some d)
    (hcareful : l.careful breaks (base.length + 1) ⟨label, rest, above ++ num n :: base, r⟩ d = true) :
    ∃ d', Config.next? names after ⟨label, rest', above ++ base, r.hold l.counter (num n)⟩ = some d' ∧
      l.Alike num base n d d' ∧
      l.shows l.ownNew (⟨label, rest', above ++ base, r.hold l.counter (num n)⟩ : Config w) =
        l.shows l.own (⟨label, rest, above ++ num n :: base, r⟩ : Config w) := by
  cases rest with
  | nil => cases hnext
  | cons s rest =>
    have hown' : l.ownNew (⟨label, rest', above ++ base, r.hold l.counter (num n)⟩ : Config w) = false :=
      h.ownNew_of_beside hrest hown
    obtain ⟨rest', rfl, hrest'⟩ := hrest.exists_next hown
    obtain ⟨hspares, huses, hlands, -⟩ := spares_of_careful rfl hown hcareful
    have hpopped : popped s ≤ above.length := by
      simp only [List.length_append, List.length_cons] at hspares
      omega
    have hshows : l.shows l.ownNew (⟨label, s :: rest', above ++ base, r.hold l.counter (num n)⟩ : Config w) =
        l.shows l.own (⟨label, s :: rest, above ++ num n :: base, r⟩ : Config w) := by
      rw [shows_cons rfl hown (atTail_of_own hown), shows_cons rfl hown' (atTail_of_ownNew hown'),
        List.take_append_of_le_length hpopped, List.take_append_of_le_length hpopped]
    suffices hstep : ∃ d',
        Config.next? names after ⟨label, s :: rest', above ++ base, r.hold l.counter (num n)⟩ = some d' ∧
          l.Alike num base n d d' by
      obtain ⟨d', hnext', halike⟩ := hstep
      exact ⟨d', hnext', halike, hshows⟩
    cases s with
    | label other =>
      cases hnext
      exact ⟨_, rfl, h.alike_of_beside hn hrest' hlands⟩
    | goto target => exact h.enters hwf hwf' hn hlands hnext
    | raw offset op =>
      simp only [Config.next?, Option.bind_eq_bind, Option.bind_eq_some_iff] at hnext
      obtain ⟨⟨target, r', stack⟩, hoperate, hnext⟩ := hnext
      obtain ⟨above', rfl, hbeside⟩ := operate_beside hreserves huses hpopped hoperate
      rw [Config.next?_of_operate (hbeside _ _)]
      cases target with
      | none =>
        cases hnext
        exact ⟨_, rfl, h.alike_of_beside hn hrest' hlands⟩
      | some target => exact h.enters hwf hwf' hn hlands hnext
    | push | assign | call | discard | condGoto | pushEnv | popEnv | dispatch | ret | exit | breakOut
    | continueLoop | basic | seq | cond | loop | switch | scope => cases hnext

end

end Layout

end CountedLoop

end Decompiler
