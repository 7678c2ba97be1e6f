import Mathlib.Data.List.Infix
import Mathlib.Logic.Function.Iterate
import Mathlib.Tactic.Lemma

/-!
# Traces of deterministic machines

A machine takes one step after the other.  A step adds events to what has happened so far and goes on
or ends, and it may depend on all that has happened, so that the answers of an oracle can be part of
the machine.  Two starts have the same traces when every finite beginning of the one run is a
beginning of the other, and when the two runs end alike; that covers runs that never end.

`Simulation.sameTraces` is the way to such a result.  Each step of the first machine is matched by
steps of the second, or by none at all as long as a rank goes down, so that the first machine cannot
go on for ever while the second stands still.
-/

namespace Decompiler.Trace

/-- A step of a machine: it goes on from another state or ends, after some events. -/
inductive Step (σ α ε : Type) where
  | go (events : List α) (next : σ)
  | stop (events : List α) (ending : ε)

/-- A step with the state it goes on from taken to another. -/
def Step.map {σ τ α ε : Type} (f : σ → τ) : Step σ α ε → Step τ α ε
  | .go events next => .go events (f next)
  | .stop events ending => .stop events ending

/-- A machine, as a function of what has happened so far and of its state. -/
abbrev Machine (σ α ε : Type) := List α → σ → Step σ α ε

/-- How far a run has come: where it is or how it ended, and what has happened. -/
inductive Status (σ α ε : Type) where
  | at (history : List α) (state : σ)
  | ended (history : List α) (ending : ε)

variable {σ τ α ε : Type}

namespace Status

/-- What has happened so far. -/
def history : Status σ α ε → List α
  | .at history _ => history
  | .ended history _ => history

/-- Two runs have come equally far: the same has happened in both, and both are in related states or
have ended alike. -/
inductive Related (R : σ → τ → Prop) : Status σ α ε → Status τ α ε → Prop where
  | at {history : List α} {s : σ} {t : τ} (h : R s t) : Related R (.at history s) (.at history t)
  | ended {history : List α} {ending : ε} : Related R (.ended history ending) (.ended history ending)

/-- The same has happened in two related runs. -/
lemma Related.history_eq {R : σ → τ → Prop} {a : Status σ α ε} {b : Status τ α ε}
    (h : Related R a b) : a.history = b.history := by
  cases h <;> rfl

end Status

namespace Machine

/-- One step of a run.  A run that has ended stays as it is. -/
def advance (m : Machine σ α ε) : Status σ α ε → Status σ α ε
  | .at history s =>
    match m history s with
    | .go events next => .at (history ++ events) next
    | .stop events ending => .ended (history ++ events) ending
  | .ended history ending => .ended history ending

/-- The given number of steps of a run. -/
def run (m : Machine σ α ε) (n : Nat) (status : Status σ α ε) : Status σ α ε :=
  m.advance^[n] status

/-- Whether the run from a state begins with the given events. -/
def Begins (m : Machine σ α ε) (s : σ) (events : List α) : Prop :=
  ∃ n, events <+: (m.run n (.at [] s)).history

/-- Whether the run from a state ends after the given events. -/
def Ends (m : Machine σ α ε) (s : σ) (events : List α) (ending : ε) : Prop :=
  ∃ n, m.run n (.at [] s) = .ended events ending

/-- A step that goes on. -/
lemma advance_go {m : Machine σ α ε} {history events : List α} {s next : σ}
    (h : m history s = .go events next) :
    m.advance (.at history s) = .at (history ++ events) next := by
  simp only [advance, h]

/-- A step that ends. -/
lemma advance_stop {m : Machine σ α ε} {history events : List α} {s : σ} {ending : ε}
    (h : m history s = .stop events ending) :
    m.advance (.at history s) = .ended (history ++ events) ending := by
  simp only [advance, h]

@[simp] lemma run_zero (m : Machine σ α ε) (status : Status σ α ε) : m.run 0 status = status := rfl

/-- A run of one more step, with the first step taken apart. -/
lemma run_succ (m : Machine σ α ε) (n : Nat) (status : Status σ α ε) :
    m.run (n + 1) status = m.run n (m.advance status) :=
  Function.iterate_succ_apply _ _ _

/-- A run goes on from where it was. -/
lemma run_add (m : Machine σ α ε) (n k : Nat) (status : Status σ α ε) :
    m.run (n + k) status = m.run k (m.run n status) := by
  rw [Nat.add_comm]
  exact Function.iterate_add_apply _ _ _ _

/-- A run that has ended stays as it is. -/
@[simp] lemma run_ended (m : Machine σ α ε) (n : Nat) (history : List α) (ending : ε) :
    m.run n (.ended history ending) = .ended history ending := by
  induction n with
  | zero => rfl
  | succ n ih => rw [run_succ, advance, ih]

/-- A step only adds to what has happened. -/
lemma history_advance (m : Machine σ α ε) (status : Status σ α ε) :
    status.history <+: (m.advance status).history := by
  cases status with
  | ended history ending => exact List.prefix_rfl
  | «at» history s =>
    cases h : m history s with
    | go events next =>
      rw [advance_go h]
      exact List.prefix_append _ _
    | stop events ending =>
      rw [advance_stop h]
      exact List.prefix_append _ _

/-- A run only adds to what has happened. -/
lemma history_run (m : Machine σ α ε) (n : Nat) (status : Status σ α ε) :
    status.history <+: (m.run n status).history := by
  induction n generalizing status with
  | zero => exact List.prefix_rfl
  | succ n ih =>
    rw [run_succ]
    exact (history_advance m status).trans (ih _)

/-- What each step keeps holds of every state that a run comes to. -/
lemma run_keeps {m : Machine σ α ε} {good : σ → Prop}
    (keeps : ∀ history s events next, good s → m history s = .go events next → good next) (n : Nat)
    {history history' : List α} {s t : σ} (hs : good s)
    (hrun : m.run n (.at history s) = .at history' t) : good t := by
  induction n generalizing history s with
  | zero =>
    cases hrun
    exact hs
  | succ n ih =>
    cases hstep : m history s with
    | go events next =>
      rw [run_succ, advance_go hstep] at hrun
      exact ih (keeps history s events next hs hstep) hrun
    | stop events ending =>
      rw [run_succ, advance_stop hstep, run_ended] at hrun
      cases hrun

/-- A run that silently comes back to where it was never ends. -/
lemma run_ne_ended {m : Machine σ α ε} {history : List α} {s : σ} {k : Nat}
    (hcycle : m.run (k + 1) (.at history s) = .at history s) (n : Nat) (events : List α)
    (ending : ε) : m.run n (.at history s) ≠ .ended events ending := by
  have hrounds : ∀ rounds, m.run ((k + 1) * rounds) (.at history s) = .at history s := by
    intro rounds
    induction rounds with
    | zero => rfl
    | succ rounds ih => rw [Nat.mul_succ, run_add, ih, hcycle]
  intro hended
  -- Were the run over after `n` steps, it would be over after as many rounds.
  have hmore : (k + 1) * n = n + k * n := by rw [Nat.succ_mul, Nat.add_comm]
  have hround := hrounds n
  rw [hmore, run_add, hended, run_ended] at hround
  cases hround

end Machine

/-- Two runs have the same traces: they begin alike and end alike. -/
structure SameTraces (m : Machine σ α ε) (s : σ) (m' : Machine τ α ε) (t : τ) : Prop where
  begins : ∀ events, m.Begins s events ↔ m'.Begins t events
  ends : ∀ events ending, m.Ends s events ending ↔ m'.Ends t events ending

/-- What it takes for the second machine to follow the first along a relation. -/
structure Simulation (m : Machine σ α ε) (m' : Machine τ α ε) (R : σ → τ → Prop)
    (rank : σ → Nat) : Prop where
  /-- A step that goes on is matched by steps, or by none if it is silent and lowers the rank. -/
  go : ∀ history s t events next, R s t → m history s = .go events next →
    (events = [] ∧ R next t ∧ rank next < rank s) ∨
      ∃ k t', m'.run (k + 1) (.at history t) = .at (history ++ events) t' ∧ R next t'
  /-- A step that ends is matched by steps that end alike. -/
  stop : ∀ history s t events ending, R s t → m history s = .stop events ending →
    ∃ k, m'.run k (.at history t) = .ended (history ++ events) ending

namespace Simulation

variable {m : Machine σ α ε} {m' : Machine τ α ε} {R : σ → τ → Prop} {rank : σ → Nat}

/-- A single step of the first machine is followed by the second. -/
lemma advance_related (sim : Simulation m m' R rank) (history : List α) {s : σ} {t : τ}
    (h : R s t) :
    ∃ k, Status.Related R (m.advance (.at history s)) (m'.run k (.at history t)) := by
  cases hstep : m history s with
  | go events next =>
    rw [Machine.advance_go hstep]
    rcases sim.go history s t events next h hstep with ⟨rfl, hnext, -⟩ | ⟨k, t', hrun, hnext⟩
    · refine ⟨0, ?_⟩
      simp only [List.append_nil, Machine.run_zero]
      exact .at hnext
    · refine ⟨k + 1, ?_⟩
      rw [hrun]
      exact .at hnext
  | stop events ending =>
    obtain ⟨k, hrun⟩ := sim.stop history s t events ending h hstep
    refine ⟨k, ?_⟩
    rw [Machine.advance_stop hstep, hrun]
    exact .ended

/-- Whatever the first machine comes to, the second comes to as well. -/
lemma run_related (sim : Simulation m m' R rank) (n : Nat) (history : List α) {s : σ} {t : τ}
    (h : R s t) :
    ∃ k, Status.Related R (m.run n (.at history s)) (m'.run k (.at history t)) := by
  induction n generalizing history s t with
  | zero => exact ⟨0, .at h⟩
  | succ n ih =>
    obtain ⟨k, hk⟩ := sim.advance_related history h
    rw [Machine.run_succ]
    generalize ha : m.advance (.at history s) = a at hk ⊢
    generalize hb : m'.run k (.at history t) = b at hk
    cases hk with
    | «at» h' =>
      obtain ⟨j, hj⟩ := ih _ h'
      refine ⟨k + j, ?_⟩
      rw [Machine.run_add, hb]
      exact hj
    | ended =>
      refine ⟨k, ?_⟩
      rw [hb, Machine.run_ended]
      exact .ended

/-- The first machine does not leave the second standing still: silent steps lower the rank, so some
step is matched by at least one step. -/
lemma progress (sim : Simulation m m' R rank) (history : List α) {s : σ} {t : τ} (h : R s t) :
    ∃ n k, Status.Related R (m.run n (.at history s)) (m'.run (k + 1) (.at history t)) := by
  induction hr : rank s using Nat.strong_induction_on generalizing s with
  | _ r ih =>
    subst hr
    cases hstep : m history s with
    | go events next =>
      rcases sim.go history s t events next h hstep with ⟨rfl, hnext, hrank⟩ | ⟨k, t', hrun, hnext⟩
      · obtain ⟨n, k, hk⟩ := ih _ hrank hnext rfl
        refine ⟨n + 1, k, ?_⟩
        rw [Machine.run_succ, Machine.advance_go hstep]
        simpa only [List.append_nil] using hk
      · refine ⟨1, k, ?_⟩
        rw [Machine.run_succ, Machine.run_zero, Machine.advance_go hstep, hrun]
        exact .at hnext
    | stop events ending =>
      obtain ⟨k, hrun⟩ := sim.stop history s t events ending h hstep
      refine ⟨1, k, ?_⟩
      rw [Machine.run_succ, Machine.run_zero, Machine.advance_stop hstep, Machine.run_add, hrun,
        Machine.run_ended]
      exact .ended

/-- However far the second machine has come, the first one comes to match it there or later. -/
lemma run_covered (sim : Simulation m m' R rank) (k : Nat) {s : σ} {t : τ} (h : R s t) :
    ∃ n j, k ≤ j ∧ Status.Related R (m.run n (.at [] s)) (m'.run j (.at [] t)) := by
  induction k with
  | zero => exact ⟨0, 0, Nat.le_refl 0, .at h⟩
  | succ k ih =>
    obtain ⟨n, j, hkj, hrel⟩ := ih
    generalize ha : m.run n (.at [] s) = a at hrel
    generalize hb : m'.run j (.at [] t) = b at hrel
    cases hrel with
    | «at» h' =>
      obtain ⟨n', k', hrel'⟩ := sim.progress _ h'
      refine ⟨n + n', j + (k' + 1), by omega, ?_⟩
      rw [Machine.run_add, Machine.run_add, ha, hb]
      exact hrel'
    | ended =>
      refine ⟨n, j + 1, by omega, ?_⟩
      rw [Machine.run_add, ha, hb, Machine.run_ended]
      exact .ended

/-- A machine that is followed by another has the same traces as the other. -/
theorem sameTraces (sim : Simulation m m' R rank) {s : σ} {t : τ} (h : R s t) :
    SameTraces m s m' t := by
  refine ⟨fun events => ⟨?_, ?_⟩, fun events ending => ⟨?_, ?_⟩⟩
  · rintro ⟨n, hn⟩
    obtain ⟨k, hk⟩ := sim.run_related n [] h
    exact ⟨k, hk.history_eq ▸ hn⟩
  · rintro ⟨k, hk⟩
    obtain ⟨n, j, hkj, hrel⟩ := sim.run_covered k h
    obtain ⟨d, rfl⟩ := Nat.exists_eq_add_of_le hkj
    refine ⟨n, ?_⟩
    rw [hrel.history_eq, Machine.run_add]
    exact hk.trans (m'.history_run d _)
  · rintro ⟨n, hn⟩
    obtain ⟨k, hk⟩ := sim.run_related n [] h
    rw [hn] at hk
    refine ⟨k, ?_⟩
    generalize m'.run k (.at [] t) = b at hk ⊢
    cases hk
    rfl
  · rintro ⟨k, hk⟩
    obtain ⟨n, j, hkj, hrel⟩ := sim.run_covered k h
    obtain ⟨d, rfl⟩ := Nat.exists_eq_add_of_le hkj
    refine ⟨n, ?_⟩
    rw [Machine.run_add, hk, Machine.run_ended] at hrel
    generalize m.run n (.at [] s) = a at hrel ⊢
    cases hrel
    rfl

/-- A second machine that mirrors the first through a function, where silent steps of the first may
leave the mirror image as it is while the rank goes down. -/
theorem of_map (f : σ → τ) (Good : σ → Prop)
    (keeps : ∀ history s events next, Good s → m history s = .go events next → Good next)
    (mirrors : ∀ history s, Good s →
      (∃ next, m history s = .go [] next ∧ f next = f s ∧ rank next < rank s) ∨
        m' history (f s) = (m history s).map f) :
    Simulation m m' (fun s t => Good s ∧ t = f s) rank := by
  refine ⟨?_, ?_⟩
  · rintro history s t events next ⟨hs, rfl⟩ hstep
    have hnext := keeps history s events next hs hstep
    rcases mirrors history s hs with ⟨next', hstep', hsame, hrank⟩ | hmirror
    · rw [hstep] at hstep'
      cases hstep'
      exact .inl ⟨rfl, ⟨hnext, hsame.symm⟩, hrank⟩
    · rw [hstep, Step.map] at hmirror
      refine .inr ⟨0, f next, ?_, hnext, rfl⟩
      rw [Machine.run_succ, Machine.advance_go hmirror, Machine.run_zero]
  · rintro history s t events ending ⟨hs, rfl⟩ hstep
    rcases mirrors history s hs with ⟨next', hstep', -, -⟩ | hmirror
    · rw [hstep] at hstep'
      cases hstep'
    · rw [hstep, Step.map] at hmirror
      refine ⟨1, ?_⟩
      rw [Machine.run_succ, Machine.advance_stop hmirror, Machine.run_zero]

end Simulation

end Decompiler.Trace
