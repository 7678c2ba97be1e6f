import Decompiler.Decimal.Text
import Decompiler.Order
import Decompiler.Text

/-!
# Timing report

How long each phase of each unit took, and the summary of a run.  Durations are nanoseconds.
-/

namespace Decompiler

open Decimal

/-- The phases of a unit. -/
inductive Phase where
  | decode
  | lift
  | optimize
  | structuring
  | gotos
  | emit
deriving DecidableEq, Repr

namespace Phase

/-- Every phase, in the order of the summary. -/
def all : List Phase := [.decode, .lift, .optimize, .structuring, .gotos, .emit]

/-- The name of a phase. -/
def name : Phase → String
  | .decode => "decode"
  | .lift => "lift"
  | .optimize => "optimize"
  | .structuring => "structure"
  | .gotos => "gotos"
  | .emit => "emit"

end Phase

/-! ### Numbers of the report -/

/-- A duration in the largest unit that it fills, with two decimal places. -/
def durationText (nanoseconds : Nat) : String :=
  if Nat.pow 10 9 ≤ nanoseconds then fixed 2 nanoseconds (Nat.pow 10 9) ++ "s"
  else if Nat.pow 10 6 ≤ nanoseconds then fixed 2 nanoseconds (Nat.pow 10 6) ++ "ms"
  else if Nat.pow 10 3 ≤ nanoseconds then fixed 2 nanoseconds (Nat.pow 10 3) ++ "µs"
  else fixed 2 nanoseconds 1 ++ "ns"

/-- A share of a total in percent.  The quotient and its hundredfold are each rounded to a 64-bit
floating number before the text is rounded to one decimal place. -/
def percentText (part total : Nat) : String :=
  if total = 0 then fixed 1 0 1
  else
    let share := nearestRatio binary64 (roundToBits 53 part) (roundToBits 53 total)
    let percent := nearestRatio binary64 (100 * share.1) share.2
    fixed 1 percent.1 percent.2

/-! ### The report -/

/-- The recorded durations of a unit, in the order in which they were recorded. -/
structure UnitTimings where
  unit : String
  phases : List (String × Nat) := []
deriving Repr

/-- The time of all phases of a unit. -/
def UnitTimings.total (timings : UnitTimings) : Nat :=
  (timings.phases.map Prod.snd).foldl (· + ·) 0

/-- The units of a run. -/
structure TimingReport where
  units : List UnitTimings := []

namespace TimingReport

/-- The time of all units. -/
def grandTotal (report : TimingReport) : Nat :=
  (report.units.map UnitTimings.total).foldl (· + ·) 0

/-- Every recorded duration with its phase. -/
def records (report : TimingReport) : List (String × Nat) :=
  report.units.flatMap UnitTimings.phases

/-- The time of a phase over all units, if it was recorded at all. -/
def phaseTotal? (report : TimingReport) (phase : String) : Option Nat :=
  match report.records.filter (·.1 == phase) with
  | [] => none
  | records => some ((records.map Prod.snd).foldl (· + ·) 0)

/-- The time of each recorded phase, sorted by the names of the phases. -/
def phaseTotals (report : TimingReport) : List (String × Nat) :=
  let names := stableSort (fun a b => decide (a < b)) (report.records.map Prod.fst).eraseDups
  names.filterMap fun phase => (report.phaseTotal? phase).map (phase, ·)

/-- The line of a phase in the summary. -/
def phaseLine (report : TimingReport) (phase : Phase) : Option String :=
  (report.phaseTotal? phase.name).map fun total =>
    "  " ++ Text.alignLeft 12 phase.name ++ " " ++ Text.alignRight 10 (durationText total) ++ "  ("
      ++ percentText total report.grandTotal ++ "%)\n"

/-- The line of a unit in the summary. -/
def unitLine (timings : UnitTimings) : String :=
  let parts := timings.phases.map fun (phase, duration) => phase ++ "=" ++ durationText duration
  "  " ++ durationText timings.total ++ "  " ++ timings.unit ++ "  [" ++ Text.joinWith ", " parts
    ++ "]\n"

/-- The units that took longest. -/
def slowestUnits (report : TimingReport) (count : Nat) : List UnitTimings :=
  (stableSort (fun a b => decide (b.total < a.total)) report.units).take count

/-- The summary: the phases, then the slowest units. -/
def summary (report : TimingReport) (slowest : Nat) : String :=
  let units := report.slowestUnits slowest
  let header :=
    "--- Performance Summary ---\n" ++ toString report.units.length ++ " units in "
      ++ durationText report.grandTotal ++ "\n"
  let slow :=
    if units.isEmpty then ""
    else
      "--- Slowest " ++ toString units.length ++ " Units ---\n" ++ String.join (units.map unitLine)
  header ++ String.join (Phase.all.filterMap report.phaseLine) ++ slow

end TimingReport

end Decompiler
