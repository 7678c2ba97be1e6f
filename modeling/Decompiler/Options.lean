/-!
# Options

The output language, the stages of a unit's recovery, and the settings of a run.
-/

namespace Decompiler

/-- The language of the output. -/
inductive Dialect where
  | c
  | lua
deriving DecidableEq, Repr

namespace Dialect

/-- What starts a comment that ends with its line. -/
def comment : Dialect → String
  | .c => "//"
  | .lua => "--"

/-- The extension of output files. -/
def extension : Dialect → String
  | .c => "gml"
  | .lua => "lua"

end Dialect

/-- The stages after which the state of a unit can be recorded. -/
inductive Stage where
  /-- One statement for each instruction, with the labels in place. -/
  | raw
  /-- Split into basic blocks. -/
  | blocks
  /-- Counted loops and dispatch chains are recognised. -/
  | idioms
  /-- The stack is simulated. -/
  | expressions
  /-- Expressions and branches are simplified. -/
  | optimized
  /-- Loops are found. -/
  | loops
  /-- Conditions are found, and the blocks are flattened. -/
  | flattened
  | final
deriving DecidableEq, Repr

namespace Stage

/-- Every stage, in the order in which they are passed. -/
def all : List Stage :=
  [.raw, .blocks, .idioms, .expressions, .optimized, .loops, .flattened, .final]

/-- The name of a stage. -/
def name : Stage → String
  | .raw => "raw"
  | .blocks => "blocks"
  | .idioms => "idioms"
  | .expressions => "expressions"
  | .optimized => "optimized"
  | .loops => "loops"
  | .flattened => "flattened"
  | .final => "final"

end Stage

/-- The settings of a run. -/
structure Options where
  dialect : Dialect := .c
  /-- Whether the state after each stage is recorded. -/
  snapshots : Bool := false
  /-- How many times the rules may sweep over the blocks. -/
  maxSweeps : Nat := 256

end Decompiler
