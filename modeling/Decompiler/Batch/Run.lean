import Decompiler.Batch.Arguments
import Decompiler.Batch.Files
import Decompiler.Decompile

/-!
# A run over many units

`run` reads the name tables, finds the units, decompiles them one after the other and leaves their
texts in files or gives them back for printing.  A unit that fails never stops the others; the run
itself fails only where the tables, the output directory or the log cannot be had.

What lays Lua out anew is a parameter of the run, as its file system is: a formatter that gives another
text for one that it can read.
-/

namespace Decompiler.Batch

open Bytecode

/-! ### Failures of a run -/

/-- What a run was doing. -/
inductive Activity where
  | reading
  | creatingOutputDir
  | creating
  | writing
  | removing
deriving DecidableEq, Repr

/-- The name of an activity. -/
def Activity.name : Activity → String
  | .reading => "reading"
  | .creatingOutputDir => "creating output directory"
  | .creating => "creating"
  | .writing => "writing"
  | .removing => "removing"

/-- A file operation that failed: what was done, to which path, and why it failed. -/
structure RunError where
  activity : Activity
  path : Path
  cause : FileError
deriving DecidableEq, Repr

/-- The wording of a failure. -/
def RunError.message (error : RunError) : String :=
  error.activity.name ++ " " ++ error.path.text ++ ": " ++ error.cause.message

/-- A step of a run. -/
abbrev RunStep (m : Type → Type) := ExceptT RunError m

section

variable {m : Type → Type} [Monad m]

/-- Does something to a path, and says what was done if it fails. -/
def doing {α : Type} (activity : Activity) (path : Path) (action : ExceptT FileError m α) :
    RunStep m α :=
  ExceptT.adapt (RunError.mk activity path) action

/-! ### Name tables -/

/-- The lines of a file, or none if no file is given. -/
def readTable (ops : FileOps m) : Option String → RunStep m (List String)
  | none => return []
  | some file => do
    let path := Path.ofText file
    return Text.lines (← doing .reading path (ops.readText path))

/-- Reads the name tables. -/
def readNames (ops : FileOps m) (args : Arguments) : RunStep m Names := do
  let strings ← readTable ops args.strings
  let objects ← readTable ops args.objects
  return { strings, objects }

/-! ### Units -/

/-- A unit: its file, and the path that its name and the names of its output files come from. -/
structure SourceUnit where
  path : Path
  relative : Path
deriving DecidableEq, Repr

/-- The name of a unit. -/
def SourceUnit.name (source : SourceUnit) : String :=
  (source.relative.withExtension "").text

/-- The units below a directory, given the files there: those with the extension `gmc`, in the order
of their names. -/
def unitsBelow (dir : Path) (files : List (List String)) : List SourceUnit :=
  let found := files.filter fun names => (Path.ofNames names).extension? == some "gmc"
  (stableSort Path.namesBefore found).map fun names =>
    { path := dir.join (.ofNames names), relative := .ofNames names }

/-- The unit of a single file. -/
def unitOfFile (file : Path) : SourceUnit :=
  { path := file
    relative :=
      match file.fileName? with
      | some name => .ofNames [name]
      | none => file }

/-- The units of an input. -/
def unitsOfInput (ops : FileOps m) (input : String) : RunStep m (List SourceUnit) := do
  let path := Path.ofText input
  if ← (ops.isDirectory path : m Bool) then
    return unitsBelow path (← doing .reading path (ops.filesBelow path))
  else
    return [unitOfFile path]

/-- The units of all inputs, in the order of the inputs. -/
def findUnits (ops : FileOps m) (inputs : List String) : RunStep m (List SourceUnit) :=
  return (← inputs.mapM (unitsOfInput ops)).flatten

/-! ### One unit -/

/-- Lays Lua out anew.  A text that the formatter cannot read is kept. -/
def formatLua (formatter : String → Option String) (text : String) : String :=
  (formatter text).getD text

/-- What is left of a unit: the text of one in Lua is laid out anew, unless it failed or the text is to
be left as it is printed. -/
def laidOut (formatter : String → Option String) (args : Arguments) (result : UnitResult) :
    UnitResult :=
  if args.dialect = .lua ∧ args.noFormat = false ∧ result.failed = false then
    { result with text := formatLua formatter result.text }
  else result

/-- The files that come of a unit, the source first, each with its text.  `base` is where the unit
would stand in the output directory. -/
def outputFiles (args : Arguments) (listing : Except DecodeError String) (base : Path)
    (result : UnitResult) : List (Path × String) :=
  let source := (base.withExtension args.dialect.extension, result.text)
  let listings :=
    if args.asm then
      let text :=
        match listing with
        | .ok text => text
        | .error e => "; " ++ e.message ++ "\n"
      [(base.withExtension "asm", text)]
    else []
  let snapshots := result.snapshots.mapIdx fun i (stage, dump) =>
    ((base.withExtension "").append ("." ++ toString i ++ "." ++ stage.name ++ ".txt"), dump)
  source :: listings ++ snapshots

/-- What is printed of a unit: its name, the listing and the snapshots if they are asked for, and
the source. -/
def printout (args : Arguments) (listing : Except DecodeError String) (result : UnitResult) :
    String :=
  let comment := args.dialect.comment
  let listed :=
    match args.asm, listing with
    | true, .ok text => text
    | _, _ => ""
  let snapshots := result.snapshots.map fun (stage, dump) =>
    comment ++ " ---- " ++ stage.name ++ " ----\n" ++ dump
  comment ++ " ==== " ++ result.name ++ " ====\n" ++ listed ++ String.join snapshots ++ result.text

/-- What a run knows of a unit when it is done with it. -/
structure UnitReport where
  name : String
  /-- What went wrong, if anything did. -/
  failure : Option String := none
  /-- What is printed if there is no output directory. -/
  printed : String := ""
  /-- The time that was spent on it. -/
  nanoseconds : Nat := 0

/-- Writes files one after the other. -/
def writeFiles (ops : FileOps m) (files : List (Path × String)) : RunStep m Unit :=
  files.forM fun (path, text) => doing .writing path (ops.write path text)

/-- Decompiles a unit and writes its files. -/
def processUnit (ops : FileOps m) (formatter : String → Option String) (args : Arguments)
    (names : Names) (source : SourceUnit) : RunStep m UnitReport := do
  let bytes ← doing .reading source.path (ops.read source.path)
  let start ← (ops.now : m Nat)
  let result := laidOut formatter args (decompile names args.options source.name bytes)
  let listing := disassemble names bytes
  let report : UnitReport := { name := result.name, failure := result.error.map Error.message }
  match args.outputDir with
  | some dir =>
    let base := (Path.ofText dir).join source.relative
    if let some parent := base.parent? then
      doing .creating parent (ops.createDirs parent)
    writeFiles ops (outputFiles args listing base result)
    return { report with nanoseconds := (← (ops.now : m Nat)) - start }
  | none =>
    let printed := printout args listing result
    return { report with printed, nanoseconds := (← (ops.now : m Nat)) - start }

/-- Deals with a unit.  A file of the unit that cannot be read or written makes it a failed one. -/
def reportUnit (ops : FileOps m) (formatter : String → Option String) (args : Arguments)
    (names : Names) (source : SourceUnit) : m UnitReport := do
  match ← (processUnit ops formatter args names source).run with
  | .ok report => return report
  | .error e => return { name := source.name, failure := some e.message }

/-! ### The run -/

/-- The names of the units that failed. -/
def failedUnits (reports : List UnitReport) : List String :=
  (reports.filter (·.failure.isSome)).map UnitReport.name

/-- Leaves the names of failed units in a log, or removes the log of an earlier run. -/
def updateLog (ops : FileOps m) (dir : Path) (failed : List String) : RunStep m Unit := do
  let log := dir.join (.ofNames ["errors.log"])
  if failed.isEmpty then
    if ← (ops.isPresent log : m Bool) then
      doing .removing log (ops.remove log)
  else
    doing .writing log (ops.write log (Text.joinWith "\n" failed ++ "\n"))

/-- Makes the output directory. -/
def prepareOutput (ops : FileOps m) (args : Arguments) : RunStep m Unit :=
  match args.outputDir with
  | none => return ()
  | some dir =>
    let path := Path.ofText dir
    doing .creatingOutputDir path (ops.createDirs path)

/-- Decompiles every input. -/
def run (ops : FileOps m) (formatter : String → Option String) (args : Arguments) :
    RunStep m (List UnitReport) := do
  let names ← readNames ops args
  let units ← findUnits ops args.inputs
  prepareOutput ops args
  let reports ← (units.mapM (reportUnit ops formatter args names) : m (List UnitReport))
  match args.outputDir with
  | none => return reports
  | some dir =>
    updateLog ops (.ofText dir) (failedUnits reports)
    return reports

end

/-- The text that a run prints. -/
def printedText (reports : List UnitReport) : String :=
  String.join (reports.map UnitReport.printed)

/-- The times of a run. -/
def timingReport (reports : List UnitReport) : TimingReport :=
  { units := reports.map fun report =>
      { unit := report.name, phases := [("decompile", report.nanoseconds)] } }

/-- Decompiles every input from the files of a store.  Without a formatter all texts are left as they
are printed. -/
def runOnStore (args : Arguments) (store : FileStore)
    (formatter : String → Option String := fun _ => none) :
    Except RunError (List UnitReport) × FileStore :=
  (run FileStore.ops formatter args).run.run store

end Decompiler.Batch
