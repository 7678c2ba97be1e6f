import Decompiler.Batch.Run

/-!
# Command line

Runs the decompiler on the files of the machine.  The exit code is 0 if every unit was decompiled, 1
if one failed or the run did, and 2 if the arguments are refused.
-/

namespace Decompiler.CommandLine

open Batch

/-- How the program is called. -/
def usage : String :=
  "Usage: decompiler [OPTIONS] <INPUTS>...\n\n"
    ++ "Inputs are unit files, or directories that are searched for *.gmc.\n\n"
    ++ "Options:\n"
    ++ "      --dialect <c|lua>        the language of the output\n"
    ++ "      --asm                    give the listing of every unit too\n"
    ++ "      --snapshots              give the outline of every stage too\n"
    ++ "  -o, --output-dir <DIR>       write files there instead of printing\n"
    ++ "      --strings <FILE>         string table, one entry per line\n"
    ++ "      --objects <FILE>         object names, one per line\n"
    ++ "      --max-sweeps <N>         how often the rules may sweep over a unit\n"
    ++ "      --no-format              leave Lua output as printed\n"
    ++ "      --timings                report the slowest units\n"
    ++ "  -v, --verbose                report more\n"
    ++ "  -h, --help                   print this text\n"
    ++ "  -V, --version                print the version\n"

/-- The version of the program. -/
def version : String := "decompiler 0.1.0"

/-- Whether a code of the system is the given one.  Some calls give its negative. -/
def isCode (code expected : UInt32) : Bool :=
  code == expected || code == -expected

/-- The reason for a failed operation of the system. -/
def fileErrorOf (e : IO.Error) : FileError :=
  match e with
  | .noFileOrDirectory .. => .notFound
  | .alreadyExists .. => .alreadyExists
  | .inappropriateType _ code _ =>
    if isCode code 20 then .notDirectory
    else if isCode code 21 then .isDirectory
    else .other (toString e)
  | .invalidArgument _ code _ => if isCode code 36 then .nameTooLong else .other (toString e)
  | _ => .other (toString e)

/-- An operation of the system whose failure is a value. -/
def attempt {α : Type} (action : IO α) : ExceptT FileError IO α := do
  match ← EIO.toBaseIO action with
  | .ok a => return a
  | .error e => throw (fileErrorOf e)

/-- The files below a directory. -/
partial def filesBelow (dir : String) (names : List String) : IO (List (List String)) := do
  let entries ← (System.mkFilePath [dir]).readDir
  let found ← entries.toList.mapM fun entry => do
    let below := names ++ [entry.fileName]
    if ← entry.path.isDir then filesBelow entry.path.toString below else return [below]
  return found.flatten

/-- The operations of the machine. -/
def systemFiles : FileOps IO where
  isDirectory p := (System.mkFilePath [p.text]).isDir
  isPresent p := (System.mkFilePath [p.text]).pathExists
  read p := attempt do return (← IO.FS.readBinFile (System.mkFilePath [p.text])).toList
  filesBelow p := attempt (filesBelow p.text [])
  createDir p := attempt (IO.FS.createDir (System.mkFilePath [p.text]))
  write p text := attempt (IO.FS.writeFile (System.mkFilePath [p.text]) text)
  remove p := attempt (IO.FS.removeFile (System.mkFilePath [p.text]))
  now := IO.monoNanosNow

/-- Runs with settings.  There is no formatter for Lua on the machine. -/
def runWith (args : Arguments) : IO UInt32 := do
  match ← (run systemFiles (fun _ => none) args).run with
  | .error e =>
    IO.eprintln ("Error: " ++ e.message)
    return 1
  | .ok reports =>
    if args.outputDir.isNone then
      IO.print (printedText reports)
    for report in reports do
      if let some failure := report.failure then
        IO.eprintln (report.name ++ ": " ++ failure)
    if args.verbose > 0 then
      IO.eprintln (toString reports.length ++ " units")
    if args.timings then
      IO.eprint ((timingReport reports).summary 10)
    return if (failedUnits reports).isEmpty then 0 else 1

end Decompiler.CommandLine

open Decompiler Decompiler.CommandLine in
/-- Reads the arguments and runs. -/
def main (words : List String) : IO UInt32 := do
  match Batch.Arguments.parse words with
  | .ok args => runWith args
  | .error .helpRequested =>
    IO.print usage
    return 0
  | .error .versionRequested =>
    IO.println version
    return 0
  | .error e =>
    IO.eprintln ("error: " ++ e.message)
    IO.eprint usage
    return 2
