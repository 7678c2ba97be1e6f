import Decompiler.Options
import Decompiler.Text

/-!
# Arguments of a run

Reads the words of a command line.  Words are taken one by one.  An option that takes a value, and
the inputs between two options, stay *pending* until it is certain that they are complete; only then
are they checked.  So a word that nothing knows is reported even if an earlier value is wrong, as
long as that value is still pending.
-/

namespace Decompiler.Batch

/-- The settings of a command line. -/
structure Arguments where
  /-- Files to decompile, and directories to search for them. -/
  inputs : List String := []
  dialect : Dialect := .c
  /-- Whether listings are given too. -/
  asm : Bool := false
  snapshots : Bool := false
  /-- Where files are written; without it, text is printed. -/
  outputDir : Option String := none
  /-- The file of the string table. -/
  strings : Option String := none
  /-- The file of the object table. -/
  objects : Option String := none
  maxSweeps : Nat := ({} : Options).maxSweeps
  noFormat : Bool := false
  timings : Bool := false
  verbose : Nat := 0
deriving DecidableEq, Repr

/-- The settings that concern a single unit. -/
def Arguments.options (args : Arguments) : Options :=
  { dialect := args.dialect, snapshots := args.snapshots, maxSweeps := args.maxSweeps }

/-- The options that take a value. -/
inductive ValueOption where
  | dialect
  | outputDir
  | strings
  | objects
  | maxSweeps
deriving DecidableEq, Repr

namespace ValueOption

/-- The long name of an option. -/
def name : ValueOption → String
  | .dialect => "dialect"
  | .outputDir => "output-dir"
  | .strings => "strings"
  | .objects => "objects"
  | .maxSweeps => "max-sweeps"

/-- Every option. -/
def all : List ValueOption := [.dialect, .outputDir, .strings, .objects, .maxSweeps]

end ValueOption

/-- The options that stand alone. -/
inductive Flag where
  | asm
  | snapshots
  | noFormat
  | timings
  | verbose
  | help
  | version
deriving DecidableEq, Repr

namespace Flag

/-- The long name of a flag. -/
def name : Flag → String
  | .asm => "asm"
  | .snapshots => "snapshots"
  | .noFormat => "no-format"
  | .timings => "timings"
  | .verbose => "verbose"
  | .help => "help"
  | .version => "version"

/-- Every flag. -/
def all : List Flag := [.asm, .snapshots, .noFormat, .timings, .verbose, .help, .version]

end Flag

/-- An option of either kind. -/
inductive Switch where
  | flag (flag : Flag)
  | value (option : ValueOption)
deriving DecidableEq, Repr

namespace Switch

/-- The option with a long name. -/
def ofName? (name : String) : Option Switch :=
  match Flag.all.find? (·.name == name) with
  | some f => some (.flag f)
  | none => (ValueOption.all.find? (·.name == name)).map .value

/-- The option with a short name. -/
def ofLetter? : Char → Option Switch
  | 'o' => some (.value .outputDir)
  | 'v' => some (.flag .verbose)
  | 'h' => some (.flag .help)
  | 'V' => some (.flag .version)
  | _ => none

end Switch

/-- Why a command line does not start a run. -/
inductive ArgumentError where
  /-- There is no input. -/
  | missingInput
  /-- A word looks like an option and is none. -/
  | unknown (word : String)
  /-- An option, or an input, has no value or one that is not allowed. -/
  | invalidValue (subject value : String)
  /-- The value of an option is not of its kind. -/
  | malformedValue (subject value : String)
  /-- An option that may be given once is given again. -/
  | repeated (subject : String)
  /-- A flag is given a value. -/
  | unexpectedValue (subject value : String)
  /-- The user asks how the program is called. -/
  | helpRequested
  /-- The user asks for the version. -/
  | versionRequested
deriving DecidableEq, Repr

/-- The wording of a refusal. -/
def ArgumentError.message : ArgumentError → String
  | .missingInput => "an input is required"
  | .unknown word => "unexpected argument '" ++ word ++ "'"
  | .invalidValue subject value => "invalid value '" ++ value ++ "' for " ++ subject
  | .malformedValue subject value => "invalid value '" ++ value ++ "' for " ++ subject
  | .repeated subject => subject ++ " cannot be used multiple times"
  | .unexpectedValue subject value => "unexpected value '" ++ value ++ "' for " ++ subject
  | .helpRequested => "help is requested"
  | .versionRequested => "the version is requested"

/-! ### Values -/

/-- The dialect with a name. -/
def dialectOfName? : String → Option Dialect
  | "c" => some .c
  | "lua" => some .lua
  | _ => none

/-- The value of decimal digits, if there is one at least and nothing else. -/
def natOfDigits? (digits : List Char) : Option Nat :=
  if digits.isEmpty || digits.any (!·.isDigit) then none
  else some (digits.foldl (fun n c => 10 * n + (c.toNat - '0'.toNat)) 0)

/-- A number below `2 ^ 64` in decimal digits, after a plus sign or none. -/
def countOfText? (s : String) : Option Nat :=
  let digits :=
    match s.toList with
    | '+' :: rest => rest
    | chars => chars
  (natOfDigits? digits).filter (· < Nat.pow 2 64)

/-! ### What is read so far -/

/-- The settings read so far. -/
structure Draft where
  inputs : List String := []
  dialect : Option Dialect := none
  outputDir : Option String := none
  strings : Option String := none
  objects : Option String := none
  maxSweeps : Option Nat := none
  flags : List Flag := []
  verbose : Nat := 0

namespace Draft

/-- Whether an option has its value. -/
def has (draft : Draft) : ValueOption → Bool
  | .dialect => draft.dialect.isSome
  | .outputDir => draft.outputDir.isSome
  | .strings => draft.strings.isSome
  | .objects => draft.objects.isSome
  | .maxSweeps => draft.maxSweeps.isSome

/-- The path that is the value of an option. -/
def pathValue (option : ValueOption) (value : String) : Except ArgumentError String :=
  if value.isEmpty then .error (.invalidValue option.name value) else .ok value

/-- Gives an option its value.  It may have none before. -/
def set (draft : Draft) (option : ValueOption) (value : String) : Except ArgumentError Draft :=
  if draft.has option then .error (.repeated option.name)
  else
    match option with
    | .dialect =>
      match dialectOfName? value with
      | some d => .ok { draft with dialect := some d }
      | none => .error (.invalidValue option.name value)
    | .outputDir => (pathValue option value).map fun p => { draft with outputDir := some p }
    | .strings => (pathValue option value).map fun p => { draft with strings := some p }
    | .objects => (pathValue option value).map fun p => { draft with objects := some p }
    | .maxSweeps =>
      match countOfText? value with
      | some n => .ok { draft with maxSweeps := some n }
      | none => .error (.malformedValue option.name value)

/-- Adds inputs.  None may be empty. -/
def addInputs (draft : Draft) (inputs : List String) : Except ArgumentError Draft :=
  if inputs.any String.isEmpty then .error (.invalidValue "input" "")
  else .ok { draft with inputs := draft.inputs ++ inputs }

/-- Raises a flag.  Only the level of detail may be raised again, up to 255. -/
def raise (draft : Draft) : Flag → Except ArgumentError Draft
  | .help => .error .helpRequested
  | .version => .error .versionRequested
  | .verbose => .ok { draft with verbose := min 255 (draft.verbose + 1) }
  | f =>
    if draft.flags.contains f then .error (.repeated f.name)
    else .ok { draft with flags := f :: draft.flags }

/-- The settings, once every word is read.  There is one input at least. -/
def finish (draft : Draft) : Except ArgumentError Arguments :=
  if draft.inputs.isEmpty then .error .missingInput
  else
    let default : Arguments := {}
    .ok
      { inputs := draft.inputs
        dialect := draft.dialect.getD default.dialect
        asm := draft.flags.contains .asm
        snapshots := draft.flags.contains .snapshots
        outputDir := draft.outputDir
        strings := draft.strings
        objects := draft.objects
        maxSweeps := draft.maxSweeps.getD default.maxSweeps
        noFormat := draft.flags.contains .noFormat
        timings := draft.flags.contains .timings
        verbose := draft.verbose }

end Draft

/-! ### Reading the words -/

/-- What is read and not checked yet. -/
inductive Pending where
  | nothing
  /-- An option whose value is to come. -/
  | awaiting (option : ValueOption)
  /-- An option with its value. -/
  | given (option : ValueOption) (value : String)
  /-- Inputs without an option between them. -/
  | inputs (values : List String)

/-- The state between two words. -/
structure ArgumentReader where
  draft : Draft := {}
  pending : Pending := .nothing
  /-- Whether every further word is an input. -/
  onlyInputs : Bool := false

namespace ArgumentReader

/-- Checks what is pending. -/
def settle (reader : ArgumentReader) : Except ArgumentError ArgumentReader :=
  let settled (draft : Draft) : ArgumentReader := { reader with draft, pending := .nothing }
  match reader.pending with
  | .nothing => .ok reader
  | .awaiting option => .error (.invalidValue option.name "")
  | .given option value => (reader.draft.set option value).map settled
  | .inputs values => (reader.draft.addInputs values).map settled

/-- Takes a flag. -/
def flag (reader : ArgumentReader) (f : Flag) : Except ArgumentError ArgumentReader := do
  let reader ← reader.settle
  return { reader with draft := ← reader.draft.raise f }

/-- Takes an option whose value is written in the same word, or else comes with the next word. -/
def option (reader : ArgumentReader) (o : ValueOption) (attached : Option String) :
    Except ArgumentError ArgumentReader := do
  let reader ← reader.settle
  match attached with
  | some value => return { reader with draft := ← reader.draft.set o value }
  | none => return { reader with pending := .awaiting o }

/-- Takes an input. -/
def input (reader : ArgumentReader) (word : String) : Except ArgumentError ArgumentReader :=
  match reader.pending with
  | .inputs values => .ok { reader with pending := .inputs (values ++ [word]) }
  | _ => reader.settle.map fun reader => { reader with pending := .inputs [word] }

/-- Takes a word that is no option: the value that an option waits for, or an input. -/
def plain (reader : ArgumentReader) (word : String) : Except ArgumentError ArgumentReader :=
  match reader.pending with
  | .awaiting o => .ok { reader with pending := .given o word }
  | _ => reader.input word

/-- Takes a long name and the value after its equals sign. -/
def long (reader : ArgumentReader) (name : String) (attached : Option String) :
    Except ArgumentError ArgumentReader :=
  match Switch.ofName? name with
  | none => .error (.unknown ("--" ++ name))
  | some (.value o) => reader.option o attached
  | some (.flag f) =>
    match attached with
    | some value => .error (.unexpectedValue f.name value)
    | none => reader.flag f

/-- The value that follows a short name in the same word, after an equals sign or none. -/
def attachedToLetter : List Char → Option String
  | [] => none
  | '=' :: value => some (String.ofList value)
  | value => some (String.ofList value)

/-- Takes short names one after the other.  All that follows an option with a value is its value. -/
def short (reader : ArgumentReader) : List Char → Except ArgumentError ArgumentReader
  | [] => .ok reader
  | c :: rest =>
    match Switch.ofLetter? c with
    | none => .error (.unknown ("-" ++ c.toString))
    | some (.value o) => reader.option o (attachedToLetter rest)
    | some (.flag f) => do (← reader.flag f).short rest

/-- A long name with the value after its first equals sign. -/
def splitEquals (chars : List Char) : String × Option String :=
  match chars.dropWhile (· != '=') with
  | [] => (String.ofList chars, none)
  | _ :: value => (String.ofList (chars.takeWhile (· != '=')), some (String.ofList value))

/-- Takes a word. -/
def word (reader : ArgumentReader) (w : String) : Except ArgumentError ArgumentReader :=
  if reader.onlyInputs then reader.input w
  else
    match w.toList with
    | ['-', '-'] => .ok { reader with onlyInputs := true }
    | '-' :: '-' :: chars =>
      let (name, attached) := splitEquals chars
      reader.long name attached
    | '-' :: c :: rest => reader.short (c :: rest)
    | _ => reader.plain w

end ArgumentReader

/-- Reads the words of a command line. -/
def Arguments.parse (words : List String) : Except ArgumentError Arguments := do
  let reader ← words.foldlM ArgumentReader.word {}
  (← reader.settle).draft.finish

end Decompiler.Batch
