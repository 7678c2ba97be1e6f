import Decompiler.Text

/-!
# Paths

A path is kept as it is written: the parts between its slashes, empty parts and dots included, so
that it is reported just as it was given.  What names a file in it is read off the parts that count.
-/

namespace Decompiler.Batch

/-- A path as it is written. -/
structure Path where
  /-- Whether it starts with a slash. -/
  absolute : Bool := false
  /-- The parts between the slashes, without the empty one before a first slash. -/
  segments : List String
deriving DecidableEq, Repr

namespace Path

/-- Reads a path. -/
def ofText (s : String) : Path :=
  match Text.split '/' s with
  | "" :: first :: rest => ⟨true, first :: rest⟩
  | segments => ⟨false, segments⟩

/-- Writes a path. -/
def text (p : Path) : String :=
  (if p.absolute then "/" else "") ++ Text.joinWith "/" p.segments

/-- A path is written as it was read. -/
theorem text_ofText (s : String) : (ofText s).text = s := by
  have hjoin := Text.joinWith_split '/' s
  unfold ofText text
  split
  · rename_i first rest h
    rw [h, Text.joinWith_cons _ _ (by simp)] at hjoin
    simpa using hjoin
  · simpa using hjoin

/-- The relative path through the given names. -/
def ofNames (names : List String) : Path :=
  ⟨false, names⟩

/-- Whether nothing is written. -/
def isEmpty (p : Path) : Bool :=
  !p.absolute && p.segments.all (· == "")

/-! ### The parts that count -/

/-- Whether a part stays where it is. -/
def stays (segment : String) : Bool :=
  segment == "" || segment == "."

/-- The path without the parts at its end that stay where they are.  A dot at the very start of a
relative path is kept. -/
def trimmed (p : Path) : Path :=
  match p.absolute, p.segments with
  | false, "." :: rest => ⟨false, "." :: (rest.reverse.dropWhile stays).reverse⟩
  | absolute, segments => ⟨absolute, (segments.reverse.dropWhile stays).reverse⟩

/-- The name of the file or directory that a path ends in, if it ends in a name. -/
def fileName? (p : Path) : Option String :=
  match p.trimmed.segments.getLast? with
  | none => none
  | some "." => none
  | some ".." => none
  | some name => some name

/-- The path of the directory that holds the end of a path. -/
def parent? (p : Path) : Option Path :=
  let path := p.trimmed
  if path.segments.isEmpty then none
  else some ({ path with segments := path.segments.dropLast }).trimmed

/-- The paths on the way to a path, shortest first, without the path itself. -/
def properPrefixes (p : Path) : List Path :=
  let names := p.segments.filter (!stays ·)
  (List.range (names.length - 1)).map fun n => ⟨p.absolute, names.take (n + 1)⟩

/-- A path below another.  An absolute path stands for itself. -/
def join (dir p : Path) : Path :=
  if p.absolute then p
  else
    let front := if dir.segments.getLast? = some "" then dir.segments.dropLast else dir.segments
    ⟨dir.absolute, front ++ p.segments⟩

/-! ### Extensions -/

/-- A file name before and after its last dot.  A dot at the start divides nothing. -/
def splitExtension (name : String) : String × Option String :=
  let reversed := name.toList.reverse
  match reversed.dropWhile (· != '.') with
  | [] => (name, none)
  | [_] => (name, none)
  | _ :: stem =>
    (String.ofList stem.reverse, some (String.ofList (reversed.takeWhile (· != '.')).reverse))

/-- The extension of the name that a path ends in. -/
def extension? (p : Path) : Option String :=
  p.fileName?.bind fun name => (splitExtension name).2

/-- A file name without its extension, up to the dot before it.  A name that has no extension is
kept whole. -/
def dropExtension (name : String) : String :=
  match splitExtension name with
  | (stem, some _) => stem ++ "."
  | (name, none) => name

/-- The path with another name at its end. -/
def withFileName (p : Path) (name : String) : Path :=
  let path := p.trimmed
  { path with segments := path.segments.dropLast ++ [name] }

/-- The path with an extension behind the stem of its file name, or with the stem alone if the
extension is empty.  A path that does not end in a name is left alone. -/
def setExtension (p : Path) (extension : String) : Path :=
  match p.fileName? with
  | none => p
  | some name =>
    let stem := (splitExtension name).1
    p.withFileName (if extension.isEmpty then stem else stem ++ "." ++ extension)

/-- The path with another extension, or with none if the new one is empty.  The old extension goes
first and its dot stays, so a path that then ends in two dots leads to a directory and takes no new
extension.  A path that does not end in a name is left alone. -/
def withExtension (p : Path) (extension : String) : Path :=
  match p.fileName? with
  | none => p
  | some name => (p.withFileName (dropExtension name)).setExtension extension

/-- The path with a text written behind it. -/
def append (p : Path) (suffix : String) : Path :=
  { p with segments := p.segments.dropLast ++ [p.segments.getLast?.getD "" ++ suffix] }

/-- Whether the names of one path come before those of another. -/
def namesBefore : List String → List String → Bool
  | [], [] => false
  | [], _ :: _ => true
  | _ :: _, [] => false
  | a :: as, b :: bs => if a = b then namesBefore as bs else decide (a < b)

end Path

end Decompiler.Batch
