import Decompiler.Batch.Path
import Decompiler.Order

/-!
# Files

What a run asks of a file system, and a file system that is a value.  `FileOps` lists the
operations; `FileStore` answers them from a table of entries, so that a run can be followed step by
step without any disk.  Its view is `FileStore.get?`, and the lemmas beside `put` and `erase` say
what they do to it.
-/

namespace Decompiler.Batch

/-- Why a file operation fails. -/
inductive FileError where
  | notFound
  | alreadyExists
  | notDirectory
  | isDirectory
  /-- A name or a whole path has too many bytes. -/
  | nameTooLong
  /-- A path has a NUL in it. -/
  | nulInPath
  /-- The bytes of a file are no text. -/
  | invalidText
  /-- Any other reason, in the words of the system. -/
  | other (reason : String)
deriving DecidableEq, Repr

/-- The wording of a reason. -/
def FileError.message : FileError → String
  | .notFound => "No such file or directory (os error 2)"
  | .alreadyExists => "File exists (os error 17)"
  | .notDirectory => "Not a directory (os error 20)"
  | .isDirectory => "Is a directory (os error 21)"
  | .nameTooLong => "File name too long (os error 36)"
  | .nulInPath => "file name contained an unexpected NUL byte"
  | .invalidText => "stream did not contain valid UTF-8"
  | .other reason => reason

/-- The operations of a file system, as a run needs them. -/
structure FileOps (m : Type → Type) where
  /-- Whether a path leads to a directory. -/
  isDirectory : Path → m Bool
  /-- Whether a path leads anywhere. -/
  isPresent : Path → m Bool
  /-- The bytes of a file. -/
  read : Path → ExceptT FileError m (List UInt8)
  /-- The files below a directory at any depth, by their names from there, in any order. -/
  filesBelow : Path → ExceptT FileError m (List (List String))
  /-- Makes one directory in a directory that is there. -/
  createDir : Path → ExceptT FileError m Unit
  /-- Makes a file hold a text. -/
  write : Path → String → ExceptT FileError m Unit
  /-- Removes a file. -/
  remove : Path → ExceptT FileError m Unit
  /-- The time in nanoseconds from some fixed moment. -/
  now : m Nat

namespace FileOps

variable {m : Type → Type} [Monad m]

/-- The text of a file. -/
def readText (ops : FileOps m) (p : Path) : ExceptT FileError m String := do
  let bytes ← ops.read p
  match String.fromUTF8? ⟨bytes.toArray⟩ with
  | some text => return text
  | none => throw .invalidText

/-- Goes on after a failure to make a directory if the directory is there all the same. -/
def unlessThere (ops : FileOps m) (p : Path) (failure : FileError) : ExceptT FileError m Unit := do
  if ← (ops.isDirectory p : m Bool) then return () else throw failure

/-- Makes one directory unless it is there. -/
def ensureDir (ops : FileOps m) (p : Path) : ExceptT FileError m Unit :=
  tryCatch (ops.createDir p) (ops.unlessThere p)

/-- Makes a directory and those on the way to it.  The way is walked only where the directory itself
cannot be made because something before it is missing. -/
def createDirs (ops : FileOps m) (p : Path) : ExceptT FileError m Unit :=
  if p.isEmpty then return ()
  else
    tryCatch (ops.createDir p) fun
      | .notFound => (p.properPrefixes ++ [p]).forM ops.ensureDir
      | failure => ops.unlessThere p failure

end FileOps

/-! ### The file system as a value -/

/-- What stands at a place. -/
inductive Entry where
  | directory
  | file (bytes : List UInt8)
deriving DecidableEq, Repr

/-- A file system.  A place is named by the names that lead to it from the root.  The working
directory, where relative paths start, and those on the way to it are there always. -/
structure FileStore where
  workDir : List String := []
  entries : List (List String × Entry) := []
deriving Repr

namespace FileStore

/-- Whether a place is the working directory or a directory above it. -/
def isUpward (store : FileStore) (place : List String) : Bool :=
  place.isPrefixOf store.workDir

/-- The place one step up.  From the root that is the root. -/
def up (place : List String) : List String :=
  place.dropLast

/-- The names that lead down from one place to another, if it is below. -/
def below? (top place : List String) : Option (List String) :=
  if top.isPrefixOf place then
    match place.drop top.length with
    | [] => none
    | names => some names
  else none

/-- What stands at a place.  The working directory and all above it are directories. -/
def get? (store : FileStore) (place : List String) : Option Entry :=
  if store.isUpward place then some .directory
  else (store.entries.find? fun item => decide (item.1 = place)).map Prod.snd

/-- Puts an entry at a place, over the one that stood there. -/
def put (store : FileStore) (place : List String) (entry : Entry) : FileStore :=
  { store with
    entries := store.entries.filter (fun item => decide (item.1 ≠ place)) ++ [(place, entry)] }

/-- Clears a place. -/
def erase (store : FileStore) (place : List String) : FileStore :=
  { store with entries := store.entries.filter fun item => decide (item.1 ≠ place) }

/-- Removing the entries of one place does not change what is found at another. -/
theorem find?_filter_ne (entries : List (List String × Entry)) {place other : List String}
    (h : other ≠ place) :
    (entries.filter fun item => decide (item.1 ≠ place)).find? (fun item => decide (item.1 = other))
      = entries.find? fun item => decide (item.1 = other) := by
  rw [List.find?_filter]
  congr 1
  funext item
  by_cases hi : item.1 = other <;> simp [hi, h]

/-- Other places hold what they held. -/
theorem get?_put_of_ne (store : FileStore) (entry : Entry) {place other : List String}
    (h : other ≠ place) : (store.put place entry).get? other = store.get? other := by
  unfold get? put isUpward
  rw [List.find?_append, find?_filter_ne store.entries h]
  simp [Ne.symm h]

/-- The place holds what was put there. -/
theorem get?_put_self (store : FileStore) (entry : Entry) {place : List String}
    (h : store.isUpward place = false) : (store.put place entry).get? place = some entry := by
  have hnone : (store.entries.filter fun item => decide (item.1 ≠ place)).find?
      (fun item => decide (item.1 = place)) = none := by
    simp
  unfold isUpward at h
  unfold get? put isUpward
  rw [List.find?_append, hnone]
  simp [h]

/-- Other places hold what they held. -/
theorem get?_erase_of_ne (store : FileStore) {place other : List String}
    (h : other ≠ place) : (store.erase place).get? other = store.get? other := by
  unfold get? erase isUpward
  rw [find?_filter_ne store.entries h]

/-- A cleared place holds nothing. -/
theorem get?_erase_self (store : FileStore) {place : List String}
    (h : store.isUpward place = false) : (store.erase place).get? place = none := by
  unfold isUpward at h
  simp [get?, erase, isUpward, h]

/-- The files, each with its place. -/
def files (store : FileStore) : List (List String × List UInt8) :=
  store.entries.filterMap fun
    | (place, .file bytes) => some (place, bytes)
    | (_, .directory) => none

/-- The most bytes that a name can have. -/
def maxNameBytes : Nat := 255

/-- The most bytes that a path can have. -/
def maxPathBytes : Nat := 4095

/-- Refuses a path that cannot be asked about, whatever the store holds. -/
def checkPath (p : Path) : Except FileError Unit :=
  if p.text.toList.contains '\x00' then .error .nulInPath
  else if maxPathBytes < p.text.utf8ByteSize then .error .nameTooLong
  else .ok ()

/-- Follows the parts of a path from a place.  Each step starts from a directory; only where the
last one leads nothing need stand, but its name must not be too long. -/
def walk (store : FileStore) (place : List String) : List String → Except FileError (List String)
  | [] => .ok place
  | segment :: rest =>
    match store.get? place with
    | none => .error .notFound
    | some (.file _) => .error .notDirectory
    | some .directory =>
      if Path.stays segment then store.walk place rest
      else if segment = ".." then store.walk (up place) rest
      else if maxNameBytes < segment.utf8ByteSize then .error .nameTooLong
      else store.walk (place ++ [segment]) rest

/-- The place where a path starts. -/
def origin (store : FileStore) (p : Path) : List String :=
  if p.absolute then [] else store.workDir

/-- The place that a path leads to. -/
def locate (store : FileStore) (p : Path) : Except FileError (List String) :=
  match checkPath p with
  | .error e => .error e
  | .ok () => if p.isEmpty then .error .notFound else store.walk (store.origin p) p.segments

/-- The entry that a path leads to. -/
def lookup (store : FileStore) (p : Path) : Except FileError Entry :=
  match store.locate p with
  | .error e => .error e
  | .ok place =>
    match store.get? place with
    | none => .error .notFound
    | some entry => .ok entry

/-- Whether a path leads to a directory. -/
def isDirectory (store : FileStore) (p : Path) : Bool :=
  match store.lookup p with
  | .ok .directory => true
  | _ => false

/-- Whether a path leads anywhere. -/
def isPresent (store : FileStore) (p : Path) : Bool :=
  match store.lookup p with
  | .ok _ => true
  | .error _ => false

/-- The bytes of a file. -/
def read (store : FileStore) (p : Path) : Except FileError (List UInt8) :=
  match store.lookup p with
  | .error e => .error e
  | .ok .directory => .error .isDirectory
  | .ok (.file bytes) => .ok bytes

/-- The files below a directory, by their names from there.  A directory is entered by its path; one
whose path cannot be asked about stands there like a file. -/
def filesBelow (store : FileStore) (p : Path) : Except FileError (List (List String)) :=
  match store.locate p with
  | .error e => .error e
  | .ok top =>
    let isEntered (names : List String) : Bool := (checkPath (p.join (.ofNames names))).isOk
    .ok (store.entries.filterMap fun (place, entry) =>
      (below? top place).filter fun names =>
        isEntered names.dropLast && (entry != .directory || !isEntered names))

/-- Makes a file hold some bytes. -/
def write (store : FileStore) (p : Path) (bytes : List UInt8) : Except FileError FileStore :=
  match store.locate p with
  | .error e => .error e
  | .ok place =>
    match store.get? place with
    | some .directory => .error .isDirectory
    | _ => .ok (store.put place (.file bytes))

/-- Removes a file. -/
def remove (store : FileStore) (p : Path) : Except FileError FileStore :=
  match store.locate p with
  | .error e => .error e
  | .ok place =>
    match store.get? place with
    | none => .error .notFound
    | some .directory => .error .isDirectory
    | some (.file _) => .ok (store.erase place)

/-- Makes one directory.  Slashes at the end of its path name nothing. -/
def createDir (store : FileStore) (p : Path) : Except FileError FileStore := do
  checkPath p
  let place ← store.locate
    { p with segments := (p.segments.reverse.dropWhile (· == "")).reverse }
  match store.get? place with
  | some _ => .error .alreadyExists
  | none => .ok (store.put place .directory)

/-- The files below the working directory that are new or hold something else than in an earlier
store, in the order of their paths as texts. -/
def changedSince (store earlier : FileStore) : List (Path × List UInt8) :=
  let changed := store.files.filter fun file => !earlier.files.contains file
  stableSort (fun a b => decide (a.1.text < b.1.text))
    (changed.filterMap fun (place, bytes) =>
      (below? store.workDir place).map fun names => (Path.ofNames names, bytes))

/-- An operation that asks the store and leaves it as it is. -/
def ask {α : Type} (question : FileStore → Except FileError α) :
    ExceptT FileError (StateM FileStore) α :=
  fun store => (question store, store)

/-- An operation that changes the store if it succeeds. -/
def change (action : FileStore → Except FileError FileStore) :
    ExceptT FileError (StateM FileStore) Unit :=
  fun store =>
    match action store with
    | .ok store => (.ok (), store)
    | .error e => (.error e, store)

/-- The operations on a store.  Its clock stands still. -/
def ops : FileOps (StateM FileStore) where
  isDirectory p := fun store => (store.isDirectory p, store)
  isPresent p := fun store => (store.isPresent p, store)
  read p := ask (·.read p)
  filesBelow p := ask (·.filesBelow p)
  createDir p := change (·.createDir p)
  write p text := change (·.write p text.toUTF8.toList)
  remove p := change (·.remove p)
  now := pure 0

/-- Puts a file into a store, with the directories that lead to it. -/
def addFile (store : FileStore) (p : Path) (bytes : List UInt8) : Except FileError FileStore :=
  match p.parent? with
  | some dir => ((ops.createDirs dir).run.run store).2.write p bytes
  | none => store.write p bytes

/-- A store with some directories and files, and a working directory below the root. -/
def ofFiles (dirs : List Path) (files : List (Path × List UInt8)) : Except FileError FileStore :=
  let store := dirs.foldl (fun store dir => ((ops.createDirs dir).run.run store).2)
    { workDir := ["work"] }
  files.foldlM (fun store (p, bytes) => store.addFile p bytes) store

end FileStore

end Decompiler.Batch
