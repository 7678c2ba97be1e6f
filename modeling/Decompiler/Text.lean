/-!
# Text layout

Alignment, lines and parts, as listings, dumps, reports and paths use them.  Main statement: joining
the parts of a text gives the text (`joinWith_split`).
-/

namespace Decompiler.Text

/-- Blanks that fill a text up to `width` characters. -/
def padding (width : Nat) (s : String) : String :=
  String.ofList (List.replicate (width - s.length) ' ')

/-- Text with blanks on its left up to `width` characters. -/
def alignRight (width : Nat) (s : String) : String :=
  padding width s ++ s

/-- Text with blanks on its right up to `width` characters. -/
def alignLeft (width : Nat) (s : String) : String :=
  s ++ padding width s

/-- The characters of a line without a carriage return at their end. -/
def dropReturn (line : List Char) : List Char :=
  if line.getLast? = some '\r' then line.dropLast else line

/-- Splits characters at line feeds; `line` holds the reversed start of the current line.  A
carriage return before a line feed belongs to the line end, and an empty last line is none. -/
def splitLines (line : List Char) : List Char → List (List Char)
  | [] => if line.isEmpty then [] else [line.reverse]
  | c :: rest =>
    if c = '\n' then dropReturn line.reverse :: splitLines [] rest else splitLines (c :: line) rest

/-- The lines of a text. -/
def lines (s : String) : List String :=
  (splitLines [] s.toList).map String.ofList

/-- Splits characters at a separator; `part` holds the reversed start of the current part. -/
def splitChars (separator : Char) (part : List Char) : List Char → List (List Char)
  | [] => [part.reverse]
  | c :: rest =>
    if c = separator then part.reverse :: splitChars separator [] rest
    else splitChars separator (c :: part) rest

/-- The parts of a text between the separators.  There is one part more than there are separators.
-/
def split (separator : Char) (s : String) : List String :=
  (splitChars separator [] s.toList).map String.ofList

/-- Joins texts with a separator between them. -/
def joinWith (separator : String) : List String → String
  | [] => ""
  | [s] => s
  | s :: rest => s ++ separator ++ joinWith separator rest

/-- There is always a part. -/
theorem splitChars_ne_nil (separator : Char) (part rest : List Char) :
    splitChars separator part rest ≠ [] := by
  induction rest generalizing part with
  | nil => simp [splitChars]
  | cons c rest ih =>
    rw [splitChars]
    split
    · simp
    · exact ih _

/-- Joining a first text with others. -/
theorem joinWith_cons (separator s : String) {rest : List String} (h : rest ≠ []) :
    joinWith separator (s :: rest) = s ++ separator ++ joinWith separator rest := by
  cases rest with
  | nil => exact absurd rfl h
  | cons t rest => rfl

/-- Joining the parts of characters gives them back, after the start of the current part. -/
theorem joinWith_splitChars (separator : Char) (part rest : List Char) :
    joinWith (String.ofList [separator]) ((splitChars separator part rest).map String.ofList)
      = String.ofList (part.reverse ++ rest) := by
  induction rest generalizing part with
  | nil => simp [splitChars, joinWith]
  | cons c rest ih =>
    rw [splitChars]
    split
    · rename_i h
      subst h
      rw [List.map_cons, joinWith_cons _ _ (by simp [splitChars_ne_nil]), ih]
      rw [← String.ofList_append, ← String.ofList_append]
      simp
    · rw [ih]
      simp

/-- Joining the parts of a text gives the text. -/
theorem joinWith_split (separator : Char) (s : String) :
    joinWith (String.ofList [separator]) (split separator s) = s := by
  rw [split, joinWith_splitChars]
  simp

end Decompiler.Text
