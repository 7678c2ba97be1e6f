/-!
# Indented lines

The printers give lines with a depth of indentation; the text is put together at the end.
-/

namespace Decompiler.Print

/-- A line and how deep it is indented. -/
structure Line where
  depth : Nat
  text : String
deriving DecidableEq, Repr

/-- The text of a line: four blanks for each level. -/
def Line.render (line : Line) : String :=
  String.ofList (List.replicate (4 * line.depth) ' ') ++ line.text ++ "\n"

/-- The text of a list of lines. -/
def renderLines (lines : List Line) : String :=
  String.join (lines.map Line.render)

end Decompiler.Print
