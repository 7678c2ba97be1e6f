import Decompiler.Print.CLike
import Decompiler.Print.Lua
import Decompiler.Print.Outline

/-!
# Text of a unit

The text of a finished tree in either language, and the outlines of its earlier stages.
-/

namespace Decompiler

/-- The text of a finished tree. -/
def render (labels : Labels) (dialect : Dialect) (block : Block) : String :=
  Print.renderLines <|
    match dialect with
    | .c => Print.CLike.listLines labels 0 block.body
    | .lua =>
      Print.Lua.listLines labels { depth := 0, loop := none, next := 0, tail := true } block.body

/-- The outline of a block. -/
def outline (labels : Labels) (block : Block) : String :=
  Print.renderLines (Print.Outline.stmtLines labels 0 (.seq block))

/-- The outline of a list of statements. -/
def outlineStmts (labels : Labels) (stmts : List Stmt) : String :=
  Print.renderLines (Print.Outline.listLines labels 0 stmts)

/-- The outline of a list of basic blocks. -/
def outlineBlocks (labels : Labels) (blocks : List BasicBlock) : String :=
  outlineStmts labels (blocks.map Stmt.basic)

end Decompiler
