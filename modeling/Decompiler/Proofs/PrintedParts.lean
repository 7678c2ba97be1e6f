import Mathlib.Tactic.Common
import Decompiler.Print.Lua

/-!
# Parts of printed text

Lua text is printed part by part: a part (`Part`) is a piece of code with the place where it is printed, and
its pieces (`Part.pieces`) are lines of its own and smaller parts.  `Shown` says that a part of a text is
printed inside of another one, with the parts around it, the lines before it and the lines after it.

Every line of a text is a piece of exactly one part that is shown in it (`Part.exists_shown`), and what is
true of a part whenever it is true of the parts in it is true of all parts (`Part.induction`).
-/

namespace Decompiler.Print.Lua

/-- Code that is printed as a whole. -/
inductive Code where
  | stmt (s : Stmt)
  | list (stmts : List Stmt)
  /-- The `else` branch of a condition, with the `end` of the condition. -/
  | orElse (stmts : List Stmt)
  /-- The tested cases of a switch.  The first of all is printed with `if`. -/
  | tests (first : Bool) (cases : List SwitchCase)
  /-- The default case of a switch that has tested cases. -/
  | elseDefault (cases : List SwitchCase)
  /-- The default case of any other switch. -/
  | bareDefault (cases : List SwitchCase)

/-- Code and the place where it is printed. -/
structure Part where
  place : Place
  code : Code

/-- The lines of a part. -/
def Part.lines (labels : Labels) : Part → List Line
  | ⟨place, .stmt s⟩ => stmtLines labels place s
  | ⟨place, .list stmts⟩ => listLines labels place stmts
  | ⟨place, .orElse stmts⟩ => elseLines labels place stmts
  | ⟨place, .tests first cases⟩ => testLines labels place first cases
  | ⟨place, .elseDefault cases⟩ => elseDefaultLines labels place cases
  | ⟨place, .bareDefault cases⟩ => bareDefaultLines labels place cases

/-- A line of a part, or a part in it. -/
inductive Piece where
  | line (l : Line)
  | part (p : Part)

/-- The lines of a piece. -/
def Piece.lines (labels : Labels) : Piece → List Line
  | .line l => [l]
  | .part p => p.lines labels

/-- The lines of a list of pieces. -/
def linesOf (labels : Labels) (pieces : List Piece) : List Line :=
  pieces.flatMap (Piece.lines labels)

/-- The pieces of a condition, behind its first line. -/
def condPieces (place : Place) (thenBody elseBody : List Stmt) : List Piece :=
  [.part ⟨place.inside, .list thenBody⟩,
    .part ⟨place.skip (listLoopCount thenBody), .orElse elseBody⟩]

/-- The pieces of a loop or a scope. -/
def loopPieces (place : Place) (head : String) (body : List Stmt) : List Piece :=
  .line ⟨place.depth, head⟩ :: .part ⟨place.loopBody body, .list body⟩ ::
    (continueLines place body).map .line ++ [.line ⟨place.depth, "end"⟩]

/-- The pieces of the cases of a switch. -/
def casesPieces (place : Place) (cases : List SwitchCase) : List Piece :=
  if cases.any isTested then
    [.part ⟨place, .tests true cases⟩, .part ⟨place.skip (testsLoopCount cases), .elseDefault cases⟩,
      .line ⟨place.depth, "end"⟩]
  else [.part ⟨place.skip (testsLoopCount cases), .bareDefault cases⟩]

/-- The pieces of a statement. -/
def stmtPieces (labels : Labels) (place : Place) : Stmt → List Piece
  | .basic block => [.part ⟨place, .list block.body⟩]
  | .seq block => [.part ⟨place, .list block.body⟩]
  | .cond test thenBlock elseBlock =>
    .line ⟨place.depth, "if " ++ text test ++ " then"⟩ :: condPieces place thenBlock.body elseBlock.body
  | .loop test body => loopPieces place (loopHead test) body.body
  | .scope env body _ => loopPieces place ("for _, self in with_instances(" ++ text env ++ ") do") body.body
  | .switch value cases =>
    .line ⟨place.depth, "repeat"⟩ :: .line ⟨place.depth + 1, "local switch_value = " ++ text value⟩ ::
      casesPieces place.inside cases ++ [.line ⟨place.depth, "until true"⟩]
  | s => (stmtLines labels place s).map .line

namespace Part

/-- The pieces of a part. -/
def pieces (labels : Labels) : Part → List Piece
  | ⟨place, .stmt s⟩ => stmtPieces labels place s
  | ⟨_, .list []⟩ => []
  | ⟨place, .list (s :: rest)⟩ =>
    [.part ⟨{ place with tail := place.tail && rest.isEmpty }, .stmt s⟩,
      .part ⟨place.skip (loopCount s), .list rest⟩]
  | ⟨place, .orElse []⟩ => [.line ⟨place.depth, "end"⟩]
  | ⟨place, .orElse [.cond test thenBlock elseBlock]⟩ =>
    .line ⟨place.depth, "elseif " ++ text test ++ " then"⟩ ::
      condPieces place thenBlock.body elseBlock.body
  | ⟨place, .orElse (s :: rest)⟩ =>
    [.line ⟨place.depth, "else"⟩, .part ⟨place.inside, .list (s :: rest)⟩, .line ⟨place.depth, "end"⟩]
  | ⟨_, .tests _ []⟩ => []
  | ⟨place, .tests first (c :: rest)⟩ =>
    if isTested c then
      [.line ⟨place.depth, (if first then "if " else "elseif ") ++ caseTest c.values ++ " then"⟩,
        .part ⟨place.inside, .list c.body.body⟩,
        .part ⟨place.skip (listLoopCount c.body.body), .tests false rest⟩]
    else [.part ⟨place, .tests first rest⟩]
  | ⟨_, .elseDefault []⟩ => []
  | ⟨place, .elseDefault (c :: rest)⟩ =>
    if c.isDefault then [.line ⟨place.depth, "else"⟩, .part ⟨place.inside, .list c.body.body⟩]
    else [.part ⟨place, .elseDefault rest⟩]
  | ⟨_, .bareDefault []⟩ => []
  | ⟨place, .bareDefault (c :: rest)⟩ =>
    if c.isDefault then [.part ⟨place, .list c.body.body⟩] else [.part ⟨place, .bareDefault rest⟩]

end Part

/-- A switch without tested cases has no lines for them. -/
lemma testLines_eq_nil (labels : Labels) (place : Place) (first : Bool) {cases : List SwitchCase}
    (h : cases.any isTested = false) : testLines labels place first cases = [] := by
  induction cases with
  | nil => rfl
  | cons c rest ih =>
    rw [List.any_cons, Bool.or_eq_false_iff] at h
    rw [testLines, if_neg (by simp [h.1]), ih h.2]

/-- An `else` branch is nothing, one condition, or anything else. -/
lemma orElse_cases (labels : Labels) (place : Place) (stmts : List Stmt) :
    stmts = [] ∨
    (∃ test thenBlock elseBlock, stmts = [.cond test thenBlock elseBlock]) ∨
    Part.pieces labels ⟨place, .orElse stmts⟩ =
        [.line ⟨place.depth, "else"⟩, .part ⟨place.inside, .list stmts⟩, .line ⟨place.depth, "end"⟩] ∧
      elseLines labels place stmts =
        ⟨place.depth, "else"⟩ :: listLines labels place.inside stmts ++ [⟨place.depth, "end"⟩] := by
  cases stmts with
  | nil => exact .inl rfl
  | cons s rest =>
    cases rest with
    | cons t rest =>
      exact .inr (.inr ⟨by cases s <;> rfl, by simp [elseLines, listLines, Place.inside]⟩)
    | nil =>
      cases s with
      | cond => exact .inr (.inl ⟨_, _, _, rfl⟩)
      | _ => exact .inr (.inr ⟨rfl, by simp [elseLines, listLines, Place.inside]⟩)

section Lines

variable (labels : Labels)

@[simp] lemma linesOf_nil : linesOf labels [] = [] := rfl

@[simp] lemma linesOf_append (left right : List Piece) :
    linesOf labels (left ++ right) = linesOf labels left ++ linesOf labels right :=
  List.flatMap_append

@[simp] lemma linesOf_cons (piece : Piece) (right : List Piece) :
    linesOf labels (piece :: right) = piece.lines labels ++ linesOf labels right :=
  List.flatMap_cons

/-- Lines that are pieces are printed as they are. -/
@[simp] lemma linesOf_map_line (lines : List Line) : linesOf labels (lines.map .line) = lines := by
  rw [linesOf, List.flatMap_map]
  exact List.flatMap_singleton' _

lemma linesOf_loopPieces (place : Place) (head : String) (body : List Stmt) :
    linesOf labels (loopPieces place head body) =
      ⟨place.depth, head⟩ :: listLines labels (place.loopBody body) body ++ continueLines place body ++
        [⟨place.depth, "end"⟩] := by
  simp [loopPieces, Piece.lines, Part.lines]

lemma linesOf_stmtPieces (place : Place) (s : Stmt) :
    linesOf labels (stmtPieces labels place s) = stmtLines labels place s := by
  cases s with
  | basic block | seq block => simp [stmtPieces, Piece.lines, Part.lines, stmtLines]
  | cond test thenBlock elseBlock => simp [stmtPieces, condPieces, Piece.lines, Part.lines, stmtLines]
  | loop test body => exact linesOf_loopPieces labels place _ _
  | scope env body skip => exact linesOf_loopPieces labels place _ _
  | switch value cases =>
    rw [stmtPieces, casesPieces, stmtLines]
    split
    · simp [Piece.lines, Part.lines, Place.inside]
    · rename_i htested
      rw [testLines_eq_nil labels _ _ (by simpa using htested)]
      simp [Piece.lines, Part.lines, Place.inside]
  | _ => exact linesOf_map_line labels _

/-- A part is printed as its pieces, one after the other. -/
theorem Part.lines_eq (part : Part) : part.lines labels = linesOf labels (part.pieces labels) := by
  obtain ⟨place, code⟩ := part
  cases code with
  | stmt s => exact (linesOf_stmtPieces labels place s).symm
  | list stmts => cases stmts <;> simp [pieces, Piece.lines, lines, listLines]
  | orElse stmts =>
    obtain rfl | ⟨test, thenBlock, elseBlock, rfl⟩ | ⟨hpieces, helse⟩ := orElse_cases labels place stmts
    · rfl
    · simp [pieces, condPieces, Piece.lines, lines, elseLines]
    · rw [hpieces, lines, helse]
      simp [Piece.lines, lines]
  | tests first cases =>
    cases cases with
    | nil => rfl
    | cons c rest =>
      rw [pieces, lines, testLines]
      split <;> simp [Piece.lines, lines]
  | elseDefault cases =>
    cases cases with
    | nil => rfl
    | cons c rest =>
      rw [pieces, lines, elseDefaultLines]
      split <;> simp [Piece.lines, lines]
  | bareDefault cases =>
    cases cases with
    | nil => rfl
    | cons c rest =>
      rw [pieces, lines, bareDefaultLines]
      split <;> simp [Piece.lines, lines]

end Lines

/-! ### Parts in parts -/

/-- One part is a piece of another, with the pieces that follow. -/
inductive Inside (labels : Labels) : Part → Part → List Piece → Prop
  | basic {place : Place} {block : BasicBlock} :
      Inside labels ⟨place, .stmt (.basic block)⟩ ⟨place, .list block.body⟩ []
  | seq {place : Place} {block : Block} :
      Inside labels ⟨place, .stmt (.seq block)⟩ ⟨place, .list block.body⟩ []
  | thenBranch {place : Place} {test : Expr} {thenBlock elseBlock : Block} :
      Inside labels ⟨place, .stmt (.cond test thenBlock elseBlock)⟩ ⟨place.inside, .list thenBlock.body⟩
        [.part ⟨place.skip (listLoopCount thenBlock.body), .orElse elseBlock.body⟩]
  | elseBranch {place : Place} {test : Expr} {thenBlock elseBlock : Block} :
      Inside labels ⟨place, .stmt (.cond test thenBlock elseBlock)⟩
        ⟨place.skip (listLoopCount thenBlock.body), .orElse elseBlock.body⟩ []
  | loop {place : Place} {test : Option Expr} {body : Block} :
      Inside labels ⟨place, .stmt (.loop test body)⟩ ⟨place.loopBody body.body, .list body.body⟩
        ((continueLines place body.body).map .line ++ [.line ⟨place.depth, "end"⟩])
  | scope {place : Place} {env : Expr} {body : Block} {skip : Option LabelId} :
      Inside labels ⟨place, .stmt (.scope env body skip)⟩ ⟨place.loopBody body.body, .list body.body⟩
        ((continueLines place body.body).map .line ++ [.line ⟨place.depth, "end"⟩])
  | tests {place : Place} {value : Expr} {cases : List SwitchCase} (h : cases.any isTested = true) :
      Inside labels ⟨place, .stmt (.switch value cases)⟩ ⟨place.inside, .tests true cases⟩
        [.part ⟨place.inside.skip (testsLoopCount cases), .elseDefault cases⟩,
          .line ⟨place.depth + 1, "end"⟩, .line ⟨place.depth, "until true"⟩]
  | elseDefault {place : Place} {value : Expr} {cases : List SwitchCase}
      (h : cases.any isTested = true) :
      Inside labels ⟨place, .stmt (.switch value cases)⟩
        ⟨place.inside.skip (testsLoopCount cases), .elseDefault cases⟩
        [.line ⟨place.depth + 1, "end"⟩, .line ⟨place.depth, "until true"⟩]
  | bareDefault {place : Place} {value : Expr} {cases : List SwitchCase} :
      Inside labels ⟨place, .stmt (.switch value cases)⟩
        ⟨place.inside.skip (testsLoopCount cases), .bareDefault cases⟩
        [.line ⟨place.depth, "until true"⟩]
  | head {place : Place} {s : Stmt} {rest : List Stmt} :
      Inside labels ⟨place, .list (s :: rest)⟩ ⟨{ place with tail := place.tail && rest.isEmpty }, .stmt s⟩
        [.part ⟨place.skip (loopCount s), .list rest⟩]
  | rest {place : Place} {s : Stmt} {rest : List Stmt} :
      Inside labels ⟨place, .list (s :: rest)⟩ ⟨place.skip (loopCount s), .list rest⟩ []
  | elseifThen {place : Place} {test : Expr} {thenBlock elseBlock : Block} :
      Inside labels ⟨place, .orElse [.cond test thenBlock elseBlock]⟩
        ⟨place.inside, .list thenBlock.body⟩
        [.part ⟨place.skip (listLoopCount thenBlock.body), .orElse elseBlock.body⟩]
  | elseifElse {place : Place} {test : Expr} {thenBlock elseBlock : Block} :
      Inside labels ⟨place, .orElse [.cond test thenBlock elseBlock]⟩
        ⟨place.skip (listLoopCount thenBlock.body), .orElse elseBlock.body⟩ []
  | plainElse {place : Place} {stmts : List Stmt} :
      Inside labels ⟨place, .orElse stmts⟩ ⟨place.inside, .list stmts⟩ [.line ⟨place.depth, "end"⟩]
  | testBody {place : Place} {first : Bool} {c : SwitchCase} {rest : List SwitchCase}
      (h : isTested c = true) :
      Inside labels ⟨place, .tests first (c :: rest)⟩ ⟨place.inside, .list c.body.body⟩
        [.part ⟨place.skip (listLoopCount c.body.body), .tests false rest⟩]
  | testRest {place : Place} {first : Bool} {c : SwitchCase} {rest : List SwitchCase}
      (h : isTested c = true) :
      Inside labels ⟨place, .tests first (c :: rest)⟩
        ⟨place.skip (listLoopCount c.body.body), .tests false rest⟩ []
  | skipTest {place : Place} {first : Bool} {c : SwitchCase} {rest : List SwitchCase}
      (h : isTested c = false) :
      Inside labels ⟨place, .tests first (c :: rest)⟩ ⟨place, .tests first rest⟩ []
  | elseBody {place : Place} {c : SwitchCase} {rest : List SwitchCase} (h : c.isDefault = true) :
      Inside labels ⟨place, .elseDefault (c :: rest)⟩ ⟨place.inside, .list c.body.body⟩ []
  | skipElse {place : Place} {c : SwitchCase} {rest : List SwitchCase} (h : c.isDefault = false) :
      Inside labels ⟨place, .elseDefault (c :: rest)⟩ ⟨place, .elseDefault rest⟩ []
  | bareBody {place : Place} {c : SwitchCase} {rest : List SwitchCase} (h : c.isDefault = true) :
      Inside labels ⟨place, .bareDefault (c :: rest)⟩ ⟨place, .list c.body.body⟩ []
  | skipBare {place : Place} {c : SwitchCase} {rest : List SwitchCase} (h : c.isDefault = false) :
      Inside labels ⟨place, .bareDefault (c :: rest)⟩ ⟨place, .bareDefault rest⟩ []

/-- Every part of a list of pieces, with the pieces behind it. -/
def EachPart (P : Part → List Piece → Prop) : List Piece → Prop
  | [] => True
  | .line _ :: right => EachPart P right
  | .part p :: right => P p right ∧ EachPart P right

section EachPart

variable {P : Part → List Piece → Prop}

@[simp] lemma eachPart_map_line (lines : List Line) (right : List Piece) :
    EachPart P (lines.map .line ++ right) ↔ EachPart P right := by
  induction lines with
  | nil => rfl
  | cons l rest ih => exact ih

lemma eachPart_lines (lines : List Line) : EachPart P (lines.map .line) := by
  simpa using (eachPart_map_line lines []).mpr trivial

lemma EachPart.apply {left right : List Piece} {p : Part} (h : EachPart P (left ++ .part p :: right)) :
    P p right := by
  induction left with
  | nil => exact h.1
  | cons piece left ih =>
    cases piece with
    | line => exact ih h
    | part => exact ih h.2

end EachPart

/-- What the parts in a part are. -/
lemma Part.eachPart_pieces (labels : Labels) (part : Part) :
    EachPart (Inside labels part) (part.pieces labels) := by
  obtain ⟨place, code⟩ := part
  cases code with
  | stmt s =>
    cases s with
    | basic block => exact ⟨.basic, trivial⟩
    | seq block => exact ⟨.seq, trivial⟩
    | cond test thenBlock elseBlock => exact ⟨.thenBranch, .elseBranch, trivial⟩
    | loop test body => exact ⟨.loop, (eachPart_map_line _ _).mpr trivial⟩
    | scope env body skip => exact ⟨.scope, (eachPart_map_line _ _).mpr trivial⟩
    | switch value cases =>
      rw [pieces, stmtPieces, casesPieces]
      split
      · rename_i h
        exact ⟨.tests h, .elseDefault h, trivial⟩
      · exact ⟨.bareDefault, trivial⟩
    | _ => exact eachPart_lines _
  | list stmts =>
    cases stmts with
    | nil => trivial
    | cons s rest => exact ⟨.head, .rest, trivial⟩
  | orElse stmts =>
    obtain rfl | ⟨test, thenBlock, elseBlock, rfl⟩ | ⟨hpieces, _⟩ := orElse_cases labels place stmts
    · trivial
    · exact ⟨.elseifThen, .elseifElse, trivial⟩
    · rw [hpieces]
      exact ⟨.plainElse, trivial⟩
  | tests first cases =>
    cases cases with
    | nil => trivial
    | cons c rest =>
      rw [pieces]
      split
      · rename_i h
        exact ⟨.testBody h, .testRest h, trivial⟩
      · rename_i h
        exact ⟨.skipTest (by simpa using h), trivial⟩
  | elseDefault cases =>
    cases cases with
    | nil => trivial
    | cons c rest =>
      rw [pieces]
      split
      · rename_i h
        exact ⟨.elseBody h, trivial⟩
      · rename_i h
        exact ⟨.skipElse (by simpa using h), trivial⟩
  | bareDefault cases =>
    cases cases with
    | nil => trivial
    | cons c rest =>
      rw [pieces]
      split
      · rename_i h
        exact ⟨.bareBody h, trivial⟩
      · rename_i h
        exact ⟨.skipBare (by simpa using h), trivial⟩

lemma Part.inside {labels : Labels} {part inner : Part} {left right : List Piece}
    (h : part.pieces labels = left ++ .part inner :: right) : Inside labels part inner right :=
  EachPart.apply (h ▸ part.eachPart_pieces labels)

/-- A bound on the number of parts in each other. -/
noncomputable def Code.size : Code → Nat
  | .stmt s => sizeOf s
  | .list stmts => sizeOf stmts
  | .orElse stmts => sizeOf stmts + 1
  | .tests _ cases => sizeOf cases
  | .elseDefault cases => sizeOf cases
  | .bareDefault cases => sizeOf cases

/-- The body of a block is smaller than the block. -/
lemma sizeOf_body_lt (block : Block) : sizeOf block.body < sizeOf block := by
  obtain ⟨entry, body⟩ := block
  simp only [BlockOf.mk.sizeOf_spec]
  omega

lemma sizeOf_body_lt_case (c : SwitchCase) : sizeOf c.body.body < sizeOf c := by
  obtain ⟨values, isDefault, body⟩ := c
  have hbody := sizeOf_body_lt body
  simp only [CaseOf.mk.sizeOf_spec]
  omega

/-- Parts in a part are smaller. -/
lemma Inside.size_lt {labels : Labels} {part inner : Part} {right : List Piece}
    (h : Inside labels part inner right) : inner.code.size < part.code.size := by
  cases h with
  | @basic _ block =>
    obtain ⟨depth, body⟩ := block
    simp only [Code.size, Stmt.basic.sizeOf_spec, BasicBlockOf.mk.sizeOf_spec]
    omega
  | @seq _ body | @loop _ _ body | @scope _ _ body =>
    have := sizeOf_body_lt body
    simp only [Code.size, Stmt.seq.sizeOf_spec, Stmt.loop.sizeOf_spec, Stmt.scope.sizeOf_spec]
    omega
  | @thenBranch _ _ a b | @elseBranch _ _ a b | @elseifThen _ _ a b | @elseifElse _ _ a b =>
    have := sizeOf_body_lt a
    have := sizeOf_body_lt b
    simp only [Code.size, Stmt.cond.sizeOf_spec, List.cons.sizeOf_spec]
    omega
  | @testBody _ _ c | @elseBody _ c | @bareBody _ c =>
    have := sizeOf_body_lt_case c
    simp only [Code.size, List.cons.sizeOf_spec]
    omega
  | _ =>
    simp only [Code.size, Stmt.switch.sizeOf_spec, List.cons.sizeOf_spec]
    omega

/-- What holds of a part when it holds of the parts in it holds of every part. -/
theorem Part.induction (labels : Labels) {P : Part → Prop}
    (step : ∀ part, (∀ inner right, Inside labels part inner right → P inner) → P part) (part : Part) :
    P part := by
  induction hsize : part.code.size using Nat.strongRecOn generalizing part with
  | ind n ih => exact step part fun inner _ h => ih _ (hsize ▸ h.size_lt) inner rfl

/-! ### Parts of a text -/

/-- A part is printed somewhere in another: with the parts around it, from the outside to the inside, the
lines before it and the lines behind it. -/
inductive Shown (labels : Labels) : Part → List Part → List Line → Part → List Line → Prop
  | whole (part : Part) : Shown labels part [] [] part []
  | inside {part inner target : Part} {path : List Part} {before after : List Line}
      {left right : List Piece} (hpieces : part.pieces labels = left ++ .part inner :: right)
      (h : Shown labels inner path before target after) :
      Shown labels part (part :: path) (linesOf labels left ++ before) target
        (after ++ linesOf labels right)

variable {labels : Labels} {part target : Part} {path : List Part} {before after : List Line}

/-- The lines of a part stand between those before it and those behind it. -/
theorem Shown.lines_eq (h : Shown labels part path before target after) :
    part.lines labels = before ++ target.lines labels ++ after := by
  induction h with
  | whole => simp
  | inside hpieces _ ih =>
    rw [Part.lines_eq, hpieces, linesOf_append, linesOf_cons, Piece.lines, ih]
    simp only [List.append_assoc]

/-- A line of a list of pieces is a line of one of them. -/
lemma exists_piece_of_linesOf {labels : Labels} {pieces : List Piece} {line : Line}
    {before after : List Line} (h : linesOf labels pieces = before ++ line :: after) :
    ∃ left piece right l r, pieces = left ++ piece :: right ∧ piece.lines labels = l ++ line :: r ∧
      before = linesOf labels left ++ l ∧ after = r ++ linesOf labels right := by
  induction pieces generalizing before with
  | nil => cases before <;> cases h
  | cons piece rest ih =>
    rw [linesOf_cons] at h
    obtain ⟨m, rfl, hm⟩ | ⟨m, hpiece, hm⟩ := List.append_eq_append_iff.mp h
    · obtain ⟨left, p, right, l, r, rfl, hp, rfl, rfl⟩ := ih hm
      exact ⟨piece :: left, p, right, l, r, rfl, hp, by simp, rfl⟩
    · cases m with
      | nil =>
        have hrest : linesOf labels rest = [] ++ line :: after := hm.symm
        obtain ⟨left, p, right, l, r, rfl, hp, hl, rfl⟩ := ih hrest
        refine ⟨piece :: left, p, right, l, r, rfl, hp, ?_, rfl⟩
        rw [linesOf_cons, hpiece, List.append_assoc, ← hl, List.append_nil, List.append_nil]
      | cons l m =>
        obtain ⟨rfl, rfl⟩ := List.cons.inj hm
        exact ⟨[], piece, rest, before, m, rfl, hpiece, rfl, rfl⟩

/-- A line of a text is a piece of a part that is shown in it. -/
theorem Part.exists_shown (part : Part) {line : Line} {before after : List Line}
    (h : part.lines labels = before ++ line :: after) :
    ∃ path l target r left right, Shown labels part path l target r ∧
      target.pieces labels = left ++ .line line :: right ∧
      before = l ++ linesOf labels left ∧ after = linesOf labels right ++ r := by
  induction part using Part.induction labels generalizing before after with
  | step part ih =>
    obtain ⟨left, piece, right, l, r, hpieces, hpiece, rfl, rfl⟩ :=
      exists_piece_of_linesOf (part.lines_eq labels ▸ h)
    cases piece with
    | line own =>
      cases l with
      | nil =>
        obtain ⟨rfl, rfl⟩ := List.cons.inj hpiece
        exact ⟨[], [], part, [], left, right, .whole part, hpieces, by simp, by simp⟩
      | cons => simp [Piece.lines] at hpiece
    | part inner =>
      obtain ⟨path, l', target, r', left', right', hshown, htarget, rfl, rfl⟩ :=
        ih inner right (Part.inside hpieces) hpiece
      exact ⟨part :: path, _, target, _, left', right', .inside hpieces hshown, htarget,
        by simp, by simp⟩

end Decompiler.Print.Lua
