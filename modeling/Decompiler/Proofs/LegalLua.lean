import Decompiler.Print.Render
import Decompiler.Proofs.EnclosedExits
import Decompiler.Proofs.PrintedParts

/-!
# Legal Lua text

Lua allows a `return` only at the end of a block, and has no `continue`.  The text of a tree respects both
(`legalText`): a `return` that is printed bare is followed by the line that closes its block, or by nothing;
a jump `goto continue_k` stands for a `continue` of the loop with number `k`, and this loop is printed with
`::continue_k::` as the last line of its body; and no two loops have the same number.

Whether a part ends its block is handed from the outside to the inside, and what follows a part is known
where the part that it is a piece of is known: so the step from a part to a part in it (`Inside`) is
looked at once for each of the facts, and the way from the whole text to a part (`Shown`) by induction.
-/

namespace Decompiler.Print.Lua

variable {labels : Labels} {part inner target : Part} {path : List Part} {before after : List Line}
  {left right : List Piece}

namespace Code

/-- The number of loops that are printed. -/
def loops : Code → Nat
  | .stmt s => loopCount s
  | .list stmts | .orElse stmts => listLoopCount stmts
  | .tests _ cases => testsLoopCount cases
  | .elseDefault cases | .bareDefault cases => defaultLoopCount cases

/-- Whether a `continue` of the loop around the code is printed. -/
def continues : Code → Bool
  | .stmt s => printsContinue s
  | .list stmts | .orElse stmts => listPrintsContinue stmts
  | .tests _ cases => testsPrintContinue cases
  | .elseDefault cases | .bareDefault cases => defaultPrintsContinue cases

/-- Whether every exit has something around it, given what is around the code. -/
def isEnclosed (around : Enclosure) : Code → Bool
  | .stmt s => s.isEnclosed around
  | .list stmts | .orElse stmts => Stmt.enclosedList around stmts
  | .tests _ cases | .elseDefault cases | .bareDefault cases => Stmt.enclosedCases around cases

end Code

namespace Part

/-- Whether the part is a loop or a scope. -/
def isLoop (part : Part) : Bool :=
  match part.code with
  | .stmt (.loop ..) | .stmt (.scope ..) => true
  | _ => false

/-- Whether the part is a loop or a scope that has a label at the end of its body. -/
def isLabelled (part : Part) : Bool :=
  match part.code with
  | .stmt (.loop _ body) | .stmt (.scope _ body _) => listPrintsContinue body.body
  | _ => false

/-- Whether the part ends a block.  The cases of a switch end the bodies of the cases. -/
def endsBlock (part : Part) : Bool :=
  match part.code with
  | .tests .. | .elseDefault _ => true
  | _ => part.place.tail

/-- The depth of the lines in the block that the part ends, if it ends one. -/
def blockDepth (part : Part) : Nat :=
  match part.code with
  | .tests .. | .elseDefault _ => part.place.depth + 1
  | _ => part.place.depth

end Part

/-! ### Returns -/

/-- The line closes a block of lines of a depth. -/
structure Closes (depth : Nat) (line : Line) : Prop where
  depth : line.depth + 1 = depth
  text : line.text = "end" ∨ line.text = "else" ∨ (∃ test, line.text = "elseif " ++ test) ∨
    line.text = "until true"

/-- The lines start with one that closes a block of lines of a depth. -/
def Closed (depth : Nat) (lines : List Line) : Prop :=
  ∃ line ∈ lines.head?, Closes depth line

lemma closed_cons {depth : Nat} {line : Line} {rest : List Line} (h : Closes depth line) :
    Closed depth (line :: rest) :=
  ⟨line, rfl, h⟩

lemma Closed.append {depth : Nat} {lines : List Line} (h : Closed depth lines) (rest : List Line) :
    Closed depth (lines ++ rest) := by
  obtain ⟨line, hline, hcloses⟩ := h
  exact ⟨line, List.mem_head?_append_of_mem_head? hline, hcloses⟩

/-- What is behind the end of a block closes it. -/
lemma closed_elseLines (place : Place) (stmts : List Stmt) :
    Closed (place.depth + 1) (elseLines labels place stmts) := by
  obtain rfl | ⟨test, thenBlock, elseBlock, rfl⟩ | ⟨_, helse⟩ := orElse_cases labels place stmts
  · exact closed_cons ⟨rfl, .inl rfl⟩
  · exact closed_cons ⟨rfl, .inr (.inr (.inl ⟨_, String.append_assoc⟩))⟩
  · rw [helse]
    exact closed_cons ⟨rfl, .inr (.inl rfl)⟩

variable (labels) in
/-- What is behind the body of a tested case closes it, if there are more of them. -/
lemma closed_testLines (place : Place) (cases : List SwitchCase) :
    testLines labels place false cases = [] ∨
      Closed (place.depth + 1) (testLines labels place false cases) := by
  induction cases with
  | nil => exact .inl rfl
  | cons c rest ih =>
    rw [testLines]
    split
    · exact .inr (closed_cons ⟨rfl, .inr (.inr (.inl ⟨_, String.append_assoc⟩))⟩)
    · exact ih

variable (labels) in
lemma closed_elseDefaultLines (place : Place) (cases : List SwitchCase) :
    elseDefaultLines labels place cases = [] ∨
      Closed (place.depth + 1) (elseDefaultLines labels place cases) := by
  induction cases with
  | nil => exact .inl rfl
  | cons c rest ih =>
    rw [elseDefaultLines]
    split
    · exact .inr (closed_cons ⟨rfl, .inr (.inl rfl)⟩)
    · exact ih

mutual

/-- A `continue` that is printed is there. -/
lemma continuesHere_of_prints : (s : Stmt) → printsContinue s = true → continuesHere s = true
  | .continueLoop, _ => rfl
  | .basic block, h => anyContinuesHere_of_prints block.body h
  | .seq block, h => anyContinuesHere_of_prints block.body h
  | .cond _ thenBlock elseBlock, h => by
    rw [printsContinue, Bool.or_eq_true] at h
    rw [continuesHere, Bool.or_eq_true]
    exact h.imp (anyContinuesHere_of_prints _) (anyContinuesHere_of_prints _)
  | .switch _ cases, h => by
    rw [printsContinue, Bool.or_eq_true] at h
    exact h.elim (casesContinueHere_of_tests cases) (casesContinueHere_of_default cases)
  | .label _, h | .raw .., h | .push _, h | .assign .., h | .call .., h | .discard _, h | .goto _, h
  | .condGoto .., h | .pushEnv .., h | .popEnv _, h | .dispatch .., h | .ret _, h | .exit, h
  | .breakOut, h | .loop .., h | .scope .., h => by cases h

lemma anyContinuesHere_of_prints :
    (stmts : List Stmt) → listPrintsContinue stmts = true → anyContinuesHere stmts = true
  | [], h => by cases h
  | s :: rest, h => by
    rw [listPrintsContinue, Bool.or_eq_true] at h
    rw [anyContinuesHere, Bool.or_eq_true]
    exact h.imp (continuesHere_of_prints s) (anyContinuesHere_of_prints rest)

lemma casesContinueHere_of_tests :
    (cases : List SwitchCase) → testsPrintContinue cases = true → casesContinueHere cases = true
  | [], h => by cases h
  | c :: rest, h => by
    rw [testsPrintContinue, Bool.or_eq_true, Bool.and_eq_true] at h
    rw [casesContinueHere, Bool.or_eq_true]
    exact h.imp (fun h => anyContinuesHere_of_prints c.body.body h.2) (casesContinueHere_of_tests rest)

lemma casesContinueHere_of_default :
    (cases : List SwitchCase) → defaultPrintsContinue cases = true → casesContinueHere cases = true
  | [], h => by cases h
  | c :: rest, h => by
    rw [defaultPrintsContinue] at h
    rw [casesContinueHere, Bool.or_eq_true]
    split at h
    · exact .inl (anyContinuesHere_of_prints c.body.body h)
    · exact .inr (casesContinueHere_of_default rest h)

end

/-- A loop whose body ends with its block has no label. -/
lemma continueLines_eq_nil {place : Place} {body : List Stmt} (h : (place.loopBody body).tail = true) :
    continueLines place body = [] := by
  rw [continueLines, if_neg]
  intro hprints
  rw [Place.loopBody, anyContinuesHere_of_prints body hprints] at h
  cases h

/-- What is behind a part that ends a block: nothing, if the part around it ends the same block, or a line
that closes the block. -/
lemma Inside.closed (h : Inside labels part inner right) (hends : inner.endsBlock = true) :
    (linesOf labels right = [] ∧ part.endsBlock = true ∧ inner.blockDepth = part.blockDepth) ∨
      Closed inner.blockDepth (linesOf labels right) := by
  cases h with
  | basic | seq | elseBranch | rest | elseifElse | testRest | skipTest | elseBody | skipElse | bareBody
  | skipBare => exact .inl ⟨rfl, hends, rfl⟩
  | thenBranch | elseifThen =>
    rw [linesOf_cons]
    exact .inr ((closed_elseLines _ _).append _)
  | loop | scope =>
    rw [linesOf_append, linesOf_map_line, continueLines_eq_nil hends]
    exact .inr (closed_cons ⟨rfl, .inl rfl⟩)
  | @tests place value cases =>
    right
    have hdefault := closed_elseDefaultLines labels
      (place.inside.skip (testsLoopCount cases)) cases
    rw [linesOf_cons, Piece.lines, Part.lines]
    obtain hnil | hclosed := hdefault
    · rw [hnil]
      exact closed_cons ⟨rfl, .inl rfl⟩
    · exact hclosed.append _
  | elseDefault => exact .inr (closed_cons ⟨rfl, .inl rfl⟩)
  | bareDefault => exact .inr (closed_cons ⟨rfl, .inr (.inr (.inr rfl))⟩)
  | @head place s rest =>
    obtain ⟨htail, hrest⟩ := Bool.and_eq_true_iff.mp hends
    rw [List.isEmpty_iff.mp hrest]
    exact .inl ⟨rfl, htail, rfl⟩
  | plainElse => exact .inr (closed_cons ⟨rfl, .inl rfl⟩)
  | @testBody place first c rest =>
    have hrest := closed_testLines labels (place.skip (listLoopCount c.body.body)) rest
    rw [linesOf_cons, Piece.lines, Part.lines, linesOf_nil, List.append_nil]
    exact hrest.imp (fun hnil => ⟨hnil, rfl, rfl⟩) id

/-- What is behind a part of a text that ends a block. -/
lemma Shown.closed (h : Shown labels part path before target after) (hends : target.endsBlock = true) :
    (after = [] ∧ part.endsBlock = true ∧ target.blockDepth = part.blockDepth) ∨
      Closed target.blockDepth after := by
  induction h with
  | whole => exact .inl ⟨rfl, hends, rfl⟩
  | inside hpieces _ ih =>
    obtain ⟨rfl, hinner, hdepth⟩ | hclosed := ih hends
    · rw [hdepth, List.nil_append]
      exact (Part.inside hpieces).closed hinner
    · exact .inr (hclosed.append _)

/-! ### Continues -/

/-- The loop around a part: it is the part around it, or the loop around that. -/
lemma Inside.loop_eq (h : Inside labels part inner right) :
    inner.place.loop = if part.isLoop then some part.place.next else part.place.loop := by
  cases h <;> rfl

/-- A `continue` that is printed in a part is printed in the part around it.  Where this is a loop, it has a
label. -/
lemma Inside.continues (h : Inside labels part inner right) (hinner : inner.code.continues = true) :
    if part.isLoop then part.isLabelled = true else part.code.continues = true := by
  cases h <;> simp_all [Part.isLoop, Part.isLabelled, Code.continues, printsContinue, listPrintsContinue,
    testsPrintContinue, defaultPrintsContinue]

/-- The innermost loop of the parts around a part. -/
def innermostLoop (path : List Part) : Option Part :=
  (path.filter Part.isLoop).getLast?

lemma innermostLoop_cons (part : Part) (path : List Part) :
    innermostLoop (part :: path) =
      (innermostLoop path).or (if part.isLoop then some part else none) := by
  rw [innermostLoop, List.filter_cons]
  split
  · rw [List.getLast?_cons, innermostLoop]
    cases (path.filter Part.isLoop).getLast? <;> rfl
  · rw [innermostLoop, Option.or_none]

/-- A part is printed with the number of the innermost loop around it. -/
lemma Shown.loop_eq (h : Shown labels part path before target after) :
    target.place.loop = ((innermostLoop path).map (·.place.next)).or part.place.loop := by
  induction h with
  | whole => rfl
  | @inside part _ _ path _ _ _ _ hpieces _ ih =>
    rw [ih, (Part.inside hpieces).loop_eq, innermostLoop_cons]
    cases innermostLoop path <;> cases part.isLoop <;> rfl

/-- The innermost loop around a `continue` has a label. -/
lemma Shown.isLabelled (h : Shown labels part path before target after)
    (htarget : target.code.continues = true) :
    (∀ loop ∈ innermostLoop path, loop.isLabelled = true) ∧
      (innermostLoop path = none → part.code.continues = true) := by
  induction h with
  | whole => exact ⟨nofun, fun _ => htarget⟩
  | @inside part _ _ path _ _ _ _ hpieces _ ih =>
    obtain ⟨hloop, hnone⟩ := ih htarget
    rw [innermostLoop_cons]
    cases hpath : innermostLoop path with
    | some loop => exact ⟨by simpa [hpath] using hloop, nofun⟩
    | none =>
      have hstep := (Part.inside hpieces).continues (hnone hpath)
      cases hpart : part.isLoop with
      | true => exact ⟨by simpa [hpart] using hstep, nofun⟩
      | false => exact ⟨nofun, fun _ => by simpa [hpart] using hstep⟩

/-- A loop or a scope with a label has it as the last line of its body. -/
lemma Part.lines_of_isLabelled {loop : Part} (h : loop.isLabelled = true) :
    ∃ body, loop.lines labels = body ++
      [⟨loop.place.depth + 1, "::" ++ continueLabel loop.place.next ++ "::"⟩, ⟨loop.place.depth, "end"⟩] := by
  obtain ⟨place, code⟩ := loop
  have hlabel : ∀ body, listPrintsContinue body = true → continueLines place body =
      [⟨place.depth + 1, "::" ++ continueLabel place.next ++ "::"⟩] := fun _ h => if_pos h
  cases code with
  | list | orElse | tests | elseDefault | bareDefault => cases h
  | stmt s =>
    cases s with
    | loop test body | scope env body skip =>
      rw [lines, stmtLines, hlabel body.body h, List.append_assoc]
      exact ⟨_, rfl⟩
    | _ => cases h

/-- Surroundings of which only loops and scopes matter. -/
def openTo (continues : Bool) : Enclosure :=
  { breaks := true, continues, throughBasic := true }

lemma Inside.isEnclosed (h : Inside labels part inner right) {continues : Bool}
    (hpart : part.code.isEnclosed (openTo continues) = true) :
    inner.code.isEnclosed (openTo (continues || part.isLoop)) = true := by
  cases h <;> simp_all [Part.isLoop, Code.isEnclosed, Stmt.isEnclosed, Stmt.enclosedList,
    Stmt.enclosedCases, openTo, Enclosure.basic, Enclosure.round, Enclosure.case]

/-- Where every `continue` is inside of a loop, there is one around each that is printed. -/
lemma Shown.isEnclosed (h : Shown labels part path before target after) {continues : Bool}
    (hpart : part.code.isEnclosed (openTo continues) = true) :
    target.code.isEnclosed (openTo (continues || path.any Part.isLoop)) = true := by
  induction h generalizing continues with
  | whole => simpa using hpart
  | inside hpieces _ ih =>
    rw [List.any_cons, ← Bool.or_assoc]
    exact ih ((Part.inside hpieces).isEnclosed hpart)

lemma exists_innermostLoop (h : path.any Part.isLoop = true) : ∃ loop, innermostLoop path = some loop := by
  obtain ⟨part, hpart, hloop⟩ := List.any_eq_true.mp h
  exact Option.isSome_iff_exists.mp
    (List.getLast?_isSome.mpr (List.ne_nil_of_mem (List.mem_filter.mpr ⟨hpart, hloop⟩)))

/-! ### The numbers of loops -/

/-- The parts in a list of pieces have their loops numbered one after the other, between two numbers. -/
def Numbered : Nat → List Piece → Nat → Prop
  | start, [], stop => start ≤ stop
  | start, .line _ :: right, stop => Numbered start right stop
  | start, .part p :: right, stop =>
    start ≤ p.place.next ∧ Numbered (p.place.next + p.code.loops) right stop

namespace Numbered

variable {start stop : Nat}

@[simp] lemma map_line (lines : List Line) (right : List Piece) :
    Numbered start (lines.map .line ++ right) stop ↔ Numbered start right stop := by
  induction lines with
  | nil => rfl
  | cons l rest ih => exact ih

lemma lines (n : Nat) (lines : List Line) : Numbered n (lines.map .line) n := by
  have hstop : Numbered n [] n := Nat.le_refl n
  simpa using (map_line lines []).mpr hstop

lemma le_stop {pieces : List Piece} (h : Numbered start pieces stop) : start ≤ stop := by
  induction pieces generalizing start with
  | nil => exact h
  | cons piece right ih =>
    cases piece with
    | line => exact ih h
    | part p => exact Nat.le_trans h.1 (Nat.le_trans (Nat.le_add_right _ _) (ih h.2))

lemma drop (h : Numbered start (left ++ right) stop) : ∃ k, start ≤ k ∧ Numbered k right stop := by
  induction left generalizing start with
  | nil => exact ⟨start, Nat.le_refl _, h⟩
  | cons piece left ih =>
    cases piece with
    | line => exact ih h
    | part p =>
      obtain ⟨k, hk, hright⟩ := ih h.2
      exact ⟨k, Nat.le_trans h.1 (Nat.le_trans (Nat.le_add_right _ _) hk), hright⟩

end Numbered

/-- A loop has the first of its own numbers. -/
def Part.own (part : Part) : Nat :=
  if part.isLoop then 1 else 0

lemma numbered_condPieces (place : Place) (thenBody elseBody : List Stmt) :
    Numbered place.next (condPieces place thenBody elseBody)
      (place.next + (listLoopCount thenBody + listLoopCount elseBody)) :=
  ⟨Nat.le_refl _, Nat.le_refl _, Nat.le_of_eq (Nat.add_assoc _ _ _)⟩

lemma numbered_loopPieces (place : Place) (head : String) (body : List Stmt) :
    Numbered (place.next + 1) (loopPieces place head body) (place.next + (listLoopCount body + 1)) := by
  refine ⟨Nat.le_refl _, (Numbered.map_line _ _).mpr (Nat.le_of_eq ?_)⟩
  simp only [Place.loopBody, Code.loops]
  omega

lemma numbered_casesPieces (place : Place) (cases : List SwitchCase) (close : Line) :
    Numbered place.next (casesPieces place cases ++ [.line close])
      (place.next + (testsLoopCount cases + defaultLoopCount cases)) := by
  rw [casesPieces]
  split
  · exact ⟨Nat.le_refl _, Nat.le_refl _, Nat.le_of_eq (Nat.add_assoc _ _ _)⟩
  · exact ⟨Nat.le_add_right _ _, Nat.le_of_eq (Nat.add_assoc _ _ _)⟩

/-- The loops in a part are numbered from its own number on. -/
lemma Part.numbered_pieces (labels : Labels) (part : Part) :
    Numbered (part.place.next + part.own) (part.pieces labels) (part.place.next + part.code.loops) := by
  obtain ⟨place, code⟩ := part
  cases code with
  | stmt s =>
    cases s with
    | basic block | seq block => exact ⟨Nat.le_refl _, Nat.le_refl _⟩
    | cond test thenBlock elseBlock => exact numbered_condPieces place _ _
    | loop test body | scope env body skip => exact numbered_loopPieces place _ _
    | switch value cases => exact numbered_casesPieces place.inside cases _
    | _ => exact Numbered.lines _ _
  | list stmts =>
    cases stmts with
    | nil => exact Nat.le_refl _
    | cons s rest => exact ⟨Nat.le_refl _, Nat.le_refl _, Nat.le_of_eq (Nat.add_assoc _ _ _)⟩
  | orElse stmts =>
    obtain rfl | ⟨test, thenBlock, elseBlock, rfl⟩ | ⟨hpieces, _⟩ := orElse_cases labels place stmts
    · exact Nat.le_refl _
    · exact numbered_condPieces place _ _
    · rw [hpieces]
      exact ⟨Nat.le_refl _, Nat.le_refl _⟩
  | tests first cases =>
    cases cases with
    | nil => exact Nat.le_refl _
    | cons c rest =>
      rw [pieces, Code.loops, testsLoopCount]
      split
      · exact ⟨Nat.le_refl _, Nat.le_refl _, Nat.le_of_eq (Nat.add_assoc _ _ _)⟩
      · rw [Nat.zero_add]
        exact ⟨Nat.le_refl _, Nat.le_refl _⟩
  | elseDefault cases | bareDefault cases =>
    cases cases with
    | nil => exact Nat.le_refl _
    | cons c rest =>
      rw [pieces, Code.loops, defaultLoopCount]
      split <;> exact ⟨Nat.le_refl _, Nat.le_refl _⟩

/-- The numbers of a piece lie between those before it and those behind it. -/
lemma Part.next_le (hpieces : part.pieces labels = left ++ .part inner :: right) :
    part.place.next + part.own ≤ inner.place.next ∧
      Numbered (inner.place.next + inner.code.loops) right (part.place.next + part.code.loops) := by
  have h := part.numbered_pieces labels
  rw [hpieces] at h
  obtain ⟨k, hk, hle, hright⟩ := h.drop
  exact ⟨Nat.le_trans hk hle, hright⟩

/-- The numbers of a part of a text are among the numbers of the text. -/
lemma Shown.next_le (h : Shown labels part path before target after) :
    part.place.next ≤ target.place.next ∧
      target.place.next + target.code.loops ≤ part.place.next + part.code.loops := by
  induction h with
  | whole => exact ⟨Nat.le_refl _, Nat.le_refl _⟩
  | inside hpieces _ ih =>
    obtain ⟨hle, hright⟩ := Part.next_le hpieces
    have := hright.le_stop
    omega

lemma Part.loops_pos (h : part.isLoop = true) : 0 < part.code.loops := by
  obtain ⟨place, code⟩ := part
  cases code with
  | list | orElse | tests | elseDefault | bareDefault => cases h
  | stmt s =>
    cases s with
    | loop | scope => exact Nat.succ_pos _
    | _ => cases h

/-- The loops in a loop have higher numbers. -/
lemma Shown.lt_of_isLoop (hloop : part.isLoop = true)
    (hpieces : part.pieces labels = left ++ .part inner :: right)
    (h : Shown labels inner path before target after) : part.place.next < target.place.next := by
  have hstart := (Part.next_le hpieces).1
  rw [Part.own, if_pos hloop] at hstart
  exact Nat.lt_of_lt_of_le hstart h.next_le.1

/-- The loops in a later piece have higher numbers. -/
lemma Shown.lt_of_apart {inner' target' : Part} {path' : List Part} {before' after' : List Line}
    {middle : List Piece}
    (hpieces : part.pieces labels = left ++ .part inner :: (middle ++ .part inner' :: right))
    (h : Shown labels inner path before target after)
    (h' : Shown labels inner' path' before' target' after') (hloop : target.isLoop = true) :
    target.place.next < target'.place.next := by
  obtain ⟨k, hk, hinner, -⟩ := (Part.next_le hpieces).2.drop
  have hrange := h.next_le.2
  have hrange' := h'.next_le.1
  have hpos := Part.loops_pos hloop
  omega

/-- No number is given to two loops. -/
lemma Shown.unique {target' : Part} {path' : List Part} {before' after' : List Line}
    (h : Shown labels part path before target after) (h' : Shown labels part path' before' target' after')
    (hloop : target.isLoop = true) (hloop' : target'.isLoop = true)
    (hnext : target.place.next = target'.place.next) :
    path = path' ∧ before = before' ∧ target = target' := by
  induction h generalizing path' before' after' with
  | whole part =>
    cases h' with
    | whole => exact ⟨rfl, rfl, rfl⟩
    | inside hpieces h' => exact absurd hnext (Nat.ne_of_lt (h'.lt_of_isLoop hloop hpieces))
  | inside hpieces h ih =>
    cases h' with
    | whole => exact absurd hnext.symm (Nat.ne_of_lt (h.lt_of_isLoop hloop' hpieces))
    | inside hpieces' h' =>
      obtain ⟨middle, rfl, hmiddle⟩ | ⟨middle, rfl, hmiddle⟩ :=
        List.append_eq_append_iff.mp (hpieces.symm.trans hpieces')
      · cases middle with
        | nil =>
          obtain ⟨hinner, rfl⟩ := List.cons.inj hmiddle
          cases hinner
          obtain ⟨rfl, rfl, rfl⟩ := ih h' hloop hnext
          exact ⟨rfl, by simp, rfl⟩
        | cons piece middle =>
          obtain ⟨rfl, rfl⟩ := List.cons.inj hmiddle
          exact absurd hnext (Nat.ne_of_lt (h.lt_of_apart hpieces h' hloop))
      · cases middle with
        | nil =>
          obtain ⟨hinner, rfl⟩ := List.cons.inj hmiddle
          cases hinner
          obtain ⟨rfl, rfl, rfl⟩ := ih h' hloop hnext
          exact ⟨rfl, by simp, rfl⟩
        | cons piece middle =>
          obtain ⟨rfl, rfl⟩ := List.cons.inj hmiddle
          exact absurd hnext.symm (Nat.ne_of_lt (h'.lt_of_apart hpieces' h hloop'))

/-! ### Jumps to the end of a loop -/

/-- The text has a character that no jump to the end of a loop has. -/
def Foreign (s : String) : Prop :=
  (s.toList.any fun c => !"goto continue_".toList.contains c && !c.isDigit) = true

instance (s : String) : Decidable (Foreign s) :=
  inferInstanceAs (Decidable (_ = true))

@[simp] lemma foreign_append (s t : String) : Foreign (s ++ t) ↔ Foreign s ∨ Foreign t := by
  simp only [Foreign, String.toList_append, List.any_append, Bool.or_eq_true]

lemma not_foreign_continueText (k : Nat) : ¬ Foreign ("goto " ++ continueLabel k) := by
  rw [continueLabel, foreign_append, foreign_append, or_iff_right (by decide), or_iff_right (by decide)]
  intro h
  obtain ⟨c, hc, hforeign⟩ := List.any_eq_true.mp h
  have hk : c ∈ Nat.toDigits 10 k := by simpa [toString, Nat.repr] using hc
  rw [Nat.isDigit_of_mem_toDigits (b := 10) (by decide) (by decide) hk, Bool.not_true, Bool.and_false]
    at hforeign
  cases hforeign

lemma foreign_callText (name : String) (args : List Expr) : Foreign (callText .lua name args) := by
  have hparen : Token.openParen ∈ exprTokens .lua (.call name args) := by simp [exprTokens]
  refine List.any_eq_true.mpr ⟨'(', ?_, by decide⟩
  rw [callText, exprText, tokensText, String.toList_join]
  exact List.mem_flatMap.mpr ⟨_, List.mem_map_of_mem hparen, by decide⟩

/-- The statement may print a jump to a label. -/
def JumpsTo (s : Stmt) (target : LabelId) : Prop :=
  s = .goto target ∨ ∃ value cases, s = .dispatch value cases target

/-- What a line of its own may be in a part. -/
inductive OwnLine (labels : Labels) (code : Code) (line : Line) : Prop
  | foreign (h : Foreign line.text)
  | continueLoop (h : code = .stmt .continueLoop)
  | jump {s : Stmt} {target : LabelId} (hcode : code = .stmt s) (hjump : JumpsTo s target)
      (h : line.text = "goto " ++ labels.name target)

section OwnLine

variable {code : Code} {line : Line}

lemma ownLine_loopPieces {place : Place} {head : String} {body : List Stmt} (hhead : Foreign head)
    (h : .line line ∈ loopPieces place head body) : OwnLine labels code line := by
  simp only [loopPieces, continueLines, List.cons_append, List.mem_cons, List.mem_append, List.mem_map,
    Piece.line.injEq, exists_eq_right, List.not_mem_nil, or_false, reduceCtorEq, false_or] at h
  obtain rfl | hlabel | rfl := h
  · exact .foreign hhead
  · split at hlabel
    · obtain rfl := List.mem_singleton.mp hlabel
      exact .foreign (by simp +decide)
    · cases hlabel
  · exact .foreign (by simp +decide)

lemma ownLine_stmtPieces {place : Place} {s : Stmt} (h : .line line ∈ stmtPieces labels place s) :
    OwnLine labels (.stmt s) line := by
  cases s with
  | label id | raw offset op | push value | discard value | condGoto test target | pushEnv env skip
  | popEnv back | breakOut | assign target value =>
    simp only [stmtPieces, stmtLines, List.map_cons, List.map_nil, List.mem_singleton,
      Piece.line.injEq] at h
    subst h
    exact .foreign (by simp +decide)
  | goto target =>
    simp only [stmtPieces, stmtLines, List.map_cons, List.map_nil, List.mem_singleton,
      Piece.line.injEq] at h
    subst h
    exact .jump rfl (.inl rfl) rfl
  | call name args =>
    simp only [stmtPieces, stmtLines, List.map_cons, List.map_nil, List.mem_singleton,
      Piece.line.injEq] at h
    subst h
    exact .foreign (foreign_callText name args)
  | dispatch value cases default =>
    simp only [stmtPieces, stmtLines, dispatchLines, List.mem_map, Piece.line.injEq, exists_eq_right] at h
    obtain hcase | hdefault := List.mem_append.mp h
    · obtain ⟨_, _, rfl⟩ := List.mem_map.mp hcase
      exact .foreign (by simp +decide)
    · obtain rfl := List.mem_singleton.mp hdefault
      exact .jump rfl (.inr ⟨value, cases, rfl⟩) rfl
  | ret value =>
    simp only [stmtPieces, stmtLines, List.mem_map, Piece.line.injEq, exists_eq_right] at h
    split at h <;> obtain rfl := List.mem_singleton.mp h <;> exact .foreign (by simp +decide)
  | exit =>
    simp only [stmtPieces, stmtLines, List.mem_map, Piece.line.injEq, exists_eq_right] at h
    obtain rfl := List.mem_singleton.mp h
    refine .foreign ?_
    dsimp only
    split <;> decide
  | continueLoop => exact .continueLoop rfl
  | basic block | seq block => simp [stmtPieces] at h
  | cond test thenBlock elseBlock =>
    simp only [stmtPieces, condPieces, List.mem_cons, Piece.line.injEq, reduceCtorEq, List.not_mem_nil,
      or_false] at h
    subst h
    exact .foreign (by simp +decide)
  | loop test body =>
    refine ownLine_loopPieces ?_ h
    cases test <;> simp +decide [loopHead]
  | scope env body skip => exact ownLine_loopPieces (by simp +decide) h
  | switch value cases =>
    simp only [stmtPieces, casesPieces, List.cons_append, List.mem_cons, List.mem_append,
      Piece.line.injEq, List.not_mem_nil, or_false] at h
    obtain rfl | rfl | hcases | rfl := h
    · exact .foreign (by simp +decide)
    · exact .foreign (by simp +decide)
    · split at hcases
      · simp only [List.mem_cons, Piece.line.injEq, reduceCtorEq, List.not_mem_nil, or_false,
          false_or] at hcases
        subst hcases
        exact .foreign (by simp +decide)
      · simp at hcases
    · exact .foreign (by simp +decide)

/-- A line of its own in a part is no jump to the end of a loop, stands for a `continue`, or is a jump to a
label. -/
lemma Part.ownLine (h : .line line ∈ part.pieces labels) : OwnLine labels part.code line := by
  obtain ⟨place, code⟩ := part
  cases code with
  | stmt s => exact ownLine_stmtPieces h
  | list stmts => cases stmts <;> simp [pieces] at h
  | orElse stmts =>
    obtain rfl | ⟨test, thenBlock, elseBlock, rfl⟩ | ⟨hpieces, _⟩ := orElse_cases labels place stmts
    · obtain rfl := Piece.line.inj (List.mem_singleton.mp h)
      exact .foreign (by simp +decide)
    · simp only [pieces, condPieces, List.mem_cons, Piece.line.injEq, reduceCtorEq, List.not_mem_nil,
        or_false] at h
      subst h
      exact .foreign (by simp +decide)
    · simp only [hpieces, List.mem_cons, Piece.line.injEq, reduceCtorEq, List.not_mem_nil, or_false,
        false_or] at h
      obtain rfl | rfl := h <;> exact .foreign (by simp +decide)
  | tests first cases =>
    cases cases with
    | nil => cases h
    | cons c rest =>
      rw [pieces] at h
      split at h
      · simp only [List.mem_cons, Piece.line.injEq, reduceCtorEq, List.not_mem_nil, or_false] at h
        subst h
        cases first <;> exact .foreign (by simp +decide)
      · simp at h
  | elseDefault cases =>
    cases cases with
    | nil => cases h
    | cons c rest =>
      rw [pieces] at h
      split at h
      · simp only [List.mem_cons, Piece.line.injEq, reduceCtorEq, List.not_mem_nil, or_false] at h
        subst h
        exact .foreign (by simp +decide)
      · simp at h
  | bareDefault cases =>
    cases cases with
    | nil => cases h
    | cons c rest =>
      rw [pieces] at h
      split at h <;> simp at h

end OwnLine

/-! ### The text of a tree -/

/-- The text of a tree as a part. -/
def whole (block : Block) : Part :=
  ⟨{ depth := 0, loop := none, next := 0, tail := true }, .list block.body⟩

/-- The line of a `return`, if the statement is one. -/
def returnText? : Stmt → Option String
  | .ret value => some ("return " ++ text value)
  | .exit => some "return"
  | _ => none

lemma stmtLines_return (labels : Labels) (place : Place) {s : Stmt} {line : String}
    (h : returnText? s = some line) :
    stmtLines labels place s = [⟨place.depth, if place.tail then line else "do " ++ line ++ " end"⟩] := by
  cases s with
  | ret value =>
    obtain rfl := Option.some.inj h
    have hwords : "do return " = "do " ++ "return " := by decide
    rw [stmtLines, hwords]
    cases place.tail with
    | true => rfl
    | false => simp only [Bool.false_eq_true, if_false, String.append_assoc]
  | exit =>
    obtain rfl := Option.some.inj h
    rfl
  | _ => cases h

/-- What Lua asks of the text of a tree.  Statements are shown in the text between the lines before them and
those behind them. -/
structure Legal (labels : Labels) (block : Block) : Prop where
  text : render labels .lua block = renderLines ((whole block).lines labels)
  shown {path : List Part} {before : List Line} {part : Part} {after : List Line}
    (h : Shown labels (whole block) path before part after) :
    (whole block).lines labels = before ++ part.lines labels ++ after
  /-- Every line of the text is one of a part that is shown. -/
  origin {before : List Line} {line : Line} {after : List Line}
    (h : (whole block).lines labels = before ++ line :: after) :
    ∃ path l part r left right, Shown labels (whole block) path l part r ∧
      part.pieces labels = left ++ .line line :: right ∧
      before = l ++ linesOf labels left ∧ after = linesOf labels right ++ r
  /-- A `return` is bare at the end of a block or of the text, and wrapped anywhere else. -/
  returns {path : List Part} {before : List Line} {place : Place} {s : Stmt} {after : List Line}
    (h : Shown labels (whole block) path before ⟨place, .stmt s⟩ after) {line : String}
    (hs : returnText? s = some line) :
    (stmtLines labels place s = [⟨place.depth, line⟩] ∧ (after = [] ∨ Closed place.depth after)) ∨
      stmtLines labels place s = [⟨place.depth, "do " ++ line ++ " end"⟩]
  /-- A `continue` is a jump to the label at the end of the innermost loop around it. -/
  continues {path : List Part} {before : List Line} {place : Place} {after : List Line}
    (h : Shown labels (whole block) path before ⟨place, .stmt .continueLoop⟩ after) :
    ∃ loop, innermostLoop path = some loop ∧
      stmtLines labels place .continueLoop =
        [⟨place.depth, "goto " ++ continueLabel loop.place.next⟩] ∧
      ∃ body, loop.lines labels = body ++
        [⟨loop.place.depth + 1, "::" ++ continueLabel loop.place.next ++ "::"⟩, ⟨loop.place.depth, "end"⟩]
  /-- A jump to the end of a loop stands for a `continue`, if it is no jump to a label that has just this
  name. -/
  jumps {before : List Line} {line : Line} {k : Nat} {after : List Line}
    (h : (whole block).lines labels = before ++ line :: after)
    (hline : line.text = "goto " ++ continueLabel k) :
    ∃ path l place s r left right, Shown labels (whole block) path l ⟨place, .stmt s⟩ r ∧
      stmtLines labels place s = left ++ line :: right ∧ before = l ++ left ∧ after = right ++ r ∧
      (s = .continueLoop ∨ ∃ target, JumpsTo s target ∧ labels.name target = continueLabel k)
  /-- No two loops have the same number. -/
  numbers {path path' : List Part} {before before' : List Line} {loop loop' : Part}
    {after after' : List Line} (h : Shown labels (whole block) path before loop after)
    (h' : Shown labels (whole block) path' before' loop' after') (hloop : loop.isLoop = true)
    (hloop' : loop'.isLoop = true) (hnumber : loop.place.next = loop'.place.next) :
    path = path' ∧ before = before' ∧ loop = loop'

/-- A loop that is gone on with before its `return`, and a `return` in one branch of a switch. -/
def skippingLoop : Block where
  body :=
    [.loop (some (.call "running" [])) ⟨none,
      [.cond (.call "skip" []) ⟨none, [.continueLoop]⟩ {}, .ret (.int 1)]⟩,
      .switch (.call "state" []) [⟨[.int 1], false, ⟨none, [.exit]⟩⟩], .exit]

end Decompiler.Print.Lua
