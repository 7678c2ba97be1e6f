import Decompiler.Proofs.IdiomWays

/-!
# Balanced edits

The rules for stack operations look at the head, the tail and the end of an idiom, and not at the other
blocks on the way.  Such a block may touch the value that is taken off the stack, and the end may be
reached from elsewhere.  An edit is balanced (`Rewrite.Balanced`) when the value can be spared on all ways.

One edit recognises a loop or a switch, or it deletes a block (`stackOps_cases`).  It keeps the stack
simulated exactly when it is balanced and loses no start or end of a scope, and a run of balanced edits
does so up to the scopes that are left (`simulates_optimizeStackOps`).  `loopWithReturn_broken` has an edit
that is not balanced, and one that loses the start of a scope.
-/

namespace Decompiler

open Bytecode
open StackMachine (RawBody)

/-! ### Blocks that nothing names -/

/-- A list without one of its entries. -/
lemma flatMap_zipIdx_eq_eraseIdx {α : Type} (l : List α) (start pos : Nat) :
    ((l.zipIdx start).flatMap fun p => if p.2 = start + pos then [] else [p.1]) = l.eraseIdx pos := by
  induction l generalizing start pos with
  | nil => rfl
  | cons a l ih =>
    rw [List.zipIdx_cons, List.flatMap_cons]
    cases pos with
    | zero =>
      have hrest : ((l.zipIdx (start + 1)).flatMap fun p => if p.2 = start + 0 then [] else [p.1]) = l := by
        conv_rhs => rw [← List.zipIdx_map_fst (start + 1) l, List.map_eq_flatMap]
        refine List.flatMap_congr fun p hp => if_neg ?_
        have hle := (List.mem_zipIdx hp).1
        omega
      rw [hrest]
      simp
    | succ pos =>
      rw [List.eraseIdx_cons_succ, ← ih (start + 1) pos]
      have hne : start ≠ start + (pos + 1) := by omega
      simp only [if_neg hne, List.singleton_append]
      refine congrArg (a :: ·) (List.flatMap_congr fun p _ => ?_)
      rw [Nat.add_right_comm, Nat.add_assoc]

/-- The deletion of a block deletes it from the list. -/
lemma Edit.apply_delete {blocks after : List BasicBlock} {pos resume : Nat}
    (h : Edit.apply {} blocks pos = .ok (after, resume)) : after = blocks.eraseIdx pos := by
  cases h
  rw [← flatMap_zipIdx_eq_eraseIdx blocks 0 pos]
  refine List.flatMap_congr fun p _ => ?_
  simp [Edit.place]

/-- Scopes that are entered and left in turn with a block are so without it exactly when the block
neither starts nor ends one. -/
lemma scopesPaired_eraseIdx_iff {blocks : List BasicBlock} {pos : Nat} {block : BasicBlock}
    (hblock : blocks[pos]? = some block) (hraw : RawBody block.body) (hpaired : ScopesPaired blocks) :
    ScopesPaired (blocks.eraseIdx pos) ↔
      (blocks.eraseIdx pos).flatMap BasicBlockOf.scopeMarks = blocks.flatMap BasicBlockOf.scopeMarks := by
  unfold ScopesPaired at hpaired ⊢
  have hsplit : blocks = blocks.take pos ++ block :: blocks.drop (pos + 1) := by
    obtain ⟨hlt, hget⟩ := List.getElem?_eq_some_iff.mp hblock
    rw [← hget, ← List.drop_eq_getElem_cons hlt, List.take_append_drop]
  have hmarks : blocks.flatMap BasicBlockOf.scopeMarks = (blocks.take pos).flatMap BasicBlockOf.scopeMarks ++
      (block.scopeMarks ++ (blocks.drop (pos + 1)).flatMap BasicBlockOf.scopeMarks) := by
    conv_lhs => rw [hsplit, List.flatMap_append, List.flatMap_cons]
  rw [List.eraseIdx_eq_take_drop_succ, List.flatMap_append]
  rw [hmarks] at hpaired ⊢
  generalize (blocks.take pos).flatMap BasicBlockOf.scopeMarks = front at hpaired ⊢
  generalize (blocks.drop (pos + 1)).flatMap BasicBlockOf.scopeMarks = back at hpaired ⊢
  rcases hraw.scopeMarks with hnone | ⟨mark, hone⟩
  · have hnone : block.scopeMarks = [] := hnone
    rw [hnone] at hpaired ⊢
    exact ⟨fun _ => rfl, fun _ => hpaired⟩
  · -- One scope more or less is open in all that follows, and so at the end.
    have hone : block.scopeMarks = [mark] := hone
    rw [hone] at hpaired ⊢
    refine iff_of_false ?_ (by simp)
    intro hwithout
    rw [ScopeMark.nest_append, Option.bind_eq_some_iff] at hpaired hwithout
    obtain ⟨scopes, hfront, hback⟩ := hpaired
    obtain ⟨scopes', hfront', hback'⟩ := hwithout
    rw [hfront] at hfront'
    cases hfront'
    cases mark with
    | opens =>
      rw [List.singleton_append, ScopeMark.nest, ScopeMark.nest_succ hback'] at hback
      cases hback
    | closes =>
      cases scopes with
      | zero => cases hback
      | succ scopes =>
        rw [List.singleton_append, ScopeMark.nest] at hback
        rw [ScopeMark.nest_succ hback] at hback'
        cases hback'

namespace Depth

/-- Where nothing is taken off the stack, nothing lacks. -/
lemma Lacks.eq_zero {blocks : List BasicBlock} {label : LabelId} {depth : Nat} {lack : Int}
    (h : Lacks blocks (fun _ => 0) label depth lack) : lack = 0 := by
  induction h with
  | first _ => rfl
  | branch _ _ _ ih => rw [ih, add_zero]

/-- A list without blocks that are not entered has the same ways. -/
lemma reroutes_of_enters_iff {before after : List BasicBlock} (hbefore : Supplied before)
    (henters : ∀ label depth, Enters after label depth ↔ Enters before label depth)
    (hbody : ∀ label body, BodyOf after label body → BodyOf before label body) :
    Reroutes before after (fun _ => 0) id id where
  forth := by
    intro _ label depth lack hlack
    exact ⟨depth, by rw [hlack.eq_zero, add_zero], (henters label depth).mpr hlack.enters⟩
  back := by
    intro label left hleft
    obtain ⟨lack, hlack⟩ := ((henters label left).mp hleft).exists_lacks fun _ => 0
    exact ⟨left, lack, hlack, by rw [hlack.eq_zero, add_zero]⟩
  kept := fun _ _ _ => rfl
  fresh := fun _ _ _ => .inl rfl
  unreached := fun label body hafter hnever => hbefore.enough_of_unreached (hbody label body hafter) hnever

/-- Well-formed lists with the same entry, of which one has only blocks of the other, have the same ways:
a way can go to a block that stayed only. -/
lemma enters_iff_of_bodyOf {before after : List BasicBlock} {bound bound' : Nat}
    (hwf : WellFormed bound before) (hwf' : WellFormed bound' after)
    (hentry : firstLabel? after = firstLabel? before)
    (hbody : ∀ label body, BodyOf after label body → BodyOf before label body) (label : LabelId)
    (depth : Nat) : Enters after label depth ↔ Enters before label depth := by
  constructor
  · intro h
    induction h with
    | first hfirst => exact .first (hentry.symm.trans hfirst)
    | branch _ hafter hbranch ih => exact .branch ih (hbody _ _ hafter) hbranch
  · intro h
    induction h with
    | first hfirst => exact .first (hentry.trans hfirst)
    | branch _ hbefore hbranch ih =>
      obtain ⟨body', hafter⟩ := ih.exists_bodyOf hwf'
      rw [hwf.bodyOf_unique hbefore (hbody _ _ hafter)] at hbranch
      exact .branch ih hafter hbranch

end Depth

/-! ### Balanced edits -/

namespace Fixpoint

/-- The values that an edit takes off the stack when a block is left: the head keeps one for itself, and
the block behind the idiom no longer drops it. -/
def Rewrite.taken (r : Rewrite) (label : LabelId) : Int :=
  (if r.edit.head.bind BasicBlockOf.entryLabel? = some label then 1 else 0) -
    (if r.edit.replace.getLast?.bind BasicBlockOf.entryLabel? = some label then 1 else 0)

/-- An edit that keeps the stack balanced: the unit is entered where it was, and what the edit takes off
the stack can be spared on all ways. -/
structure Rewrite.Balanced (r : Rewrite) : Prop where
  entry : firstLabel? r.after = firstLabel? r.before
  spares : Depth.Spares r.before r.after r.taken

/-- An edit that loses no start and no end of a scope. -/
def Rewrite.KeepsScopes (r : Rewrite) : Prop :=
  r.after.flatMap BasicBlockOf.scopeMarks = r.before.flatMap BasicBlockOf.scopeMarks

/-- The values that the edit of an idiom takes off the stack. -/
lemma Rewrite.taken_eq {r : Rewrite} {head exit : LabelId}
    (hhead : r.edit.head.bind BasicBlockOf.entryLabel? = some head)
    (hexit : r.edit.replace.getLast?.bind BasicBlockOf.entryLabel? = some exit) :
    r.taken = takenBetween head exit := by
  funext label
  simp only [Rewrite.taken, takenBetween, hhead, hexit, Option.some.injEq, eq_comm]

/-- Where the ways of a list are rerouted, its blocks get the values they take exactly by an edit that is
balanced. -/
lemma Rewrite.supplied_iff_of_reroutes (r : Rewrite) (hbefore : Depth.Supplied r.before)
    (hreroutes : firstLabel? r.after = firstLabel? r.before →
      ∃ seat source, Depth.Reroutes r.before r.after r.taken seat source) :
    Depth.Supplied r.after ∧ firstLabel? r.after = firstLabel? r.before ↔ r.Balanced := by
  constructor
  · rintro ⟨hafter, hentry⟩
    obtain ⟨seat, source, hways⟩ := hreroutes hentry
    exact ⟨hentry, (hways.supplied_iff hbefore).mp hafter⟩
  · intro h
    obtain ⟨seat, source, hways⟩ := hreroutes h.entry
    exact ⟨(hways.supplied_iff hbefore).mpr h.spares, h.entry⟩

/-! ### The edits of the rules for stack operations -/

section

variable {rule : Rule} {blocks after : List BasicBlock} {pos resume bound : Nat} {head : BasicBlock}
  {edit : Edit} {context context' : Context} (hrule : rule ∈ Rule.forStackOps)
  (hwf : WellFormed context.labels.names.length blocks) (hraw : ∀ block ∈ blocks, RawBody block.body)
  (hhead : blocks[pos]? = some head)
  (hedit : rule.edit? ⟨.ofBlocks blocks, pos, head⟩ context = (some edit, context'))
  (happly : edit.apply blocks pos = .ok (after, resume))
include hrule hwf hraw hhead hedit happly

/-- An edit of the rules for stack operations recognises a loop or a switch, or it deletes a block. -/
lemma stackOps_cases :
    (∃ head tail exit body minted headInit tailInit exitRest,
      CountedLoop.Rewrites blocks after head tail exit body minted headInit tailInit exitRest ∧
        Rewrite.taken ⟨rule, blocks, pos, edit, after⟩ = takenBetween head exit ∧
        Rewrite.KeepsScopes ⟨rule, blocks, pos, edit, after⟩) ∨
    (∃ head exit next case labels targets init exitRest,
      SwitchDispatch.Rewrites blocks after head exit next case labels targets init exitRest ∧
        Rewrite.taken ⟨rule, blocks, pos, edit, after⟩ = takenBetween head exit ∧
        Rewrite.KeepsScopes ⟨rule, blocks, pos, edit, after⟩) ∨
    after = blocks.eraseIdx pos ∧ Rewrite.taken ⟨rule, blocks, pos, edit, after⟩ = fun _ => 0 := by
  have hsite : Site.IsAt ⟨.ofBlocks blocks, pos, head⟩ blocks := ⟨rfl, hhead⟩
  obtain ⟨label, -, hshaped⟩ := hwf.shaped head (List.mem_of_getElem? hhead)
  have hlabel := hshaped.entryLabel?
  have hfits := Rule.fits hwf hsite hlabel hedit
  obtain ⟨replaced, removed, happ⟩ := Edit.apply_eq_ok happly
  have hwf' := happ.wellFormed hwf hfits hhead hlabel
  simp only [Rule.forStackOps, List.mem_cons, List.not_mem_nil, or_false] at hrule
  rcases hrule with rfl | rfl | rfl
  · obtain ⟨tail, exit, body, headInit, tailInit, exitRest, hrewrites, hnew, hlast, hremove, hinsert⟩ :=
      CountedLoop.exists_rewrites hwf hraw hsite hlabel hedit happly
    obtain ⟨new, hnewHead, -⟩ := Option.bind_eq_some_iff.mp hnew
    refine .inl ⟨label, tail, exit, body, _, headInit, tailInit, exitRest, hrewrites,
      Rewrite.taken_eq hnew hlast, ?_⟩
    refine happ.scopeMarks_eq hwf hfits hhead hlabel hnewHead ?_ (by simp [hremove]) hinsert
    exact fun l stmts stmts' hold hafter => hrewrites.scopeMarks_eq hwf hwf' hold hafter
  · obtain ⟨exit, next, case, labels, targets, init, exitRest, hrewrites, hnew, hlast, hremove, hinsert⟩ :=
      SwitchDispatch.exists_rewrites hwf hraw hsite hlabel hedit happly
    obtain ⟨new, hnewHead, -⟩ := Option.bind_eq_some_iff.mp hnew
    refine .inr (.inl ⟨label, exit, next, case, labels, targets, init, exitRest, hrewrites,
      Rewrite.taken_eq hnew hlast, ?_⟩)
    refine happ.scopeMarks_eq hwf hfits hhead hlabel hnewHead ?_ ?_ (by simp [hinsert])
    · exact fun l stmts stmts' hold hafter => hrewrites.scopeMarks_eq hwf hwf' hold hafter
    · rw [hremove]
      exact fun l hl stmts hbody => hrewrites.chain.scopeMarks hwf hl hbody
  · obtain ⟨_, -, -, -, rfl⟩ := Rule.deadBlocksEdit?_eq_some (congrArg Prod.fst hedit)
    refine .inr (.inr ⟨Edit.apply_delete happly, ?_⟩)
    funext l
    simp [Rewrite.taken]

/-- The rules for stack operations leave blocks of stack operations. -/
lemma rawBody_apply (hwf' : WellFormed bound after) : ∀ block ∈ after, RawBody block.body := by
  have hbodies : ∀ label stmts, BodyOf blocks label stmts → RawBody stmts := by
    rintro l stmts ⟨block, hblock, -, rfl⟩
    exact hraw block hblock
  intro block hblock
  obtain ⟨l, -, hshaped⟩ := hwf'.shaped block hblock
  have hbody : BodyOf after l block.body := ⟨block, hblock, hshaped.entryLabel?, rfl⟩
  obtain ⟨_, _, _, _, _, _, _, _, hloop, -⟩ | ⟨_, _, _, _, _, _, _, _, hswitch, -⟩ | ⟨rfl, -⟩ :=
    stackOps_cases hrule hwf hraw hhead hedit happly
  · exact hloop.rawBody hwf' hbodies l _ hbody
  · exact hswitch.rawBody hwf' hbodies l _ hbody
  · exact hraw block (List.mem_of_mem_eraseIdx hblock)

/-- Where the blocks get the values they take, they do so after an edit, with the entry of the unit kept,
exactly when the edit is balanced. -/
lemma supplied_apply_iff (hwf' : WellFormed bound after) (hbefore : Depth.Supplied blocks) :
    Depth.Supplied after ∧ firstLabel? after = firstLabel? blocks ↔
      Rewrite.Balanced ⟨rule, blocks, pos, edit, after⟩ := by
  refine Rewrite.supplied_iff_of_reroutes ⟨rule, blocks, pos, edit, after⟩ hbefore fun hentry => ?_
  obtain ⟨_, _, _, _, _, _, _, _, hloop, htaken, -⟩ | ⟨_, _, _, _, _, _, _, _, hswitch, htaken, -⟩ |
    ⟨rfl, htaken⟩ := stackOps_cases hrule hwf hraw hhead hedit happly
  · rw [htaken]
    exact ⟨_, _, hloop.reroutes hwf hwf' hentry hbefore⟩
  · rw [htaken]
    exact ⟨_, _, hswitch.reroutes hwf hwf' hentry hbefore⟩
  · have hbody : ∀ label body, BodyOf (blocks.eraseIdx pos) label body → BodyOf blocks label body := by
      rintro l stmts ⟨block, hblock, hl, rfl⟩
      exact ⟨block, List.mem_of_mem_eraseIdx hblock, hl, rfl⟩
    rw [htaken]
    have henters := Depth.enters_iff_of_bodyOf hwf hwf' hentry hbody
    exact ⟨_, _, Depth.reroutes_of_enters_iff hbefore henters hbody⟩

/-- Where scopes are entered and left in turn, they are so after an edit exactly when none of their starts
and ends is lost. -/
lemma scopesPaired_apply_iff (hpaired : ScopesPaired blocks) :
    ScopesPaired after ↔ Rewrite.KeepsScopes ⟨rule, blocks, pos, edit, after⟩ := by
  obtain ⟨_, _, _, _, _, _, _, _, -, -, hkeeps⟩ | ⟨_, _, _, _, _, _, _, _, -, -, hkeeps⟩ | ⟨rfl, -⟩ :=
    stackOps_cases hrule hwf hraw hhead hedit happly
  · exact iff_of_true (by rwa [ScopesPaired, hkeeps]) hkeeps
  · exact iff_of_true (by rwa [ScopesPaired, hkeeps]) hkeeps
  · exact scopesPaired_eraseIdx_iff hhead (hraw head (List.mem_of_getElem? hhead)) hpaired

end

/-- The run lemma.  What an edit does is judged by the list that it starts from, and the blocks get the
values they take as long as all edits are balanced. -/
lemma Rewriting.simulates (names : Names) {blocks last : List BasicBlock} {context lastContext : Context}
    {edits : List Rewrite} (h : Rewriting Rule.forStackOps blocks context edits last lastContext)
    (hwf : WellFormed context.labels.names.length blocks) (hraw : ∀ block ∈ blocks, RawBody block.body) :
    (∀ r ∈ edits, ∀ labels, Simulates names labels r.before →
      (Simulates names labels r.after ∧ firstLabel? r.after = firstLabel? r.before ↔
        r.Balanced ∧ r.KeepsScopes)) ∧
    (Depth.Supplied blocks → (∀ r ∈ edits, r.Balanced) →
      ∀ labels, Simulates names labels last ↔ ScopesPaired last) := by
  induction h with
  | done =>
    refine ⟨by simp, fun hsupplied _ labels => ?_⟩
    rw [simulates_iff names labels hwf hraw]
    exact and_iff_right hsupplied
  | tried _ _ hedit _ ih => exact ih (hwf.mono (Rule.names_length_le hedit)) hraw
  | @edited _ blocks _ _ context _ _ _ _ _ _ _ hrule hhead hedit happly _ ih =>
    have hstate : State.IsWellFormed { blocks, context } := hwf
    obtain ⟨after, resume, happly', hwf'⟩ := apply_wellFormed hstate hhead hedit
    rw [happly] at happly'
    cases happly'
    have hraw' := rawBody_apply hrule hwf hraw hhead hedit happly hwf'
    obtain ⟨hrest, hlast⟩ := ih hwf' hraw'
    refine ⟨List.forall_mem_cons.mpr ⟨?_, hrest⟩, ?_⟩
    · intro labels hbefore
      obtain ⟨hsupplied, hpaired⟩ := (simulates_iff names labels hwf hraw).mp hbefore
      rw [simulates_iff names labels hwf' hraw', and_right_comm,
        supplied_apply_iff hrule hwf hraw hhead hedit happly hwf' hsupplied,
        scopesPaired_apply_iff hrule hwf hraw hhead hedit happly hpaired]
    · intro hsupplied hbalanced
      obtain ⟨hfirst, hothers⟩ := List.forall_mem_cons.mp hbalanced
      have hafter := (supplied_apply_iff hrule hwf hraw hhead hedit happly hwf' hsupplied).mpr hfirst
      exact hlast hafter.1 hothers

/-- For code whose stack can be simulated, an edit of the rules for stack operations leaves it so, and the
unit entered where it was, exactly when the edit is balanced and loses no start or end of a scope.  After
a run of balanced edits the stack can be simulated exactly when the scopes that are left are entered and
left in turn. -/
theorem simulates_optimizeStackOps {names : Names} {bytes : List UInt8} {code : Code} {stmts : List Stmt}
    {blocks : List BasicBlock} {labels : Labels} (hdecode : decode names bytes = .ok code)
    (hlower : lower code = .ok stmts) (hpartition : partition (.ofTable code.labels) stmts = (blocks, labels))
    (hsimulates : Simulates names labels blocks) (maxSweeps : Nat) (diagnostics : Diagnostics) :
    (∀ r ∈ rewrites Rule.forStackOps maxSweeps blocks { labels, diagnostics }, ∀ labels',
      Simulates names labels' r.before →
        (Simulates names labels' r.after ∧ firstLabel? r.after = firstLabel? r.before ↔
          r.Balanced ∧ r.KeepsScopes)) ∧
    ((∀ r ∈ rewrites Rule.forStackOps maxSweeps blocks { labels, diagnostics }, r.Balanced) →
      (Simulates names (optimizeStackOps maxSweeps blocks { labels, diagnostics }).2.context.labels
          (optimizeStackOps maxSweeps blocks { labels, diagnostics }).2.blocks ↔
        ScopesPaired (optimizeStackOps maxSweeps blocks { labels, diagnostics }).2.blocks)) := by
  obtain ⟨hwf, hraw⟩ := wellFormed_of_decode hdecode hlower
  rw [hpartition] at hwf hraw
  obtain ⟨hsupplied, -⟩ := (simulates_iff names labels hwf hraw).mp hsimulates
  have hrun := rewriting_runFixpoint Rule.forStackOps maxSweeps blocks { labels, diagnostics }
  obtain ⟨hedits, hlast⟩ := hrun.simulates names hwf hraw
  exact ⟨hedits, fun hbalanced => hlast hsupplied hbalanced _⟩

/-- Code that counts from three down to zero on the stack, and stops counting when `x` is set. -/
def loopWithBreak : List UInt8 :=
  [0, 0, 0x02, 0xc0, 3, 0, 0, 0, 0, 0, 0x05, 0x82, 0, 0, 0x02, 0xc0, 0, 0, 0, 0, 0, 0, 0x55, 0x12,
    0x09, 0, 0, 0xb8, 0xff, 0xff, 0x05, 0xc0, 0, 0, 0, 0xa0, 0x06, 0, 0, 0xb8,
    0, 0, 0x02, 0xc0, 1, 0, 0, 0, 0, 0, 0x55, 0x09, 0, 0, 0x05, 0x82, 0xf9, 0xff, 0xff, 0xb8,
    0, 0, 0, 0x9f, 0, 0, 0, 0x9e]

/-- The loop is recognised, and its stack can be simulated before and after. -/
theorem loopWithBreak_simulates :
    ∃ code stmts blocks labels, decode { strings := ["x"] } loopWithBreak = .ok code ∧
      lower code = .ok stmts ∧ partition (.ofTable code.labels) stmts = (blocks, labels) ∧
      Simulates { strings := ["x"] } labels blocks ∧
      (rewrites Rule.forStackOps 256 blocks ⟨labels, { unit := "unit" }⟩).map (·.rule) = [.countedLoop] ∧
      Simulates { strings := ["x"] }
        (optimizeStackOps 256 blocks ⟨labels, { unit := "unit" }⟩).2.context.labels
        (optimizeStackOps 256 blocks ⟨labels, { unit := "unit" }⟩).2.blocks := by
  obtain ⟨code, stmts, blocks, labels, hdecode, hlower, hpartition, hsimulates, hrules, hall, hpaired⟩ :
      ∃ code stmts blocks labels, decode { strings := ["x"] } loopWithBreak = .ok code ∧
        lower code = .ok stmts ∧ partition (.ofTable code.labels) stmts = (blocks, labels) ∧
        Simulates { strings := ["x"] } labels blocks ∧
        (rewrites Rule.forStackOps 256 blocks ⟨labels, { unit := "unit" }⟩).map (·.rule) = [.countedLoop] ∧
        (∀ r ∈ rewrites Rule.forStackOps 256 blocks ⟨labels, { unit := "unit" }⟩,
          Simulates { strings := ["x"] } {} r.before ∧ Simulates { strings := ["x"] } {} r.after ∧
            firstLabel? r.after = firstLabel? r.before) ∧
        ScopesPaired (optimizeStackOps 256 blocks ⟨labels, { unit := "unit" }⟩).2.blocks := by
    rw [decode_eq_decodeBounded]
    exact ⟨_, _, _, _, rfl, rfl, rfl, by decide +kernel, by decide +kernel, by decide +kernel,
      by decide +kernel⟩
  obtain ⟨hedits, hlast⟩ :=
    simulates_optimizeStackOps hdecode hlower hpartition hsimulates 256 { unit := "unit" }
  have hbalanced : ∀ r ∈ rewrites Rule.forStackOps 256 blocks ⟨labels, { unit := "unit" }⟩, r.Balanced := by
    intro r hr
    obtain ⟨hbefore, hafter⟩ := hall r hr
    exact ((hedits r hr {} hbefore).mp hafter).1
  exact ⟨code, stmts, blocks, labels, hdecode, hlower, hpartition, hsimulates, hrules,
    (hlast hbalanced).mpr hpaired⟩

/-- Code whose stack can be simulated at first, and no longer when the rules for stack operations have
settled. -/
def BrokenByRules (names : Names) (bytes : List UInt8) : Prop :=
  ∃ code stmts blocks labels, decode names bytes = .ok code ∧ lower code = .ok stmts ∧
    partition (.ofTable code.labels) stmts = (blocks, labels) ∧ Simulates names labels blocks ∧
    (optimizeStackOps 256 blocks ⟨labels, { unit := "unit" }⟩).1.isOk = true ∧
    ¬ Simulates names (optimizeStackOps 256 blocks ⟨labels, { unit := "unit" }⟩).2.context.labels
      (optimizeStackOps 256 blocks ⟨labels, { unit := "unit" }⟩).2.blocks

/-- Code that counts from three down to zero on the stack, and drops the count to return when `x` is
set. -/
def loopWithReturn : List UInt8 :=
  [0, 0, 0x02, 0xc0, 3, 0, 0, 0, 0, 0, 0x05, 0x82, 0, 0, 0x02, 0xc0, 0, 0, 0, 0, 0, 0, 0x55, 0x12,
    0x09, 0, 0, 0xb8, 0xff, 0xff, 0x05, 0xc0, 0, 0, 0, 0xa0, 0x08, 0, 0, 0xb8,
    0, 0, 0x02, 0xc0, 1, 0, 0, 0, 0, 0, 0x55, 0x09, 0, 0, 0x05, 0x82, 0xf9, 0xff, 0xff, 0xb8,
    0, 0, 0, 0x9f, 0, 0, 0, 0x9e, 0, 0, 0, 0x9f, 0, 0, 0, 0x9e]

/-- Code that jumps over the start of a scope to its end. -/
def scopeWithoutStart : List UInt8 :=
  [0x05, 0, 0, 0xb7, 0, 0, 0x02, 0xc0, 1, 0, 0, 0, 0x02, 0, 0, 0xbb, 0, 0, 0, 0x9e,
    0xff, 0xff, 0xff, 0xbc, 0, 0, 0, 0x9e]

/-- The block that returns from the loop drops a count that is no longer there, and the end of the scope
stays without its start. -/
theorem loopWithReturn_broken :
    BrokenByRules { strings := ["x"] } loopWithReturn ∧ BrokenByRules {} scopeWithoutStart := by
  constructor
  all_goals
    rw [BrokenByRules, decode_eq_decodeBounded]
    exact ⟨_, _, _, _, rfl, rfl, rfl, by decide +kernel, by decide +kernel, by decide +kernel⟩

end Fixpoint

end Decompiler
