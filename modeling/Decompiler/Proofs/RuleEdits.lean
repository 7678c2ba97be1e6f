import Decompiler.Proofs.BlockLists

/-!
# What the rules ask for

One lemma for each rule that fires says what the rule has matched and which edit it asks for, guards
included.  From these follows what all edits have in common (`Edit.Modest`): a new head keeps its
label, only labels that the list names are deleted, and nothing is named that was not named before,
save the one label that the rule may mint.
-/

namespace Decompiler

open Bytecode

namespace ShortCircuit

/-- A second branch that stands alone, with what it tests and where it goes. -/
lemma inner?_eq_some {site : Site} {label : LabelId} {d : Expr} {t f : LabelId}
    (h : inner? site label = some (d, t, f)) :
    site.refcount label = 1 ∧
      ∃ block l, site.other? label = some block ∧
        block.body = [.label l, .condGoto d t, .goto f] := by
  unfold inner? at h
  split at h
  · cases h
  · rename_i hcount
    simp only [Option.bind_eq_bind, Option.bind_eq_some_iff] at h
    obtain ⟨block, hblock, h⟩ := h
    split at h
    · cases h
    · obtain ⟨l, hbody⟩ := singleBranch?_eq_some h
      exact ⟨not_not.mp hcount, block, l, hblock, hbody⟩

/-- Two branches fuse: one of the sides of the head's branch holds nothing but the other branch,
nothing else goes there, and the other side goes where one side of the other branch goes. -/
lemma edit?_eq_fusedEdit {site : Site} {edit : Edit} (h : edit? site = some edit) :
    ∃ init c t f inner block l d t' f' e, init ≠ [] ∧
      site.head.body = init ++ [.condGoto c t, .goto f] ∧
      (inner = f ∧ fuseElse? c t d t' f' = some e ∨ inner = t ∧ fuseThen? c f d t' f' = some e) ∧
      site.refcount inner = 1 ∧ site.other? inner = some block ∧
      block.body = [.label l, .condGoto d t', .goto f'] ∧
      edit = fusedEdit site e t' f' inner := by
  unfold edit? at h
  rw [Option.orElse_eq_orElse, Option.orElse_eq_or, Option.or_eq_some_iff] at h
  obtain h | ⟨-, h⟩ := h
  · simp only [editElse?, Option.bind_eq_bind, Option.bind_eq_some_iff] at h
    obtain ⟨⟨c, t, f⟩, hhead, ⟨d, t', f'⟩, hinner, e, hfuse, h⟩ := h
    cases h
    obtain ⟨init, hne, hbody⟩ := finalBranch?_eq_some hhead
    obtain ⟨hcount, block, l, hblock, hblockBody⟩ := inner?_eq_some hinner
    exact ⟨init, c, t, f, f, block, l, d, t', f', e, hne, hbody, .inl ⟨rfl, hfuse⟩, hcount, hblock,
      hblockBody, rfl⟩
  · simp only [editThen?, Option.bind_eq_bind, Option.bind_eq_some_iff] at h
    obtain ⟨⟨c, t, f⟩, hhead, ⟨d, t', f'⟩, hinner, e, hfuse, h⟩ := h
    cases h
    obtain ⟨init, hne, hbody⟩ := finalBranch?_eq_some hhead
    obtain ⟨hcount, block, l, hblock, hblockBody⟩ := inner?_eq_some hinner
    exact ⟨init, c, t, f, t, block, l, d, t', f', e, hne, hbody, .inr ⟨rfl, hfuse⟩, hcount, hblock,
      hblockBody, rfl⟩

/-- Two branches fuse into a branch on some test. -/
lemma edit?_eq_some {site : Site} {edit : Edit} (h : edit? site = some edit) :
    ∃ init c t f inner block l d t' f' e, init ≠ [] ∧
      site.head.body = init ++ [.condGoto c t, .goto f] ∧ (inner = t ∨ inner = f) ∧
      site.refcount inner = 1 ∧ site.other? inner = some block ∧
      block.body = [.label l, .condGoto d t', .goto f'] ∧
      edit = { head := some (site.headWith 2 [.condGoto e t', .goto f']), remove := [inner] } := by
  obtain ⟨init, c, t, f, inner, block, l, d, t', f', e, hne, hbody, hside, hrest⟩ :=
    edit?_eq_fusedEdit h
  exact ⟨init, c, t, f, inner, block, l, d, t', f', e.leftAssociate, hne, hbody,
    hside.symm.imp And.left And.left, hrest⟩

end ShortCircuit

namespace Ternary

/-- An arm that does nothing but push a value. -/
lemma arm?_eq_some {site : Site} {label : LabelId} {value : Expr} {fall : LabelId}
    (h : arm? site label = some (value, fall)) :
    site.refcount label = 1 ∧
      ∃ block l, site.other? label = some block ∧ block.entryDepth = 0 ∧
        block.body = [.label l, .push value, .goto fall] := by
  unfold arm? at h
  split at h
  · cases h
  · rename_i hcount
    simp only [Option.bind_eq_bind, Option.bind_eq_some_iff] at h
    obtain ⟨block, hblock, h⟩ := h
    split at h
    · cases h
    · rename_i hdepth
      split at h
      · rename_i l _ _ hbody
        cases h
        exact ⟨not_not.mp hcount, block, l, hblock, not_not.mp hdepth, hbody⟩
      · cases h

/-- The meeting block of two arms, when it does nothing but branch. -/
lemma meeting?_eq_some {site : Site} {label : LabelId} {next : Expr} {target other : LabelId}
    (h : meeting? site label = some (next, target, other)) :
    site.refcount label = 2 ∧
      ∃ block l, site.other? label = some block ∧ block.entryDepth = 1 ∧
        block.body = [.label l, .condGoto next target, .goto other] := by
  simp only [meeting?, Option.bind_eq_bind, Option.bind_eq_some_iff] at h
  obtain ⟨block, hblock, h⟩ := h
  split at h
  · cases h
  · rename_i hguard
    obtain ⟨l, hbody⟩ := singleBranch?_eq_some h
    obtain ⟨hdepth, hcount⟩ := not_or.mp hguard
    exact ⟨not_not.mp hcount, block, l, hblock, not_not.mp hdepth, hbody⟩

/-- A branch with two arms becomes their value, and takes in the meeting block when that branches on
the value at once. -/
lemma edit?_eq_some {site : Site} {edit : Edit} (h : edit? site = some edit) :
    ∃ init test t f onTrue onFalse fall value, init ≠ [] ∧
      site.head.body = init ++ [.condGoto test t, .goto f] ∧ t ≠ f ∧
      arm? site t = some (onTrue, fall) ∧ arm? site f = some (onFalse, fall) ∧
      fall ≠ t ∧ fall ≠ f ∧ fold? test onTrue onFalse = some value ∧
      ((∃ next target other, meeting? site fall = some (next, target, other) ∧
          edit = { head := some (site.headWith 2
                     [.condGoto (next.substitute [value]) target, .goto other])
                   remove := [t, f, fall] }) ∨
        edit = { head := some (site.headWith 2 [.push value, .goto fall]), remove := [t, f] }) := by
  unfold edit? at h
  obtain ⟨⟨test, t, f⟩, hhead, h⟩ := Option.bind_eq_some_iff.mp h
  dsimp only at h
  split at h
  · cases h
  rename_i hne
  obtain ⟨⟨onTrue, fall⟩, hthen, h⟩ := Option.bind_eq_some_iff.mp h
  obtain ⟨⟨onFalse, fall'⟩, helse, h⟩ := Option.bind_eq_some_iff.mp h
  dsimp only at h
  split at h
  · cases h
  rename_i hguard
  simp only [not_or, not_not] at hguard
  obtain ⟨rfl, hft, hff⟩ := hguard
  obtain ⟨value, hvalue, h⟩ := Option.bind_eq_some_iff.mp h
  obtain ⟨init, hinit, hbody⟩ := finalBranch?_eq_some hhead
  refine ⟨init, test, t, f, onTrue, onFalse, fall, value, hinit, hbody, hne, hthen, helse, hft, hff,
    hvalue, ?_⟩
  split at h
  · rename_i next target other hmeet
    cases h
    exact .inl ⟨next, target, other, hmeet, rfl⟩
  · cases h
    exact .inr rfl

end Ternary

namespace WithScope

/-- The start of a scope. -/
lemma enter?_eq_some {block : BasicBlock} {env : Expr} {skip body : LabelId}
    (h : enter? block = some (env, skip, body)) :
    ∃ init, init ≠ [] ∧ block.body = init ++ [.pushEnv env skip, .goto body] := by
  unfold enter? at h
  split at h
  · rename_i ht
    cases h
    obtain ⟨init, hne, hbody, -⟩ := BasicBlockOf.tail?_eq_some ht
    exact ⟨init, hne, hbody⟩
  · cases h

/-- The end of a scope. -/
lemma leave?_eq_some {block : BasicBlock} {back after : LabelId}
    (h : leave? block = some (back, after)) :
    ∃ l, block.body = [.label l, .popEnv back, .goto after] := by
  unfold leave? at h
  split at h
  · rename_i l _ _ hbody
    cases h
    exact ⟨l, hbody⟩
  · cases h

/-- The statements of a straight block. -/
lemma straight?_eq_some {block : BasicBlock} {stmts : List Stmt} {target : LabelId}
    (h : straight? block = some (stmts, target)) :
    ∃ l, block.body = .label l :: (stmts ++ [.goto target]) := by
  unfold straight? at h
  split at h
  · rename_i l rest hbody
    split at h
    · rename_i last hlast
      cases h
      refine ⟨l, ?_⟩
      rw [hbody, List.dropLast_append_getLast? _ hlast]
    · cases h
  · cases h

/-- A scope with a straight body becomes one statement. -/
lemma edit?_eq_some {site : Site} {edit : Edit} (h : edit? site = some edit) :
    ∃ init env skip body popBlock l after bodyBlock l' stmts, init ≠ [] ∧
      site.head.body = init ++ [.pushEnv env skip, .goto body] ∧ skip ≠ body ∧
      site.refcount body = 2 ∧ site.refcount skip = 2 ∧
      site.other? skip = some popBlock ∧
      popBlock.body = [.label l, .popEnv body, .goto after] ∧
      site.other? body = some bodyBlock ∧
      bodyBlock.body = .label l' :: (stmts ++ [.goto skip]) ∧
      stmts.all isStraight ∧
      edit = { head := some (site.headWith 2 [.scope env { body := stmts } none, .goto after])
               remove := [body, skip] } := by
  unfold edit? at h
  obtain ⟨⟨env, skip, body⟩, henter, h⟩ := Option.bind_eq_some_iff.mp h
  dsimp only at h
  split at h
  · cases h
  rename_i hcounts
  simp only [not_or, not_not] at hcounts
  obtain ⟨hne, hbodyCount, hskipCount⟩ := hcounts
  obtain ⟨popBlock, hpop, h⟩ := Option.bind_eq_some_iff.mp h
  obtain ⟨⟨back, after⟩, hleave, h⟩ := Option.bind_eq_some_iff.mp h
  dsimp only at h
  split at h
  · cases h
  rename_i hback
  obtain rfl : back = body := not_not.mp hback
  obtain ⟨bodyBlock, hbodyBlock, h⟩ := Option.bind_eq_some_iff.mp h
  obtain ⟨⟨stmts, last⟩, hstraight, h⟩ := Option.bind_eq_some_iff.mp h
  dsimp only at h
  split at h
  · cases h
  rename_i hguard
  simp only [not_or, not_not, Bool.not_eq_true', Bool.not_eq_false] at hguard
  obtain ⟨rfl, -, hall⟩ := hguard
  cases h
  obtain ⟨init, hinit, hbody⟩ := enter?_eq_some henter
  obtain ⟨l, hpopBody⟩ := leave?_eq_some hleave
  obtain ⟨l', hbodyBody⟩ := straight?_eq_some hstraight
  exact ⟨init, env, _, _, popBlock, l, after, bodyBlock, l', stmts, hinit, hbody, hne,
    hbodyCount, hskipCount, hpop, hpopBody, hbodyBlock, hbodyBody, hall, rfl⟩

end WithScope

namespace Join

/-- A head that only jumps on takes in the block behind the jump, which is not the first block. -/
lemma edit?_eq_some {site : Site} {edit : Edit} (h : edit? site = some edit) :
    ∃ kept dropped next nextAt nextBlock values, kept ≠ [] ∧
      site.head.body = kept ++ (dropped ++ [.goto next]) ∧ site.refcount next = 1 ∧
      (∀ s ∈ site.head.body, s.isConditional = false) ∧
      site.map.position? next = some nextAt ∧ nextAt ≠ site.pos ∧ nextAt ≠ 0 ∧
      site.blocks[nextAt]? = some nextBlock ∧
      edit = { head := some { site.head with
                 body := kept ++ (nextBlock.body.drop 1).map (Stmt.substitute values) }
               remove := [next] } := by
  unfold edit? at h
  obtain ⟨next, hgoto, h⟩ := Option.bind_eq_some_iff.mp h
  dsimp only at h
  split at h
  · cases h
  rename_i hguard
  simp only [not_or, not_not, Bool.not_eq_true, List.any_eq_false] at hguard
  obtain ⟨nextAt, hat, h⟩ := Option.bind_eq_some_iff.mp h
  split at h
  · cases h
  rename_i hpos
  simp only [not_or] at hpos
  obtain ⟨nextBlock, hnext, h⟩ := Option.bind_eq_some_iff.mp h
  obtain ⟨joined, hjoined, h⟩ := Option.bind_eq_some_iff.mp h
  cases h
  unfold joined? at hjoined
  simp only [Option.bind_eq_bind] at hjoined
  split at hjoined
  · cases hjoined
  rename_i hlen
  simp only [Option.bind_eq_some_iff] at hjoined
  obtain ⟨values, -, hjoined⟩ := hjoined
  cases hjoined
  have hbody := BasicBlockOf.gotoTarget?_eq_some hgoto
  have hdrop : site.head.body.length - 1 = site.head.body.dropLast.length := by simp
  refine ⟨_, site.head.body.dropLast.drop (site.head.body.length - 1 - nextBlock.entryDepth), next,
    nextAt, nextBlock, values, ?_, ?_, hguard.1, hguard.2, hat, hpos.1, hpos.2, hnext, rfl⟩
  · intro hnil
    have := congrArg List.length hnil
    simp only [List.length_take, List.length_nil] at this
    omega
  · conv_lhs => rw [hbody]
    conv_rhs => rw [hbody]
    rw [← List.append_assoc]
    congr 1
    rw [List.take_append_of_le_length (by simp), ← hbody, List.take_append_drop]

end Join

namespace SwitchDispatch

/-- The statements of a link. -/
lemma link?_eq_some {stmts : List Stmt} {link : Link} (h : link? stmts = some link) :
    ∃ a b c, stmts = [.raw link.offset (.dup 0), .raw a (.push link.value),
      .raw b (.binary .eq), .raw c (.branchTrue link.case), .goto link.next] := by
  unfold link? at h
  split at h
  · split at h
    · rename_i hflag
      cases h
      rw [hflag]
      exact ⟨_, _, _, rfl⟩
    · cases h
  · cases h

/-- The blocks of a chain from a label on: its links, the labels of its blocks and its default.  Each
block is named once and is not the head. -/
inductive Chained (site : Site) : LabelId → List Link → List LabelId → LabelId → Prop where
  | last {next default l : LabelId} {block : BasicBlock} (hcount : site.refcount next = 1)
      (hblock : site.other? next = some block) (hbody : block.body = [.label l, .goto default]) :
      Chained site next [] [next] default
  | link {next default l : LabelId} {block : BasicBlock} {stmts : List Stmt} {link : Link}
      {links : List Link} {labels : List LabelId} (hcount : site.refcount next = 1)
      (hblock : site.other? next = some block) (hbody : block.body = .label l :: stmts)
      (hlink : link? stmts = some link) (hnew : next ∉ labels)
      (hrest : Chained site link.next links labels default) :
      Chained site next (link :: links) (next :: labels) default

/-- A chain that is followed to its end. -/
lemma follow?_eq_some {site : Site} {fuel : Nat} {next : LabelId} {links : List Link}
    {labels : List LabelId} {chain : Chain}
    (h : follow? site fuel next links labels = some chain) :
    ∃ links' labels', chain.links = links ++ links' ∧ chain.labels = labels ++ labels' ∧
      Chained site next links' labels' chain.default ∧ ∀ l ∈ labels', l ∉ labels := by
  induction fuel generalizing next links labels with
  | zero => cases h
  | succ fuel ih =>
    rw [follow?] at h
    split at h
    · cases h
    rename_i hguard
    simp only [Bool.or_eq_true, List.contains_iff_mem, bne_iff_ne, not_or, not_not] at hguard
    obtain ⟨hnew, hcount⟩ := hguard
    simp only [Option.bind_eq_bind, Option.bind_eq_some_iff] at h
    obtain ⟨block, hblock, h⟩ := h
    split at h
    · rename_i l default hbody
      cases h
      refine ⟨[], [next], (List.append_nil _).symm, rfl, .last hcount hblock hbody, ?_⟩
      intro l hl
      rwa [List.mem_singleton.mp hl]
    · rename_i l rest _ hbody
      simp only [Option.bind_eq_some_iff] at h
      obtain ⟨link, hlink, h⟩ := h
      obtain ⟨links', labels', hlinks, hlabels, hchain, hfresh⟩ := ih h
      refine ⟨link :: links', next :: labels', by rw [hlinks, List.append_assoc]; rfl,
        by rw [hlabels, List.append_assoc]; rfl,
        .link hcount hblock hbody hlink (fun hmem => hfresh next hmem (by simp)) hchain, ?_⟩
      intro l hl
      rcases List.mem_cons.mp hl with rfl | hl
      · exact hnew
      · exact fun hmem => hfresh l hl (List.mem_append_left _ hmem)
    · cases h

/-- The search for a `popz` ends at a block that starts with one. -/
lemma findPopz?_eq_some {map : BlockMap} {fuel : Nat} {seen pending : List LabelId}
    {label : LabelId} (h : findPopz? map fuel seen pending = some label) :
    ∃ block, map.block? label = some block ∧ startsWithPopz block = true := by
  induction fuel generalizing seen pending with
  | zero => cases h
  | succ fuel ih =>
    cases pending with
    | nil => cases h
    | cons next pending =>
      rw [findPopz?] at h
      split at h
      · exact ih h
      · split at h
        · exact ih h
        · rename_i block hblock
          split at h
          · rename_i hpopz
            cases h
            exact ⟨block, hblock, hpopz⟩
          · exact ih h


/-- The chain ends where the compared value is dropped. -/
lemma startsWithPopz_of_end? {site : Site} {first : Link} {chain : Chain} {last : LabelId}
    {block : BasicBlock} (h : end? site first chain = some last)
    (hblock : site.other? last = some block) : startsWithPopz block = true := by
  unfold end? at h
  split at h
  · rename_i hdefault
    cases h
    rw [hblock] at hdefault
    exact hdefault
  · split at h
    · rename_i a b ha hb
      split at h
      · cases h
        obtain ⟨block', hblock', hpopz⟩ := findPopz?_eq_some ha
        obtain ⟨i, -, hi, hat, -⟩ := Site.other?_eq_some hblock
        have hsame : site.map.block? last = some block := by
          rw [BlockMap.block?, hi]
          exact hat
        rw [hsame] at hblock'
        cases hblock'
        exact hpopz
      · cases h
    · cases h

/-- A chain becomes one dispatch, and the block where it ends loses its `popz`. -/
lemma edit?_eq_some {site : Site} {context context' : Context} {edit : Edit}
    (h : edit? site context = (some edit, context')) :
    context' = context ∧
    ∃ init a b c, ∃ (first : Link) (chain : Chain), ∃ last endBlock, init ≠ [] ∧
      site.head.body = init ++ [.raw first.offset (.dup 0), .raw a (.push first.value),
        .raw b (.binary .eq), .raw c (.branchTrue first.case), .goto first.next] ∧
      Chained site first.next chain.links chain.labels chain.default ∧
      last ∉ chain.labels ∧ site.other? last = some endBlock ∧ startsWithPopz endBlock = true ∧
      edit = { head := some (site.headWith 5
                 [.raw first.offset (.dispatch
                    ((first :: chain.links).map fun link => (link.value, link.case)) chain.default),
                   .goto chain.default])
               replace := [withoutFirst endBlock]
               remove := chain.labels } := by
  unfold edit? at h
  split at h
  · cases h
  rename_i first chain hchain
  split at h
  · rename_i last hend
    simp only [Prod.mk.injEq] at h
    obtain ⟨hedit, rfl⟩ := h
    refine ⟨rfl, ?_⟩
    simp only [chain?, Option.bind_eq_bind, Option.bind_eq_some_iff] at hchain
    obtain ⟨link, hlink, hchain⟩ := hchain
    split at hchain
    · cases hchain
    simp only [Option.bind_eq_some_iff] at hchain
    obtain ⟨chain', hfollow, hchain⟩ := hchain
    cases hchain
    simp only [finalLink?, Option.bind_eq_some_iff] at hlink
    obtain ⟨stmts, htail, hlink⟩ := hlink
    obtain ⟨init, hinit, hbody, -⟩ := BasicBlockOf.tail?_eq_some htail
    obtain ⟨a, b, c, rfl⟩ := link?_eq_some hlink
    obtain ⟨links, labels, hlinks, hlabels, hchained, -⟩ := follow?_eq_some hfollow
    rw [List.nil_append] at hlinks hlabels
    rw [← hlinks, ← hlabels] at hchained
    simp only [chainEdit?, Option.bind_eq_bind] at hedit
    split at hedit
    · cases hedit
    rename_i hlast
    simp only [Option.bind_eq_some_iff] at hedit
    obtain ⟨endBlock, hother, hedit⟩ := hedit
    cases hedit
    refine ⟨init, a, b, c, first, chain, last, endBlock, hinit, hbody, hchained, ?_, hother,
      ?_, rfl⟩
    · simpa using hlast
    · exact startsWithPopz_of_end? hend hother
  · cases h

end SwitchDispatch

namespace CountedLoop

/-- The end of the head of a counted loop, and what is asked of it. -/
lemma exists_headEnd {block : BasicBlock} {head : Head} (h : head? block = some head) :
    ∃ init zero a b c, init ≠ [] ∧
      block.body = init ++ [.raw a (.dup 0), .raw b (.push zero), .raw c (.binary .le),
        .raw head.offset (.branchTrue head.exit), .goto head.body] ∧
      zero.integer? = some 0 ∧ head.exit ≠ head.body := by
  unfold head? at h
  split at h
  · rename_i htail
    split at h
    · rename_i hguard
      cases h
      obtain ⟨init, hinit, hbody, -⟩ := BasicBlockOf.tail?_eq_some htail
      rw [hguard.1] at hbody
      exact ⟨init, _, _, _, _, hinit, hbody, hguard.2⟩
    · cases h
  · cases h

/-- The end of the head of a counted loop. -/
lemma head?_eq_some {block : BasicBlock} {head : Head} (h : head? block = some head) :
    ∃ init zero a b c, init ≠ [] ∧
      block.body = init ++ [.raw a (.dup 0), .raw b (.push zero), .raw c (.binary .le),
        .raw head.offset (.branchTrue head.exit), .goto head.body] := by
  obtain ⟨init, zero, a, b, c, hinit, hbody, -⟩ := exists_headEnd h
  exact ⟨init, zero, a, b, c, hinit, hbody⟩

/-- The end of the tail of a counted loop. -/
lemma tail?_eq_some {head : Head} {block : BasicBlock} {tail : Tail}
    (h : tail? head block = some tail) :
    ∃ init a b c, init ≠ [] ∧
      block.body = init ++ [.raw tail.offset (.push tail.step), .raw a (.binary .sub),
        .raw b (.dup 0), .raw c (.branchTrue head.body), .goto head.exit] := by
  unfold tail? at h
  split at h
  · rename_i htail
    split at h
    · rename_i hguard
      cases h
      obtain ⟨init, hinit, hbody, -⟩ := BasicBlockOf.tail?_eq_some htail
      rw [hguard.1, hguard.2.1, hguard.2.2] at hbody
      exact ⟨init, _, _, _, hinit, hbody⟩
    · cases h
  · cases h

/-- The tail of a counted loop is a block of the list. -/
lemma findTail?_eq_some {head : Head} {blocks : List BasicBlock} {i : Nat} {block : BasicBlock}
    {tail : Tail} (h : findTail? head blocks = some (i, block, tail)) :
    blocks[i]? = some block ∧ tail? head block = some tail := by
  obtain ⟨⟨b, j⟩, hmem, h⟩ := List.exists_of_findSome?_eq_some h
  simp only [Option.map_eq_some_iff, Prod.mk.injEq] at h
  obtain ⟨t, ht, rfl, rfl, rfl⟩ := h
  exact ⟨List.mem_zipIdx_iff_getElem?.mp hmem, ht⟩

/-- The parts of a counted loop are apart from each other. -/
lemma match?_eq_some {site : Site} {found : Match} (h : match? site = some found) :
    ∃ tailAt exitAt, head? site.head = some found.head ∧
      site.blocks[tailAt]? = some found.tailBlock ∧ tail? found.head found.tailBlock = some found.tail ∧
      site.map.position? found.head.exit = some exitAt ∧ site.blocks[exitAt]? = some found.exitBlock ∧
      tailAt ≠ site.pos ∧ exitAt ≠ site.pos ∧ exitAt ≠ tailAt ∧
      startsWithPopz found.exitBlock = true := by
  simp only [match?, Option.bind_eq_bind, Option.bind_eq_some_iff] at h
  obtain ⟨head, hhead, ⟨tailAt, tailBlock, tail⟩, htail, exitAt, hexitAt, exitBlock, hexit, h⟩ := h
  split at h
  · cases h
  rename_i hguard
  simp only [not_or, Bool.not_eq_true', Bool.not_eq_false] at hguard
  cases h
  obtain ⟨htailBlock, htail⟩ := findTail?_eq_some htail
  exact ⟨tailAt, exitAt, hhead, htailBlock, htail, hexitAt, hexit, hguard.1, hguard.2.1, hguard.2.2.1,
    hguard.2.2.2⟩

/-- The temporary that the next counted loop gets. -/
def counterName (context : Context) : String :=
  "repeat_" ++ toString (context.labels.counter stem)

/-- The edit that keeps the counter of a loop in a temporary, which a block under a new label tests. -/
def countedEdit (site : Site) (found : Match) (counter : String) (minted : LabelId) : Edit where
  head := some (site.headWith 5 (headEnd found.head counter minted))
  insert := [testBlock found.head counter minted]
  replace := [tailBlock found.tailBlock found.tail counter minted, withoutFirst found.exitBlock]

/-- The edit of a counted loop that is found. -/
lemma edit?_of_match? {site : Site} {found : Match} (context : Context) (h : match? site = some found) :
    ∃ name counters,
      edit? site context =
        (some (countedEdit site found (counterName context) context.labels.names.length),
          { context with labels := ⟨context.labels.names ++ [name], counters⟩ }) := by
  rw [edit?, h]
  exact ⟨_, _, rfl⟩

/-- The edit of a counted loop is for a loop that is found. -/
lemma edit?_eq_countedEdit {site : Site} {context context' : Context} {edit : Edit}
    (h : edit? site context = (some edit, context')) :
    ∃ found name counters, match? site = some found ∧
      edit = countedEdit site found (counterName context) context.labels.names.length ∧
      context' = { context with labels := ⟨context.labels.names ++ [name], counters⟩ } := by
  cases hmatch : match? site with
  | none =>
    rw [edit?, hmatch] at h
    cases h
  | some found =>
    obtain ⟨name, counters, hedit⟩ := edit?_of_match? context hmatch
    rw [h] at hedit
    obtain ⟨hsome, hcontext⟩ := Prod.mk.inj hedit
    exact ⟨found, name, counters, rfl, Option.some.inj hsome, hcontext⟩

/-- A counted loop keeps its counter in a temporary, which a block under a new label tests. -/
lemma edit?_eq_some {site : Site} {context context' : Context} {edit : Edit}
    (h : edit? site context = (some edit, context')) :
    ∃ counter name counters, ∃ head : Head, ∃ tailAt tailBlock, ∃ tail : Tail, ∃ exitAt exitBlock,
      context' = { context with labels := ⟨context.labels.names ++ [name], counters⟩ } ∧
      head? site.head = some head ∧
      site.blocks[tailAt]? = some tailBlock ∧ tail? head tailBlock = some tail ∧
      site.map.position? head.exit = some exitAt ∧ site.blocks[exitAt]? = some exitBlock ∧
      tailAt ≠ site.pos ∧ exitAt ≠ site.pos ∧ exitAt ≠ tailAt ∧ startsWithPopz exitBlock = true ∧
      edit = { head := some (site.headWith 5 (headEnd head counter context.labels.names.length))
               insert := [testBlock head counter context.labels.names.length]
               replace := [CountedLoop.tailBlock tailBlock tail counter context.labels.names.length,
                 withoutFirst exitBlock] } := by
  obtain ⟨found, name, counters, hmatch, rfl, rfl⟩ := edit?_eq_countedEdit h
  obtain ⟨tailAt, exitAt, hhead, htailAt, htail, hexitAt, hexit, htailPos, hexitPos, hexitTail, hpopz⟩ :=
    match?_eq_some hmatch
  exact ⟨_, name, counters, found.head, tailAt, _, found.tail, exitAt, _, rfl, hhead, htailAt, htail,
    hexitAt, hexit, htailPos, hexitPos, hexitTail, hpopz, rfl⟩

end CountedLoop

/-- The deletion of a block. -/
lemma Rule.deadBlocksEdit?_eq_some {site : Site} {context : Context} {edit : Edit}
    (h : (deadBlocksEdit? site context).1 = some edit) :
    ∃ l, site.head.entryLabel? = some l ∧ site.pos ≠ 0 ∧ site.refcount l = 0 ∧ edit = {} := by
  unfold deadBlocksEdit? at h
  split at h
  · cases h
  rename_i l hl
  split at h
  · cases h
  rename_i hguard
  simp only [not_or, not_not] at hguard
  refine ⟨l, hl, hguard.1, hguard.2, ?_⟩
  split at h
  · cases h
    rfl
  · cases h
    rfl

/-! ### What all edits have in common -/

/-- A site of a block list. -/
structure Site.IsAt (site : Site) (blocks : List BasicBlock) : Prop where
  map_eq : site.map = .ofBlocks blocks
  head_eq : blocks[site.pos]? = some site.head

namespace Site.IsAt

variable {site : Site} {blocks : List BasicBlock} (h : site.IsAt blocks)
include h

/-- What a block of the list may jump to is named. -/
lemma named {block : BasicBlock} {i : Nat} (hblock : site.blocks[i]? = some block) {l : LabelId}
    (hl : l ∈ Stmt.targetsOfList block.body) : l ∈ site.map.mentions := by
  rw [Site.blocks, h.map_eq] at hblock
  rw [h.map_eq]
  exact List.mem_flatMap.mpr ⟨block, List.mem_of_getElem? hblock, hl⟩

/-- What the head may jump to is named. -/
lemma named_head {l : LabelId} (hl : l ∈ Stmt.targetsOfList site.head.body) :
    l ∈ site.map.mentions := by
  refine h.named (i := site.pos) ?_ hl
  rw [Site.blocks, h.map_eq]
  exact h.head_eq

/-- What another block may jump to is named. -/
lemma named_other {label : LabelId} {block : BasicBlock} (hblock : site.other? label = some block)
    {l : LabelId} (hl : l ∈ Stmt.targetsOfList block.body) : l ∈ site.map.mentions := by
  obtain ⟨i, -, -, hat, -⟩ := Site.other?_eq_some hblock
  exact h.named hat hl

omit h in
/-- A label with a count is named. -/
lemma named_of_refcount {l : LabelId} {n : Nat} (hcount : site.refcount l = n + 1) :
    l ∈ site.map.mentions := by
  have hpos : 0 < site.map.mentions.count l := by
    rw [Site.refcount, BlockMap.refcount] at hcount
    omega
  exact List.count_pos_iff.mp hpos

end Site.IsAt

/-- An edit that keeps the label of its head, deletes only labels that are named, and names nothing
new but `minted`.  An edit without a new head does nothing but delete the head, which is not the
first block. -/
structure Edit.Modest (edit : Edit) (site : Site) (minted : LabelId) : Prop where
  head_label : ∀ block, edit.head = some block → block.entryLabel? = site.head.entryLabel?
  deleted : edit.head = none → site.pos ≠ 0 ∧ edit = {}
  remove_named : ∀ l ∈ edit.remove, l ∈ site.map.mentions
  targets_named : ∀ block ∈ edit.head.toList ++ (edit.replace ++ edit.insert),
    ∀ l ∈ Stmt.targetsOfList block.body, l ∈ site.map.mentions ∨ l = minted

/-- An edit that exchanges the end of its head, and replaces and inserts other blocks, is modest when
the labels it deletes and names are named. -/
lemma Edit.modest_of_headWith {site : Site} {blocks : List BasicBlock} {minted : LabelId}
    {init old stmts : List Stmt} {replace insert : List BasicBlock} {remove : List LabelId}
    (hsite : site.IsAt blocks) (hinit : init ≠ []) (hbody : site.head.body = init ++ old)
    (hremove : ∀ l ∈ remove, l ∈ site.map.mentions)
    (htargets : ∀ l ∈ Stmt.targetsOfList stmts, l ∈ site.map.mentions ∨ l = minted)
    (hblocks : ∀ block ∈ replace ++ insert, ∀ l ∈ Stmt.targetsOfList block.body,
      l ∈ site.map.mentions ∨ l = minted) :
    Edit.Modest ⟨some (site.headWith old.length stmts), replace, remove, insert⟩ site minted where
  head_label := by
    intro block hblock
    cases hblock
    exact BasicBlockOf.entryLabel?_congr hinit (Site.body_headWith hbody stmts) hbody
  deleted := by
    intro h
    cases h
  remove_named := hremove
  targets_named := by
    intro block hblock l hl
    rcases List.mem_append.mp hblock with hhead | hother
    · have hhead : block = site.headWith old.length stmts := by simpa using hhead
      rw [hhead, Site.body_headWith hbody, Stmt.targetsOfList_append, List.mem_append] at hl
      rcases hl with hl | hl
      · refine .inl (hsite.named_head ?_)
        rw [hbody, Stmt.targetsOfList_append]
        exact List.mem_append_left _ hl
      · exact htargets l hl
    · exact hblocks block hother l hl

/-- The edit that fuses two branches is modest. -/
lemma ShortCircuit.modest {site : Site} {blocks : List BasicBlock} {edit : Edit} {minted : LabelId}
    (hsite : site.IsAt blocks) (h : edit? site = some edit) : edit.Modest site minted := by
  obtain ⟨init, c, t, f, inner, block, l, d, t', f', e, hinit, hbody, -, hcount, hblock, hinner,
    rfl⟩ := edit?_eq_some h
  refine Edit.modest_of_headWith hsite hinit hbody ?_ ?_ ?_
  · intro l hl
    rw [List.mem_singleton.mp hl]
    exact Site.IsAt.named_of_refcount hcount
  · intro l hl
    refine .inl (hsite.named_other hblock ?_)
    rw [hinner]
    exact hl
  · intro block hblock
    simp at hblock

/-- The edit that makes a value of a branch is modest. -/
lemma Ternary.modest {site : Site} {blocks : List BasicBlock} {edit : Edit} {minted : LabelId}
    (hsite : site.IsAt blocks) (h : edit? site = some edit) : edit.Modest site minted := by
  obtain ⟨init, test, t, f, onTrue, onFalse, fall, value, hinit, hbody, -, hthen, helse, -, -, -,
    hedit⟩ := edit?_eq_some h
  obtain ⟨htCount, thenBlock, lt, hthenBlock, -, hthenBody⟩ := arm?_eq_some hthen
  obtain ⟨hfCount, -⟩ := arm?_eq_some helse
  have ht := Site.IsAt.named_of_refcount htCount
  have hf := Site.IsAt.named_of_refcount hfCount
  rcases hedit with ⟨next, target, other, hmeet, rfl⟩ | rfl
  · obtain ⟨hcount, block, l, hblock, -, hblockBody⟩ := meeting?_eq_some hmeet
    have hfall := Site.IsAt.named_of_refcount hcount
    refine Edit.modest_of_headWith hsite hinit hbody ?_ ?_ ?_
    · simp [ht, hf, hfall]
    · intro l hl
      refine .inl (hsite.named_other hblock ?_)
      rw [hblockBody]
      exact hl
    · simp
  · refine Edit.modest_of_headWith hsite hinit hbody ?_ ?_ ?_
    · simp [ht, hf]
    · intro l hl
      refine .inl (hsite.named_other hthenBlock ?_)
      rw [hthenBody]
      exact hl
    · simp

/-- The edit that makes a statement of a scope is modest. -/
lemma WithScope.modest {site : Site} {blocks : List BasicBlock} {edit : Edit} {minted : LabelId}
    (hsite : site.IsAt blocks) (h : edit? site = some edit) : edit.Modest site minted := by
  obtain ⟨init, env, skip, body, popBlock, l, after, bodyBlock, l', stmts, hinit, hbody, -,
    hbodyCount, hskipCount, hpop, hpopBody, hbodyBlock, hbodyBody, -, rfl⟩ := edit?_eq_some h
  refine Edit.modest_of_headWith hsite hinit hbody ?_ ?_ ?_
  · simp [Site.IsAt.named_of_refcount hbodyCount, Site.IsAt.named_of_refcount hskipCount]
  · intro l hl
    left
    simp only [Stmt.targetsOfList, Stmt.targets, Stmt.branchTargets, Option.toList_none,
      List.nil_append, List.append_nil, List.mem_append, List.mem_singleton] at hl
    rcases hl with hl | rfl
    · refine hsite.named_other hbodyBlock ?_
      rw [hbodyBody, Stmt.targetsOfList, Stmt.targetsOfList_append]
      exact List.mem_append_right _ (List.mem_append_left _ hl)
    · refine hsite.named_other hpop ?_
      rw [hpopBody]
      simp [Stmt.targetsOfList, Stmt.targets, Stmt.branchTargets]
  · simp

/-- The edit that joins two blocks is modest. -/
lemma Join.modest {site : Site} {blocks : List BasicBlock} {edit : Edit} {minted : LabelId}
    (hsite : site.IsAt blocks) (h : edit? site = some edit) : edit.Modest site minted := by
  obtain ⟨kept, dropped, next, nextAt, nextBlock, values, hkept, hbody, hcount, -, -, -, -, hnext,
    rfl⟩ := edit?_eq_some h
  refine ⟨?_, ?_, ?_, ?_⟩
  · intro block hblock
    cases hblock
    exact BasicBlockOf.entryLabel?_congr hkept rfl hbody
  · intro hnone
    cases hnone
  · intro l hl
    rw [List.mem_singleton.mp hl]
    exact Site.IsAt.named_of_refcount hcount
  · intro block hblock l hl
    left
    simp only [Option.toList_some, List.append_nil, List.mem_singleton] at hblock
    rw [hblock, Stmt.targetsOfList_append, List.mem_append] at hl
    rcases hl with hl | hl
    · refine hsite.named_head ?_
      rw [hbody, Stmt.targetsOfList_append]
      exact List.mem_append_left _ hl
    · refine hsite.named hnext ?_
      rw [(Stmt.sameOutlines_map_substitute values _).targets] at hl
      exact (Stmt.targetsOfList_sublist (List.drop_sublist 1 _)).subset hl

/-- Taking out the statement behind the label leaves the targets that are named. -/
lemma targetsOfList_withoutFirst_subset (block : BasicBlock) :
    Stmt.targetsOfList (withoutFirst block).body ⊆ Stmt.targetsOfList block.body :=
  (Stmt.targetsOfList_sublist (List.eraseIdx_sublist block.body 1)).subset

/-- The blocks of a chain are named, and so is all that they compare with and go on to. -/
lemma SwitchDispatch.Chained.named {site : Site} {blocks : List BasicBlock}
    (hsite : site.IsAt blocks) {next default : LabelId} {links : List Link} {labels : List LabelId}
    (h : Chained site next links labels default) :
    (∀ l ∈ labels, l ∈ site.map.mentions) ∧
      (∀ link ∈ links, link.case ∈ site.map.mentions) ∧ default ∈ site.map.mentions := by
  induction h with
  | @last next default l block hcount hblock hbody =>
    refine ⟨by simp [Site.IsAt.named_of_refcount hcount], by simp, hsite.named_other hblock ?_⟩
    rw [hbody]
    simp [Stmt.targetsOfList, Stmt.targets, Stmt.branchTargets]
  | @link next default l block stmts link links labels hcount hblock hbody hlink _ _ ih =>
    obtain ⟨hlabels, hlinks, hdefault⟩ := ih
    refine ⟨by simpa [Site.IsAt.named_of_refcount hcount] using hlabels, ?_, hdefault⟩
    intro link' hlink'
    rcases List.mem_cons.mp hlink' with rfl | hlink'
    · refine hsite.named_other hblock ?_
      obtain ⟨a, b, c, rfl⟩ := link?_eq_some hlink
      rw [hbody]
      simp [Stmt.targetsOfList, Stmt.targets, Stmt.branchTargets, StackOp.targets]
    · exact hlinks link' hlink'

/-- The edit that makes a dispatch of a chain is modest. -/
lemma SwitchDispatch.modest {site : Site} {blocks : List BasicBlock} {edit : Edit}
    {context context' : Context} {minted : LabelId} (hsite : site.IsAt blocks)
    (h : edit? site context = (some edit, context')) : edit.Modest site minted := by
  obtain ⟨-, init, a, b, c, first, chain, last, endBlock, hinit, hbody, hchain, -, hother, -,
    rfl⟩ := edit?_eq_some h
  obtain ⟨hlabels, hlinks, hdefault⟩ := hchain.named hsite
  have hfirst : first.case ∈ site.map.mentions := by
    refine hsite.named_head ?_
    rw [hbody, Stmt.targetsOfList_append]
    simp [Stmt.targetsOfList, Stmt.targets, Stmt.branchTargets, StackOp.targets]
  refine Edit.modest_of_headWith hsite hinit hbody hlabels ?_ ?_
  · intro l hl
    left
    simp only [Stmt.targetsOfList, Stmt.targets, Stmt.branchTargets, StackOp.targets, List.map_map,
      List.append_nil, List.mem_append, List.mem_map, Function.comp_apply, List.mem_singleton] at hl
    rcases hl with (⟨link, hlink, rfl⟩ | rfl) | rfl
    · rcases List.mem_cons.mp hlink with rfl | hlink
      · exact hfirst
      · exact hlinks link hlink
    · exact hdefault
    · exact hdefault
  · intro block hblock l hl
    simp only [List.append_nil, List.mem_singleton] at hblock
    rw [hblock] at hl
    exact .inl (hsite.named_other hother (targetsOfList_withoutFirst_subset endBlock hl))

/-- The edit that keeps a counter in a temporary is modest. -/
lemma CountedLoop.modest {site : Site} {blocks : List BasicBlock} {edit : Edit}
    {context context' : Context} (hsite : site.IsAt blocks)
    (h : edit? site context = (some edit, context')) :
    edit.Modest site context.labels.names.length := by
  obtain ⟨counter, name, counters, head, tailAt, tailBlock, tail, exitAt, exitBlock, -, hhead,
    htailAt, htail, -, hexit, -, -, -, -, rfl⟩ := edit?_eq_some h
  obtain ⟨init, zero, a, b, c, hinit, hbody⟩ := head?_eq_some hhead
  have hheadTargets : ∀ l ∈ [head.exit, head.body], l ∈ site.map.mentions := by
    intro l hl
    refine hsite.named_head ?_
    rw [hbody, Stmt.targetsOfList_append]
    exact List.mem_append_right _ hl
  refine Edit.modest_of_headWith hsite hinit hbody (by simp) ?_ ?_
  · intro l hl
    right
    simpa [headEnd, Stmt.targetsOfList, Stmt.targets, Stmt.branchTargets, StackOp.targets] using hl
  · intro block hblock l hl
    simp only [List.cons_append, List.nil_append, List.mem_cons, List.not_mem_nil, or_false]
      at hblock
    rcases hblock with rfl | rfl | rfl
    · rw [CountedLoop.tailBlock, Stmt.targetsOfList_append, List.mem_append] at hl
      rcases hl with hl | hl
      · exact .inl (hsite.named htailAt
          ((Stmt.targetsOfList_sublist (List.take_sublist _ _)).subset hl))
      · right
        simpa [Stmt.targetsOfList, Stmt.targets, Stmt.branchTargets, StackOp.targets] using hl
    · exact .inl (hsite.named hexit (targetsOfList_withoutFirst_subset exitBlock hl))
    · exact .inl (hheadTargets l hl)

/-- An edit that changes only the expressions of its head is modest. -/
lemma Edit.modest_of_sameOutlines {site : Site} {blocks : List BasicBlock} {body : List Stmt}
    {minted : LabelId} (hsite : site.IsAt blocks) (h : Stmt.SameOutlines site.head.body body) :
    Edit.Modest { head := some { site.head with body } } site minted where
  head_label := by
    intro block hblock
    cases hblock
    exact h.entryLabel?
  deleted := by
    intro hnone
    cases hnone
  remove_named := by simp
  targets_named := by
    intro block hblock l hl
    simp only [Option.toList_some, List.append_nil, List.mem_singleton] at hblock
    rw [hblock, h.targets] at hl
    exact .inl (hsite.named_head hl)

/-- Every edit that a rule asks for is modest. -/
theorem Rule.modest {rule : Rule} {site : Site} {blocks : List BasicBlock} {edit : Edit}
    {context context' : Context} (hsite : site.IsAt blocks)
    (h : rule.edit? site context = (some edit, context')) :
    edit.Modest site context.labels.names.length := by
  cases rule with
  | countedLoop => exact CountedLoop.modest hsite h
  | switchDispatch => exact SwitchDispatch.modest hsite h
  | withScope => exact WithScope.modest hsite (congrArg Prod.fst h)
  | shortCircuit => exact ShortCircuit.modest hsite (congrArg Prod.fst h)
  | ternary => exact Ternary.modest hsite (congrArg Prod.fst h)
  | join => exact Join.modest hsite (congrArg Prod.fst h)
  | logicNot =>
    have h : logicNotEdit? site = some edit := congrArg Prod.fst h
    unfold logicNotEdit? at h
    split at h
    · cases h
      exact Edit.modest_of_sameOutlines hsite (Stmt.sameOutlines_mapExprsList _ _)
    · cases h
  | popz =>
    have h : popzEdit? site = some edit := congrArg Prod.fst h
    unfold popzEdit? at h
    split at h
    · cases h
    · cases h
      exact Edit.modest_of_sameOutlines hsite (Stmt.sameOutlines_promoteCallsList _)
  | deadBlocks =>
    obtain ⟨l, -, hpos, -, rfl⟩ := deadBlocksEdit?_eq_some (congrArg Prod.fst h)
    exact ⟨by simp, fun _ => ⟨hpos, rfl⟩, by simp, by simp⟩

/-- A rule hands out labels and takes none back. -/
lemma Rule.names_length_le {rule : Rule} {site : Site} {edit : Option Edit}
    {context context' : Context} (h : rule.edit? site context = (edit, context')) :
    context.labels.names.length ≤ context'.labels.names.length := by
  cases rule with
  | countedLoop =>
    cases edit with
    | some edit =>
      obtain ⟨_, _, _, _, _, _, _, _, _, rfl, -⟩ := CountedLoop.edit?_eq_some h
      simp
    | none =>
      change CountedLoop.edit? site context = (none, context') at h
      unfold CountedLoop.edit? at h
      split at h
      · cases h
        exact Nat.le_refl _
      · cases h
  | switchDispatch =>
    change SwitchDispatch.edit? site context = (edit, context') at h
    unfold SwitchDispatch.edit? at h
    split at h
    · cases h
      exact Nat.le_refl _
    · split at h
      · cases h
        exact Nat.le_refl _
      · cases h
        exact Nat.le_refl _
  | deadBlocks =>
    change deadBlocksEdit? site context = (edit, context') at h
    unfold deadBlocksEdit? at h
    split at h
    · cases h
      exact Nat.le_refl _
    · split at h
      · cases h
        exact Nat.le_refl _
      · split at h
        · cases h
          exact Nat.le_refl _
        · cases h
          exact Nat.le_refl _
  | withScope | shortCircuit | ternary | join | logicNot | popz =>
    cases h
    exact Nat.le_refl _

end Decompiler
