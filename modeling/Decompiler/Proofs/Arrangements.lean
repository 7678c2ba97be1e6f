import Mathlib.Algebra.BigOperators.Group.Multiset.Basic
import Mathlib.Algebra.Order.Group.Multiset
import Decompiler.Flow.Loops
import Decompiler.Proofs.BlockLists

/-!
# Arrangements of basic blocks

What the recovery of loops makes of a list of items.  A list of blocks arranges items
(`Loops.Arranges`) when each of its blocks is one of the items, or an item that has got a scope at its
end, or a loop: one with a test, which was the header, or an endless one behind a new label.  The bodies
of scopes and loops are arrangements again.

An arrangement comes with the items that it is made of, each as often as it went in, so that nothing can
get lost or be copied on the way unseen.
-/

namespace Decompiler

namespace Loops

/-- `list` arranges the items with the numbers `ids` of a list.  New labels are at least `bound`. -/
inductive Arranges (items : List Stmt) (bound : Nat) : List Stmt → Multiset Nat → Prop where
  | nil : Arranges items bound [] 0
  /-- An item as it was. -/
  | item {i : Nat} {block : BasicBlock} {rest : List Stmt} {ids : Multiset Nat}
      (hitem : items[i]? = some (.basic block)) (hrest : Arranges items bound rest ids) :
      Arranges items bound (.basic block :: rest) (i ::ₘ ids)
  /-- An item with a scope at its end, which takes the place of its start and of the block that ends a
  round. -/
  | scope {i pop : Nat} {head popBlock : BasicBlock} {init body rest : List Stmt} {env : Expr}
      {skip enter after : LabelId} {inner ids : Multiset Nat}
      (hhead : items[i]? = some (.basic head))
      (hbody : head.body = init ++ [.pushEnv env skip, .goto enter]) (hinit : init ≠ [])
      (hpop : items[pop]? = some (.basic popBlock))
      (hpopBody : popBlock.body = [.label skip, .popEnv enter, .goto after])
      (hinner : Arranges items bound body inner) (hrest : Arranges items bound rest ids) :
      Arranges items bound
        (.basic { head with
          body := init ++ [.scope env ⟨some enter, body⟩ (some skip), .goto after] } :: rest)
        (i ::ₘ pop ::ₘ (inner + ids))
  /-- A loop whose test is that of its header. -/
  | tested {i : Nat} {header : BasicBlock} {body rest : List Stmt} {label target other : LabelId}
      {e : Expr} {test : Test} {inner ids : Multiset Nat}
      (hheader : items[i]? = some (.basic header))
      (hbody : header.body = [.label label, .condGoto e target, .goto other])
      (htest : test = ⟨e, target, other⟩ ∨ test = ⟨e.negate, other, target⟩)
      (hinner : Arranges items bound body inner) (hrest : Arranges items bound rest ids) :
      Arranges items bound
        (.basic { header with
          body := [.label label, .loop (some test.condition) ⟨some test.enter, body⟩,
            .goto test.exit] } :: rest)
        (i ::ₘ (inner + ids))
  /-- An endless loop. -/
  | endless {fresh head : LabelId} {body rest : List Stmt} {inner ids : Multiset Nat}
      (hfresh : bound ≤ fresh) (hinner : Arranges items bound body inner)
      (hrest : Arranges items bound rest ids) :
      Arranges items bound (.basic { body := [.label fresh, .loop none ⟨some head, body⟩] } :: rest)
        (inner + ids)

namespace Arranges

variable {items list list' : List Stmt} {bound : Nat} {ids ids' : Multiset Nat}

/-- One arrangement behind the other. -/
lemma append (h : Arranges items bound list ids) (h' : Arranges items bound list' ids') :
    Arranges items bound (list ++ list') (ids + ids') := by
  induction h with
  | nil =>
    rw [zero_add]
    exact h'
  | item hitem _ ih =>
    rw [Multiset.cons_add]
    exact .item hitem ih
  | scope hhead hbody hinit hpop hpopBody hinner _ _ ih =>
    rw [Multiset.cons_add, Multiset.cons_add, add_assoc]
    exact .scope hhead hbody hinit hpop hpopBody hinner ih
  | tested hheader hbody htest hinner _ _ ih =>
    rw [Multiset.cons_add, add_assoc]
    exact .tested hheader hbody htest hinner ih
  | endless hfresh hinner _ _ ih =>
    rw [add_assoc]
    exact .endless hfresh hinner ih

/-- The first block of an arrangement is an arrangement of its own. -/
lemma exists_cons {s : Stmt} (h : Arranges items bound (s :: list) ids) :
    ∃ a b, ids = a + b ∧ Arranges items bound [s] a ∧ Arranges items bound list b := by
  cases h with
  | item hitem hrest => exact ⟨{_}, _, rfl, .item hitem .nil, hrest⟩
  | @scope i pop _ _ _ _ _ _ _ _ _ inner ids hhead hbody hinit hpop hpopBody hinner hrest =>
    refine ⟨i ::ₘ pop ::ₘ (inner + 0), ids, ?_, ?_, hrest⟩
    · rw [add_zero, Multiset.cons_add, Multiset.cons_add]
    · exact .scope hhead hbody hinit hpop hpopBody hinner .nil
  | @tested i _ _ _ _ _ _ _ _ inner ids hheader hbody htest hinner hrest =>
    refine ⟨i ::ₘ (inner + 0), ids, ?_, .tested hheader hbody htest hinner .nil, hrest⟩
    rw [add_zero, Multiset.cons_add]
  | @endless _ _ _ _ inner ids hfresh hinner hrest =>
    refine ⟨inner + 0, ids, ?_, .endless hfresh hinner .nil, hrest⟩
    rw [add_zero]

/-- The order of the blocks does not matter. -/
lemma perm (hperm : list.Perm list') (h : Arranges items bound list ids) :
    Arranges items bound list' ids := by
  induction hperm generalizing ids with
  | nil => exact h
  | cons s _ ih =>
    obtain ⟨a, b, rfl, hs, hrest⟩ := h.exists_cons
    exact hs.append (ih hrest)
  | swap s t rest =>
    obtain ⟨a, b, rfl, ht, hrest⟩ := h.exists_cons
    obtain ⟨b, c, rfl, hs, hrest⟩ := hrest.exists_cons
    rw [← add_assoc, add_comm a b, add_assoc]
    exact hs.append (ht.append hrest)
  | trans _ _ ih ih' => exact ih' (ih h)

/-- An arrangement of sound blocks consists of sound blocks. -/
lemma soundBlocks (hsound : SoundBlocks items) (h : Arranges items bound list ids) :
    SoundBlocks list := by
  have hitems : ∀ {i : Nat} {block : BasicBlock}, items[i]? = some (.basic block) →
      (Stmt.basic block).isSound = true := by
    intro i block hitem
    obtain ⟨block', heq, hblock⟩ := hsound _ (List.mem_of_getElem? hitem)
    cases heq
    exact hblock
  induction h with
  | nil => simp [SoundBlocks]
  | item hitem _ ih => exact SoundBlocks.append (.singleton (hitems hitem)) ih
  | @scope _ _ head _ init body _ env skip enter after _ _ hhead hbody hinit _ _ _ _ ihInner ih =>
    refine SoundBlocks.append (.singleton ?_) ih
    obtain ⟨⟨label, hlabel⟩, hlist⟩ := BasicBlockOf.exists_label_of_isSound (hitems hhead)
    have hsplit : init ++ [.scope env ⟨some enter, body⟩ (some skip), .goto after] =
        (init ++ [.scope env ⟨some enter, body⟩ (some skip)]) ++ [.goto after] := by
      simp
    refine BasicBlockOf.isSound_of_append hsplit
      ((BasicBlockOf.entryLabel?_congr hinit rfl hbody).trans hlabel) rfl ?_
    rw [hbody, Stmt.soundList_append, Bool.and_eq_true] at hlist
    simp [Stmt.soundList_append, Stmt.soundList, Stmt.isSound, hlist.1, ihInner.soundList]
  | @tested _ _ body _ label _ _ _ test _ _ _ _ _ _ _ ihInner ih =>
    refine SoundBlocks.append (.singleton ?_) ih
    have hsplit : [Stmt.label label, .loop (some test.condition) ⟨some test.enter, body⟩,
        .goto test.exit] = [.label label, .loop (some test.condition) ⟨some test.enter, body⟩] ++
          [.goto test.exit] := rfl
    refine BasicBlockOf.isSound_of_append hsplit rfl rfl ?_
    simp [Stmt.soundList, Stmt.isSound, ihInner.soundList]
  | @endless fresh head body _ _ _ _ _ _ ihInner ih =>
    refine SoundBlocks.append (.singleton ?_) ih
    have hsplit : [Stmt.label fresh, .loop none ⟨some head, body⟩] =
        [.label fresh] ++ [.loop none ⟨some head, body⟩] := rfl
    refine BasicBlockOf.isSound_of_append hsplit rfl rfl ?_
    simp [Stmt.soundList, Stmt.isSound, ihInner.soundList]

/-- A single block that is an arrangement of sound blocks is sound. -/
lemma isSound {block : BasicBlock} (hsound : SoundBlocks items)
    (h : Arranges items bound [.basic block] ids) : (Stmt.basic block).isSound = true := by
  obtain ⟨block', heq, hblock⟩ := h.soundBlocks hsound _ List.mem_cons_self
  cases heq
  exact hblock

end Arranges

end Loops

end Decompiler
