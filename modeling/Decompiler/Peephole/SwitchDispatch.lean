import Decompiler.Peephole.Site

/-!
# Dispatch chains

A switch is a chain of equality tests on a copied value.  The value stays on the stack until a
`popz` after the last case.  The edit makes one dispatch of the chain and takes the `popz` away.
-/

namespace Decompiler.SwitchDispatch

open Bytecode

/-- One link of a chain: `dup 0; push value; seq; bt case; b next`. -/
structure Link where
  offset : Nat
  value : Constant
  case : LabelId
  next : LabelId

/-- Recognises a link. -/
def link? : List Stmt → Option Link
  | [.raw offset (.dup flag), .raw _ (.push value), .raw _ (.binary .eq),
      .raw _ (.branchTrue case), .goto next] =>
    if flag = 0 then some { offset, value, case, next } else none
  | _ => none

/-- The link at the end of a block. -/
def finalLink? (block : BasicBlock) : Option Link :=
  (block.tail? 5).bind link?

/-- Whether the head is a later link of a chain that starts elsewhere. -/
def isContinuation (site : Site) : Bool :=
  match site.head.entryLabel? with
  | none => false
  | some label =>
    site.head.body.length == 6 && site.refcount label == 1 &&
      site.blocks.any fun block => ((finalLink? block).map Link.next) == some label

/-- A chain: its links after the first, the labels of its blocks, and where it ends up. -/
structure Chain where
  links : List Link
  labels : List LabelId
  default : LabelId

/-- Follows a chain from the label `next`.  Each block of it is named once and met once, so that
`fuel` above the number of blocks is enough. -/
def follow? (site : Site) : Nat → LabelId → List Link → List LabelId → Option Chain
  | 0, _, _, _ => none
  | fuel + 1, next, links, labels =>
    if labels.contains next || site.refcount next != 1 then none
    else do
      let block ← site.other? next
      let labels := labels ++ [next]
      match block.body with
      | [.label _, .goto default] => return { links, labels, default }
      | .label _ :: rest => do
        let link ← link? rest
        follow? site fuel link.next (links ++ [link]) labels
      | _ => none

/-- Searches depth first for a block that starts with `popz`.  The search looks at a label at most
once, so that `fuel` above the number of mentions is enough. -/
def findPopz? (map : BlockMap) : Nat → List LabelId → List LabelId → Option LabelId
  | 0, _, _ => none
  | _, _, [] => none
  | fuel + 1, seen, label :: pending =>
    if seen.contains label then findPopz? map fuel seen pending
    else
      match map.block? label with
      | none => findPopz? map fuel (label :: seen) pending
      | some block =>
        if startsWithPopz block then some label
        else
          findPopz? map fuel (label :: seen) (block.body.flatMap Stmt.branchTargets ++ pending)

/-- The first block from a label on that starts with `popz`. -/
def popzFrom? (map : BlockMap) (label : LabelId) : Option LabelId :=
  findPopz? map (map.mentions.length + 2) [] [label]

/-- The label after the last case: the default, if the value is dropped there, or else the place
where the default and the first case meet. -/
def end? (site : Site) (first : Link) (chain : Chain) : Option LabelId :=
  if (site.other? chain.default).any startsWithPopz then some chain.default
  else
    match popzFrom? site.map chain.default, popzFrom? site.map first.case with
    | some a, some b => if a = b then some a else none
    | _, _ => none

/-- The edit that makes one dispatch of a chain. -/
def chainEdit? (site : Site) (first : Link) (chain : Chain) (last : LabelId) : Option Edit := do
  if chain.labels.contains last then none
  let endBlock ← site.other? last
  let cases := (first :: chain.links).map fun link => (link.value, link.case)
  return { head := some (site.headWith 5
             [.raw first.offset (.dispatch cases chain.default), .goto chain.default])
           replace := [withoutFirst endBlock]
           remove := chain.labels }

/-- The first link and the rest of the chain that starts at the head. -/
def chain? (site : Site) : Option (Link × Chain) := do
  let first ← finalLink? site.head
  if isContinuation site then none
  let chain ← follow? site (site.blocks.length + 1) first.next [] []
  return (first, chain)

/-- Makes one dispatch of a chain.  A chain whose end is not found is reported and left alone. -/
def edit? (site : Site) (context : Context) : Option Edit × Context :=
  match chain? site with
  | none => (none, context)
  | some (first, chain) =>
    match end? site first chain with
    | some last => (chainEdit? site first chain last, context)
    | none =>
      let branch := site.head.body[site.head.body.length - 2]?
      (none, context.report .error "cannot find end of switch" branch)

end Decompiler.SwitchDispatch
