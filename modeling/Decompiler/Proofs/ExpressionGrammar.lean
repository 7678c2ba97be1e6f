import Mathlib.Tactic.Common
import Decompiler.Print.Precedence

/-!
# The grammar of expressions

The grammar of printed expressions in both languages (`Reads`): infix operators lean to the left and have
the levels of `binaryLevel`, prefix operators bind tighter than all of them, and member access, indexing
and calls bind tightest.  A minus sign is one lexeme, whether it is a prefix or an infix operator; its
place tells.

The grammar gives no two trees for one list of lexemes (`Reads.unique`).  For the proof a reader goes
through the list from left to right (`Reader.expression`): whatever the grammar allows is what the reader
finds (`Reads.findable`), and the reader finds one tree only.
-/

namespace Decompiler.Print

/-- A lexeme of an expression. -/
inductive Lexeme where
  | name (s : String)
  | literal (s : String)
  | minus
  | not
  /-- An infix operator other than the minus sign. -/
  | operator (op : BinaryOp)
  | dot
  | comma
  | openParen
  | closeParen
  | openBracket
  | closeBracket
deriving DecidableEq, Repr

namespace Lexeme

/-- The lexeme of a prefix operator. -/
def ofUnary : UnaryOp → Lexeme
  | .not => .not
  | .neg => .minus

/-- The lexeme of an infix operator. -/
def ofBinary : BinaryOp → Lexeme
  | .sub => .minus
  | op => .operator op

/-- The prefix operator that the lexeme is, where an operand starts. -/
def unary? : Lexeme → Option UnaryOp
  | .not => some .not
  | .minus => some .neg
  | _ => none

/-- The infix operator that the lexeme is, behind an operand. -/
def binary? : Lexeme → Option BinaryOp
  | .minus => some .sub
  | .operator op => some op
  | _ => none

/-- Whether the lexeme goes on with the operand before it. -/
def isSuffix : Lexeme → Bool
  | .dot | .openParen | .openBracket => true
  | _ => false

lemma binary?_ofBinary (op : BinaryOp) : (ofBinary op).binary? = some op := by
  cases op <;> rfl

lemma isSuffix_ofBinary (op : BinaryOp) : (ofBinary op).isSuffix = false := by
  cases op <;> rfl

end Lexeme

/-- What an expression reads as: its operators, with names and literals as they are written. -/
inductive OperatorTree where
  | name (s : String)
  | literal (s : String)
  | member (owner : OperatorTree) (name : String)
  | index (owner position : OperatorTree)
  | call (callee : OperatorTree) (args : List OperatorTree)
  | unary (op : UnaryOp) (operand : OperatorTree)
  | binary (op : BinaryOp) (left right : OperatorTree)

/-- What a list of lexemes may be read as. -/
inductive Phrase where
  /-- An operand of an operator of a level. -/
  | operand (level : Nat) (tree : OperatorTree)
  /-- The arguments of a call. -/
  | args (trees : List OperatorTree)

/-- The grammar of expressions. -/
inductive Reads (dialect : Dialect) : Phrase → List Lexeme → Prop where
  | name {l : Nat} {s : String} : Reads dialect (.operand l (.name s)) [.name s]
  | literal {l : Nat} {s : String} : Reads dialect (.operand l (.literal s)) [.literal s]
  | parens {l : Nat} {t : OperatorTree} {ts : List Lexeme} (h : Reads dialect (.operand 0 t) ts) :
      Reads dialect (.operand l t) (.openParen :: ts ++ [.closeParen])
  | member {l : Nat} {t : OperatorTree} {s : String} {ts : List Lexeme} (hl : l ≤ postfixLevel)
      (h : Reads dialect (.operand postfixLevel t) ts) :
      Reads dialect (.operand l (.member t s)) (ts ++ [.dot, .name s])
  | index {l : Nat} {t i : OperatorTree} {ts us : List Lexeme} (hl : l ≤ postfixLevel)
      (h : Reads dialect (.operand postfixLevel t) ts) (hi : Reads dialect (.operand 0 i) us) :
      Reads dialect (.operand l (.index t i)) (ts ++ .openBracket :: us ++ [.closeBracket])
  | call {l : Nat} {t : OperatorTree} {args : List OperatorTree} {ts us : List Lexeme}
      (hl : l ≤ postfixLevel) (h : Reads dialect (.operand postfixLevel t) ts)
      (hargs : Reads dialect (.args args) us) :
      Reads dialect (.operand l (.call t args)) (ts ++ .openParen :: us ++ [.closeParen])
  | unary {l : Nat} {op : UnaryOp} {t : OperatorTree} {ts : List Lexeme} (hl : l ≤ unaryLevel)
      (h : Reads dialect (.operand unaryLevel t) ts) :
      Reads dialect (.operand l (.unary op t)) (.ofUnary op :: ts)
  /-- The right operand binds tighter than the operator, the left one at least as tight. -/
  | binary {l : Nat} {op : BinaryOp} {t u : OperatorTree} {ts us : List Lexeme}
      (hl : l ≤ binaryLevel dialect op) (h : Reads dialect (.operand (binaryLevel dialect op) t) ts)
      (hu : Reads dialect (.operand (binaryLevel dialect op + 1) u) us) :
      Reads dialect (.operand l (.binary op t u)) (ts ++ .ofBinary op :: us)
  | noArgs : Reads dialect (.args []) []
  | lastArg {t : OperatorTree} {ts : List Lexeme} (h : Reads dialect (.operand 0 t) ts) :
      Reads dialect (.args [t]) ts
  | moreArgs {t u : OperatorTree} {rest : List OperatorTree} {ts us : List Lexeme}
      (h : Reads dialect (.operand 0 t) ts) (hrest : Reads dialect (.args (u :: rest)) us) :
      Reads dialect (.args (t :: u :: rest)) (ts ++ .comma :: us)

lemma binaryLevel_lt_unaryLevel (dialect : Dialect) (op : BinaryOp) :
    binaryLevel dialect op < unaryLevel := by
  cases op <;> cases dialect <;> decide

/-! ### A reader -/

/-- What a search for a value comes to when it is given enough steps. -/
def Settles {α : Type} (f : Nat → Option α) (a : α) : Prop :=
  ∃ bound, ∀ n, bound ≤ n → f n = some a

namespace Settles

variable {α β : Type} {f : Nat → Option α} {a b : α}

lemma of_succ (h : Settles (fun n => f (n + 1)) a) : Settles f a := by
  obtain ⟨bound, h⟩ := h
  refine ⟨bound + 1, fun n hn => ?_⟩
  obtain ⟨m, rfl⟩ : ∃ m, n = m + 1 := ⟨n - 1, by omega⟩
  exact h m (by omega)

lemma const (a : α) : Settles (fun _ => some a) a := ⟨0, fun _ _ => rfl⟩

lemma bind {g : α → Nat → Option β} {c : β} (hf : Settles f a) (hg : Settles (g a) c) :
    Settles (fun n => (f n).bind fun a => g a n) c := by
  obtain ⟨m, hf⟩ := hf
  obtain ⟨k, hg⟩ := hg
  refine ⟨max m k, fun n hn => ?_⟩
  dsimp only
  rw [hf n (by omega)]
  exact hg n (by omega)

lemma unique (ha : Settles f a) (hb : Settles f b) : a = b := by
  obtain ⟨m, ha⟩ := ha
  obtain ⟨k, hb⟩ := hb
  exact Option.some.inj ((ha (max m k) (by omega)).symm.trans (hb (max m k) (by omega)))

end Settles

namespace Reader

mutual

/-- Reads an operand and the infix operators behind it that are at least of a level. -/
def expression (dialect : Dialect) :
    Nat → Nat → List Lexeme → Option (OperatorTree × List Lexeme)
  | 0, _, _ => none
  | n + 1, l, ts => (operand dialect n ts).bind fun (t, rest) => infixes dialect n l t rest

/-- Reads an operand with its prefix operators and all that goes on with it. -/
def operand (dialect : Dialect) : Nat → List Lexeme → Option (OperatorTree × List Lexeme)
  | 0, _ => none
  | _ + 1, [] => none
  | n + 1, .name s :: rest => suffixes dialect n (.name s) rest
  | n + 1, .literal s :: rest => suffixes dialect n (.literal s) rest
  | n + 1, .openParen :: rest =>
    (expression dialect n 0 rest).bind fun
      | (t, .closeParen :: rest) => suffixes dialect n t rest
      | _ => none
  | n + 1, lexeme :: rest =>
    lexeme.unary?.bind fun op =>
      (expression dialect n unaryLevel rest).bind fun (t, rest) => some (.unary op t, rest)

/-- Reads what goes on with an operand. -/
def suffixes (dialect : Dialect) :
    Nat → OperatorTree → List Lexeme → Option (OperatorTree × List Lexeme)
  | 0, _, _ => none
  | n + 1, t, .dot :: .name s :: rest => suffixes dialect n (.member t s) rest
  | n + 1, t, .openBracket :: rest =>
    (expression dialect n 0 rest).bind fun
      | (i, .closeBracket :: rest) => suffixes dialect n (.index t i) rest
      | _ => none
  | n + 1, t, .openParen :: rest =>
    (arguments dialect n rest).bind fun (args, rest) => suffixes dialect n (.call t args) rest
  | _ + 1, t, rest => some (t, rest)

/-- Reads the infix operators that are at least of a level, with their right operands. -/
def infixes (dialect : Dialect) :
    Nat → Nat → OperatorTree → List Lexeme → Option (OperatorTree × List Lexeme)
  | 0, _, _, _ => none
  | _ + 1, _, t, [] => some (t, [])
  | n + 1, l, t, lexeme :: rest =>
    match lexeme.binary? with
    | some op =>
      if l ≤ binaryLevel dialect op then
        (expression dialect n (binaryLevel dialect op + 1) rest).bind fun (u, rest) =>
          infixes dialect n l (.binary op t u) rest
      else some (t, lexeme :: rest)
    | none => some (t, lexeme :: rest)

/-- Reads the arguments of a call and the parenthesis behind them. -/
def arguments (dialect : Dialect) : Nat → List Lexeme → Option (List OperatorTree × List Lexeme)
  | 0, _ => none
  | _ + 1, .closeParen :: rest => some ([], rest)
  | n + 1, ts =>
    (expression dialect n 0 ts).bind fun
      | (t, .closeParen :: rest) => some ([t], rest)
      | (t, .comma :: rest) =>
        (arguments dialect n rest).bind fun (args, rest) => some (t :: args, rest)
      | _ => none

end

variable {dialect : Dialect} {l : Nat} {t u : OperatorTree} {ts rest : List Lexeme}
  {result : OperatorTree × List Lexeme}

/-- The list does not go on with the operand before it. -/
def NoSuffix (rest : List Lexeme) : Prop :=
  ∀ lexeme ∈ rest.head?, lexeme.isSuffix = false

/-- The list does not start with an infix operator of a level or above. -/
def AllBelow (dialect : Dialect) (l : Nat) (rest : List Lexeme) : Prop :=
  ∀ lexeme ∈ rest.head?, ∀ op ∈ lexeme.binary?, binaryLevel dialect op < l

lemma AllBelow.mono {k : Nat} (h : AllBelow dialect l rest) (hle : l ≤ k) :
    AllBelow dialect k rest :=
  fun lexeme hlexeme op hop => Nat.lt_of_lt_of_le (h lexeme hlexeme op hop) hle

/-- No infix operator binds tighter than prefix operators. -/
lemma AllBelow.ofUnary (dialect : Dialect) (rest : List Lexeme) :
    AllBelow dialect unaryLevel rest :=
  fun _ _ op _ => binaryLevel_lt_unaryLevel dialect op

/-- Nothing goes on with the operand. -/
lemma suffixes_done (h : NoSuffix rest) : Settles (suffixes dialect · t rest) (t, rest) := by
  refine .of_succ ?_
  have hdone : ∀ n, suffixes dialect (n + 1) t rest = some (t, rest) := by
    intro n
    cases rest with
    | nil => rfl
    | cons lexeme rest =>
      have hlexeme := h lexeme rfl
      cases lexeme with
      | dot | openParen | openBracket => cases hlexeme
      | _ => rfl
  simp only [hdone]
  exact .const _

/-- The operators of lower levels do not belong to the operand. -/
lemma infixes_done (h : AllBelow dialect l rest) : Settles (infixes dialect · l t rest) (t, rest) := by
  refine .of_succ ?_
  have hdone : ∀ n, infixes dialect (n + 1) l t rest = some (t, rest) := by
    intro n
    cases rest with
    | nil => rfl
    | cons lexeme rest =>
      rw [infixes]
      split
      · rename_i op hop
        rw [if_neg (Nat.not_le.mpr (h lexeme rfl op hop))]
      · rfl
  simp only [hdone]
  exact .const _

/-- An operand and then the operators behind it. -/
lemma expression_of_operand {mid : OperatorTree × List Lexeme}
    (h : Settles (operand dialect · ts) mid)
    (hinfixes : Settles (infixes dialect · l mid.1 mid.2) result) :
    Settles (expression dialect · l ts) result := by
  refine .of_succ ?_
  simp only [expression]
  exact h.bind hinfixes

end Reader

namespace Reads

open Reader

variable {dialect : Dialect} {phrase : Phrase} {ts : List Lexeme}

/-- What the reader makes of the lexemes of a phrase when others follow.  A phrase that binds tighter than
prefix operators goes on with suffixes, one that binds tighter than infix operators is an operand, and any
other goes on with the infix operators of a level that is not above its own. -/
def Findable (dialect : Dialect) : Phrase → List Lexeme → Prop
  | .operand l t, ts =>
    (unaryLevel < l → ∀ rest result, Settles (suffixes dialect · t rest) result →
      Settles (operand dialect · (ts ++ rest)) result) ∧
    (unaryLevel ≤ l → ∀ rest, NoSuffix rest →
      Settles (operand dialect · (ts ++ rest)) (t, rest)) ∧
    ∀ k ≤ l, ∀ rest result, NoSuffix rest → AllBelow dialect (l + 1) rest →
      Settles (infixes dialect · k t rest) result → Settles (expression dialect · k (ts ++ rest)) result
  | .args args, ts =>
    ∀ rest, Settles (arguments dialect · (ts ++ .closeParen :: rest)) (args, rest)

/-- A phrase that goes on with suffixes is found at every level. -/
lemma findable_of_suffixes {l : Nat} {t : OperatorTree}
    (h : ∀ rest result, Settles (suffixes dialect · t rest) result →
      Settles (operand dialect · (ts ++ rest)) result) : Findable dialect (.operand l t) ts :=
  ⟨fun _ => h, fun _ rest hrest => h rest _ (suffixes_done hrest), fun _ _ rest _ hrest _ hinfixes =>
    expression_of_operand (h rest _ (suffixes_done hrest)) hinfixes⟩

/-- A whole expression is found in front of a lexeme that does not go on with it. -/
lemma Findable.expression {l : Nat} {t : OperatorTree} (h : Findable dialect (.operand l t) ts)
    (rest : List Lexeme) (hsuffix : NoSuffix rest) (hbelow : AllBelow dialect l rest) :
    Settles (expression dialect · l (ts ++ rest)) (t, rest) :=
  h.2.2 l (Nat.le_refl l) rest _ hsuffix (hbelow.mono (Nat.le_succ l)) (infixes_done hbelow)

/-- The first lexeme of an operand does not close anything. -/
lemma exists_head {l : Nat} {t : OperatorTree} (h : Reads dialect (.operand l t) ts) :
    ∃ s rest, ts = s :: rest ∧ s ≠ .closeParen := by
  generalize hphrase : Phrase.operand l t = phrase at h
  induction h generalizing l t with
  | name | literal | parens => exact ⟨_, _, rfl, by simp⟩
  | @unary _ op => exact ⟨_, _, rfl, by cases op <;> simp [Lexeme.ofUnary]⟩
  | member _ _ ih | index _ _ _ ih _ | call _ _ _ ih _ | binary _ _ _ ih _ =>
    obtain ⟨s, rest, rfl, hs⟩ := ih rfl
    exact ⟨s, _, rfl, hs⟩
  | noArgs | lastArg | moreArgs => cases hphrase

/-- Arguments that are there are read one by one. -/
lemma arguments_succ {l : Nat} {t : OperatorTree} (h : Reads dialect (.operand l t) ts)
    (n : Nat) (rest : List Lexeme) :
    arguments dialect (n + 1) (ts ++ rest) = (expression dialect n 0 (ts ++ rest)).bind fun
      | (t, .closeParen :: rest) => some ([t], rest)
      | (t, .comma :: rest) =>
        (arguments dialect n rest).bind fun (args, rest) => some (t :: args, rest)
      | _ => none := by
  obtain ⟨s, tail, rfl, hs⟩ := h.exists_head
  rw [List.cons_append, arguments]
  exact fun rest h => hs (List.cons.inj h).1

/-- The reader finds whatever the grammar allows. -/
theorem findable (h : Reads dialect phrase ts) : Findable dialect phrase ts := by
  induction h with
  | name | literal => exact findable_of_suffixes fun rest result h => .of_succ h
  | @parens l t ts _ ih =>
    refine findable_of_suffixes fun rest result hrest => .of_succ ?_
    have hinner := ih.expression (.closeParen :: rest) (by simp [NoSuffix, Lexeme.isSuffix])
      (by simp [AllBelow, Lexeme.binary?])
    simpa [operand] using hinner.bind hrest
  | member _ _ ih =>
    refine findable_of_suffixes fun rest result hrest => ?_
    rw [List.append_assoc]
    exact ih.1 (by decide) _ _ (.of_succ hrest)
  | @index l t i ts us _ _ _ ih ihIndex =>
    refine findable_of_suffixes fun rest result hrest => ?_
    have hinner := ihIndex.expression (.closeBracket :: rest)
      (by simp [NoSuffix, Lexeme.isSuffix]) (by simp [AllBelow, Lexeme.binary?])
    have hsuffix : Settles (suffixes dialect · t (.openBracket :: (us ++ .closeBracket :: rest)))
        result := .of_succ (hinner.bind hrest)
    simpa using ih.1 (by decide) _ _ hsuffix
  | @call l t args ts us _ _ _ ih ihArgs =>
    refine findable_of_suffixes fun rest result hrest => ?_
    have hsuffix : Settles (suffixes dialect · t (.openParen :: (us ++ .closeParen :: rest)))
        result := .of_succ ((ihArgs rest).bind hrest)
    simpa using ih.1 (by decide) _ _ hsuffix
  | @unary l op t ts hl _ ih =>
    have hoperand : ∀ rest, NoSuffix rest →
        Settles (operand dialect · (.ofUnary op :: ts ++ rest)) (.unary op t, rest) := by
      intro rest hrest
      have hinner := ih.expression rest hrest (.ofUnary dialect rest)
      have hfound := hinner.bind (g := fun read _ => some (OperatorTree.unary op read.1, read.2))
        (.const _)
      refine .of_succ ?_
      cases op <;> exact hfound
    refine ⟨fun h => absurd h (Nat.not_lt.mpr hl), fun _ => hoperand, ?_⟩
    exact fun k _ rest result hrest _ hinfixes => expression_of_operand (hoperand rest hrest) hinfixes
  | @binary l op t u ts us hl _ _ ih ihRight =>
    have hlevel := binaryLevel_lt_unaryLevel dialect op
    refine ⟨fun h => by omega, fun h => by omega, ?_⟩
    intro k hk rest result hrest hbelow hinfixes
    -- The left operand goes on with the operator, and the right one ends where the phrase does.
    have hright := ihRight.expression rest hrest (hbelow.mono (Nat.succ_le_succ hl))
    have hstep : Settles (infixes dialect · k t (.ofBinary op :: (us ++ rest))) result := by
      refine .of_succ ?_
      simp only [infixes, Lexeme.binary?_ofBinary, if_pos (Nat.le_trans hk hl)]
      exact hright.bind hinfixes
    have hleft := ih.2.2 k (Nat.le_trans hk hl) (.ofBinary op :: (us ++ rest)) result
      (by simp [NoSuffix, Lexeme.isSuffix_ofBinary])
      (by simp [AllBelow, Lexeme.binary?_ofBinary]) hstep
    simpa using hleft
  | noArgs => exact fun rest => .of_succ (.const _)
  | lastArg h ih =>
    intro rest
    refine .of_succ ?_
    have hfirst := ih.expression (.closeParen :: rest) (by simp [NoSuffix, Lexeme.isSuffix])
      (by simp [AllBelow, Lexeme.binary?])
    simp only [h.arguments_succ]
    exact hfirst.bind (.const _)
  | @moreArgs t u args ts us h _ ih ihRest =>
    intro rest
    refine .of_succ ?_
    have hfirst := ih.expression (.comma :: (us ++ .closeParen :: rest))
      (by simp [NoSuffix, Lexeme.isSuffix]) (by simp [AllBelow, Lexeme.binary?])
    simp only [List.append_assoc, List.cons_append, h.arguments_succ]
    exact hfirst.bind ((ihRest rest).bind (.const _))

/-- An expression reads as one tree only. -/
theorem unique {l : Nat} {t u : OperatorTree} (ht : Reads dialect (.operand l t) ts)
    (hu : Reads dialect (.operand l u) ts) : t = u := by
  have hempty : NoSuffix [] ∧ AllBelow dialect l [] := by simp [NoSuffix, AllBelow]
  have hfound := ht.findable.expression [] hempty.1 hempty.2
  exact (Prod.mk.inj (hfound.unique (hu.findable.expression [] hempty.1 hempty.2))).1

end Reads

end Decompiler.Print
