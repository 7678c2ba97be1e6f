import Mathlib.Algebra.Group.Nat.Defs
import Mathlib.Data.List.SplitBy
import Decompiler.Print.Token
import Decompiler.Proofs.ExprTrees
import Decompiler.Proofs.ExpressionGrammar

/-!
# Reading printed expressions

A printed expression, seen as a row of symbols: characters, and names and literals as single symbols.
Lexemes are the longest pieces of it (`joins`), so that two minus signs without anything between them would
be one piece, and no lexeme; nor is a number with the dot of a member access behind it one.

The text of an expression falls into the lexemes that its tokens stand for (`lex_tokens`), because the
printer puts blanks around infix operators and parentheses around what would run together.  What is read
from the lexemes is the tree of the expression (`exprTree`) and nothing else (`reads_exprText`), because
each operand that binds looser than its place has parentheses.
-/

namespace Decompiler.Print

open Bytecode

/-! ### Literals -/

/-- The text of the absolute value of a number.  Floating numbers lose the bit of their sign. -/
def magnitude : Constant → String
  | .double bits => Decimal.binary64.text (bits.toNat % 2 ^ 63)
  | .float bits => Decimal.binary32.text (bits.toNat % 2 ^ 31)
  | .int value => toString value.toInt.natAbs
  | .long value => toString value.toInt.natAbs
  | .short value => toString value.toInt.natAbs
  | value => value.text

/-- A text that starts with a minus sign. -/
def StartsSigned (text : String) : Prop := text.toList.head? = some '-'

instance (text : String) : Decidable (StartsSigned text) :=
  inferInstanceAs (Decidable (text.toList.head? = some '-'))

lemma not_startsSigned_digits (n : Nat) (rest : List Char) :
    ¬ StartsSigned (String.ofList (Nat.toDigits 10 n ++ rest)) := by
  intro h
  cases hdigits : Nat.toDigits 10 n with
  | nil => exact Nat.toDigits_ne_nil hdigits
  | cons c digits =>
    rw [StartsSigned, String.toList_ofList, hdigits] at h
    have hc : c.isDigit = true :=
      Nat.isDigit_of_mem_toDigits (b := 10) (by decide) (by decide) (hdigits ▸ List.mem_cons_self)
    rw [Option.some.inj h] at hc
    cases hc

lemma not_startsSigned_numeral (d : Decimal.Numeral) : ¬ StartsSigned d.text := by
  rw [Decimal.Numeral.text]
  split
  · simpa using not_startsSigned_digits (d.coefficient / Nat.pow 10 d.places) []
  · exact not_startsSigned_digits _ _

/-- An integer. -/
lemma text_eq_of_startsSigned_int {n : Int} (h : StartsSigned (toString n)) :
    toString n = "-" ++ toString n.natAbs := by
  cases n with
  | ofNat n =>
    refine absurd h ?_
    have hdigits := not_startsSigned_digits n []
    rw [List.append_nil] at hdigits
    exact hdigits
  | negSucc n => rfl

open Decimal in
/-- Clearing the bit of the sign. -/
lemma value_mod (f : BinaryFormat) (bits : Nat) :
    f.value (bits % 2 ^ (f.fractionBits + f.exponentBits)) =
      match f.value bits with
      | .nan => .nan
      | .infinite _ => .infinite false
      | .finite x => .finite { x with negative := false } := by
  have hsign : bits % 2 ^ (f.fractionBits + f.exponentBits) / 2 ^ (f.fractionBits + f.exponentBits) = 0 :=
    Nat.div_eq_of_lt (Nat.mod_lt _ (Nat.two_pow_pos _))
  have hexponent : bits % 2 ^ (f.fractionBits + f.exponentBits) / 2 ^ f.fractionBits =
      bits / 2 ^ f.fractionBits % 2 ^ f.exponentBits := by
    rw [Nat.pow_add, Nat.mod_mul_right_div_self]
  have hfraction : bits % 2 ^ (f.fractionBits + f.exponentBits) % 2 ^ f.fractionBits =
      bits % 2 ^ f.fractionBits :=
    Nat.mod_mod_of_dvd _ (Nat.pow_dvd_pow 2 (Nat.le_add_right _ _))
  simp only [BinaryFormat.value, Nat.pow_eq, hsign, hexponent, hfraction, Nat.mod_mod]
  split
  · split <;> rfl
  · split <;> rfl

open Decimal in
/-- A floating number. -/
lemma text_eq_of_startsSigned_float (f : BinaryFormat) (bits : Nat)
    (h : StartsSigned (f.text bits)) :
    f.text bits = "-" ++ f.text (bits % 2 ^ (f.fractionBits + f.exponentBits)) := by
  rw [BinaryFormat.text] at h
  rw [BinaryFormat.text, BinaryFormat.text, value_mod]
  cases hvalue : f.value bits with
  | nan =>
    rw [hvalue] at h
    have hnan : ¬ StartsSigned "NaN" := by decide
    exact absurd h hnan
  | infinite negative =>
    rw [hvalue] at h
    cases negative with
    | true => rfl
    | false =>
      have hinf : ¬ StartsSigned "inf" := by decide
      exact absurd h hinf
  | finite x =>
    obtain ⟨negative, significand, exponent⟩ := x
    rw [hvalue] at h
    cases negative with
    | true => rfl
    | false =>
      have hdigits : ¬ StartsSigned (if significand = 0 then "0"
          else (f.shortest ⟨false, significand, exponent⟩).text) := by
        split
        · decide
        · exact not_startsSigned_numeral _
      exact absurd h hdigits

/-- A constant that is written with a minus sign is written as the sign and the absolute value. -/
lemma text_eq_of_isSigned {value : Constant} (h : isSigned value = true) :
    value.text = "-" ++ magnitude value := by
  have hstarts : StartsSigned value.text := eq_of_beq h
  cases value with
  | double bits => exact text_eq_of_startsSigned_float Decimal.binary64 bits.toNat hstarts
  | float bits => exact text_eq_of_startsSigned_float Decimal.binary32 bits.toNat hstarts
  | int value => exact text_eq_of_startsSigned_int hstarts
  | long value => exact text_eq_of_startsSigned_int hstarts
  | short value => exact text_eq_of_startsSigned_int hstarts
  | bool value => cases value <;> exact absurd hstarts (by decide)
  | string s =>
    rw [StartsSigned, Constant.text, String.toList_append, String.toList_append] at hstarts
    cases hstarts

/-! ### Symbols -/

/-- A symbol of a printed expression. -/
inductive Symbol where
  | char (c : Char)
  | name (s : String)
  | literal (s : String)
deriving DecidableEq, Repr

namespace Symbol

/-- The text of a symbol. -/
def text : Symbol → String
  | .char c => String.ofList [c]
  | .name s => s
  | .literal s => s

/-- What kind of lexeme a symbol may be part of. -/
inductive Kind where
  | blank
  | bracket
  | word
  | mark
deriving DecidableEq, Repr

/-- The kind of a symbol.  All characters that are not named here are operator signs. -/
def kind : Symbol → Kind
  | .char c =>
    if c = ' ' then .blank
    else if c ∈ ['(', ')', '[', ']', ',', '.'] then .bracket
    else if c.isAlpha then .word
    else .mark
  | .name _ | .literal _ => .word

/-- Whether two symbols run together: names, literals and letters do, and so do operator signs.  A dot
behind a literal would be the point of a number. -/
def joins : Symbol → Symbol → Bool
  | .literal _, .char '.' => true
  | a, b => a.kind == b.kind && (a.kind == .word || a.kind == .mark)

/-- Whether the symbol runs together with nothing, a dot behind a literal apart. -/
def isBorder (a : Symbol) : Bool :=
  a.kind == .blank || a.kind == .bracket

lemma joins_of_kind_ne {a b : Symbol} (h : a.kind ≠ b.kind) (hb : b ≠ .char '.') : a.joins b = false := by
  unfold joins
  split
  · exact absurd rfl hb
  · simp [h]

lemma joins_of_isBorder {a b : Symbol} (h : a.isBorder = true) : a.joins b = false := by
  unfold joins
  split
  · cases h
  · rw [isBorder, Bool.or_eq_true, beq_iff_eq, beq_iff_eq] at h
    obtain h | h := h <;> simp [h]

lemma joins_isBorder {a b : Symbol} (h : b.isBorder = true) (hb : b ≠ .char '.') :
    a.joins b = false := by
  by_cases hkind : a.kind = b.kind
  · rw [isBorder, ← hkind] at h
    exact joins_of_isBorder h
  · exact joins_of_kind_ne hkind hb

end Symbol

/-- The symbols of the text of an operator, without blanks. -/
def signs (text : String) : List Symbol :=
  (text.toList.filter (· ≠ ' ')).map .char

/-- How the marks and operators of a language are written. -/
def marks (dialect : Dialect) : List (List Symbol × Lexeme) :=
  [([.char '.'], .dot), ([.char ','], .comma), ([.char '('], .openParen), ([.char ')'], .closeParen),
    ([.char '['], .openBracket), ([.char ']'], .closeBracket)] ++
  UnaryOp.all.map (fun op => (signs (unaryText dialect op), .ofUnary op)) ++
  BinaryOp.all.map (fun op => (signs (binaryText dialect op), .ofBinary op))

/-- The lexeme that a piece of text is, if it is one.  A blank is none, and no fault. -/
def lexeme? (dialect : Dialect) : List Symbol → Option (List Lexeme)
  | [.char ' '] => some []
  | [.name s] => some [.name s]
  | [.literal s] => some [.literal s]
  | piece => ((marks dialect).lookup piece).map ([·])

/-- The lexemes of a row of symbols: it is cut where two symbols do not run together, and every piece has
to be a lexeme or a blank. -/
def lex (dialect : Dialect) (symbols : List Symbol) : Option (List Lexeme) :=
  ((symbols.splitBy Symbol.joins).mapM (lexeme? dialect)).map List.flatten

/-- The symbols of a literal.  A minus sign in front of it is a symbol of its own. -/
def literalSymbols (value : Constant) : List Symbol :=
  if isSigned value then [.char '-', .literal (magnitude value)] else [.literal value.text]

namespace Token

/-- The symbols that a token is printed as. -/
def symbols (dialect : Dialect) : Token → List Symbol
  | .word name => [.name name]
  | .literal value => literalSymbols value
  | t => (t.text dialect).toList.map .char

/-- The lexemes that a token stands for. -/
def lexemes : Token → List Lexeme
  | .word name => [.name name]
  | .literal value =>
    if isSigned value then [.minus, .literal (magnitude value)] else [.literal value.text]
  | .unary op => [.ofUnary op]
  | .binary op => [.ofBinary op]
  | .dot => [.dot]
  | .comma => [.comma]
  | .openParen => [.openParen]
  | .closeParen => [.closeParen]
  | .openBracket => [.openBracket]
  | .closeBracket => [.closeBracket]

/-- The characters of a text make up the text. -/
lemma text_chars (s : String) : String.join ((s.toList.map Symbol.char).map Symbol.text) = s := by
  rw [← String.toList_inj, String.toList_join, List.flatMap_map, List.flatMap_map]
  simp only [Symbol.text, String.toList_ofList]
  exact List.flatMap_singleton' _

lemma text_symbols (dialect : Dialect) (t : Token) :
    String.join ((t.symbols dialect).map Symbol.text) = t.text dialect := by
  cases t with
  | word name => simp [symbols, Symbol.text, text]
  | literal value =>
    rw [symbols, literalSymbols, text]
    split
    · rename_i h
      simp [Symbol.text, text_eq_of_isSigned h]
    · simp [Symbol.text]
  | _ => exact text_chars _

lemma lex_symbols (dialect : Dialect) (t : Token) : lex dialect (t.symbols dialect) = some t.lexemes := by
  cases t with
  | word name => rfl
  | literal value =>
    rw [symbols, literalSymbols, lexemes]
    split <;> cases dialect <;> rfl
  | unary op => cases op <;> cases dialect <;> decide
  | binary op => cases op <;> cases dialect <;> decide
  | _ => cases dialect <;> decide

end Token

/-! ### Tokens in a row -/

/-- The symbols that a list of tokens is printed as. -/
def tokenSymbols (dialect : Dialect) (tokens : List Token) : List Symbol :=
  tokens.flatMap (Token.symbols dialect)

/-- The lexemes that a list of tokens stands for. -/
def tokenLexemes (tokens : List Token) : List Lexeme :=
  tokens.flatMap Token.lexemes

lemma text_tokenSymbols (dialect : Dialect) (tokens : List Token) :
    String.join ((tokenSymbols dialect tokens).map Symbol.text) = tokensText dialect tokens := by
  induction tokens with
  | nil => rfl
  | cons t rest ih =>
    rw [tokenSymbols, List.flatMap_cons, List.map_append, String.join_append, Token.text_symbols,
      ← tokenSymbols, ih]
    simp [tokensText]

/-- The last symbol of a token does not run together with the first one of the next. -/
def Separate (dialect : Dialect) (t u : Token) : Prop :=
  ∀ a ∈ (t.symbols dialect).getLast?, ∀ b ∈ (u.symbols dialect).head?, a.joins b = false

namespace Token

variable {dialect : Dialect} {t u : Token}

/-- Whether a token is a mark or an infix operator, and so starts and ends with a blank or a mark that
runs together with nothing. -/
def isMark : Token → Bool
  | .word _ | .literal _ | .unary _ => false
  | _ => true

/-- Whether a token starts an operand that may stand behind a prefix operator without parentheses. -/
def startsOperand : Token → Bool
  | .word _ | .openParen => true
  | .literal value => !isSigned value
  | _ => false

/-- Whether a token ends an operand that member access may go on with. -/
def endsOperand : Token → Bool
  | .word _ | .closeParen | .closeBracket => true
  | _ => false

lemma symbols_ne_nil (dialect : Dialect) (t : Token) : t.symbols dialect ≠ [] := by
  intro h
  have hlex := lex_symbols dialect t
  rw [h] at hlex
  cases t with
  | literal value =>
    rw [lexemes] at hlex
    split at hlex <;> cases hlex
  | _ => cases hlex

/-- No token has two minus signs side by side. -/
lemma isChain_symbols (dialect : Dialect) (t : Token) :
    (t.symbols dialect).IsChain fun a b => ¬ (a = .char '-' ∧ b = .char '-') := by
  cases t with
  | word => exact List.isChain_singleton _
  | literal value =>
    rw [symbols, literalSymbols]
    split
    · simp
    · exact List.isChain_singleton _
  | unary op => cases op <;> cases dialect <;> decide
  | binary op => cases op <;> cases dialect <;> decide
  | _ => cases dialect <;> decide

/-- A mark ends with a symbol that runs together with nothing. -/
lemma separate_of_isMark (ht : t.isMark = true) : Separate dialect t u := by
  intro a ha b _
  have hborder : (t.symbols dialect).getLast?.all Symbol.isBorder = true := by
    cases t with
    | word | literal | unary => cases ht
    | binary op => cases op <;> cases dialect <;> decide
    | _ => cases dialect <;> decide
  exact Symbol.joins_of_isBorder ((Option.all_eq_true _ _).mp hborder a ha)

/-- A mark starts with a symbol that runs together with nothing but a literal. -/
lemma separate_isMark (hu : u.isMark = true) (hdot : u ≠ .dot) : Separate dialect t u := by
  intro a _ b hb
  have hborder : (u.symbols dialect).head?.all (fun b => b.isBorder && b != .char '.') = true := by
    cases u with
    | word | literal | unary => cases hu
    | dot => exact absurd rfl hdot
    | binary op => cases op <;> cases dialect <;> decide
    | _ => cases dialect <;> decide
  have hb := (Option.all_eq_true _ _).mp hborder b hb
  rw [Bool.and_eq_true, bne_iff_ne] at hb
  exact Symbol.joins_isBorder hb.1 hb.2

/-- A dot may stand behind a name and behind brackets. -/
lemma separate_dot (ht : t.endsOperand = true) : Separate dialect t .dot := by
  intro a ha b hb
  cases t with
  | literal | unary | binary | dot | comma | openParen | openBracket => cases ht
  | word name =>
    obtain rfl := Option.some.inj ha
    have hdot : (dot.symbols dialect).head? = some (.char '.') := by cases dialect <;> decide
    rw [hdot] at hb
    obtain rfl := Option.some.inj hb
    rfl
  | closeParen | closeBracket => exact separate_of_isMark rfl a ha b hb

/-- Prefix operators do not end like a word. -/
lemma kind_unary (op : UnaryOp) (a : Symbol)
    (ha : a ∈ ((unary op).symbols dialect).getLast?) : a.kind ≠ .word := by
  have hkind : ((unary op).symbols dialect).getLast?.all (fun a => a.kind != .word) = true := by
    cases op <;> cases dialect <;> decide
  exact bne_iff_ne.mp ((Option.all_eq_true _ _).mp hkind a ha)

/-- Prefix operators may stand in front of operands that do not start with another one. -/
lemma separate_unary (op : UnaryOp) (hu : u.startsOperand = true) :
    Separate dialect (.unary op) u := by
  intro a ha b hb
  cases u with
  | unary | binary | dot | comma | closeParen | openBracket | closeBracket => cases hu
  | openParen => exact separate_isMark rfl (by simp) a ha b hb
  | word name =>
    obtain rfl := Option.some.inj hb
    exact Symbol.joins_of_kind_ne (kind_unary op a ha) (by simp)
  | literal value =>
    rw [startsOperand, Bool.not_eq_true'] at hu
    rw [symbols, literalSymbols, if_neg (by simp [hu])] at hb
    obtain rfl := Option.some.inj hb
    exact Symbol.joins_of_kind_ne (kind_unary op a ha) (by simp)

end Token

/-- No two neighbours in a list of tokens run together. -/
def Spaced (dialect : Dialect) (tokens : List Token) : Prop :=
  tokens.IsChain (Separate dialect)

variable {dialect : Dialect}

namespace Spaced

lemma single (t : Token) : Spaced dialect [t] := List.isChain_singleton t

variable {t : Token} {before after : List Token}

/-- A mark may stand between any two lists. -/
lemma mark (ht : t.isMark = true) (hdot : t ≠ .dot) (hbefore : Spaced dialect before)
    (hafter : Spaced dialect after) : Spaced dialect (before ++ t :: after) :=
  List.isChain_append.mpr ⟨hbefore,
    List.isChain_cons.mpr ⟨fun _ _ => Token.separate_of_isMark ht, hafter⟩, fun _ _ _ h => by
      obtain rfl := Option.some.inj h
      exact Token.separate_isMark ht hdot⟩

/-- Anything may stand behind a dot. -/
lemma dot (hbefore : Spaced dialect (before ++ [.dot])) (hafter : Spaced dialect after) :
    Spaced dialect (before ++ [.dot] ++ after) := by
  refine List.isChain_append.mpr ⟨hbefore, hafter, fun t ht _ _ => ?_⟩
  rw [List.getLast?_concat] at ht
  obtain rfl := Option.some.inj ht
  exact Token.separate_of_isMark rfl

lemma enclose (needed : Bool) (h : Spaced dialect before) : Spaced dialect (enclose needed before) := by
  rw [Print.enclose]
  split
  · have hclosed : Spaced dialect (before ++ [.closeParen]) := h.mark rfl (by simp) .nil
    exact List.isChain_cons.mpr ⟨fun _ _ => Token.separate_of_isMark rfl, hclosed⟩
  · exact h

/-- A list falls into the lexemes of its tokens. -/
theorem lex_tokens {tokens : List Token} (h : Spaced dialect tokens) :
    lex dialect (tokenSymbols dialect tokens) = some (tokenLexemes tokens) := by
  induction tokens with
  | nil => rfl
  | cons t rest ih =>
    obtain ⟨hhead, hrest⟩ := List.isChain_cons.mp h
    have hcut : ∀ a ∈ (t.symbols dialect).getLast?, ∀ b ∈ (tokenSymbols dialect rest).head?,
        a.joins b = false := by
      intro a ha b hb
      cases rest with
      | nil => cases hb
      | cons u rest =>
        rw [tokenSymbols, List.flatMap_cons, List.head?_append_of_ne_nil _ (u.symbols_ne_nil dialect)]
          at hb
        exact hhead u rfl a ha b hb
    have ht := t.lex_symbols dialect
    have ih := ih hrest
    rw [lex, Option.map_eq_some_iff] at ht ih
    obtain ⟨pieces, hpieces, hflat⟩ := ht
    obtain ⟨more, hmore, hflatMore⟩ := ih
    rw [tokenSymbols, List.flatMap_cons, ← tokenSymbols, lex, List.splitBy_append hcut,
      List.mapM_append, hpieces, hmore, tokenLexemes, List.flatMap_cons, ← tokenLexemes, ← hflat,
      ← hflatMore, ← List.flatten_append]
    rfl

/-- Two minus signs never stand side by side. -/
theorem not_infix_minus {tokens : List Token} (h : Spaced dialect tokens) :
    ¬ [.char '-', .char '-'] <:+: tokenSymbols dialect tokens := by
  have hchain : (tokenSymbols dialect tokens).IsChain fun a b => ¬ (a = .char '-' ∧ b = .char '-') := by
    rw [tokenSymbols, List.flatMap_def, List.isChain_flatten (by simp [Token.symbols_ne_nil])]
    refine ⟨List.forall_mem_map.mpr fun t _ => t.isChain_symbols dialect, ?_⟩
    refine (List.isChain_map _).mpr (h.imp fun t u htu a ha b hb => ?_)
    rintro ⟨rfl, rfl⟩
    exact absurd (htu _ ha _ hb) (by decide)
  intro hinfix
  have hpair := List.IsChain.infix hchain hinfix
  exact List.isChain_pair.mp hpair ⟨rfl, rfl⟩

end Spaced

/-! ### The tokens of expressions -/

lemma exprTokens_ne_nil (dialect : Dialect) (e : Expr) : exprTokens dialect e ≠ [] := by
  cases e with
  | var v =>
    obtain ⟨name, owner, index⟩ := v
    simp [exprTokens, variableTokens]
  | _ => simp [exprTokens]

lemma enclose_ne_nil (needed : Bool) {tokens : List Token} (h : tokens ≠ []) :
    enclose needed tokens ≠ [] := by
  cases needed with
  | false => exact h
  | true => exact List.cons_ne_nil _ _

lemma head?_enclose {needed : Bool} {e : Expr} {P : Token → Prop} (hparens : P .openParen)
    (h : needed = false → ∀ t ∈ (exprTokens dialect e).head?, P t) :
    ∀ t ∈ (enclose needed (exprTokens dialect e)).head?, P t := by
  cases needed with
  | false => exact h rfl
  | true =>
    intro t ht
    obtain rfl := Option.some.inj ht
    exact hparens

lemma getLast?_enclose {needed : Bool} {tokens : List Token} {P : Token → Prop} (hparens : P .closeParen)
    (h : needed = false → ∀ t ∈ tokens.getLast?, P t) :
    ∀ t ∈ (enclose needed tokens).getLast?, P t := by
  cases needed with
  | false => exact h rfl
  | true =>
    intro t ht
    simp only [enclose, if_true, List.getLast?_concat] at ht
    obtain rfl := Option.some.inj ht
    exact hparens

/-- A computed owner without parentheses is an atom. -/
lemma not_ownerNeedsParens {e : Expr} (h : ownerNeedsParens dialect e = false) :
    postfixLevel ≤ level dialect e := by
  cases e with
  | const => cases h
  | _ => simpa [ownerNeedsParens] using h

/-- An expression that binds tighter than prefix operators starts with none. -/
lemma startsOperand_exprTokens {e : Expr} (h : unaryLevel < level dialect e) :
    ∀ t ∈ (exprTokens dialect e).head?, t.startsOperand = true := by
  induction e using Expr.tree_induction with
  | const value =>
    intro t ht
    obtain rfl := Option.some.inj ht
    rw [level] at h
    split at h
    · exact absurd h (Nat.lt_irrefl _)
    · simp_all [Token.startsOperand]
  | var v ih =>
    obtain ⟨name, owner, index⟩ := v
    intro t ht
    cases owner with
    | temporary =>
      obtain rfl := Option.some.inj ht
      rfl
    | named owner =>
      rw [exprTokens, variableTokens, ownerTokens] at ht
      split at ht <;> obtain rfl := Option.some.inj ht <;> rfl
    | computed value =>
      rw [exprTokens, variableTokens, ownerTokens, List.append_assoc,
        List.head?_append_of_ne_nil _ (enclose_ne_nil _ (exprTokens_ne_nil dialect value))] at ht
      refine head?_enclose (P := (Token.startsOperand · = true)) rfl (fun hparens => ?_) t ht
      exact ih value (by simp [VariableOf.children, OwnerOf.children])
        (Nat.lt_of_lt_of_le (by decide) (not_ownerNeedsParens hparens))
  | call name args =>
    intro t ht
    obtain rfl := Option.some.inj ht
    rfl
  | unary op operand => exact absurd h (Nat.lt_irrefl _)
  | binary op left right => exact absurd h (Nat.lt_asymm (binaryLevel_lt_unaryLevel dialect op))
  | incoming i =>
    intro t ht
    obtain rfl := Option.some.inj ht
    rfl

/-- A computed owner without parentheses ends with a name or with brackets. -/
lemma endsOperand_exprTokens {e : Expr} (h : ownerNeedsParens dialect e = false) :
    ∀ t ∈ (exprTokens dialect e).getLast?, t.endsOperand = true := by
  intro t ht
  have hlevel := not_ownerNeedsParens h
  cases e with
  | const => cases h
  | var v =>
    obtain ⟨name, owner, index⟩ := v
    rw [exprTokens, variableTokens] at ht
    cases index with
    | none =>
      simp only [indexTokens, List.getLast?_concat] at ht
      obtain rfl := Option.some.inj ht
      rfl
    | some i =>
      simp only [indexTokens, ← List.cons_append, ← List.append_assoc, List.getLast?_concat] at ht
      obtain rfl := Option.some.inj ht
      rfl
  | call name args =>
    simp only [exprTokens, List.getLast?_concat] at ht
    obtain rfl := Option.some.inj ht
    rfl
  | unary => exact absurd hlevel (by simp [level, unaryLevel, postfixLevel])
  | binary op =>
    have hop := binaryLevel_lt_unaryLevel dialect op
    exact absurd (Nat.lt_of_le_of_lt hlevel hop) (by decide)
  | incoming i =>
    obtain rfl := Option.some.inj ht
    rfl

/-- The tokens of the owner of a variable end with a dot, if there are any. -/
lemma spaced_ownerTokens {owner : Owner} {rest : List Token}
    (h : ∀ value ∈ owner.children, Spaced dialect (exprTokens dialect value))
    (hrest : Spaced dialect rest) : Spaced dialect (ownerTokens dialect owner ++ rest) := by
  cases owner with
  | temporary => exact hrest
  | named owner =>
    rw [ownerTokens]
    split
    · exact hrest
    · have hname : Spaced dialect ([.word owner] ++ [.dot]) :=
        List.isChain_pair.mpr (Token.separate_dot rfl)
      exact hname.dot hrest
  | computed value =>
    have hvalue := h value (by simp [OwnerOf.children])
    have howner : Spaced dialect
        (enclose (ownerNeedsParens dialect value) (exprTokens dialect value) ++ [.dot]) := by
      refine List.isChain_append.mpr ⟨hvalue.enclose _, List.isChain_singleton _, fun t ht u hu => ?_⟩
      obtain rfl := Option.some.inj hu
      exact Token.separate_dot (getLast?_enclose (P := (Token.endsOperand · = true)) rfl
        endsOperand_exprTokens t ht)
    exact howner.dot hrest

/-- The commas separate the arguments of a call. -/
lemma spaced_argTokens {args : List Expr} (h : ∀ e ∈ args, Spaced dialect (exprTokens dialect e)) :
    Spaced dialect (argTokens dialect args) := by
  induction args with
  | nil => exact .nil
  | cons e rest ih =>
    obtain ⟨he, hrest⟩ := List.forall_mem_cons.mp h
    cases rest with
    | nil => exact he
    | cons => exact he.mark rfl (by simp) (ih hrest)

/-- The tokens of an expression do not run together. -/
theorem spaced_exprTokens (dialect : Dialect) (e : Expr) : Spaced dialect (exprTokens dialect e) := by
  induction e using Expr.tree_induction with
  | const => exact .single _
  | var v ih =>
    obtain ⟨name, owner, index⟩ := v
    rw [exprTokens, variableTokens]
    refine spaced_ownerTokens (fun value hvalue => ih value (List.mem_append_left _ hvalue)) ?_
    cases index with
    | none => exact .single _
    | some i =>
      have hi : Spaced dialect (exprTokens dialect i) := ih i (List.mem_append_right _ (by simp))
      have hindex : Spaced dialect ([.word name] ++ .openBracket :: (exprTokens dialect i ++ [.closeBracket])) :=
        (.mark rfl (by simp) (.single _) (hi.mark rfl (by simp) .nil))
      exact hindex
  | call name args ih =>
    have hargs : Spaced dialect (argTokens dialect args) := spaced_argTokens ih
    have hcall : Spaced dialect ([.word name] ++ .openParen :: (argTokens dialect args ++ [.closeParen])) :=
      .mark rfl (by simp) (.single _) (hargs.mark rfl (by simp) .nil)
    exact hcall
  | unary op operand ih =>
    refine List.isChain_cons.mpr ⟨fun t ht => Token.separate_unary op ?_, ih.enclose _⟩
    refine head?_enclose (P := (Token.startsOperand · = true)) rfl (fun hparens => ?_) t ht
    exact startsOperand_exprTokens (by simpa using hparens)
  | binary op left right ihLeft ihRight =>
    exact (ihLeft.enclose _).mark rfl (by simp) (ihRight.enclose _)
  | incoming => exact .single _


/-! ### The trees of expressions -/

mutual

/-- The operators of an expression.  A constant that is written with a minus sign counts as the negation
of its absolute value. -/
def exprTree : Expr → OperatorTree
  | .const value =>
    if isSigned value then .unary .neg (.literal (magnitude value)) else .literal value.text
  | .var v => variableTree v
  | .call name args => .call (.name name) (argTrees args)
  | .unary op operand => .unary op (exprTree operand)
  | .binary op left right => .binary op (exprTree left) (exprTree right)
  | .incoming position => .name ("stack_" ++ toString position)

/-- The operators of a variable. -/
def variableTree : Variable → OperatorTree
  | ⟨name, owner, index⟩ => indexTree index (memberTree owner name)

/-- A name, as a member of its owner if that is written. -/
def memberTree : Owner → String → OperatorTree
  | .temporary, name => .name name
  | .named owner, name => if isImplicit owner then .name name else .member (.name owner) name
  | .computed value, name => .member (exprTree value) name

/-- A variable with its index, if it has one. -/
def indexTree : Option Expr → OperatorTree → OperatorTree
  | none, tree => tree
  | some index, tree => .index tree (exprTree index)

/-- The operators of the arguments of a call. -/
def argTrees : List Expr → List OperatorTree
  | [] => []
  | arg :: rest => exprTree arg :: argTrees rest

end

/-- What is written in a place for operands of a level, that are enclosed where they bind looser. -/
lemma reads_enclose (needed : Bool) {tree : OperatorTree} {tokens : List Token} {own l : Nat}
    (h : ∀ k ≤ own, k ≤ postfixLevel → Reads dialect (.operand k tree) (tokenLexemes tokens))
    (hl : l ≤ postfixLevel) (hneeded : needed = false → l ≤ own) :
    Reads dialect (.operand l tree) (tokenLexemes (enclose needed tokens)) := by
  cases needed with
  | false => exact h l (hneeded rfl) hl
  | true =>
    have hparens := Reads.parens (l := l) (h 0 (Nat.zero_le _) (Nat.zero_le _))
    simpa [enclose, tokenLexemes, Token.lexemes] using hparens

/-- The arguments of a call are read as they are. -/
lemma reads_argTokens {args : List Expr}
    (h : ∀ e ∈ args, Reads dialect (.operand 0 (exprTree e)) (tokenLexemes (exprTokens dialect e))) :
    Reads dialect (.args (argTrees args)) (tokenLexemes (argTokens dialect args)) := by
  induction args with
  | nil => exact .noArgs
  | cons e rest ih =>
    obtain ⟨he, hrest⟩ := List.forall_mem_cons.mp h
    cases rest with
    | nil => exact .lastArg he
    | cons =>
      have hargs := Reads.moreArgs he (ih hrest)
      simpa [argTokens, argTrees, tokenLexemes, Token.lexemes] using hargs

/-- A name is read as a member of its owner, if the owner is written. -/
lemma reads_ownerTokens {owner : Owner} (name : String) {l : Nat} (hl : l ≤ postfixLevel)
    (h : ∀ value ∈ owner.children, ∀ k ≤ level dialect value, k ≤ postfixLevel →
      Reads dialect (.operand k (exprTree value)) (tokenLexemes (exprTokens dialect value))) :
    Reads dialect (.operand l (memberTree owner name))
      (tokenLexemes (ownerTokens dialect owner ++ [.word name])) := by
  cases owner with
  | temporary => exact .name
  | named owner =>
    rw [memberTree, ownerTokens]
    split
    · exact .name
    · exact .member hl .name
  | computed value =>
    have howner := reads_enclose _ (h value (by simp [OwnerOf.children])) (Nat.le_refl _)
      not_ownerNeedsParens
    have hmember := Reads.member (s := name) hl howner
    simpa [memberTree, ownerTokens, tokenLexemes, Token.lexemes] using hmember

/-- The tokens of an expression read as its operators, wherever it binds tight enough. -/
theorem reads_exprTokens (dialect : Dialect) (e : Expr) :
    ∀ l ≤ level dialect e, l ≤ postfixLevel →
      Reads dialect (.operand l (exprTree e)) (tokenLexemes (exprTokens dialect e)) := by
  induction e using Expr.tree_induction with
  | const value =>
    intro l hl _
    rw [level] at hl
    simp only [exprTree, exprTokens, tokenLexemes, List.flatMap_singleton, Token.lexemes]
    split
    · rename_i hsigned
      rw [if_pos hsigned] at hl
      exact .unary hl .literal
    · exact .literal
  | var v ih =>
    obtain ⟨name, owner, index⟩ := v
    intro l _ hl
    have howner : ∀ k ≤ postfixLevel, Reads dialect (.operand k (memberTree owner name))
        (tokenLexemes (ownerTokens dialect owner ++ [.word name])) :=
      fun k hk => reads_ownerTokens name hk fun value hvalue => ih value (List.mem_append_left _ hvalue)
    cases index with
    | none => exact howner l hl
    | some i =>
      have hi := ih i (List.mem_append_right _ (by simp)) 0 (Nat.zero_le _) (Nat.zero_le _)
      have hindex := Reads.index hl (howner _ (Nat.le_refl _)) hi
      simpa [exprTokens, variableTokens, indexTokens, exprTree, variableTree, indexTree, tokenLexemes,
        Token.lexemes] using hindex
  | call name args ih =>
    intro l _ hl
    have hargs := reads_argTokens fun e he => ih e he 0 (Nat.zero_le _) (Nat.zero_le _)
    have hcall := Reads.call hl (.name (s := name)) hargs
    simpa [exprTokens, exprTree, tokenLexemes, Token.lexemes] using hcall
  | unary op operand ih =>
    intro l hl _
    have hoperand := reads_enclose (level dialect operand ≤ unaryLevel) (l := unaryLevel) ih
      (by decide) fun h => Nat.le_of_lt (by simpa using h)
    exact .unary hl hoperand
  | binary op left right ihLeft ihRight =>
    intro l hl _
    have hlevel := binaryLevel_lt_unaryLevel dialect op
    have htight : binaryLevel dialect op + 1 ≤ postfixLevel := Nat.le_trans hlevel (by decide)
    have hleft := reads_enclose (level dialect left < binaryLevel dialect op)
      (l := binaryLevel dialect op) ihLeft (by omega) fun h => by simpa using h
    have hright := reads_enclose (level dialect right ≤ binaryLevel dialect op)
      (l := binaryLevel dialect op + 1) ihRight htight fun h => Nat.succ_le_of_lt (by simpa using h)
    have hbinary := Reads.binary hl hleft hright
    simpa [exprTokens, exprTree, tokenLexemes, Token.lexemes] using hbinary
  | incoming i => exact fun _ _ _ => .name

/-- The symbols of the text of an expression. -/
def exprSymbols (dialect : Dialect) (e : Expr) : List Symbol :=
  tokenSymbols dialect (exprTokens dialect e)

/-- A printed expression has no two minus signs side by side, falls into lexemes, and reads as the operators
of the expression and as no other tree. -/
theorem reads_exprText (dialect : Dialect) (e : Expr) :
    String.join ((exprSymbols dialect e).map Symbol.text) = exprText dialect e ∧
    ¬ [.char '-', .char '-'] <:+: exprSymbols dialect e ∧
    ∃ lexemes, lex dialect (exprSymbols dialect e) = some lexemes ∧
      ∀ tree, Reads dialect (.operand 0 tree) lexemes ↔ tree = exprTree e := by
  have hspaced := spaced_exprTokens dialect e
  have hreads := reads_exprTokens dialect e 0 (Nat.zero_le _) (Nat.zero_le _)
  refine ⟨text_tokenSymbols dialect _, hspaced.not_infix_minus, _, hspaced.lex_tokens, fun tree => ?_⟩
  exact ⟨fun h => h.unique hreads, fun h => h ▸ hreads⟩

/-- A difference of a negation and a negative number, and a member of what a call gives. -/
example :
    exprText .c (.binary .sub (.unary .neg (.int (-1))) (.int (-1))) = "-(-1) - -1" ∧
    exprText .lua (.var ⟨"hp", .computed (.call "nearest" [.int 2]), none⟩) = "nearest(2).hp" := by
  decide +kernel

end Decompiler.Print
