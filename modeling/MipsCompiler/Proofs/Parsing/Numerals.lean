import Mathlib.Data.List.Forall2
import Mathlib.Data.List.Induction
import Mathlib.Data.Nat.Digits.Defs
import MipsCompiler.Proofs.ArraySizes
import MipsCompiler.Proofs.Grammar.Acceptance
import MipsCompiler.Proofs.Grammar.Refusal
import MipsCompiler.Proofs.Printing.Text
import MipsCompiler.Proofs.Scanning.Partition
import MipsCompiler.Proofs.TokenSources

set_option autoImplicit false

/-!
# Numerals

An integer is read in two ways: into a word, which wraps at every digit, and as the extent of an array,
which has to fit. Both are compared with the number that its digits denote.

`Collects` follows the integers through a derivation. So every integer of a program that is parsed is
found again in its tree, at its place and with its value.
-/

namespace MipsCompiler

/-- The number that the decimal digits of a text denote. Other characters are passed over. -/
def decimalValue (text : String) : Nat :=
  Nat.ofDigits 10 ((text.toList.filter Char.isDigit).map Numeral.digitValue).reverse

namespace Numeral

theorem value_eq (digits : List Char) :
    value digits = Nat.ofDigits 10 (digits.map digitValue).reverse := by
  induction digits using List.reverseRecOn with
  | nil => rfl
  | append_singleton digits c ih =>
    have hvalue : value (digits ++ [c]) = 10 * value digits + digitValue c := by
      rw [value, List.foldl_append]
      rfl
    rw [hvalue, ih, List.map_append, List.map_singleton, List.reverse_append, List.reverse_singleton,
      List.singleton_append, Nat.ofDigits_cons, Nat.add_comm]

theorem word_eq (text : String) : word text = BitVec.ofNat 32 (decimalValue text) := by
  rw [decimalValue, ← value_eq]
  exact foldl_eq_ofNat _ 0

theorem word_toNat (text : String) : (word text).toNat = decimalValue text % 2 ^ 32 := by
  rw [word_eq, BitVec.toNat_ofNat]

theorem word_toInt (text : String) :
    (word text).toInt = Int.bmod (decimalValue text) (2 ^ 32) := by
  rw [BitVec.toInt_eq_toNat_bmod, word_toNat, Int.natCast_mod, Int.emod_bmod]

theorem filter_dropPlus (cs : List Char) :
    (dropPlus cs).filter Char.isDigit = cs.filter Char.isDigit := by
  unfold dropPlus
  split <;> rfl

theorem extent?_eq_some {text : String} {n : Nat} (h : extent? text = some n) :
    n = decimalValue text := by
  simp only [extent?, Option.ite_none_right_eq_some, Option.some.injEq] at h
  obtain ⟨⟨_, hdigits, _⟩, rfl⟩ := h
  have hfilter := List.filter_eq_self.2 (List.all_eq_true.1 hdigits)
  rw [filter_dropPlus] at hfilter
  rw [value_eq, decimalValue, hfilter]

theorem extent?_of_digits {text : String} (hne : text.toList ≠ [])
    (hdigits : text.toList.all Char.isDigit) :
    extent? text =
      if decimalValue text < 2 ^ 32 then some (decimalValue text) else none := by
  have hplus : dropPlus text.toList = text.toList := by
    unfold dropPlus
    split
    · next cs htext =>
      rw [htext, List.all_cons] at hdigits
      cases hdigits
    · rfl
  have hvalue : value text.toList = decimalValue text := by
    rw [value_eq, decimalValue, List.filter_eq_self.2 (List.all_eq_true.1 hdigits)]
  simp [extent?, hplus, hvalue, hne, hdigits, Word.count]

end Numeral

theorem digits_of_mem_tokensOf {source : String} {token : Token} (h : token ∈ tokensOf source)
    (hinteger : token.kind = .integer) :
    token.lexeme.toList ≠ [] ∧ token.lexeme.toList.all Char.isDigit := by
  have hkind : token.kind ≠ .eof := hinteger ▸ by decide
  obtain ⟨rest, _, hlexeme⟩ := (tokensOf_partitions source).isLexeme h hkind
  rw [hinteger] at hlexeme
  rcases hlexeme.form with hform | ⟨herror, _⟩
  · generalize token.lexeme.toList = cs at hform
    cases hform with
    | fixed hfixed => cases hfixed
    | integer hne hdigits => exact ⟨hne, hdigits⟩
  · cases herror

/-! ## Integers in a stream -/

def Token.isInteger (token : Token) : Bool :=
  token.kind = .integer

namespace TokenStream

variable {σ α : Type} [TokenStream σ]

/-- The values that are read off the integers between two places. -/
def Collects (read : Token → α) (s : σ) (values : List α) (t : σ) : Prop :=
  ∃ tokens, Between s tokens t ∧ (tokens.filter Token.isInteger).map read = values

namespace Collects

variable {read : Token → α} {s t u : σ} {values others : List α} {kind : TokenKind}

theorem refl : Collects read s [] s :=
  ⟨[], .nil, rfl⟩

theorem trans (h : Collects read s values t) (h' : Collects read t others u) :
    Collects read s (values ++ others) u := by
  obtain ⟨front, hfront, rfl⟩ := h
  obtain ⟨rest, hrest, rfl⟩ := h'
  refine ⟨front ++ rest, between_append.2 ⟨t, hfront, hrest⟩, ?_⟩
  rw [List.filter_append, List.map_append]

theorem integer (h : (peek s).kind = .integer) : Collects read s [read (peek s)] (advance s) := by
  refine ⟨[peek s], between_one.2 ⟨rfl, ?_, rfl⟩, ?_⟩
  · rw [h]
    decide
  · simp [Token.isInteger, h]

theorem skip (h : (peek s).kind = kind) (hkind : kind ∉ [.eof, .integer]) :
    Collects read s [] (advance s) := by
  simp only [List.mem_cons, List.not_mem_nil, or_false, not_or] at hkind
  refine ⟨[peek s], between_one.2 ⟨rfl, h ▸ hkind.1, rfl⟩, ?_⟩
  simp [Token.isInteger, h, hkind.2]

theorem after (h : (peek s).kind = kind) (hkind : kind ∉ [.eof, .integer])
    (hrest : Collects read (advance s) values t) : Collects read s values t :=
  (skip h hkind).trans hrest

theorem before (hfront : Collects read s values t) (h : (peek t).kind = kind)
    (hkind : kind ∉ [.eof, .integer]) : Collects read s values (advance t) := by
  have hall := hfront.trans (skip h hkind)
  rwa [List.append_nil] at hall

theorem join {β : Type} {f : β → Option α} {xs ys : List β}
    (h : Collects read s (xs.filterMap f) t) (h' : Collects read t (ys.filterMap f) u) :
    Collects read s ((xs ++ ys).filterMap f) u := by
  rw [List.filterMap_append]
  exact h.trans h'

end Collects

end TokenStream

/-! ## Integers in trees -/

def Expr.integer? : Expr → Option (Position × Int)
  | .literal node (.int value) => some (node.pos, value.toInt)
  | _ => none

def Phrase.integers (phrase : Phrase) : List (Position × Int) :=
  phrase.subexprs.filterMap Expr.integer?

def StmtPhrase.integers (phrase : StmtPhrase) : List (Position × Int) :=
  phrase.exprs.filterMap Expr.integer?

namespace Token

def decimal (token : Token) : Nat :=
  decimalValue token.lexeme

/-- What stands in a tree for an integer: its place, and its number wrapped around to a signed word. -/
def wrapped (token : Token) : Position × Int :=
  (token.pos, Int.bmod token.decimal (2 ^ 32))

end Token

namespace Parser

open TokenStream (Collects)

variable {σ : Type} [TokenStream σ] {s t : ParseState σ}

theorem literal_collects {value : Literal} (hstart : Nonterminal.literal.starts s.token.kind)
    (hvalue : s.token.literal? = some value) :
    Collects Token.wrapped s.stream
      (Phrase.integers (.expr (.literal (s.advance.node s.token.pos) value))) s.advance.stream := by
  have hmem : s.token.kind ∈ [.integer, .float, .trueKw, .falseKw] := List.contains_iff_mem.1 hstart
  simp only [List.mem_cons, List.not_mem_nil, or_false] at hmem
  rw [Token.literal?] at hvalue
  rcases hmem with hk | hk | hk | hk <;> rw [hk] at hvalue
  · obtain rfl := Option.some.inj hvalue
    have hword : Phrase.integers (.expr (.literal (s.advance.node s.token.pos)
        (.int (Numeral.word s.token.lexeme)))) = [s.token.wrapped] := by
      rw [Token.wrapped, Token.decimal, ← Numeral.word_toInt]
      rfl
    rw [hword]
    exact .integer hk
  · obtain ⟨single, _, rfl⟩ := Option.map_eq_some_iff.1 hvalue
    exact .skip hk (by decide)
  · obtain rfl := Option.some.inj hvalue
    exact .skip hk (by decide)
  · obtain rfl := Option.some.inj hvalue
    exact .skip hk (by decide)

theorem operator_skips {tier : Tier} {op : BinaryOp} {kind : TokenKind}
    (h : tier.operator? kind = some op) : kind ∉ [.eof, .integer] := by
  have hmem := (tier.operator?_isSome kind).1 (Option.isSome_of_eq_some h)
  have hother : ∀ kind ∈ tier.operators.first, kind ∉ [.eof, .integer] := by cases tier <;> decide
  exact hother kind hmem

theorem Derives.collects {rule : Rule} {phrase : Phrase} (h : Derives rule s phrase t) :
    Collects Token.wrapped s.stream phrase.integers t.stream := by
  induction h with
  | literal hstart hvalue => exact literal_collects hstart hvalue
  | negation hk _ ih => exact ih.after hk (by decide)
  | parenthesized hopen _ hclose ih => exact (ih.after hopen (by decide)).before hclose (by decide)
  | load _ ih => exact ih
  | called _ ih => exact ih
  | promoted _ ih => exact ih
  | binary _ hop _ ihleft ihright =>
    -- Joined before it is compared with the goal: the list of a node is a list of its parts only when
    -- it is computed.
    have hall := ihleft.join (ihright.after rfl (operator_skips hop))
    exact hall
  | name hk hresolve =>
    rw [ParseState.numbered_stream, ParseState.resolve_stream hresolve]
    exact .skip hk (by decide)
  | subscript _ hopen _ hclose ihbase ihoffset =>
    have hall := ihbase.join ((ihoffset.after hopen (by decide)).before hclose (by decide))
    exact hall
  | call hcall hname hresolve hopen _ hclose ih =>
    have hargs := (ih.after hopen (by decide)).before hclose (by decide)
    rw [ParseState.resolve_stream hresolve] at hargs
    exact (hargs.after hname (by decide)).after hcall (by decide)
  | noArguments => exact .refl
  | arguments _ _ ih ihs =>
    have hall := ih.join ihs
    exact hall
  | noMore => exact .refl
  | more hcomma _ _ ih ihs =>
    have hall := (ih.after hcomma (by decide)).join ihs
    exact hall

theorem Annotates.collects {kind : SymbolKind} {id : SymbolId} (h : Annotates kind s id t) {α : Type}
    (read : Token → α) : Collects read s.stream [] t.stream := by
  obtain @⟨u, _, hname, hdeclare, hcolon, htype⟩ := h
  have hcolon : Collects read u.stream [] u.advance.advance.stream :=
    .after hcolon (by decide) (.skip htype (by decide))
  rw [ParseState.declare_stream hdeclare] at hcolon
  exact hcolon.after hname (by decide)

theorem DerivesVar.collects {decl : VarDecl} (h : DerivesVar s decl t) {α : Type}
    (read : Token → α) : Collects read s.stream [] t.stream := by
  obtain ⟨hvar, hannotates, hend⟩ := h
  exact ((hannotates.collects read).after hvar (by decide)).before hend (by decide)

theorem DerivesStmt.collects {rule : StmtRule} {phrase : StmtPhrase} (h : DerivesStmt rule s phrase t) :
    Collects Token.wrapped s.stream phrase.integers t.stream := by
  induction h with
  | var hdecl => exact hdecl.collects Token.wrapped
  | call hcall hend => exact hcall.collects.before hend (by decide)
  | assign hlet htarget hassign hsource hend =>
    have hall := (htarget.collects.after hlet (by decide)).join
      ((hsource.collects.after hassign (by decide)).before hend (by decide))
    exact hall
  | ret hret hvalue hend =>
    exact (hvalue.collects.after hret (by decide)).before hend (by decide)
  | branch hif hcondition _ _ ihthen ihelse =>
    have hall := ((hcondition.collects.after hif (by decide)).join ihthen).join ihelse
    exact hall
  | loop hwhile hcondition _ ih =>
    have hall := (hcondition.collects.after hwhile (by decide)).join ih
    exact hall
  | @block s t ownScope stmts hopen _ hclose ih =>
    rw [ParseState.opened_stream] at ih
    rw [ParseState.token, ParseState.closed_stream] at hclose
    rw [ParseState.numbered_stream, ParseState.advance_stream, ParseState.closed_stream]
    exact (ih.after hopen (by decide)).before hclose (by decide)
  | otherwise helse _ ih => exact ih.after helse (by decide)
  | missing => exact .refl
  | nil => exact .refl
  | cons _ _ ih ihs =>
    have hall := ih.join ihs
    exact hall

theorem DerivesExtent.collects {n : Nat} (h : DerivesExtent s n t) :
    Collects Token.decimal s.stream [n] t.stream := by
  obtain ⟨hopen, hinteger, hvalue, hclose⟩ := h
  have hread : Collects Token.decimal s.advance.stream [s.advance.token.decimal]
      s.advance.advance.stream := .integer hinteger
  rw [Numeral.extent?_eq_some hvalue]
  exact (hread.after hopen (by decide)).before hclose (by decide)

theorem Items.extents_collect {extents : List Nat} (h : Items DerivesExtent s extents t) :
    Collects Token.decimal s.stream extents t.stream := by
  induction h with
  | nil => exact .refl
  | cons hextent _ ih => exact hextent.collects.trans ih

theorem DerivesParams.collects {ids : List SymbolId} (h : DerivesParams s ids t) {α : Type}
    (read : Token → α) : Collects read s.stream [] t.stream := by
  cases h with
  | none => exact .refl
  | some hfirst hrest =>
    refine (hfirst.collects read).trans ?_
    clear hfirst
    induction hrest with
    | nil => exact .refl
    | cons hparam _ ih =>
      obtain ⟨hcomma, hannotates⟩ := hparam
      exact ((hannotates.collects read).after hcomma (by decide)).trans ih

theorem DerivesFunction.collects {definition : FuncDef} (h : DerivesFunction s definition t) :
    Collects Token.wrapped s.stream (StmtPhrase.integers (.block definition.body)) t.stream := by
  obtain ⟨hfunc, hname, hdeclare, hopen, hparams, hclose, hcolon, htype, hbody⟩ := h
  have hresult := ((hbody.collects.after htype (by decide)).after hcolon (by decide)).after hclose
    (by decide)
  have hparams := ((hparams.collects Token.wrapped).trans hresult).after hopen (by decide)
  rw [ParseState.declare_stream hdeclare] at hparams
  exact (hparams.after hname (by decide)).after hfunc (by decide)

end Parser

/-! ## Integers in programs -/

/-- What a declaration makes of the integers in it. Those of an array are its extents, and those of a
function are the integers in its body. -/
inductive Decl.Numbered (symbols : SymbolTable) : Decl → List Token → Prop
  | var {decl : VarDecl} : Numbered symbols (.var decl) []
  | array {decl : VarDecl} {element : String} {integers : List Token} :
      decl.HasExtents symbols element (integers.map Token.decimal) →
      Numbered symbols (.array decl) integers
  | func {definition : FuncDef} {integers : List Token} :
      StmtPhrase.integers (.block definition.body) = integers.map Token.wrapped →
      Numbered symbols (.func definition) integers

theorem Decl.Numbered.mono {symbols table : SymbolTable} {decl : Decl} {integers : List Token}
    (h : decl.Numbered symbols integers) (htable : symbols <+: table) :
    decl.Numbered table integers := by
  cases h with
  | var => exact .var
  | array hextents => exact .array (hextents.mono htable)
  | func hbody => exact .func hbody

theorem TokenStream.Collects.exists_integers {σ α : Type} [TokenStream σ] {s t : σ}
    {read : Token → α} {values : List α} (h : Collects read s values t) :
    ∃ integers, Collects id s integers t ∧ values = integers.map read := by
  obtain ⟨tokens, hbetween, rfl⟩ := h
  exact ⟨_, ⟨tokens, hbetween, List.map_id _⟩, rfl⟩

namespace Parser

open TokenStream (Collects)

variable {σ : Type} [TokenStream σ] {s t : ParseState σ}

theorem DerivesDecl.numbered {decl : Decl} (h : DerivesDecl s decl t) (hs : s.scope.Bounded) :
    ∃ integers, Collects id s.stream integers t.stream ∧
      decl.Numbered t.scope.symbols integers := by
  cases h with
  | var hvar => exact ⟨[], hvar.collects id, .var⟩
  | array harray =>
    obtain ⟨harray, hname, hdeclare, hcolon, htype, hne, hitems, hend⟩ := harray
    have hextents := hitems.declared_hasExtents hdeclare hs hne
    have hcollects := ((hitems.extents_collect.after htype (by decide)).after hcolon (by decide)).before
      hend (by decide)
    rw [ParseState.declare_stream hdeclare] at hcollects
    have hcollects := (hcollects.after hname (by decide)).after harray (by decide)
    obtain ⟨integers, hintegers, rfl⟩ := hcollects.exists_integers
    exact ⟨integers, hintegers, .array (hextents _ _)⟩
  | func hfunction =>
    obtain ⟨integers, hintegers, hbody⟩ := hfunction.collects.exists_integers
    exact ⟨integers, hintegers, .func hbody⟩

theorem Items.numbered {decls : List Decl} (h : Items DerivesDecl s decls t)
    (hs : s.scope.Bounded) :
    ∃ pieces, Collects id s.stream pieces.flatten t.stream ∧
      List.Forall₂ (Decl.Numbered t.scope.symbols) decls pieces := by
  induction h with
  | nil => exact ⟨[], .refl, .nil⟩
  | cons hfirst hrest ih =>
    have hbounded := (hfirst.accounts hs).1.bounded hs
    obtain ⟨integers, hintegers, hdecl⟩ := hfirst.numbered hs
    obtain ⟨pieces, hpieces, hdecls⟩ := ih hbounded
    refine ⟨integers :: pieces, hintegers.trans hpieces, .cons ?_ hdecls⟩
    exact hdecl.mono (hrest.lists hbounded).1.symbols

end Parser

theorem filter_sourceOf_tokensOf (source : String) :
    (sourceOf (tokensOf source)).filter Token.isInteger =
      (tokensOf source).filter Token.isInteger := by
  rw [tokensOf]
  generalize TokenStream.pull (source.length + 1) (Scanner.ofText source) = tokens
  induction tokens with
  | nil => rfl
  | cons token tokens ih =>
    rw [Token.throughEnd]
    split
    · next hend => simp [sourceOf, hend, Token.isInteger]
    · next hkind =>
      rw [sourceOf, List.takeWhile_cons_of_pos (by simpa using hkind), List.filter_cons,
        List.filter_cons, ← ih]
      rfl

theorem parseText_numbered {source : String} {node : Node} {decls : List Decl}
    (h : (parseText source).tree = .program node decls) :
    ∃ pieces : List (List Token), (tokensOf source).filter Token.isInteger = pieces.flatten ∧
      List.Forall₂ (Decl.Numbered (parseText source).symbols) decls pieces := by
  rw [← parseTokens_tokensOf, parseTokens] at h ⊢
  have hread : (parse (TokenQueue.ofTokens (tokensOf source))).tree.isError = false := by
    rw [h]
    rfl
  obtain ⟨_, _, ⟨hdecls, hend⟩, hparse⟩ := parse_derives hread
  rw [hparse] at h ⊢
  cases h
  obtain ⟨pieces, ⟨tokens, hbetween, hintegers⟩, hnumbered⟩ :=
    hdecls.numbered Scope.initial_bounded
  have hsource := TokenQueue.between_source.1 ⟨_, hbetween, hend⟩
  rw [hsource, List.map_id, filter_sourceOf_tokensOf] at hintegers
  exact ⟨pieces, hintegers, hnumbered⟩

/-! ## Both readings -/

/-- An integer is read as a literal by wrapping its number around, and between brackets as the extent
that is its number, unless that does not fit in a word. -/
structure Token.ReadsDecimal (token : Token) : Prop where
  literal : ∀ {σ : Type} [TokenStream σ] (s : ParseState σ), s.token = token →
    ∃ value : Word, value.toInt = Int.bmod token.decimal (2 ^ 32) ∧
      Parser.literal s =
        .ok (.literal (s.advance.node token.pos) (.int value)) s.advance.numbered
  extent : ∀ {σ : Type} [TokenStream σ] (s : ParseState σ), s.token.kind = .openBracket →
    s.advance.token = token → s.advance.advance.token.kind = .closeBracket →
    Parser.extent s =
      if token.decimal < 2 ^ 32 then .ok token.decimal s.advance.advance.advance
      else .error (Parser.outOfRange token) s.advance.advance

theorem Token.readsDecimal {source : String} {token : Token} (h : token ∈ tokensOf source)
    (hinteger : token.kind = .integer) : token.ReadsDecimal := by
  constructor
  · rintro σ _ s rfl
    refine ⟨Numeral.word s.token.lexeme, Numeral.word_toInt _, ?_⟩
    have hvalue : Parser.literalValue s.token s.advance =
        .ok (.int (Numeral.word s.token.lexeme)) s.advance := by
      rw [Parser.literalValue, hinteger]
      rfl
    simp only [Parser.literal, bind_ok, Parser.advance_ok, Parser.freshNode_ok, pure_ok, and_assoc,
      exists_and_left, exists_eq_left]
    exact ⟨_, _, hvalue, rfl, rfl⟩
  · rintro σ _ s hopen rfl hclose
    obtain ⟨hne, hdigits⟩ := digits_of_mem_tokensOf h hinteger
    have hextent := Numeral.extent?_of_digits hne hdigits
    rw [Parser.extent, Parser.expect_bind, if_pos hopen, Parser.expect_bind, if_pos hinteger]
    by_cases hfits : s.advance.token.decimal < 2 ^ 32
    · have hsome : Numeral.extent? s.advance.token.lexeme = some s.advance.token.decimal :=
        hextent.trans (if_pos hfits)
      rw [hsome, if_pos hfits]
      exact Parser.expect_bind.trans (if_pos hclose)
    · have hnone : Numeral.extent? s.advance.token.lexeme = none := hextent.trans (if_neg hfits)
      rw [hnone, if_neg hfits]
      rfl

/-- The digits of a text are read into a word as their number modulo the size of words, and an extent
is their number. So it is with every integer of a source, as a literal and as an extent, and the
integers of a source that is parsed are those of its tree, in the same order: with their places and
wrapped numbers in the bodies of functions, and with their numbers in the types of arrays. -/
theorem integers_denote_decimals (text source : String) :
    ((Numeral.word text).toNat = decimalValue text % 2 ^ 32 ∧
      ∀ n, Numeral.extent? text = some n →
        n = decimalValue text ∧ n < 2 ^ 32 ∧ n = (Numeral.word text).toNat) ∧
    (∀ token ∈ tokensOf source, token.kind = .integer → token.ReadsDecimal) ∧
    ∀ node decls, (parseText source).tree = .program node decls →
      ∃ pieces : List (List Token), (tokensOf source).filter Token.isInteger = pieces.flatten ∧
        List.Forall₂ (Decl.Numbered (parseText source).symbols) decls pieces := by
  refine ⟨⟨Numeral.word_toNat text, fun n hn => ?_⟩, fun token h hinteger => Token.readsDecimal h hinteger,
    fun node decls htree => parseText_numbered htree⟩
  have hlt : n < 2 ^ 32 := Numeral.extent?_lt hn
  refine ⟨Numeral.extent?_eq_some hn, hlt, ?_⟩
  rw [Numeral.word_toNat, ← Numeral.extent?_eq_some hn, Nat.mod_eq_of_lt hlt]

/-- An extent with zeros in front, and an offset that wraps around to 1. -/
def wrappingSource : String :=
  "array a:int[0007];func main():void\x7blet a[4294967297]=2;\x7d"

def bracketed (token : Token) : ParseState TokenQueue :=
  .start ⟨[⟨.openBracket, "[", ⟨1, 1⟩⟩, token, ⟨.closeBracket, "]", ⟨1, 9⟩⟩], ⟨1, 10⟩⟩

def paddedExtent : Token :=
  ⟨.integer, "0007", ⟨1, 13⟩⟩

def wideOffset : Token :=
  ⟨.integer, "4294967297", ⟨1, 42⟩⟩

theorem wrappingSource_read :
    (Numeral.extent? "0007" = some 7 ∧ 7 = decimalValue "0007" ∧ 7 = (Numeral.word "0007").toNat) ∧
    (Parser.extent (bracketed paddedExtent) =
        .ok 7 (bracketed paddedExtent).advance.advance.advance ∧
      Parser.extent (bracketed wideOffset) =
        .error (Parser.outOfRange wideOffset) (bracketed wideOffset).advance.advance ∧
      ∃ value : Word, value.toInt = 1 ∧ Parser.literal (bracketed wideOffset).advance =
        .ok (.literal ⟨0, ⟨1, 42⟩⟩ (.int value)) (bracketed wideOffset).advance.advance.numbered) ∧
    ∃ node decls pieces, (parseText wrappingSource).tree = .program node decls ∧
      [paddedExtent, wideOffset, ⟨.integer, "2", ⟨1, 54⟩⟩] = pieces.flatten ∧
      List.Forall₂ (Decl.Numbered (parseText wrappingSource).symbols) decls pieces := by
  have hextent : Numeral.extent? "0007" = some 7 := by decide +kernel
  have hintegers : (tokensOf wrappingSource).filter Token.isInteger =
      [paddedExtent, wideOffset, ⟨.integer, "2", ⟨1, 54⟩⟩] := by
    decide +kernel
  have hmem {token : Token}
      (h : token ∈ [paddedExtent, wideOffset, ⟨.integer, "2", ⟨1, 54⟩⟩]) :
      token ∈ tokensOf wrappingSource := (List.mem_filter.1 (hintegers ▸ h)).1
  have hdecimals : paddedExtent.decimal = 7 ∧ wideOffset.decimal = 4294967297 := by decide +kernel
  have hread : (parseText wrappingSource).tree.isError = false := by decide +kernel
  obtain ⟨⟨_, hexact⟩, htokens, hprogram⟩ := integers_denote_decimals "0007" wrappingSource
  have hpadded := htokens paddedExtent (hmem (by simp)) rfl
  have hwide := htokens wideOffset (hmem (by simp)) rfl
  obtain ⟨hvalue, _, hword⟩ := hexact 7 hextent
  refine ⟨⟨hextent, hvalue, hword⟩, ⟨?_, ?_, ?_⟩, ?_⟩
  · have h := hpadded.extent (bracketed paddedExtent) rfl rfl rfl
    rwa [hdecimals.1, if_pos (by decide)] at h
  · have h := hwide.extent (bracketed wideOffset) rfl rfl rfl
    rwa [hdecimals.2, if_neg (by decide)] at h
  · obtain ⟨value, hvalue, hliteral⟩ := hwide.literal (bracketed wideOffset).advance rfl
    rw [hdecimals.2] at hvalue
    exact ⟨value, hvalue.trans (by decide), hliteral⟩
  · cases htree : (parseText wrappingSource).tree with
    | program node decls =>
      obtain ⟨pieces, hpieces, hnumbered⟩ := hprogram node decls htree
      exact ⟨node, decls, pieces, rfl, hintegers.symm.trans hpieces, hnumbered⟩
    | error node message =>
      rw [htree] at hread
      cases hread

end MipsCompiler
