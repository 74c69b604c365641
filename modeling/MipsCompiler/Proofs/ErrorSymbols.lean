import Mathlib.Data.List.Forall2
import MipsCompiler.Proofs.Parsing.Accounting
import MipsCompiler.Proofs.Parsing.Invariant
import MipsCompiler.Proofs.Scanning.Partition

set_option autoImplicit false

/-!
# Error symbols and diagnostics

A name that is refused leaves a diagnostic in the log and an error symbol in the table, and nothing
else does. So the two lists agree entry by entry, also when the parse is given up later. The one
diagnostic that gives it up comes last and makes the error node.

In a text the tokens come one behind the other. A name is refused as soon as it is passed, and a token
at most once, so the log of a text is in the order of the text, as long as its lines and columns can
be counted.
-/

namespace MipsCompiler

/-- The symbol stands for the name that the diagnostic refuses. -/
structure Symbol.StandsFor (symbol : Symbol) (d : Diagnostic) : Prop where
  cause : ∃ scopes, d = .redeclared symbol.pos symbol.name scopes ∨
    d = .unresolved symbol.pos symbol.name scopes
  kind : symbol.kind = .error d.line
  ty : symbol.ty = .error d.line

/-- The diagnostics of a parse are its error symbols, and the one that gave it up if there is one. -/
structure Parsed.Mirrors (parsed : Parsed) : Prop where
  symbols : List.Forall₂ Symbol.StandsFor (parsed.symbols.filter Symbol.isError)
    (parsed.log.filter fun d => !d.fatal)
  fatal : (∃ d ∈ parsed.log, d.fatal) ↔ parsed.tree.isError
  last : parsed.tree.isError → ∃ earlier d node, parsed.log = earlier ++ [d] ∧
    (∀ other ∈ earlier, other.fatal = false) ∧ d.fatal ∧ parsed.tree = .error node d.line ∧
    node.pos = d.pos

def Position.Before (p q : Position) : Prop :=
  p.line < q.line ∨ p.line = q.line ∧ p.column < q.column

/-! ## Error symbols -/

theorem Symbol.StandsFor.fatal {symbol : Symbol} {d : Diagnostic} (h : symbol.StandsFor d) :
    d.fatal = false := by
  obtain ⟨_, rfl | rfl⟩ := h.cause <;> rfl

theorem SymbolTable.filter_retype (symbols : SymbolTable) (id : SymbolId) (ty : Ty) :
    (symbols.retype id ty).filter Symbol.isError = symbols.filter Symbol.isError := by
  unfold retype
  induction symbols generalizing id with
  | nil => rw [List.modify_nil]
  | cons symbol symbols ih =>
    cases id with
    | zero =>
      rw [List.modify_zero_cons, List.filter_cons, List.filter_cons, Symbol.isError_retype]
      cases herror : symbol.isError with
      | true => simp [Symbol.retype, herror]
      | false => rfl
    | succ id => rw [List.modify_succ_cons, List.filter_cons, List.filter_cons, ih]

def Scope.Mirrors (s : Scope) (log : Log) : Prop :=
  List.Forall₂ Symbol.StandsFor (s.symbols.filter Symbol.isError) log

namespace Scope.Mirrors

variable {s t : Scope} {log : Log}

theorem add_refused (h : s.Mirrors log) {name : String} {d : Diagnostic}
    (hd : ∃ scopes, d = .redeclared d.pos name scopes ∨ d = .unresolved d.pos name scopes)
    (hsymbols : t.symbols = s.symbols ++ [Symbol.refused name d]) : t.Mirrors (log ++ [d]) := by
  unfold Mirrors
  rw [hsymbols, List.filter_append]
  exact List.rel_append h (.cons ⟨hd, rfl, rfl⟩ .nil)

theorem declare (h : s.Mirrors log) {symbol : Symbol} (hsymbol : symbol.isError = false) :
    (s.declare symbol).scope.Mirrors (log ++ (s.declare symbol).refusal.toList) := by
  unfold Scope.declare
  split
  · unfold Mirrors
    rw [Option.toList_none, List.append_nil, Scope.bind, List.filter_append,
      List.filter_cons_of_neg (by simp [hsymbol]), List.filter_nil, List.append_nil]
    exact h
  · exact h.add_refused ⟨_, .inl rfl⟩ rfl

theorem resolve (h : s.Mirrors log) (name : String) (pos : Position) :
    (s.resolve name pos).scope.Mirrors (log ++ (s.resolve name pos).refusal.toList) := by
  unfold Scope.resolve
  split
  · rw [Option.toList_none, List.append_nil]
    exact h
  · exact h.add_refused ⟨_, .inr rfl⟩ rfl

theorem retype (h : s.Mirrors log) (id : SymbolId) (ty : Ty) : (s.retype id ty).Mirrors log := by
  unfold Mirrors Scope.retype
  rw [SymbolTable.filter_retype]
  exact h

theorem exit (h : s.Mirrors log) : s.exit.Mirrors log := by
  unfold Mirrors
  rw [Scope.exit_symbols]
  exact h

end Scope.Mirrors

/-- Every refusal of a name makes one error symbol, and it is not the name that gives a parse up. -/
def ParseInvariant.mirrors (σ : Type) [TokenStream σ] : ParseInvariant σ where
  holds s := s.scope.Mirrors s.log
  givenUp d s := d.fatal = true ∧ s.scope.Mirrors s.log
  advance h := h
  numbered h := h
  entered h := h
  exited h := h.exit
  declare {_ kind} h _ hkind := h.declare (by
    cases kind with
    | error message => exact absurd rfl (hkind message)
    | _ => rfl)
  resolve h _ := h.resolve _ _
  retype h _ id := h.retype id _
  refuse h _ := ⟨rfl, h⟩
  outOfRange h := ⟨rfl, h⟩

theorem Scope.initial_mirrors : Scope.initial.Mirrors [] := by
  have hsound : Scope.initial.symbols.filter Symbol.isError = [] :=
    List.filter_eq_nil_iff.2 fun symbol hsymbol => by simp [(Scope.initial_sound symbol hsymbol).1]
  rw [Mirrors, hsound]
  exact .nil

theorem Scope.Mirrors.fatal {s : Scope} {log : Log} (h : s.Mirrors log) :
    ∀ d ∈ log, d.fatal = false := by
  intro d hd
  obtain ⟨⟨i, hi⟩, rfl⟩ := List.get_of_mem hd
  exact (h.get (h.length_eq ▸ hi) hi).fatal

theorem Scope.Mirrors.filter_fatal {s : Scope} {log : Log} (h : s.Mirrors log) :
    (log.filter fun d => !d.fatal) = log :=
  List.filter_eq_self.2 fun d hd => by simp [h.fatal d hd]

theorem parse_mirrors {σ : Type} [TokenStream σ] (stream : σ) : (parse stream).Mirrors := by
  have hstart : (ParseInvariant.mirrors σ).holds (.start stream) := Scope.initial_mirrors
  rcases (ParseInvariant.mirrors σ).parse_cases hstart with
    ⟨node, decls, s, hs, hparse⟩ | ⟨d, s, ⟨hfatal, hs⟩, hparse⟩
  · rw [hparse]
    refine ⟨?_, ?_, ?_⟩
    · rw [hs.filter_fatal]
      exact hs
    · refine iff_of_false ?_ Bool.false_ne_true
      rintro ⟨d, hd, hfatal⟩
      exact absurd hfatal (by simp [hs.fatal d hd])
    · intro herror
      cases herror
  · rw [hparse]
    refine ⟨?_, ?_, ?_⟩
    · rw [List.filter_append, hs.filter_fatal, List.filter_cons_of_neg (by simp [hfatal]),
        List.filter_nil, List.append_nil]
      exact hs
    · exact iff_of_true ⟨d, List.mem_append_right _ List.mem_cons_self, hfatal⟩ rfl
    · exact fun _ => ⟨s.log, d, _, rfl, hs.fatal, hfatal, rfl, rfl⟩

/-! ## Positions -/

namespace Position

variable {p q r : Position}

theorem Before.trans (h : p.Before q) (h' : q.Before r) : p.Before r := by
  unfold Before at *
  omega

theorem behind_before_concat (text : List Char) (c : Char) :
    (behind text).Before (behind (text ++ [c])) := by
  rw [behind_concat]
  split
  · exact .inl (Nat.lt_succ_self _)
  · exact .inr ⟨rfl, Nat.lt_succ_self _⟩

theorem behind_before (text : List Char) {more : List Char} (h : more ≠ []) :
    (behind text).Before (behind (text ++ more)) := by
  induction more generalizing text with
  | nil => exact absurd rfl h
  | cons c more ih =>
    have hfirst := behind_before_concat text c
    cases more with
    | nil => exact hfirst
    | cons d more =>
      have hrest := ih (text ++ [c]) (List.cons_ne_nil d more)
      rw [List.append_assoc] at hrest
      exact hfirst.trans hrest

theorem Before.append {text : List Char} (h : p.Before (behind text)) (more : List Char) :
    p.Before (behind (text ++ more)) := by
  by_cases hmore : more = []
  · rw [hmore, List.append_nil]
    exact h
  · exact h.trans (behind_before text hmore)

end Position

/-- The cursor stands behind `before`, and the whole source is not too long to count in words. -/
structure Cursor.Behind (cursor : Cursor) (before : List Char) : Prop where
  pos : cursor.pos = .counted before
  short : before.length + cursor.rest.length + 1 < Word.count

namespace Cursor.Behind

variable {cursor : Cursor} {before : List Char}

theorem scan (h : cursor.Behind before) :
    ∃ trivia lexeme, cursor.scan.1.pos = .behind (before ++ trivia) ∧
      cursor.scan.2.Behind (before ++ trivia ++ lexeme) ∧
      (cursor.scan.1.kind ≠ .eof → lexeme ≠ []) := by
  have hshort := h.short
  rcases Cursor.scan_cases h.pos with ⟨trivia, hrest, _, htoken, hcursor⟩ |
    ⟨trivia, kind, lexeme, rest, hrest, _, _, hlexeme, htoken, hcursor⟩
  · rw [hrest] at hshort
    have hexact : Position.counted (before ++ trivia) = .behind (before ++ trivia) :=
      Position.counted_eq (by rw [List.length_append]; omega)
    refine ⟨trivia, [], ?_, ⟨?_, ?_⟩, fun hkind => ?_⟩
    · rw [htoken, Token.endMarker, hexact]
    · rw [hcursor, List.append_nil]
    · rw [hcursor, List.append_nil, List.length_append]
      exact hshort
    · rw [htoken] at hkind
      exact absurd rfl hkind
  · rw [hrest, List.length_append, List.length_append] at hshort
    have hexact : Position.counted (before ++ trivia) = .behind (before ++ trivia) :=
      Position.counted_eq (by rw [List.length_append]; omega)
    refine ⟨trivia, lexeme, ?_, ⟨?_, ?_⟩, fun _ => List.length_pos_iff.1 hlexeme.length_pos⟩
    · rw [htoken, hexact]
    · rw [hcursor]
    · have hleft : cursor.scan.2.rest = rest := congrArg Cursor.rest hcursor
      rw [hleft, List.length_append, List.length_append]
      omega

theorem scan_scan (h : cursor.Behind before) :
    ∃ text between, cursor.scan.1.pos = .behind text ∧
      cursor.scan.2.scan.1.pos = .behind (text ++ between) ∧
      (cursor.scan.1.kind ≠ .eof → between ≠ []) := by
  obtain ⟨trivia, lexeme, hpos, hbehind, hne⟩ := h.scan
  obtain ⟨gap, _, hnext, _⟩ := hbehind.scan
  rw [List.append_assoc (before ++ trivia)] at hnext
  exact ⟨before ++ trivia, lexeme ++ gap, hpos, hnext, fun hkind =>
    List.append_ne_nil_of_left_ne_nil (hne hkind) _⟩

end Cursor.Behind

/-! ## Order in the text -/

/-- The log is in the order of the text, and the token ahead is behind all of it. -/
structure ParseState.Ordered (s : ParseState Scanner) : Prop where
  scanned : ∃ cursor before, s.stream = .ofCursor cursor ∧ cursor.Behind before
  log : (s.log.map Diagnostic.pos).Pairwise Position.Before
  ahead : ∀ d ∈ s.log, d.pos.Before s.token.pos

namespace ParseState.Ordered

variable {s : ParseState Scanner}

theorem advance (h : s.Ordered) : s.advance.Ordered := by
  obtain ⟨cursor, before, hcursor, hbehind⟩ := h.scanned
  obtain ⟨trivia, lexeme, _, hnext, _⟩ := hbehind.scan
  refine ⟨⟨cursor.scan.2, _, ?_, hnext⟩, h.log, fun d hd => ?_⟩
  · simp only [ParseState.advance, TokenStream.advance, hcursor, Scanner.ofCursor]
  obtain ⟨text, between, htoken, hnext, _⟩ := hbehind.scan_scan
  have hahead := h.ahead d hd
  simp only [token, ParseState.advance, TokenStream.peek, TokenStream.advance, hcursor,
    Scanner.ofCursor] at hahead ⊢
  rw [htoken] at hahead
  rw [hnext]
  exact hahead.append between

theorem before_advance (h : s.Ordered) (hkind : s.token.kind ≠ .eof) :
    s.token.pos.Before s.advance.token.pos := by
  obtain ⟨cursor, before, hcursor, hbehind⟩ := h.scanned
  obtain ⟨text, between, htoken, hnext, hne⟩ := hbehind.scan_scan
  simp only [token, ParseState.advance, TokenStream.peek, TokenStream.advance, hcursor,
    Scanner.ofCursor] at hkind ⊢
  rw [htoken, hnext]
  exact Position.behind_before text (hne hkind)

theorem log_concat (h : s.Ordered) {d : Diagnostic} (hd : d.pos = s.token.pos) :
    ((s.log ++ [d]).map Diagnostic.pos).Pairwise Position.Before := by
  rw [List.map_append, List.pairwise_append]
  refine ⟨h.log, List.pairwise_singleton _ _, fun p hp q hq => ?_⟩
  obtain ⟨other, hother, rfl⟩ := List.mem_map.1 hp
  obtain rfl : q = d.pos := List.mem_singleton.1 hq
  rw [hd]
  exact h.ahead other hother

theorem settle (h : s.Ordered) (hkind : s.token.kind = .identifier) {answer : Scope.Answer}
    (hpos : ∀ d ∈ answer.refusal, d.pos = s.token.pos) :
    (Parser.settle s.advance answer).2.Ordered := by
  have hidentifier : s.token.kind ≠ .eof := by
    rw [hkind]
    decide
  obtain ⟨hscanned, hlog, hahead⟩ := h.advance
  cases hrefusal : answer.refusal with
  | none =>
    refine ⟨hscanned, ?_, ?_⟩ <;>
      simp only [Parser.settle, hrefusal, Option.toList_none, List.append_nil]
    · exact hlog
    · exact hahead
  | some d =>
    have hd : d.pos = s.token.pos := hpos d hrefusal
    refine ⟨hscanned, ?_, ?_⟩ <;> simp only [Parser.settle, hrefusal, Option.toList_some]
    · exact h.log_concat hd
    · intro other hother
      rcases List.mem_append.1 hother with hother | hother
      · exact hahead other hother
      · rw [List.mem_singleton.1 hother, hd]
        exact h.before_advance hidentifier

end ParseState.Ordered

theorem Scope.declare_refusal_pos (s : Scope) (symbol : Symbol) :
    ∀ d ∈ (s.declare symbol).refusal, d.pos = symbol.pos := by
  intro d hd
  unfold declare at hd
  split at hd
  · cases hd
  · cases hd
    rfl

theorem Scope.resolve_refusal_pos (s : Scope) (name : String) (pos : Position) :
    ∀ d ∈ (s.resolve name pos).refusal, d.pos = pos := by
  intro d hd
  unfold resolve at hd
  split at hd
  · cases hd
  · cases hd
    rfl

/-- A name is refused when the next token is not looked at yet, and a parse is given up no earlier
than at the token that was passed last. -/
def ParseInvariant.ordered : ParseInvariant Scanner where
  holds s := s.Ordered
  givenUp d s := ((s.log ++ [d]).map Diagnostic.pos).Pairwise Position.Before
  advance h := h.advance
  numbered h := ⟨h.scanned, h.log, h.ahead⟩
  entered h := ⟨h.scanned, h.log, h.ahead⟩
  exited h := ⟨h.scanned, h.log, h.ahead⟩
  declare h hkind _ := h.settle hkind (Scope.declare_refusal_pos _ _)
  resolve h hkind := h.settle hkind (Scope.resolve_refusal_pos _ _ _)
  retype h _ _ := ⟨h.scanned, h.log, h.ahead⟩
  refuse h _ := h.log_concat rfl
  outOfRange h := h.log_concat rfl

theorem parseText_log_ordered {source : String} (h : source.length + 1 < Word.count) :
    ((parseText source).log.map Diagnostic.pos).Pairwise Position.Before := by
  have hbehind : (Cursor.mk source.toList Position.start).Behind [] := by
    refine ⟨rfl, ?_⟩
    rw [List.length_nil, Nat.zero_add, String.length_toList]
    exact h
  have hstart : ParseInvariant.ordered.holds (.start (Scanner.ofText source)) :=
    ⟨⟨_, _, rfl, hbehind⟩, .nil, fun _ hd => absurd hd List.not_mem_nil⟩
  unfold parseText
  rcases ParseInvariant.ordered.parse_cases hstart with ⟨_, _, s, hs, hparse⟩ | ⟨_, _, hs, hparse⟩
  · rw [hparse]
    exact hs.log
  · rw [hparse]
    exact hs

/-- The error symbols are the diagnostics that do not end a parse, in their order, and one diagnostic
ends a parse that is given up. In a text that is not too long to count its lines and columns, each
diagnostic is behind those before it. -/
theorem error_symbols_are_diagnostics :
    (∀ {σ : Type} [TokenStream σ] (stream : σ), (parse stream).Mirrors) ∧
    ∀ source : String, source.length + 1 < Word.count →
      ((parseText source).log.map Diagnostic.pos).Pairwise Position.Before :=
  ⟨parse_mirrors, fun _ => parseText_log_ordered⟩

/-- Two names are refused, and then the parse is given up at the end of the text. -/
def refusedTwice : String :=
  "var x : int; var x : int; func f() : int \x7b return y; \x7d array"

theorem refusedTwice_mirrored :
    (parseText refusedTwice).Mirrors ∧ (parseText refusedTwice).tree.isError ∧
      (parseText refusedTwice).log.map Diagnostic.pos = [⟨1, 18⟩, ⟨1, 51⟩, ⟨1, 61⟩] ∧
      ((parseText refusedTwice).symbols.filter Symbol.isError).map Symbol.name = ["x", "y"] ∧
      ((parseText refusedTwice).log.map Diagnostic.pos).Pairwise Position.Before := by
  obtain ⟨hmirrors, hordered⟩ := error_symbols_are_diagnostics
  have hparsed : (parseText refusedTwice).tree.isError ∧
      (parseText refusedTwice).log.map Diagnostic.pos = [⟨1, 18⟩, ⟨1, 51⟩, ⟨1, 61⟩] ∧
      ((parseText refusedTwice).symbols.filter Symbol.isError).map Symbol.name = ["x", "y"] := by
    decide +kernel
  exact ⟨hmirrors _, hparsed.1, hparsed.2.1, hparsed.2.2, hordered refusedTwice (by decide)⟩

end MipsCompiler
