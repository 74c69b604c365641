import MipsCompiler.Proofs.Grammar.Prediction
import MipsCompiler.Proofs.Grammar.Reading
import MipsCompiler.Proofs.Parsing.Lockstep

set_option autoImplicit false

/-!
# Parsers that read as predicted

`Tracks` says that a parser reads by one token of lookahead: what it passes, and the token at which it
ends well or gives up, are predicted by a rule. It is put together step by step along the text of a
parser, as the rule is put together from its parts.
-/

namespace MipsCompiler

open TokenStream (Between)

theorem TokenStream.Between.first_kind {σ : Type} [TokenStream σ] {s t : σ} {tokens : List Token}
    (h : Between s tokens t) :
    (tokens.map Token.kind ++ [(peek t).kind]).head? = some (peek s).kind := by
  cases h <;> rfl

/-- Names may be refused on the way, but nothing else is logged. -/
def ParseState.Quiet {σ : Type} (s t : ParseState σ) : Prop :=
  Log.hasFatal s.log = false → Log.hasFatal t.log = false

/-- The token at a place ends the parse with a diagnostic: it is refused, or it is passed and found to
be a number out of range. -/
inductive GivesUp {σ : Type} [TokenStream σ] (fits : Token → Prop) (place : σ) (d : Diagnostic) :
    List TokenKind → Outcome → Prop
  | refused (expected : String) :
      d = .unexpected (TokenStream.peek place).pos expected (TokenStream.peek place).kind.name →
      GivesUp fits place d [] (.refused (TokenStream.peek place).kind)
  | outOfRange :
      d = Parser.outOfRange (TokenStream.peek place) → ¬ fits (TokenStream.peek place) →
      (TokenStream.peek place).kind ≠ .eof →
      GivesUp fits place d [(TokenStream.peek place).kind] .halted

section

variable {σ : Type} [TokenStream σ] {fits : Token → Prop} {e : Ebnf}

theorem GivesUp.append_shown {place : σ} {d : Diagnostic} {last : List TokenKind} {o : Outcome}
    (h : GivesUp fits place d last o) : last ++ o.shown = [(TokenStream.peek place).kind] := by
  cases h <;> rfl

theorem GivesUp.isDone {place : σ} {d : Diagnostic} {last : List TokenKind} {o : Outcome}
    (h : GivesUp fits place d last o) : o.isDone = false := by
  cases h <;> rfl

/-- A rule predicts that the tokens between two states are passed. -/
def PassesBy (fits : Token → Prop) (e : Ebnf) (s t : ParseState σ) : Prop :=
  s.Quiet t ∧ ∃ front, Between s.stream front t.stream ∧ (∀ x ∈ front, fits x) ∧
    Predicts e (front.map Token.kind) (.done t.token.kind)

/-- A rule predicts that reading ends at some token as it does with this diagnostic. -/
def FailsBy (fits : Token → Prop) (e : Ebnf) (s : ParseState σ) (d : Diagnostic) (t : ParseState σ) :
    Prop :=
  s.Quiet t ∧ ∃ front place last o, Between s.stream front place ∧ (∀ x ∈ front, fits x) ∧
    GivesUp fits place d last o ∧ Predicts e (front.map Token.kind ++ last) o

variable {s t u : ParseState σ} {d : Diagnostic} {rule : Ebnf}

theorem PassesBy.map (h : PassesBy fits e s t)
    (hrule : ∀ passed o, o.Sees passed s.token.kind → Predicts e passed o → Predicts rule passed o) :
    PassesBy fits rule s t := by
  obtain ⟨hquiet, front, hbetween, hfits, hpredicts⟩ := h
  exact ⟨hquiet, front, hbetween, hfits, hrule _ _ hbetween.first_kind hpredicts⟩

theorem FailsBy.map (h : FailsBy fits e s d t)
    (hrule : ∀ passed o, o.Sees passed s.token.kind → o.isDone = false → Predicts e passed o →
      Predicts rule passed o) : FailsBy fits rule s d t := by
  obtain ⟨hquiet, front, place, last, o, hbetween, hfits, hend, hpredicts⟩ := h
  refine ⟨hquiet, front, place, last, o, hbetween, hfits, hend, hrule _ _ ?_ hend.isDone hpredicts⟩
  rw [Outcome.Sees, List.append_assoc, hend.append_shown]
  exact hbetween.first_kind

theorem PassesBy.append {second : Ebnf} (h : PassesBy fits e s t) (h' : PassesBy fits second t u)
    (hrule : ∀ front rest next o, (Outcome.done next).Sees front s.token.kind → o.Sees rest next →
      Predicts e front (.done next) → Predicts second rest o → Predicts rule (front ++ rest) o) :
    PassesBy fits rule s u := by
  obtain ⟨hquiet, front, hbetween, hfits, hpredicts⟩ := h
  obtain ⟨hquiet', rest, hbetween', hfits', hpredicts'⟩ := h'
  refine ⟨fun hlog => hquiet' (hquiet hlog), front ++ rest,
    TokenStream.between_append.2 ⟨_, hbetween, hbetween'⟩,
    List.forall_mem_append.2 ⟨hfits, hfits'⟩, ?_⟩
  rw [List.map_append]
  exact hrule _ _ _ _ hbetween.first_kind hbetween'.first_kind hpredicts hpredicts'

theorem PassesBy.fails {second : Ebnf} (h : PassesBy fits e s t) (h' : FailsBy fits second t d u)
    (hrule : ∀ front rest next o, (Outcome.done next).Sees front s.token.kind → o.Sees rest next →
      Predicts e front (.done next) → Predicts second rest o → Predicts rule (front ++ rest) o) :
    FailsBy fits rule s d u := by
  obtain ⟨hquiet, front, hbetween, hfits, hpredicts⟩ := h
  obtain ⟨hquiet', rest, place, last, o, hbetween', hfits', hend, hpredicts'⟩ := h'
  refine ⟨fun hlog => hquiet' (hquiet hlog), front ++ rest, place, last, o,
    TokenStream.between_append.2 ⟨_, hbetween, hbetween'⟩,
    List.forall_mem_append.2 ⟨hfits, hfits'⟩, hend, ?_⟩
  have hsees : o.Sees (rest.map Token.kind ++ last) t.token.kind := by
    rw [Outcome.Sees, List.append_assoc, hend.append_shown]
    exact hbetween'.first_kind
  rw [List.map_append, List.append_assoc]
  exact hrule _ _ _ _ hbetween.first_kind hsees hpredicts hpredicts'

theorem PassesBy.remaining_le (h : PassesBy fits e s t) :
    TokenStream.remaining t.stream ≤ TokenStream.remaining s.stream := by
  obtain ⟨_, front, hbetween, _⟩ := h
  exact hbetween.remaining_le

theorem PassesBy.spans (h : PassesBy fits e s t) (he : e.isProper) : Spans fits e s.stream t.stream := by
  obtain ⟨_, front, hbetween, hfits, hpredicts⟩ := h
  exact ⟨front, hbetween, (hpredicts.yields he).1 rfl, hfits⟩

end

namespace Parser

variable {σ α β : Type} [TokenStream σ]

/-- A parser that reads nothing and does not fail. -/
def Idles (p : Parser σ α) : Prop :=
  ∀ s, ∃ a t, p s = .ok a t ∧ t.stream = s.stream ∧ s.Quiet t

namespace Idles

omit [TokenStream σ] in
theorem pure (a : α) : Idles (Pure.pure a : Parser σ α) :=
  fun s => ⟨a, s, rfl, rfl, fun h => h⟩

omit [TokenStream σ] in
theorem bind {p : Parser σ α} {f : α → Parser σ β} (hp : Idles p) (hf : ∀ a, Idles (f a)) :
    Idles (p >>= f) := by
  intro s
  obtain ⟨a, t, hrun, hstream, hquiet⟩ := hp s
  obtain ⟨b, u, hrun', hstream', hquiet'⟩ := hf a t
  exact ⟨b, u, bind_ok.2 ⟨a, t, hrun, hrun'⟩, hstream'.trans hstream, fun h => hquiet' (hquiet h)⟩

omit [TokenStream σ] in
theorem settle {answer : ParseState σ → Scope.Answer}
    (h : ∀ s, ∀ d ∈ (answer s).refusal, d.fatal = false) :
    Idles (modifyGet fun s => Parser.settle s (answer s) : Parser σ SymbolId) := by
  intro s
  refine ⟨_, _, rfl, rfl, fun hlog => ?_⟩
  simp only [Log.hasFatal, List.any_append, Bool.or_eq_false_iff]
  refine ⟨hlog, ?_⟩
  cases hrefusal : (answer s).refusal with
  | none => rfl
  | some d => simp [h s d hrefusal]

omit [TokenStream σ] in
theorem freshNode {pos : Position} : Idles (Parser.freshNode (σ := σ) pos) :=
  fun _ => ⟨_, _, rfl, rfl, fun h => h⟩

omit [TokenStream σ] in
theorem declare {name : Token} {kind : SymbolKind} : Idles (Parser.declare (σ := σ) name kind) := by
  refine settle fun s d hd => ?_
  unfold Scope.declare at hd
  split at hd <;> cases hd
  rfl

omit [TokenStream σ] in
theorem resolve {name : Token} : Idles (Parser.resolve (σ := σ) name) := by
  refine settle fun s d hd => ?_
  unfold Scope.resolve at hd
  split at hd <;> cases hd
  rfl

omit [TokenStream σ] in
theorem retype {id : SymbolId} {ty : Ty} : Idles (Parser.retype (σ := σ) id ty) :=
  fun _ => ⟨_, _, rfl, rfl, fun h => h⟩

omit [TokenStream σ] in
theorem typesOf {ids : List SymbolId} : Idles (Parser.typesOf (σ := σ) ids) :=
  fun _ => ⟨_, _, rfl, rfl, fun h => h⟩

omit [TokenStream σ] in
theorem enterScope : Idles (Parser.enterScope (σ := σ)) :=
  fun _ => ⟨_, _, rfl, rfl, fun h => h⟩

omit [TokenStream σ] in
theorem exitScope : Idles (Parser.exitScope (σ := σ)) :=
  fun _ => ⟨_, _, rfl, rfl, fun h => h⟩

end Idles

/-- Where at most `n` tokens are ahead and the next one passes `pre`, the parser does what the rule
predicts. -/
structure Tracks (fits : Token → Prop) (n : Nat) (pre : Token → Prop) (p : Parser σ α) (e : Ebnf) :
    Prop where
  ok {s : ParseState σ} {a : α} {t : ParseState σ} : TokenStream.remaining s.stream ≤ n →
    pre s.token → p s = .ok a t → PassesBy fits e s t
  error {s : ParseState σ} {d : Diagnostic} {t : ParseState σ} :
    TokenStream.remaining s.stream ≤ n → pre s.token → p s = .error d t → FailsBy fits e s d t

namespace Tracks

variable {fits : Token → Prop} {n : Nat} {pre : Token → Prop} {p : Parser σ α} {f : α → Parser σ β}
  {e rule : Ebnf} {parts : List Ebnf}

theorem mono {m : Nat} {pre' : Token → Prop} (h : Tracks fits n pre p e) (hm : m ≤ n)
    (hpre : ∀ token, pre' token → pre token) : Tracks fits m pre' p e where
  ok hs htoken hrun := h.ok (Nat.le_trans hs hm) (hpre _ htoken) hrun
  error hs htoken hrun := h.error (Nat.le_trans hs hm) (hpre _ htoken) hrun

theorem within {m : Nat} (h : Tracks fits n pre p e) (hm : m ≤ n) : Tracks fits m pre p e :=
  h.mono hm fun _ h => h

theorem whenever {pre' : Token → Prop} (h : Tracks fits n pre p e)
    (hpre : ∀ token, pre' token → pre token) : Tracks fits n pre' p e :=
  h.mono (Nat.le_refl n) hpre

theorem map (h : Tracks fits n pre p e)
    (hrule : ∀ passed o token, pre token → o.Sees passed token.kind → Predicts e passed o →
      Predicts rule passed o) : Tracks fits n pre p rule where
  ok hs htoken hrun := (h.ok hs htoken hrun).map fun _ _ hsees => hrule _ _ _ htoken hsees
  error hs htoken hrun := (h.error hs htoken hrun).map fun _ _ hsees _ => hrule _ _ _ htoken hsees

theorem of_fits {fits' : Token → Prop} (h : Tracks fits n pre p e) (hfits : ∀ x, fits x ↔ fits' x) :
    Tracks fits' n pre p e := by
  obtain rfl : fits = fits' := funext fun x => propext (hfits x)
  exact h

theorem by_token (h : ∀ token, pre token → Tracks fits n (fun next => next = token) p e) :
    Tracks fits n pre p e where
  ok {s _ _} hs htoken hrun := (h s.token htoken).ok hs rfl hrun
  error {s _ _} hs htoken hrun := (h s.token htoken).error hs rfl hrun

theorem congr {q : Parser σ α} (h : Tracks fits n pre q e)
    (hrun : ∀ s : ParseState σ, pre s.token → p s = q s) : Tracks fits n pre p e where
  ok hs htoken hok := h.ok hs htoken ((hrun _ htoken).symm.trans hok)
  error hs htoken herror := h.error hs htoken ((hrun _ htoken).symm.trans herror)

theorem category {c : Category} (h : Tracks fits n pre p c.rule) :
    Tracks fits n pre p (.category c) :=
  h.map fun _ _ _ _ _ => .category

theorem choice {alternatives : List Ebnf} (h : Tracks fits n pre p e)
    (hfind : ∀ token, pre token → alternatives.find? (Ebnf.opens token.kind) = some e) :
    Tracks fits n pre p (.choice alternatives) :=
  h.map fun _ _ token htoken hsees hpredicts => .choice (hfind token htoken) hpredicts hsees

theorem present (h : Tracks fits n pre p e) (hopens : ∀ token, pre token → e.opens token.kind = true) :
    Tracks fits n pre p (.optional e) :=
  h.map fun _ _ token htoken hsees hpredicts => .present (hopens token htoken) hpredicts hsees

theorem idle (hp : Idles p) (hrule : ∀ token, pre token → Predicts rule [] (.done token.kind)) :
    Tracks fits n pre p rule where
  ok {s a t} _ htoken hrun := by
    obtain ⟨_, _, hidle, hstream, hquiet⟩ := hp s
    rw [hrun] at hidle
    cases hidle
    refine ⟨hquiet, [], hstream ▸ .nil, fun _ h => absurd h List.not_mem_nil, ?_⟩
    have hkind : t.token.kind = s.token.kind := by rw [ParseState.token, ParseState.token, hstream]
    rw [hkind]
    exact hrule _ htoken
  error {s d t} _ _ hrun := by
    obtain ⟨_, _, hidle, _⟩ := hp s
    rw [hrun] at hidle
    cases hidle

theorem absent (hp : Idles p) (hopens : ∀ token, pre token → e.opens token.kind = false) :
    Tracks fits n pre p (.optional e) :=
  idle hp fun token htoken => .absent (hopens token htoken)

theorem bind_idle (hp : Tracks fits n pre p e) (hf : ∀ a, Idles (f a)) :
    Tracks fits n pre (p >>= f) e where
  ok {s b u} hs htoken hrun := by
    obtain ⟨a, t, hrun, hrest⟩ := bind_ok.1 hrun
    obtain ⟨hquiet, front, hbetween, hfits, hpredicts⟩ := hp.ok hs htoken hrun
    obtain ⟨_, _, hidle, hstream, hquiet'⟩ := hf a t
    rw [hrest] at hidle
    cases hidle
    have hkind : u.token.kind = t.token.kind := by rw [ParseState.token, ParseState.token, hstream]
    exact ⟨fun h => hquiet' (hquiet h), front, hstream ▸ hbetween, hfits, hkind ▸ hpredicts⟩
  error {s d u} hs htoken hrun := by
    rcases bind_error.1 hrun with hrun | ⟨a, t, _, hrest⟩
    · exact hp.error hs htoken hrun
    · obtain ⟨_, _, hidle, _⟩ := hf a t
      rw [hrest] at hidle
      cases hidle

theorem idle_bind (hp : Idles p) (hf : ∀ a, Tracks fits n pre (f a) e) :
    Tracks fits n pre (p >>= f) e where
  ok {s b u} hs htoken hrun := by
    obtain ⟨a, t, hrun, hrest⟩ := bind_ok.1 hrun
    obtain ⟨_, _, hidle, hstream, hquiet⟩ := hp s
    rw [hrun] at hidle
    cases hidle
    have htoken' : t.token = s.token := by rw [ParseState.token, ParseState.token, hstream]
    obtain ⟨hquiet', hpassed⟩ := (hf a).ok (hstream ▸ hs) (htoken' ▸ htoken) hrest
    exact ⟨fun h => hquiet' (hquiet h), hstream ▸ hpassed⟩
  error {s d u} hs htoken hrun := by
    obtain ⟨a, t, hidle, hstream, hquiet⟩ := hp s
    rcases bind_error.1 hrun with hrun | ⟨_, _, hrun, hrest⟩
    · rw [hidle] at hrun
      cases hrun
    · rw [hidle] at hrun
      cases hrun
      have htoken' : t.token = s.token := by rw [ParseState.token, ParseState.token, hstream]
      obtain ⟨hquiet', hfailed⟩ := (hf a).error (hstream ▸ hs) (htoken' ▸ htoken) hrest
      exact ⟨fun h => hquiet' (hquiet h), hstream ▸ hfailed⟩

theorem done (hp : Idles p) : Tracks fits n pre p (.sequence []) :=
  idle hp fun _ _ => .nil

theorem pure (a : α) : Tracks fits n pre (Pure.pure a : Parser σ α) (.sequence []) :=
  done (.pure a)

/-- One parser after the other, for a rule that continues what the first predicts with what the
second does. -/
theorem bind_with {second : Ebnf} {m : Nat} (hp : Tracks fits n pre p e)
    (hf : ∀ a, Tracks fits m (fun _ => True) (f a) second)
    (hm : ∀ s t : ParseState σ, PassesBy fits e s t → TokenStream.remaining s.stream ≤ n →
      TokenStream.remaining t.stream ≤ m)
    (hstop : ∀ passed o token, pre token → o.Sees passed token.kind → o.isDone = false →
      Predicts e passed o → Predicts rule passed o)
    (hnext : ∀ front rest next o token, pre token → (Outcome.done next).Sees front token.kind →
      o.Sees rest next → Predicts e front (.done next) → Predicts second rest o →
      Predicts rule (front ++ rest) o) : Tracks fits n pre (p >>= f) rule where
  ok hs htoken hrun := by
    obtain ⟨a, t, hrun, hrest⟩ := bind_ok.1 hrun
    have hpassed := hp.ok hs htoken hrun
    refine hpassed.append ((hf a).ok (hm _ _ hpassed hs) trivial hrest) ?_
    intro front rest next o hsees
    exact hnext front rest next o _ htoken hsees
  error hs htoken hrun := by
    rcases bind_error.1 hrun with hrun | ⟨a, t, hrun, hrest⟩
    · exact (hp.error hs htoken hrun).map fun passed o hsees => hstop passed o _ htoken hsees
    · have hpassed := hp.ok hs htoken hrun
      refine hpassed.fails ((hf a).error (hm _ _ hpassed hs) trivial hrest) ?_
      intro front rest next o hsees
      exact hnext front rest next o _ htoken hsees

theorem bind (hp : Tracks fits n pre p e)
    (hf : ∀ a, Tracks fits n (fun _ => True) (f a) (.sequence parts)) :
    Tracks fits n pre (p >>= f) (.sequence (e :: parts)) :=
  hp.bind_with hf (fun _ _ hpassed hs => Nat.le_trans hpassed.remaining_le hs)
    (fun _ _ _ _ _ hdone hpredicts => .stop hpredicts hdone)
    fun _ _ _ _ _ _ _ hsees hfirst hsecond => .cons hfirst hsecond hsees

theorem bind_next {kind : TokenKind} (hp : Tracks fits n pre p (.token kind))
    (hf : ∀ a, Tracks fits (n - 1) (fun _ => True) (f a) (.sequence parts)) :
    Tracks fits n pre (p >>= f) (.sequence (.token kind :: parts)) := by
  refine hp.bind_with hf (fun s t hpassed hs => ?_)
    (fun _ _ _ _ _ hdone hpredicts => .stop hpredicts hdone)
    fun _ _ _ _ _ _ _ hsees hfirst hsecond => .cons hfirst hsecond hsees
  have hlt := ((hpassed.spans rfl).starts (.token (List.mem_singleton_self kind))).2
  omega

theorem single (hp : Tracks fits n pre p e) : Tracks fits n pre p (.sequence [e]) := by
  have h := hp.bind fun a => pure a
  rwa [bind_pure] at h

theorem bind_append {others : List Ebnf} (hp : Tracks fits n pre p (.sequence parts))
    (hf : ∀ a, Tracks fits n (fun _ => True) (f a) (.sequence others)) :
    Tracks fits n pre (p >>= f) (.sequence (parts ++ others)) :=
  hp.bind_with hf (fun _ _ hpassed hs => Nat.le_trans hpassed.remaining_le hs)
    (fun _ _ _ _ _ hdone hpredicts => hpredicts.append_stop hdone)
    fun _ _ _ _ _ _ _ hsees hfirst hsecond => hfirst.append hsecond hsees

theorem peek {g : Token → Parser σ β}
    (hg : ∀ token, pre token → Tracks fits n (fun next => next = token) (g token) e) :
    Tracks fits n pre (Parser.peek >>= g) e where
  ok {s _ _} hs htoken hrun := (hg s.token htoken).ok hs rfl hrun
  error {s _ _} hs htoken hrun := (hg s.token htoken).error hs rfl hrun

theorem remaining {g : Nat → Parser σ β} (hg : ∀ r, r ≤ n → Tracks fits r pre (g r) e) :
    Tracks fits n pre (Parser.remaining >>= g) e where
  ok hs htoken hrun := (hg _ hs).ok (Nat.le_refl _) htoken hrun
  error hs htoken hrun := (hg _ hs).error (Nat.le_refl _) htoken hrun

theorem refuse {expected : String} (h : ∀ token, pre token → Predicts e [] (.refused token.kind)) :
    Tracks fits n pre (Parser.refuse expected : Parser σ α) e where
  ok _ _ hrun := absurd hrun refuse_ok
  error {s d t} _ htoken hrun := by
    cases hrun
    exact ⟨fun h => h, [], s.stream, [], _, .nil, fun _ h => absurd h List.not_mem_nil,
      .refused expected rfl, h _ htoken⟩

theorem halt (hrun : ∀ s : ParseState σ, pre s.token → p s = .error (outOfRange s.token) s.advance)
    (hpre : ∀ token, pre token → ¬ fits token ∧ token.kind ≠ .eof ∧ Predicts e [token.kind] .halted) :
    Tracks fits n pre p e where
  ok _ htoken hok := by
    rw [hrun _ htoken] at hok
    cases hok
  error {s d t} _ htoken herror := by
    rw [hrun _ htoken] at herror
    cases herror
    obtain ⟨hfits, hkind, hpredicts⟩ := hpre _ htoken
    exact ⟨fun h => h, [], s.stream, _, _, .nil, fun _ h => absurd h List.not_mem_nil,
      .outOfRange rfl hfits hkind, hpredicts⟩

theorem advance {kind : TokenKind} (hkind : kind ≠ .eof)
    (hfits : ∀ token, pre token → token.kind = kind ∧ fits token) :
    Tracks (σ := σ) fits n pre Parser.advance (.token kind) where
  ok {s a t} _ htoken hrun := by
    obtain ⟨rfl, rfl⟩ := advance_ok.1 hrun
    obtain ⟨rfl, htokenFits⟩ := hfits _ htoken
    exact ⟨fun h => h, [s.token], .cons hkind .nil, List.forall_mem_singleton.2 htokenFits, .token⟩
  error _ _ hrun := by
    cases hrun

theorem expect {kind : TokenKind} (hkind : kind ≠ .eof)
    (hfits : ∀ token, pre token → token.kind = kind → fits token) :
    Tracks (σ := σ) fits n pre (Parser.expect kind) (.token kind) := by
  refine peek fun token htoken => ?_
  split
  · next heq =>
    refine advance hkind ?_
    rintro _ rfl
    exact ⟨heq, hfits _ htoken heq⟩
  · next hne =>
    refine refuse ?_
    rintro _ rfl
    exact .wrong hne

section

variable {test : TokenKind → Bool} {item : Parser σ α} {kinds : List TokenKind}

theorem at_end (h : Tracks fits 0 (fun token => token.kind = .eof) p e) :
    Tracks fits 0 pre p e where
  ok hs _ hrun := h.ok hs (TokenStream.peek_eof_of_remaining (Nat.le_zero.1 hs)) hrun
  error hs _ hrun := h.error hs (TokenStream.peek_eof_of_remaining (Nat.le_zero.1 hs)) hrun

/-- A step of a loop, if it passes a token at least. -/
theorem step {r : Nat} {g : α → Parser σ β} (hstart : e.StartsIn kinds) (he : e.isProper)
    (hr : r < n) (hopens : ∀ token, pre token → e.opens token.kind = true)
    (hitem : Tracks fits n pre item e)
    (hrest : ∀ a, Tracks fits r (fun _ => True) (g a) (.repeated e)) :
    Tracks fits (r + 1) pre (item >>= g) (.repeated e) := by
  refine (hitem.within hr).bind_with hrest (fun s t hpassed hs => ?_)
    (fun _ _ token htoken hsees hdone hpredicts => .broken (hopens token htoken) hpredicts hsees hdone)
    fun _ _ _ _ token htoken hseesFirst hsees hfirst hsecond =>
      .more (hopens token htoken) hfirst hseesFirst hsecond hsees
  have hlt := ((hpassed.spans he).starts hstart).2
  omega

theorem many (hstart : e.StartsIn kinds) (he : e.isProper) (htest : ∀ kind, e.opens kind = test kind)
    (heof : test .eof = false) (hitem : Tracks fits n (fun token => test token.kind) item e)
    (r : Nat) (hr : r ≤ n) :
    Tracks fits r (fun _ => True) (Parser.many test item r) (.repeated e) := by
  induction r with
  | zero =>
    refine at_end (idle (.pure _) fun token hkind => .none ?_)
    rw [hkind, htest, heof]
  | succ r ih =>
    refine peek fun token _ => ?_
    split
    · next hpasses =>
      have hfirst : Tracks fits n (fun next => next = token) item e :=
        hitem.whenever fun _ h => h ▸ hpasses
      refine step hstart he hr ?_ hfirst fun a => (ih (Nat.le_of_succ_le hr)).bind_idle fun as => .pure _
      rintro _ rfl
      rw [htest, hpasses]
    · next hstop =>
      refine idle (.pure _) ?_
      rintro _ rfl
      exact .none (by rw [htest, Bool.eq_false_iff.2 hstop])

theorem repeated (hstart : e.StartsIn kinds) (he : e.isProper)
    (htest : ∀ kind, e.opens kind = test kind) (heof : test .eof = false)
    (hitem : Tracks fits n (fun token => test token.kind) item e) :
    Tracks fits n pre (Parser.repeated test item) (.repeated e) :=
  remaining fun r hr => (many hstart he htest heof hitem r hr).whenever fun _ _ => trivial

theorem extend {choose : TokenKind → Option β} {step : α → β → Parser σ α}
    (hstart : e.StartsIn kinds) (he : e.isProper)
    (hchoose : ∀ kind, e.opens kind = (choose kind).isSome) (heof : choose .eof = none)
    (hstep : ∀ a b, Tracks fits n (fun token => choose token.kind = some b) (step a b) e) (r : Nat)
    (hr : r ≤ n) (a : α) :
    Tracks fits r (fun _ => True) (Parser.extend choose step r a) (.repeated e) := by
  induction r generalizing a with
  | zero =>
    refine at_end (idle (.pure _) fun token hkind => .none ?_)
    rw [hkind, hchoose, heof]
    rfl
  | succ r ih =>
    refine peek fun token _ => ?_
    cases hchoice : choose token.kind with
    | none =>
      refine idle (.pure _) ?_
      rintro _ rfl
      exact .none (by rw [hchoose, hchoice]; rfl)
    | some b =>
      have hfirst : Tracks fits n (fun next => next = token) (step a b) e :=
        (hstep a b).whenever fun _ h => h ▸ hchoice
      refine Tracks.step hstart he hr ?_ hfirst fun a' => ih (Nat.le_of_succ_le hr) a'
      rintro _ rfl
      rw [hchoose, hchoice]
      rfl

theorem extended {choose : TokenKind → Option β} {step : α → β → Parser σ α}
    (hstart : e.StartsIn kinds) (he : e.isProper)
    (hchoose : ∀ kind, e.opens kind = (choose kind).isSome) (heof : choose .eof = none)
    (hstep : ∀ a b, Tracks fits n (fun token => choose token.kind = some b) (step a b) e) (a : α) :
    Tracks fits n pre (Parser.extended choose step a) (.repeated e) :=
  remaining fun r hr => (extend hstart he hchoose heof hstep r hr a).whenever fun _ _ => trivial

theorem optionalList {nt : Nonterminal} (hcomma : ∀ token : Token, token.kind = .comma → fits token)
    (hopens : ∀ kind, (Ebnf.category nt.category).opens kind = nt.starts kind)
    (hitem : Tracks fits n (fun _ => True) item (.category nt.category)) :
    Tracks fits n pre (Parser.optionalList nt item) (.optional (.sequence [.category nt.category,
      .repeated (.sequence [.token .comma, .category nt.category])])) := by
  have hnext : Tracks fits n (fun token => decide (token.kind = .comma)) (do
      let _ ← Parser.advance
      item) (.sequence [.token .comma, .category nt.category]) := by
    refine (advance (by decide) fun token htoken => ?_).bind fun _ => ?_
    · have hkind := of_decide_eq_true htoken
      exact ⟨hkind, hcomma token hkind⟩
    · exact hitem.single
  have hrest : Tracks fits n (fun _ => True) (Parser.repeated (fun kind => kind = .comma) (do
      let _ ← Parser.advance
      item)) (.repeated (.sequence [.token .comma, .category nt.category])) :=
    repeated (.sequence (.token (List.mem_singleton_self TokenKind.comma))) rfl
      (fun _ => decide_eq_decide.2 eq_comm) rfl hnext
  refine peek fun token _ => ?_
  split
  · next hstarts =>
    refine present ?_ ?_
    · refine (hitem.whenever fun _ _ => trivial).bind fun x => ?_
      exact hrest.bind fun xs => .pure _
    · rintro _ rfl
      exact (hopens _).trans hstarts
  · next hstarts =>
    refine absent (.pure _) ?_
    rintro _ rfl
    exact (hopens _).trans (Bool.eq_false_iff.2 hstarts)

end

end Tracks

end Parser

end MipsCompiler
