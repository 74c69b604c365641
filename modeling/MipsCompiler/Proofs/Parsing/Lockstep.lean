import MipsCompiler.Proofs.Grammar.Reading
import MipsCompiler.Proofs.Moved
import MipsCompiler.Proofs.Parsing.Step

set_option autoImplicit false

/-!
# Parsers in lockstep

Two streams that show the same tokens, but for their positions, lead a parser through the same steps.
`Lockstep` says so of the first tokens of the streams only: for a parser that steps past `len` tokens,
the streams have to agree on these and on one more to look at. Where a parser ends by stepping past a
token it expects, they do not even have to agree on that one.

The streams may count the tokens ahead of them differently, so the two parsers do not get the same
number of tries. Neither of them runs out, for each try steps past a token.
-/

namespace MipsCompiler

namespace TokenStream

section

variable {σ : Type} [TokenStream σ] {s t u : σ} {n m : Nat}

theorem Between.remaining_add {tokens : List Token} (h : Between s tokens t) :
    remaining t + tokens.length ≤ remaining s := by
  induction h with
  | nil => exact Nat.le_refl _
  | cons hkind _ ih =>
    have hlt := remaining_advance _ hkind
    rw [List.length_cons]
    omega

/-- From one place to the other it is `n` tokens, none of them an end marker. -/
def Apart (n : Nat) (s t : σ) : Prop :=
  ∃ tokens, Between s tokens t ∧ tokens.length = n

namespace Apart

theorem refl : Apart 0 s s :=
  ⟨[], .nil, rfl⟩

theorem one (h : (peek s).kind ≠ .eof) : Apart 1 s (advance s) :=
  ⟨[peek s], .cons h .nil, rfl⟩

theorem trans (h : Apart n s t) (h' : Apart m t u) : Apart (n + m) s u := by
  obtain ⟨front, hfront, rfl⟩ := h
  obtain ⟨rest, hrest, rfl⟩ := h'
  exact ⟨front ++ rest, between_append.2 ⟨t, hfront, hrest⟩, List.length_append⟩

theorem remaining_add (h : Apart n s t) : remaining t + n ≤ remaining s := by
  obtain ⟨tokens, hbetween, rfl⟩ := h
  exact hbetween.remaining_add

theorem unique (h : Apart n s t) (h' : Apart m s t) : n = m := by
  obtain ⟨tokens, hbetween, rfl⟩ := h
  obtain ⟨others, hothers, rfl⟩ := h'
  induction hbetween generalizing others with
  | nil =>
    have hback := hothers.remaining_add
    rw [List.length_nil]
    omega
  | cons hkind hrest ih =>
    cases hothers with
    | nil =>
      have hback := (Between.cons hkind hrest).remaining_add
      rw [List.length_cons] at hback ⊢
      omega
    | cons _ hothers => rw [List.length_cons, List.length_cons, ih _ hothers]

end Apart

theorem peek_eof_of_remaining (h : remaining s = 0) : (peek s).kind = .eof := by
  refine Decidable.byContradiction fun hkind => ?_
  have hlt := remaining_advance s hkind
  omega

end

variable {σ τ : Type} [TokenStream σ] [TokenStream τ] {place : Position → Position}

/-- The next `k` tokens of two streams are the same but for their positions, or all tokens up to an
end marker are. -/
inductive Agree (place : Position → Position) : Nat → σ → τ → Prop
  | none {s : σ} {t : τ} : Agree place 0 s t
  | last {k : Nat} {s : σ} {t : τ} :
      peek t = (peek s).move place → (peek s).kind = .eof → Agree place k s t
  | next {k : Nat} {s : σ} {t : τ} :
      peek t = (peek s).move place → Agree place k (advance s) (advance t) →
      Agree place (k + 1) s t

namespace Agree

variable {k : Nat} {s : σ} {t : τ}

theorem peek_eq (h : Agree place k s t) (hk : 0 < k) : peek t = (peek s).move place := by
  cases h with
  | none => exact absurd hk (Nat.lt_irrefl 0)
  | last htoken _ => exact htoken
  | next htoken _ => exact htoken

theorem mono {j : Nat} (h : Agree place k s t) (hj : j ≤ k) : Agree place j s t := by
  induction h generalizing j with
  | none =>
    obtain rfl := Nat.le_zero.1 hj
    exact .none
  | last htoken hend => exact .last htoken hend
  | next htoken _ ih =>
    cases j with
    | zero => exact .none
    | succ j => exact .next htoken (ih (Nat.le_of_succ_le_succ hj))

theorem advance_of_ne (h : Agree place (k + 1) s t) (hkind : (peek s).kind ≠ .eof) :
    Agree place k (advance s) (advance t) := by
  cases h with
  | last _ hend => exact absurd hend hkind
  | next _ hrest => exact hrest

end Agree

end TokenStream

/-- Answers about a name that give the same symbol and leave related scopes and logs behind. -/
def Scope.Answer.Same (holds : Scope → Log → Scope → Log → Prop) (log other : Log)
    (a b : Scope.Answer) : Prop :=
  b.symbol = a.symbol ∧ holds a.scope (log ++ a.refusal.toList) b.scope (other ++ b.refusal.toList)

/-- A way to move positions, and a relation between scopes with their logs that all uses of names
keep. -/
structure Correspondence where
  place : Position → Position
  holds : Scope → Log → Scope → Log → Prop
  initial : holds Scope.initial [] Scope.initial []
  declare {s t : Scope} {log other : Log} : holds s log t other → ∀ symbol : Symbol,
    Scope.Answer.Same holds log other (s.declare symbol) (t.declare (symbol.move place))
  resolve {s t : Scope} {log other : Log} : holds s log t other → ∀ (name : String) (pos : Position),
    Scope.Answer.Same holds log other (s.resolve name pos) (t.resolve name (place pos))
  retype {s t : Scope} {log other : Log} : holds s log t other → ∀ (id : SymbolId) (ty : Ty),
    holds (s.retype id ty) log (t.retype id ty) other
  retypeFunction {s t : Scope} {log other : Log} : holds s log t other →
    ∀ (id : SymbolId) (params : List SymbolId) (result : Ty),
      holds (s.retype id (.func (params.map fun param => (s.symbol param).ty) result)) log
        (t.retype id (.func (params.map fun param => (t.symbol param).ty) result)) other
  enter {s t : Scope} {log other : Log} : holds s log t other → holds s.enter log t.enter other
  exit {s t : Scope} {log other : Log} : holds s log t other → holds s.exit log t.exit other

variable {σ τ : Type} [TokenStream σ] [TokenStream τ] {C : Correspondence}

/-- Parse states that agree in all but their streams. -/
structure ParseState.Level (C : Correspondence) (s : ParseState σ) (t : ParseState τ) : Prop where
  nodeCount : t.nodeCount = s.nodeCount
  names : C.holds s.scope s.log t.scope t.log

/-- Parse states that agree, and their streams on the next `k` tokens. -/
structure ParseState.Alike (C : Correspondence) (k : Nat) (s : ParseState σ) (t : ParseState τ) :
    Prop where
  tokens : TokenStream.Agree C.place k s.stream t.stream
  level : ParseState.Level C s t

namespace ParseState.Alike

variable {k : Nat} {s : ParseState σ} {t : ParseState τ}

theorem token_eq (h : Alike C k s t) (hk : 0 < k) : t.token = s.token.move C.place :=
  h.tokens.peek_eq hk

theorem kind_eq (h : Alike C k s t) (hk : 0 < k) : t.token.kind = s.token.kind := by
  rw [h.token_eq hk]
  rfl

theorem advance (h : Alike C (1 + k) s t) (hkind : s.token.kind ≠ .eof) :
    Alike C k s.advance t.advance := by
  rw [Nat.add_comm] at h
  exact ⟨h.tokens.advance_of_ne hkind, h.level.nodeCount, h.level.names⟩

end ParseState.Alike

namespace Parser

open TokenStream (Apart)
open ParseState (Alike Level)

variable {α β γ δ : Type}

theorem peek_bind {f : Token → Parser σ α} {s : ParseState σ} :
    (peek >>= f) s = f s.token s := rfl

theorem many_stop {test : TokenKind → Bool} {item : Parser σ α} {s : ParseState σ}
    (h : test s.token.kind = false) (n : Nat) : many test item n s = .ok [] s := by
  cases n with
  | zero => rfl
  | succ n =>
    simp only [many, peek_bind, h]
    rfl

theorem extend_stop {choose : TokenKind → Option β} {step : α → β → Parser σ α} {s : ParseState σ}
    (h : choose s.token.kind = none) (n : Nat) (a : α) : extend choose step n a s = .ok a s := by
  cases n with
  | zero => rfl
  | succ n =>
    simp only [extend, peek_bind, h]
    rfl

/-- Where at most `n` and `m` tokens are ahead and the next one passes `pre`, the second parser does
what the first does. If the first ends well it has stepped past `least` tokens or more, and `slack`
tokens behind them have to be the same. What it returns is mapped by `φ`. -/
structure Lockstep (C : Correspondence) (n m : Nat) (pre : Token → Prop) (slack least : Nat)
    (φ : α → β) (p : Parser σ α) (q : Parser τ β) : Prop where
  ok {s : ParseState σ} {a : α} {s' : ParseState σ} : TokenStream.remaining s.stream ≤ n →
    pre s.token → p s = .ok a s' → ∃ len, least ≤ len ∧ Apart len s.stream s'.stream ∧
      ∀ {t : ParseState τ} {k : Nat}, TokenStream.remaining t.stream ≤ m → slack ≤ k →
        Alike C (len + k) s t →
        ∃ t', q t = .ok (φ a) t' ∧ Apart len t.stream t'.stream ∧ Alike C k s' t'
  error {s : ParseState σ} {d : Diagnostic} {s' : ParseState σ} :
    TokenStream.remaining s.stream ≤ n → pre s.token → p s = .error d s' →
    ∃ len, Apart len s.stream s'.stream ∧
      ∀ {t : ParseState τ} {k : Nat}, TokenStream.remaining t.stream ≤ m → 0 < k →
        Alike C (len + k) s t → ∃ t', q t = .error (d.move C.place) t' ∧ Level C s' t'

namespace Lockstep

variable {n m : Nat} {pre : Token → Prop} {a b c l : Nat} {φ : α → β} {ψ : γ → δ}
  {p : Parser σ α} {q : Parser τ β} {f : α → Parser σ γ} {g : β → Parser τ δ}

theorem mono {n' m' b' l' : Nat} {pre' : Token → Prop} (h : Lockstep C n m pre b l φ p q)
    (hn : n' ≤ n) (hm : m' ≤ m) (hpre : ∀ token, pre' token → pre token) (hb : b ≤ b')
    (hl : l' ≤ l) : Lockstep C n' m' pre' b' l' φ p q where
  ok hs htoken hrun := by
    obtain ⟨len, hlen, hapart, hmatch⟩ := h.ok (Nat.le_trans hs hn) (hpre _ htoken) hrun
    refine ⟨len, Nat.le_trans hl hlen, hapart, fun ht hk halike => ?_⟩
    exact hmatch (Nat.le_trans ht hm) (Nat.le_trans hb hk) halike
  error hs htoken hrun := by
    obtain ⟨len, hapart, hmatch⟩ := h.error (Nat.le_trans hs hn) (hpre _ htoken) hrun
    exact ⟨len, hapart, fun ht hk halike => hmatch (Nat.le_trans ht hm) hk halike⟩

theorem relax {b' l' : Nat} (h : Lockstep C n m pre b l φ p q) (hb : b ≤ b') (hl : l' ≤ l) :
    Lockstep C n m pre b' l' φ p q :=
  h.mono (Nat.le_refl n) (Nat.le_refl m) (fun _ h => h) hb hl

theorem within {n' m' : Nat} (h : Lockstep C n m pre b l φ p q) (hn : n' ≤ n) (hm : m' ≤ m) :
    Lockstep C n' m' pre b l φ p q :=
  h.mono hn hm (fun _ h => h) (Nat.le_refl b) (Nat.le_refl l)

theorem whenever {pre' : Token → Prop} (h : Lockstep C n m pre b l φ p q)
    (hpre : ∀ token, pre' token → pre token) : Lockstep C n m pre' b l φ p q :=
  h.mono (Nat.le_refl n) (Nat.le_refl m) hpre (Nat.le_refl b) (Nat.le_refl l)

/-- One parser after the other. The tokens that the second steps past make up for what the first
looks at. -/
theorem bind_add (hp : Lockstep C n m pre a l φ p q)
    (hf : ∀ x, Lockstep C (n - l) (m - l) (fun _ => True) b c ψ (f x) (g (φ x))) (ha : a ≤ b + c)
    (ha' : a ≤ 1) : Lockstep C n m pre b (l + c) ψ (p >>= f) (q >>= g) where
  ok hs htoken hrun := by
    obtain ⟨x, s₁, hrun₁, hrun₂⟩ := bind_ok.1 hrun
    obtain ⟨len₁, hlen₁, hapart₁, hmatch₁⟩ := hp.ok hs htoken hrun₁
    have hleft := hapart₁.remaining_add
    obtain ⟨len₂, hlen₂, hapart₂, hmatch₂⟩ := (hf x).ok (by omega) trivial hrun₂
    refine ⟨len₁ + len₂, Nat.add_le_add hlen₁ hlen₂, hapart₁.trans hapart₂, ?_⟩
    intro t k ht hk halike
    rw [Nat.add_assoc] at halike
    obtain ⟨t₁, hother₁, hahead₁, halike₁⟩ := hmatch₁ ht (by omega) halike
    have hright := hahead₁.remaining_add
    obtain ⟨t₂, hother₂, hahead₂, halike₂⟩ := hmatch₂ (by omega) hk halike₁
    exact ⟨t₂, bind_ok.2 ⟨_, t₁, hother₁, hother₂⟩, hahead₁.trans hahead₂, halike₂⟩
  error hs htoken hrun := by
    rcases bind_error.1 hrun with hrun₁ | ⟨x, s₁, hrun₁, hrun₂⟩
    · obtain ⟨len, hapart, hmatch⟩ := hp.error hs htoken hrun₁
      refine ⟨len, hapart, fun ht hk halike => ?_⟩
      obtain ⟨t', hother, hlevel⟩ := hmatch ht hk halike
      exact ⟨t', bind_error.2 (.inl hother), hlevel⟩
    · obtain ⟨len₁, hlen₁, hapart₁, hmatch₁⟩ := hp.ok hs htoken hrun₁
      have hleft := hapart₁.remaining_add
      obtain ⟨len₂, hapart₂, hmatch₂⟩ := (hf x).error (by omega) trivial hrun₂
      refine ⟨len₁ + len₂, hapart₁.trans hapart₂, fun {t k} ht hk halike => ?_⟩
      rw [Nat.add_assoc] at halike
      obtain ⟨t₁, hother₁, hahead₁, halike₁⟩ := hmatch₁ ht (by omega) halike
      have hright := hahead₁.remaining_add
      obtain ⟨t₂, hother₂, hlevel⟩ := hmatch₂ (by omega) hk halike₁
      exact ⟨t₂, bind_error.2 (.inr ⟨_, t₁, hother₁, hother₂⟩), hlevel⟩

theorem bind (hp : Lockstep C n m pre a l φ p q) (ha : a ≤ 1)
    (hf : ∀ x, Lockstep C n m (fun _ => True) b (a - b) ψ (f x) (g (φ x))) :
    Lockstep C n m pre b l ψ (p >>= f) (q >>= g) := by
  have hrest (x : α) : Lockstep C (n - l) (m - l) (fun _ => True) b (a - b) ψ (f x) (g (φ x)) :=
    (hf x).within (Nat.sub_le n l) (Nat.sub_le m l)
  exact (hp.bind_add hrest (by omega) ha).relax (Nat.le_refl b) (Nat.le_add_right l (a - b))

theorem bind_next (hp : Lockstep C n m pre a 1 φ p q) (ha : a ≤ 1)
    (hf : ∀ x, Lockstep C (n - 1) (m - 1) (fun _ => True) b (a - b) ψ (f x) (g (φ x))) :
    Lockstep C n m pre b 1 ψ (p >>= f) (q >>= g) :=
  (hp.bind_add hf (by omega) ha).relax (Nat.le_refl b) (Nat.le_add_right 1 (a - b))

theorem silent_bind (hp : Lockstep C n m pre 0 0 φ p q)
    (hf : ∀ x, Lockstep C n m (fun _ => True) b l ψ (f x) (g (φ x))) :
    Lockstep C n m pre b l ψ (p >>= f) (q >>= g) := by
  have h := hp.bind_add hf (Nat.zero_le _) (Nat.zero_le 1)
  rw [Nat.zero_add] at h
  exact h

theorem pure {x : α} {y : β} (h : y = φ x) :
    Lockstep C n m pre b 0 φ (Pure.pure x : Parser σ α) (Pure.pure y : Parser τ β) where
  ok _ _ hrun := by
    obtain ⟨rfl, rfl⟩ := pure_ok.1 hrun
    refine ⟨0, Nat.le_refl 0, .refl, fun {t k} _ _ halike => ⟨t, pure_ok.2 ⟨h.symm, rfl⟩, .refl, ?_⟩⟩
    rw [Nat.zero_add] at halike
    exact halike
  error _ _ hrun := by
    nomatch hrun

theorem throw {d d' : Diagnostic} (h : d' = d.move C.place) :
    Lockstep C n m pre b l φ (MonadExcept.throw d : Parser σ α)
      (MonadExcept.throw d' : Parser τ β) where
  ok _ _ hrun := absurd hrun throw_ok
  error _ _ hrun := by
    cases hrun
    exact ⟨0, .refl, fun {t _} _ _ halike => ⟨t, h ▸ rfl, halike.level⟩⟩

theorem silent {next : ParseState σ → α × ParseState σ} {next' : ParseState τ → β × ParseState τ}
    (hstream : ∀ s, (next s).2.stream = s.stream) (hstream' : ∀ t, (next' t).2.stream = t.stream)
    (h : ∀ {s t}, Level C s t → (next' t).1 = φ (next s).1 ∧ Level C (next s).2 (next' t).2) :
    Lockstep C n m pre 0 0 φ (modifyGet next : Parser σ α) (modifyGet next' : Parser τ β) where
  ok {s a s'} _ _ hrun := by
    obtain ⟨rfl, rfl⟩ : a = (next s).1 ∧ s' = (next s).2 := result_ok.1 hrun
    refine ⟨0, Nat.le_refl 0, hstream s ▸ .refl, fun {t k} _ _ halike => ?_⟩
    obtain ⟨hvalue, hlevel⟩ := h halike.level
    rw [Nat.zero_add] at halike
    refine ⟨(next' t).2, result_ok.2 ⟨hvalue.symm, rfl⟩, hstream' t ▸ .refl, ?_, hlevel⟩
    rw [hstream, hstream']
    exact halike.tokens
  error _ _ hrun := by
    nomatch hrun

theorem freshNode {pos : Position} :
    Lockstep (σ := σ) (τ := τ) C n m pre 0 0 (Node.move C.place) (Parser.freshNode pos)
      (Parser.freshNode (C.place pos)) := by
  refine silent (fun _ => rfl) (fun _ => rfl) fun {s t} hlevel => ?_
  refine ⟨?_, congrArg (· + 1) hlevel.nodeCount, hlevel.names⟩
  rw [hlevel.nodeCount]
  rfl

theorem declare {name : Token} {kind : SymbolKind} :
    Lockstep (σ := σ) (τ := τ) C n m pre 0 0 id (Parser.declare name kind)
      (Parser.declare (name.move C.place) kind) := by
  refine silent (fun _ => rfl) (fun _ => rfl) fun hlevel => ?_
  obtain ⟨hsymbol, hnames⟩ := C.declare hlevel.names ⟨name.lexeme, .void, kind, name.pos⟩
  exact ⟨hsymbol, hlevel.nodeCount, hnames⟩

theorem resolve {name : Token} :
    Lockstep (σ := σ) (τ := τ) C n m pre 0 0 id (Parser.resolve name)
      (Parser.resolve (name.move C.place)) := by
  refine silent (fun _ => rfl) (fun _ => rfl) fun hlevel => ?_
  obtain ⟨hsymbol, hnames⟩ := C.resolve hlevel.names name.lexeme name.pos
  exact ⟨hsymbol, hlevel.nodeCount, hnames⟩

theorem retype {id : SymbolId} {ty : Ty} :
    Lockstep (σ := σ) (τ := τ) C n m pre 0 0 (fun u => u) (Parser.retype id ty)
      (Parser.retype id ty) :=
  silent (fun _ => rfl) (fun _ => rfl) fun hlevel =>
    ⟨rfl, hlevel.nodeCount, C.retype hlevel.names id ty⟩

theorem enterScope :
    Lockstep (σ := σ) (τ := τ) C n m pre 0 0 (fun u => u) Parser.enterScope Parser.enterScope :=
  silent (fun _ => rfl) (fun _ => rfl) fun hlevel => ⟨rfl, hlevel.nodeCount, C.enter hlevel.names⟩

theorem exitScope :
    Lockstep (σ := σ) (τ := τ) C n m pre 0 0 (fun u => u) Parser.exitScope Parser.exitScope :=
  silent (fun _ => rfl) (fun _ => rfl) fun hlevel => ⟨rfl, hlevel.nodeCount, C.exit hlevel.names⟩

theorem retypeFunction {id : SymbolId} {params : List SymbolId} {result : Ty}
    {f : PUnit → Parser σ γ} {g : PUnit → Parser τ δ}
    (hf : ∀ u, Lockstep C n m (fun _ => True) b l ψ (f u) (g u)) :
    Lockstep C n m pre b l ψ
      (Parser.typesOf params >>= fun types => Parser.retype id (.func types result) >>= f)
      (Parser.typesOf params >>= fun types => Parser.retype id (.func types result) >>= g) := by
  have hretype : Lockstep C n m pre 0 0 (fun u => u)
      (modifyGet fun s => (PUnit.unit, s.retype id
        (.func (params.map fun param => (s.scope.symbol param).ty) result)) : Parser σ PUnit)
      (modifyGet fun s => (PUnit.unit, s.retype id
        (.func (params.map fun param => (s.scope.symbol param).ty) result)) : Parser τ PUnit) :=
    silent (fun _ => rfl) (fun _ => rfl) fun hlevel =>
      ⟨rfl, hlevel.nodeCount, C.retypeFunction hlevel.names id params result⟩
  exact hretype.silent_bind hf

theorem peek {f : Token → Parser σ γ} {g : Token → Parser τ δ}
    (hf : ∀ token, pre token →
      Lockstep C n m (fun next => next = token) b l ψ (f token) (g (token.move C.place)))
    (hb : 0 < b + l) : Lockstep C n m pre b l ψ (Parser.peek >>= f) (Parser.peek >>= g) where
  ok {s a s'} hs htoken hrun := by
    obtain ⟨len, hlen, hapart, hmatch⟩ := (hf s.token htoken).ok hs rfl hrun
    refine ⟨len, hlen, hapart, fun {t k} ht hk halike => ?_⟩
    obtain ⟨t', hother, hrest⟩ := hmatch ht hk halike
    rw [← halike.token_eq (by omega)] at hother
    exact ⟨t', hother, hrest⟩
  error {s d s'} hs htoken hrun := by
    obtain ⟨len, hapart, hmatch⟩ := (hf s.token htoken).error hs rfl hrun
    refine ⟨len, hapart, fun {t k} ht hk halike => ?_⟩
    obtain ⟨t', hother, hrest⟩ := hmatch ht hk halike
    rw [← halike.token_eq (by omega)] at hother
    exact ⟨t', hother, hrest⟩

theorem remaining {f : Nat → Parser σ γ} {g : Nat → Parser τ δ}
    (hf : ∀ r r', r ≤ n → r' ≤ m → Lockstep C r r' pre b l ψ (f r) (g r')) :
    Lockstep C n m pre b l ψ (Parser.remaining >>= f) (Parser.remaining >>= g) where
  ok {s a s'} hs htoken hrun := by
    have hleft := Nat.le_refl (TokenStream.remaining s.stream)
    obtain ⟨len, hlen, hapart, _⟩ := (hf _ 0 hs (Nat.zero_le m)).ok hleft htoken hrun
    refine ⟨len, hlen, hapart, fun {t k} ht hk halike => ?_⟩
    obtain ⟨len', _, hapart', hmatch⟩ := (hf _ _ hs ht).ok hleft htoken hrun
    obtain rfl := hapart.unique hapart'
    exact hmatch (Nat.le_refl _) hk halike
  error {s d s'} hs htoken hrun := by
    have hleft := Nat.le_refl (TokenStream.remaining s.stream)
    obtain ⟨len, hapart, _⟩ := (hf _ 0 hs (Nat.zero_le m)).error hleft htoken hrun
    refine ⟨len, hapart, fun {t k} ht hk halike => ?_⟩
    obtain ⟨len', hapart', hmatch⟩ := (hf _ _ hs ht).error hleft htoken hrun
    obtain rfl := hapart.unique hapart'
    exact hmatch (Nat.le_refl _) hk halike

theorem advance :
    Lockstep (σ := σ) (τ := τ) C n m (fun token => token.kind ≠ .eof) 0 1 (Token.move C.place)
      Parser.advance Parser.advance where
  ok {s a s'} _ hkind hrun := by
    obtain ⟨rfl, rfl⟩ := advance_ok.1 hrun
    refine ⟨1, Nat.le_refl 1, .one hkind, fun {t k} _ _ halike => ?_⟩
    have htoken := halike.token_eq (by omega)
    have hkind' : t.token.kind ≠ .eof := by
      rw [htoken]
      exact hkind
    exact ⟨t.advance, advance_ok.2 ⟨htoken.symm, rfl⟩, .one hkind', halike.advance hkind⟩
  error _ _ hrun := by
    nomatch hrun

theorem refuse {expected : String} :
    Lockstep C n m pre b l φ (Parser.refuse expected : Parser σ α)
      (Parser.refuse expected : Parser τ β) where
  ok _ _ hrun := absurd hrun refuse_ok
  error {s d s'} _ _ hrun := by
    cases hrun
    refine ⟨0, .refl, fun {t k} _ hk halike => ⟨t, ?_, halike.level⟩⟩
    change EStateM.Result.error (Diagnostic.unexpected t.token.pos expected t.token.kind.name) t = _
    rw [halike.token_eq (by omega)]
    rfl

theorem expect {kind : TokenKind} (hkind : kind ≠ .eof) :
    Lockstep (σ := σ) (τ := τ) C n m pre 0 1 (Token.move C.place) (Parser.expect kind)
      (Parser.expect kind) := by
  refine peek (fun token _ => ?_) Nat.one_pos
  change Lockstep C n m _ 0 1 _ (if token.kind = kind then Parser.advance else _)
    (if token.kind = kind then Parser.advance else _)
  split
  · next heq =>
    refine advance.whenever ?_
    rintro _ rfl
    rw [heq]
    exact hkind
  · exact refuse

theorem expect_bind {kind : TokenKind} {f : Token → Parser σ γ} {g : Token → Parser τ δ}
    (hkind : kind ≠ .eof) (hl : l ≤ 1)
    (hf : ∀ token, Lockstep C n m (fun _ => True) b 0 ψ (f token) (g (token.move C.place))) :
    Lockstep C n m pre b l ψ (Parser.expect kind >>= f) (Parser.expect kind >>= g) := by
  refine ((expect hkind).bind (Nat.zero_le 1) fun token => ?_).relax (Nat.le_refl b) hl
  rw [Nat.zero_sub]
  exact hf token

theorem replace {q' : Parser τ β} (h : Lockstep C n m pre b l φ p q) (hb : 0 < b)
    (hq : ∀ {s : ParseState σ} {t : ParseState τ}, TokenStream.remaining s.stream ≤ n →
      TokenStream.remaining t.stream ≤ m → t.token.kind = s.token.kind → q' t = q t) :
    Lockstep C n m pre b l φ p q' where
  ok hs htoken hrun := by
    obtain ⟨len, hlen, hapart, hmatch⟩ := h.ok hs htoken hrun
    refine ⟨len, hlen, hapart, fun {t k} ht hk halike => ?_⟩
    rw [hq hs ht (halike.kind_eq (by omega))]
    exact hmatch ht hk halike
  error hs htoken hrun := by
    obtain ⟨len, hapart, hmatch⟩ := h.error hs htoken hrun
    refine ⟨len, hapart, fun {t k} ht hk halike => ?_⟩
    rw [hq hs ht (halike.kind_eq (by omega))]
    exact hmatch ht hk halike

/-- Parsers that count down their tries, given what one try makes of the rest. -/
theorem counted {ι : Type} {φ : α → β} {p : ι → Nat → Parser σ α} {q : ι → Nat → Parser τ β}
    (hend : ∀ i r t, t.token.kind = .eof → q i r t = q i 0 t)
    (hzero : ∀ i m, Lockstep C 0 m (fun _ => True) 1 l φ (p i 0) (q i 0))
    (hsucc : ∀ r r' m', r < n → m' ≤ m →
      (∀ i, Lockstep C r (m' - 1) (fun _ => True) 1 l φ (p i r) (q i r')) →
      ∀ i, Lockstep C (r + 1) m' (fun _ => True) 1 l φ (p i (r + 1)) (q i (r' + 1))) (r r' : Nat)
    (hr : r ≤ n) (hr' : r' ≤ m) (i : ι) :
    Lockstep C r r' (fun _ => True) 1 l φ (p i r) (q i r') := by
  induction r generalizing r' i with
  | zero =>
    refine (hzero i r').replace Nat.one_pos fun {s t} hs _ hkind => hend i r' t ?_
    exact hkind.trans (TokenStream.peek_eof_of_remaining (Nat.le_zero.1 hs))
  | succ r ih =>
    cases r' with
    | succ r' => exact hsucc r r' (r' + 1) hr hr' (fun i => ih r' (by omega) (by omega) i) i
    | zero =>
      -- the second parser has no try left, and stands before an end marker where one is no help
      have hone := hsucc r 0 0 hr (Nat.zero_le m) (fun i => ih 0 (by omega) (Nat.zero_le m) i) i
      refine hone.replace Nat.one_pos fun {s t} _ ht _ => (hend i 1 t ?_).symm
      exact TokenStream.peek_eof_of_remaining (Nat.le_zero.1 ht)

section

variable {test : TokenKind → Bool} {item : Parser σ α} {item' : Parser τ β}

theorem many (heof : test .eof = false)
    (hitem : Lockstep C n m (fun token => test token.kind) 1 1 φ item item') (r r' : Nat)
    (hr : r ≤ n) (hr' : r' ≤ m) :
    Lockstep C r r' (fun _ => True) 1 0 (List.map φ) (Parser.many test item r)
      (Parser.many test item' r') := by
  refine counted (p := fun _ : Unit => Parser.many test item)
    (q := fun _ : Unit => Parser.many test item') ?_ ?_ ?_ r r' hr hr' ()
  · intro _ r t hkind
    exact many_stop (hkind ▸ heof) r
  · intro _ m
    exact pure rfl
  · intro r r' m' hr hm ih _
    refine peek (fun token _ => ?_) Nat.one_pos
    change Lockstep C _ _ _ 1 0 _ (if test token.kind then _ else _) (if test token.kind then _ else _)
    split
    · next htest =>
      have hfirst : Lockstep C (r + 1) m' (fun next => next = token) 1 1 φ item item' :=
        (hitem.within hr hm).whenever fun _ h => h ▸ htest
      refine (hfirst.bind_next (Nat.le_refl 1) fun x => ?_).relax (Nat.le_refl 1) (Nat.zero_le 1)
      exact (ih ()).bind (Nat.le_refl 1) fun xs => pure rfl
    · exact pure rfl

theorem repeated (heof : test .eof = false)
    (hitem : Lockstep C n m (fun token => test token.kind) 1 1 φ item item') :
    Lockstep C n m pre 1 0 (List.map φ) (Parser.repeated test item)
      (Parser.repeated test item') :=
  remaining fun r r' hr hr' => (many heof hitem r r' hr hr').whenever fun _ _ => trivial

theorem extend {choose : TokenKind → Option γ} {step : α → γ → Parser σ α}
    {step' : β → γ → Parser τ β} (heof : choose .eof = none)
    (hstep : ∀ x y, Lockstep C n m (fun token => choose token.kind = some y) 1 1 φ (step x y)
      (step' (φ x) y)) (r r' : Nat) (hr : r ≤ n) (hr' : r' ≤ m) (x : α) :
    Lockstep C r r' (fun _ => True) 1 0 φ (Parser.extend choose step r x)
      (Parser.extend choose step' r' (φ x)) := by
  refine counted (p := fun x r => Parser.extend choose step r x)
    (q := fun x r => Parser.extend choose step' r (φ x)) ?_ ?_ ?_ r r' hr hr' x
  · intro x r t hkind
    exact extend_stop (hkind ▸ heof) r (φ x)
  · intro x m
    exact pure rfl
  · intro r r' m' hr hm ih x
    refine peek (fun token _ => ?_) Nat.one_pos
    obtain ⟨kind, lexeme, pos⟩ := token
    simp only [Token.move]
    cases hchoice : choose kind with
    | none => exact pure rfl
    | some y =>
      have hfirst : Lockstep C (r + 1) m' (fun next => next = ⟨kind, lexeme, pos⟩) 1 1 φ (step x y)
          (step' (φ x) y) :=
        ((hstep x y).within hr hm).whenever fun _ h => h ▸ hchoice
      exact (hfirst.bind_next (Nat.le_refl 1) fun x' => ih x').relax (Nat.le_refl 1) (Nat.zero_le 1)

theorem extended {choose : TokenKind → Option γ} {step : α → γ → Parser σ α}
    {step' : β → γ → Parser τ β} (heof : choose .eof = none)
    (hstep : ∀ x y, Lockstep C n m (fun token => choose token.kind = some y) 1 1 φ (step x y)
      (step' (φ x) y)) (x : α) :
    Lockstep C n m pre 1 0 φ (Parser.extended choose step x) (Parser.extended choose step' (φ x)) :=
  remaining fun r r' hr hr' => (extend heof hstep r r' hr hr' x).whenever fun _ _ => trivial

theorem optionalList {nt : Nonterminal} (hitem : Lockstep C n m (fun _ => True) 1 0 φ item item') :
    Lockstep C n m pre 1 0 (List.map φ) (Parser.optionalList nt item)
      (Parser.optionalList nt item') := by
  refine peek (fun token _ => ?_) Nat.one_pos
  change Lockstep C n m _ 1 0 _ (if nt.starts token.kind then _ else _)
    (if nt.starts token.kind then _ else _)
  split
  · refine (hitem.whenever fun _ _ => trivial).bind (Nat.le_refl 1) fun x => ?_
    have hnext : Lockstep C n m (fun token => decide (token.kind = .comma)) 1 1 φ
        (Parser.advance >>= fun _ => item) (Parser.advance >>= fun _ => item') := by
      refine (advance.whenever fun token hcomma => ?_).bind (Nat.zero_le 1) fun _ => hitem
      rw [of_decide_eq_true hcomma]
      decide
    exact (repeated rfl hnext).bind (Nat.le_refl 1) fun xs => pure rfl
  · exact pure rfl

end

end Lockstep

end Parser

end MipsCompiler
