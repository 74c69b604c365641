import MipsCompiler.Parser.Program
import MipsCompiler.Proofs.Run

set_option autoImplicit false

/-!
# Steps of a parser

Every primitive parser is a function on parse states, and a run of it that ends well is an equation
between them. The loops are described by what their items do: `many_ok` for lists of items and
`extend_ok` for values that grow on the left.
-/

namespace MipsCompiler

/-- The streams that are reached by stepping past tokens. -/
inductive TokenStream.Ahead {σ : Type} [TokenStream σ] (s : σ) : σ → Prop
  | here : Ahead s s
  | later {t : σ} : Ahead s t → Ahead s (advance t)

namespace TokenStream.Ahead

variable {σ : Type} [TokenStream σ] {s t u : σ}

theorem next : Ahead s (advance s) :=
  .later .here

theorem trans (h : Ahead s t) (h' : Ahead t u) : Ahead s u := by
  induction h' with
  | here => exact h
  | later _ ih => exact .later ih

end TokenStream.Ahead

namespace ParseState

variable {σ : Type}

def token [TokenStream σ] (s : ParseState σ) : Token :=
  TokenStream.peek s.stream

def advance [TokenStream σ] (s : ParseState σ) : ParseState σ :=
  { s with stream := TokenStream.advance s.stream }

def node (s : ParseState σ) (pos : Position) : Node :=
  ⟨s.nodeCount, pos⟩

def numbered (s : ParseState σ) : ParseState σ :=
  { s with nodeCount := s.nodeCount + 1 }

def declare (s : ParseState σ) (name : Token) (kind : SymbolKind) : SymbolId × ParseState σ :=
  Parser.settle s (s.scope.declare ⟨name.lexeme, .void, kind, name.pos⟩)

def resolve (s : ParseState σ) (name : Token) : SymbolId × ParseState σ :=
  Parser.settle s (s.scope.resolve name.lexeme name.pos)

def retype (s : ParseState σ) (id : SymbolId) (ty : Ty) : ParseState σ :=
  { s with scope := s.scope.retype id ty }

def entered (s : ParseState σ) : ParseState σ :=
  { s with scope := s.scope.enter }

def exited (s : ParseState σ) : ParseState σ :=
  { s with scope := s.scope.exit }

/-- A scope is opened for a block that has one of its own. -/
def opened (ownScope : Bool) (s : ParseState σ) : ParseState σ :=
  if ownScope then s.entered else s

def closed (ownScope : Bool) (s : ParseState σ) : ParseState σ :=
  if ownScope then s.exited else s

section

variable [TokenStream σ] (s : ParseState σ)

@[simp] theorem advance_scope : s.advance.scope = s.scope := rfl

@[simp] theorem advance_log : s.advance.log = s.log := rfl

@[simp] theorem advance_nodeCount : s.advance.nodeCount = s.nodeCount := rfl

@[simp] theorem advance_stream : s.advance.stream = TokenStream.advance s.stream := rfl

end

section

variable (s : ParseState σ)

@[simp] theorem numbered_scope : s.numbered.scope = s.scope := rfl

@[simp] theorem numbered_log : s.numbered.log = s.log := rfl

@[simp] theorem numbered_nodeCount : s.numbered.nodeCount = s.nodeCount + 1 := rfl

@[simp] theorem numbered_stream : s.numbered.stream = s.stream := rfl

@[simp] theorem retype_scope (id : SymbolId) (ty : Ty) :
    (s.retype id ty).scope = s.scope.retype id ty := rfl

@[simp] theorem retype_log (id : SymbolId) (ty : Ty) : (s.retype id ty).log = s.log := rfl

@[simp] theorem retype_nodeCount (id : SymbolId) (ty : Ty) :
    (s.retype id ty).nodeCount = s.nodeCount := rfl

@[simp] theorem retype_stream (id : SymbolId) (ty : Ty) :
    (s.retype id ty).stream = s.stream := rfl

@[simp] theorem entered_scope : s.entered.scope = s.scope.enter := rfl

@[simp] theorem entered_log : s.entered.log = s.log := rfl

@[simp] theorem entered_nodeCount : s.entered.nodeCount = s.nodeCount := rfl

@[simp] theorem entered_stream : s.entered.stream = s.stream := rfl

@[simp] theorem exited_scope : s.exited.scope = s.scope.exit := rfl

@[simp] theorem exited_log : s.exited.log = s.log := rfl

@[simp] theorem exited_nodeCount : s.exited.nodeCount = s.nodeCount := rfl

@[simp] theorem exited_stream : s.exited.stream = s.stream := rfl

@[simp] theorem opened_log (ownScope : Bool) : (s.opened ownScope).log = s.log := by
  cases ownScope <;> rfl

@[simp] theorem opened_nodeCount (ownScope : Bool) :
    (s.opened ownScope).nodeCount = s.nodeCount := by
  cases ownScope <;> rfl

@[simp] theorem opened_stream (ownScope : Bool) : (s.opened ownScope).stream = s.stream := by
  cases ownScope <;> rfl

@[simp] theorem closed_log (ownScope : Bool) : (s.closed ownScope).log = s.log := by
  cases ownScope <;> rfl

@[simp] theorem closed_nodeCount (ownScope : Bool) :
    (s.closed ownScope).nodeCount = s.nodeCount := by
  cases ownScope <;> rfl

@[simp] theorem closed_stream (ownScope : Bool) : (s.closed ownScope).stream = s.stream := by
  cases ownScope <;> rfl

end

section

variable {s t : ParseState σ} {name : Token} {kind : SymbolKind} {id : SymbolId}

theorem declare_nodeCount (h : s.declare name kind = (id, t)) : t.nodeCount = s.nodeCount :=
  (congrArg (fun answer => answer.2.nodeCount) h).symm

theorem declare_ahead [TokenStream σ] (h : s.declare name kind = (id, t)) :
    TokenStream.Ahead s.stream t.stream := by
  have hstream : s.stream = t.stream := congrArg (fun answer => answer.2.stream) h
  exact hstream ▸ .here

theorem resolve_nodeCount (h : s.resolve name = (id, t)) : t.nodeCount = s.nodeCount :=
  (congrArg (fun answer => answer.2.nodeCount) h).symm

theorem resolve_ahead [TokenStream σ] (h : s.resolve name = (id, t)) :
    TokenStream.Ahead s.stream t.stream := by
  have hstream : s.stream = t.stream := congrArg (fun answer => answer.2.stream) h
  exact hstream ▸ .here

end

end ParseState

namespace Parser

/-- The items of a list, each read from where the one before it ended. -/
inductive Items {σ α : Type} (R : ParseState σ → α → ParseState σ → Prop) :
    ParseState σ → List α → ParseState σ → Prop
  | nil {s : ParseState σ} : Items R s [] s
  | cons {s t u : ParseState σ} {a : α} {as : List α} :
      R s a t → Items R t as u → Items R s (a :: as) u

section

variable {σ : Type} {s t : ParseState σ}

theorem Items.keeps {α β : Type} {R : ParseState σ → α → ParseState σ → Prop}
    {f : ParseState σ → β} (hR : ∀ s a t, R s a t → f t = f s) {as : List α}
    (h : Items R s as t) : f t = f s := by
  induction h with
  | nil => rfl
  | cons hitem _ ih => exact ih.trans (hR _ _ _ hitem)

theorem freshNode_ok {pos : Position} {node : Node} :
    freshNode pos s = .ok node t ↔ node = s.node pos ∧ t = s.numbered :=
  result_ok

theorem declare_ok {name : Token} {kind : SymbolKind} {id : SymbolId} :
    declare name kind s = .ok id t ↔ s.declare name kind = (id, t) := by
  change EStateM.Result.ok (s.declare name kind).1 (s.declare name kind).2 = _ ↔ _
  rw [EStateM.Result.ok.injEq, Prod.ext_iff]

theorem resolve_ok {name : Token} {id : SymbolId} :
    resolve name s = .ok id t ↔ s.resolve name = (id, t) := by
  change EStateM.Result.ok (s.resolve name).1 (s.resolve name).2 = _ ↔ _
  rw [EStateM.Result.ok.injEq, Prod.ext_iff]

theorem retype_ok {id : SymbolId} {ty : Ty} {a : PUnit} :
    retype id ty s = .ok a t ↔ t = s.retype id ty := by
  change EStateM.Result.ok PUnit.unit (s.retype id ty) = _ ↔ _
  simp [eq_comm]

theorem typesOf_ok {ids : List SymbolId} {types : List Ty} :
    typesOf ids s = .ok types t ↔ types = ids.map (fun id => (s.scope.symbol id).ty) ∧ t = s :=
  result_ok

theorem enterScope_ok {a : PUnit} : enterScope s = .ok a t ↔ t = s.entered := by
  change EStateM.Result.ok PUnit.unit s.entered = _ ↔ _
  simp [eq_comm]

theorem exitScope_ok {a : PUnit} : exitScope s = .ok a t ↔ t = s.exited := by
  change EStateM.Result.ok PUnit.unit s.exited = _ ↔ _
  simp [eq_comm]

end

variable {σ : Type} [TokenStream σ] {α β : Type} {s t : ParseState σ}

theorem peek_ok {token : Token} : peek s = .ok token t ↔ token = s.token ∧ t = s :=
  result_ok

theorem remaining_ok {n : Nat} :
    remaining s = .ok n t ↔ n = TokenStream.remaining s.stream ∧ t = s :=
  result_ok

theorem advance_ok {token : Token} :
    advance s = .ok token t ↔ token = s.token ∧ t = s.advance :=
  result_ok

theorem refuse_ok {expected : String} {a : α} : ¬ refuse expected s = .ok a t := by
  intro h
  obtain ⟨_, _, _, h⟩ := bind_ok.1 h
  exact throw_ok h

theorem refuseFor_ok {nt : Nonterminal} {a : α} : ¬ refuseFor nt s = .ok a t :=
  refuse_ok

theorem expect_ok {kind : TokenKind} {token : Token} :
    expect kind s = .ok token t ↔ s.token.kind = kind ∧ token = s.token ∧ t = s.advance := by
  simp only [expect, bind_ok, peek_ok, and_assoc, exists_and_left, exists_eq_left]
  split
  · next hk => simp only [advance_ok, hk, true_and]
  · next hk => simp only [refuse_ok, hk, false_and]

theorem typeName_ok {ty : Ty} :
    typeName s = .ok ty t ↔
      s.token.kind = .identifier ∧ ty = Ty.ofName s.token.lexeme ∧ t = s.advance := by
  simp only [typeName, bind_ok, expect_ok, pure_ok, and_assoc, exists_and_left, exists_eq_left]

theorem many_ok {test : TokenKind → Bool} {item : Parser σ α}
    {R : ParseState σ → α → ParseState σ → Prop}
    (hitem : ∀ s a t, test s.token.kind → item s = .ok a t → R s a t) (n : Nat) (as : List α)
    (h : many test item n s = .ok as t) : Items R s as t := by
  induction n generalizing s as with
  | zero =>
    obtain ⟨rfl, rfl⟩ := pure_ok.1 h
    exact .nil
  | succ n ih =>
    simp only [many, bind_ok, peek_ok, and_assoc, exists_and_left, exists_eq_left] at h
    split at h
    · next htest =>
      simp only [bind_ok, pure_ok] at h
      obtain ⟨a, t', ha, as', u, has, rfl, rfl⟩ := h
      exact .cons (hitem _ a t' htest ha) (ih as' has)
    · obtain ⟨rfl, rfl⟩ := pure_ok.1 h
      exact .nil

theorem repeated_ok {test : TokenKind → Bool} {item : Parser σ α}
    {R : ParseState σ → α → ParseState σ → Prop}
    (hitem : ∀ s a t, test s.token.kind → item s = .ok a t → R s a t) {as : List α}
    (h : repeated test item s = .ok as t) : Items R s as t := by
  simp only [repeated, bind_ok, remaining_ok, and_assoc, exists_and_left, exists_eq_left] at h
  exact many_ok hitem _ as h

/-- A property of the value and the state that each extension keeps. -/
theorem extend_ok {choose : TokenKind → Option β} {step : α → β → Parser σ α}
    {R : α → ParseState σ → Prop}
    (hstep : ∀ a b s a' t, R a s → choose s.token.kind = some b → step a b s = .ok a' t → R a' t)
    (n : Nat) {a a' : α} (ha : R a s) (h : extend choose step n a s = .ok a' t) : R a' t := by
  induction n generalizing s a with
  | zero =>
    obtain ⟨rfl, rfl⟩ := pure_ok.1 h
    exact ha
  | succ n ih =>
    simp only [extend, bind_ok, peek_ok, and_assoc, exists_and_left, exists_eq_left] at h
    cases hb : choose s.token.kind with
    | none =>
      rw [hb] at h
      obtain ⟨rfl, rfl⟩ := pure_ok.1 h
      exact ha
    | some b =>
      rw [hb] at h
      obtain ⟨a₁, t₁, h₁, h⟩ := bind_ok.1 h
      exact ih (hstep _ _ _ _ _ ha hb h₁) h

theorem extended_ok {choose : TokenKind → Option β} {step : α → β → Parser σ α}
    {R : α → ParseState σ → Prop}
    (hstep : ∀ a b s a' t, R a s → choose s.token.kind = some b → step a b s = .ok a' t → R a' t)
    {a a' : α} (ha : R a s) (h : extended choose step a s = .ok a' t) : R a' t := by
  simp only [extended, bind_ok, remaining_ok, and_assoc, exists_and_left, exists_eq_left] at h
  exact extend_ok hstep _ ha h

end Parser

def ParseState.start {σ : Type} (stream : σ) : ParseState σ :=
  ⟨stream, Scope.initial, [], 0⟩

section

variable {σ : Type} [TokenStream σ] {stream : σ} {s : ParseState σ}

theorem parse_of_ok {tree : Tree} (h : Parser.program (.start stream) = .ok tree s) :
    parse stream = ⟨tree, s.scope.symbols, s.log, s.nodeCount⟩ := by
  unfold parse
  rw [EStateM.run, ← ParseState.start, h]

theorem parse_of_error {d : Diagnostic} (h : Parser.program (.start stream) = .error d s) :
    parse stream =
      ⟨.error ⟨s.nodeCount, d.pos⟩ d.line, s.scope.symbols, s.log ++ [d], s.nodeCount + 1⟩ := by
  unfold parse
  rw [EStateM.run, ← ParseState.start, h]

end

end MipsCompiler
