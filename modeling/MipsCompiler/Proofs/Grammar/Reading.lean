import MipsCompiler.Proofs.Grammar.Syntax
import MipsCompiler.Token.Stream

set_option autoImplicit false

/-!
# Sentences in a stream

`Spans` says that the tokens between two places of a stream are a sentence. It follows the grammar
part by part, as relations between places: a sequence goes through a place between its parts, and a
repetition takes any number of steps.
-/

namespace MipsCompiler

inductive Repeats {σ : Type} (R : σ → σ → Prop) : σ → σ → Prop
  | done {s : σ} : Repeats R s s
  | next {s t u : σ} : R s t → Repeats R t u → Repeats R s u

theorem Repeats.concat {σ : Type} {R : σ → σ → Prop} {s t u : σ} (h : Repeats R s t) (hlast : R t u) :
    Repeats R s u := by
  induction h with
  | done => exact .next hlast .done
  | next hfirst _ ih => exact .next hfirst (ih hlast)

variable {σ : Type} [TokenStream σ]

namespace TokenStream

/-- The tokens between two places, none of them an end marker. -/
inductive Between : σ → List Token → σ → Prop
  | nil {s : σ} : Between s [] s
  | cons {s t : σ} {tokens : List Token} :
      (peek s).kind ≠ .eof → Between (advance s) tokens t → Between s (peek s :: tokens) t

theorem between_append {s u : σ} {front rest : List Token} :
    Between s (front ++ rest) u ↔ ∃ t, Between s front t ∧ Between t rest u := by
  constructor
  · intro h
    induction front generalizing s with
    | nil => exact ⟨s, .nil, h⟩
    | cons token front ih =>
      cases h with
      | cons hkind h =>
        obtain ⟨t, hfront, hrest⟩ := ih h
        exact ⟨t, .cons hkind hfront, hrest⟩
  · rintro ⟨t, hfront, hrest⟩
    induction hfront with
    | nil => exact hrest
    | cons hkind _ ih => exact .cons hkind (ih hrest)

theorem between_one {s t : σ} {token : Token} :
    Between s [token] t ↔ token = peek s ∧ (peek s).kind ≠ .eof ∧ t = advance s := by
  constructor
  · intro h
    cases h with
    | cons hkind h =>
      cases h
      exact ⟨rfl, hkind, rfl⟩
  · rintro ⟨rfl, hkind, rfl⟩
    exact .cons hkind .nil

theorem repeats_between {P : List Token → Prop} {s t : σ} :
    Repeats (fun s t => ∃ tokens, Between s tokens t ∧ P tokens) s t ↔
      ∃ pieces : List (List Token), Between s pieces.flatten t ∧ ∀ piece ∈ pieces, P piece := by
  constructor
  · intro h
    induction h with
    | done => exact ⟨[], .nil, fun _ h => absurd h List.not_mem_nil⟩
    | next hfirst _ ih =>
      obtain ⟨piece, hpiece, hP⟩ := hfirst
      obtain ⟨pieces, hpieces, hPs⟩ := ih
      exact ⟨piece :: pieces, between_append.2 ⟨_, hpiece, hpieces⟩,
        List.forall_mem_cons.2 ⟨hP, hPs⟩⟩
  · rintro ⟨pieces, hbetween, hPs⟩
    induction pieces generalizing s with
    | nil =>
      cases hbetween
      exact .done
    | cons piece pieces ih =>
      obtain ⟨u, hpiece, hpieces⟩ := between_append.1 hbetween
      obtain ⟨hP, hPs⟩ := List.forall_mem_cons.1 hPs
      exact .next ⟨piece, hpiece, hP⟩ (ih hpieces hPs)

theorem Between.remaining_le {s t : σ} {tokens : List Token} (h : Between s tokens t) :
    remaining t ≤ remaining s := by
  induction h with
  | nil => exact Nat.le_refl _
  | cons hkind _ ih => exact Nat.le_trans ih (Nat.le_of_lt (remaining_advance _ hkind))

end TokenStream

open TokenStream

theorem yields_repeated_tokens {e : Ebnf} {tokens : List Token} :
    Yields (.repeated e) (tokens.map Token.kind) ↔
      ∃ pieces : List (List Token), tokens = pieces.flatten ∧
        ∀ piece ∈ pieces, Yields e (piece.map Token.kind) := by
  rw [yields_repeated]
  constructor
  · rintro ⟨pieces, hkinds, hpieces⟩
    induction pieces generalizing tokens with
    | nil => exact ⟨[], List.map_eq_nil_iff.1 hkinds, fun _ h => absurd h List.not_mem_nil⟩
    | cons piece pieces ih =>
      obtain ⟨front, rest, rfl, rfl, hrest⟩ := List.map_eq_append_iff.1 hkinds
      obtain ⟨hfront, hpieces⟩ := List.forall_mem_cons.1 hpieces
      obtain ⟨others, rfl, hothers⟩ := ih hrest hpieces
      exact ⟨front :: others, rfl, List.forall_mem_cons.2 ⟨hfront, hothers⟩⟩
  · rintro ⟨pieces, rfl, hpieces⟩
    refine ⟨pieces.map (List.map Token.kind), List.map_flatten, ?_⟩
    exact List.forall_mem_map.2 hpieces

/-- A sentence stands between two places, and its tokens all fit. -/
def Spans (fits : Token → Prop) (e : Ebnf) (s t : σ) : Prop :=
  ∃ tokens, Between s tokens t ∧ Yields e (tokens.map Token.kind) ∧ ∀ x ∈ tokens, fits x

/-- The next token has this kind and fits. -/
def Takes (fits : Token → Prop) (kind : TokenKind) (s : σ) : Prop :=
  (peek s).kind = kind ∧ kind ≠ .eof ∧ fits (peek s)

section

variable {fits : Token → Prop} {s t u : σ} {e : Ebnf}

namespace Takes

variable {kind : TokenKind}

theorem follows {P : TokenKind → Prop} (h : Takes fits kind s) (hkind : P kind) : P (peek s).kind :=
  h.1.symm ▸ hkind

theorem remaining_lt (h : Takes fits kind s) : remaining (advance s) < remaining s := by
  apply remaining_advance
  rw [h.1]
  exact h.2.1

end Takes

theorem spans_token {kind : TokenKind} :
    Spans fits (.token kind) s t ↔ Takes fits kind s ∧ t = advance s := by
  constructor
  · rintro ⟨tokens, hbetween, hyields, hfits⟩
    obtain ⟨token, rfl, hkind⟩ := List.map_eq_singleton_iff.1 (yields_token.1 hyields)
    obtain ⟨rfl, heof, rfl⟩ := between_one.1 hbetween
    exact ⟨⟨hkind, hkind ▸ heof, hfits _ List.mem_cons_self⟩, rfl⟩
  · rintro ⟨⟨hkind, heof, hfits⟩, rfl⟩
    refine ⟨[peek s], between_one.2 ⟨rfl, hkind ▸ heof, rfl⟩, ?_, ?_⟩
    · exact yields_token.2 (congrArg (fun kind => [kind]) hkind)
    · exact List.forall_mem_singleton.2 hfits

theorem spans_category {c : Category} :
    Spans fits (.category c) s t ↔ Spans fits c.rule s t := by
  simp only [Spans, yields_category]

theorem spans_nil : Spans fits (.sequence []) s t ↔ t = s := by
  constructor
  · rintro ⟨tokens, hbetween, hyields, _⟩
    obtain rfl := List.map_eq_nil_iff.1 (yields_nil.1 hyields)
    cases hbetween
    rfl
  · rintro rfl
    exact ⟨[], .nil, .nil, fun _ h => absurd h List.not_mem_nil⟩

theorem spans_cons {parts : List Ebnf} :
    Spans fits (.sequence (e :: parts)) s u ↔
      ∃ t, Spans fits e s t ∧ Spans fits (.sequence parts) t u := by
  constructor
  · rintro ⟨tokens, hbetween, hyields, hfits⟩
    obtain ⟨_, _, hkinds, hpart, hparts⟩ := yields_cons.1 hyields
    obtain ⟨front, rest, rfl, rfl, rfl⟩ := List.map_eq_append_iff.1 hkinds
    obtain ⟨t, hfront, hrest⟩ := between_append.1 hbetween
    obtain ⟨hfitsFront, hfitsRest⟩ := List.forall_mem_append.1 hfits
    exact ⟨t, ⟨front, hfront, hpart, hfitsFront⟩, ⟨rest, hrest, hparts, hfitsRest⟩⟩
  · rintro ⟨t, ⟨front, hfront, hpart, hfitsFront⟩, ⟨rest, hrest, hparts, hfitsRest⟩⟩
    refine ⟨front ++ rest, between_append.2 ⟨t, hfront, hrest⟩, ?_,
      List.forall_mem_append.2 ⟨hfitsFront, hfitsRest⟩⟩
    rw [List.map_append]
    exact .cons hpart hparts

theorem spans_choice {alternatives : List Ebnf} :
    Spans fits (.choice alternatives) s t ↔ ∃ e ∈ alternatives, Spans fits e s t := by
  constructor
  · rintro ⟨tokens, hbetween, hyields, hfits⟩
    obtain ⟨e, hmem, he⟩ := yields_choice.1 hyields
    exact ⟨e, hmem, tokens, hbetween, he, hfits⟩
  · rintro ⟨e, hmem, tokens, hbetween, he, hfits⟩
    exact ⟨tokens, hbetween, .choice hmem he, hfits⟩

theorem spans_tokens {c : Category} {kinds : List TokenKind}
    (hrule : c.rule = .choice (kinds.map .token)) :
    Spans fits (.category c) s t ↔
      (peek s).kind ∈ kinds ∧ Takes fits (peek s).kind s ∧ t = advance s := by
  rw [spans_category, hrule, spans_choice]
  constructor
  · rintro ⟨e, hmem, he⟩
    obtain ⟨kind, hkind, rfl⟩ := List.mem_map.1 hmem
    obtain ⟨htakes, rfl⟩ := spans_token.1 he
    obtain rfl := htakes.1
    exact ⟨hkind, htakes, rfl⟩
  · rintro ⟨hkind, htakes, rfl⟩
    exact ⟨_, List.mem_map_of_mem hkind, spans_token.2 ⟨htakes, rfl⟩⟩

theorem spans_optional : Spans fits (.optional e) s t ↔ t = s ∨ Spans fits e s t := by
  constructor
  · rintro ⟨tokens, hbetween, hyields, hfits⟩
    rcases yields_optional.1 hyields with hnil | he
    · obtain rfl := List.map_eq_nil_iff.1 hnil
      cases hbetween
      exact .inl rfl
    · exact .inr ⟨tokens, hbetween, he, hfits⟩
  · rintro (rfl | ⟨tokens, hbetween, he, hfits⟩)
    · exact ⟨[], .nil, .absent, fun _ h => absurd h List.not_mem_nil⟩
    · exact ⟨tokens, hbetween, .present he, hfits⟩

theorem spans_repeated : Spans fits (.repeated e) s t ↔ Repeats (Spans fits e) s t := by
  have hpieces := repeats_between (s := s) (t := t)
    (P := fun tokens => Yields e (tokens.map Token.kind) ∧ ∀ x ∈ tokens, fits x)
  refine Iff.trans ?_ hpieces.symm
  constructor
  · rintro ⟨tokens, hbetween, hyields, hfits⟩
    obtain ⟨pieces, rfl, hpieces⟩ := yields_repeated_tokens.1 hyields
    refine ⟨pieces, hbetween, fun piece hpiece => ⟨hpieces piece hpiece, fun x hx => ?_⟩⟩
    exact hfits x (List.mem_flatten_of_mem hpiece hx)
  · rintro ⟨pieces, hbetween, hpieces⟩
    refine ⟨pieces.flatten, hbetween,
      yields_repeated_tokens.2 ⟨pieces, rfl, fun piece hpiece => (hpieces piece hpiece).1⟩, ?_⟩
    intro x hx
    obtain ⟨piece, hpiece, hx⟩ := List.mem_flatten.1 hx
    exact (hpieces piece hpiece).2 x hx

namespace Spans

theorem rule {c : Category} (h : Spans fits c.rule s t) : Spans fits (.category c) s t :=
  spans_category.2 h

theorem alternative {c : Category} {alternatives : List Ebnf} (hrule : c.rule = .choice alternatives)
    (hmem : e ∈ alternatives) (h : Spans fits e s t) : Spans fits (.category c) s t := by
  apply rule
  rw [hrule]
  exact spans_choice.2 ⟨e, hmem, h⟩

theorem finish : Spans fits (.sequence []) s s :=
  spans_nil.2 rfl

theorem part {parts : List Ebnf} (h : Spans fits e s t) (hrest : Spans fits (.sequence parts) t u) :
    Spans fits (.sequence (e :: parts)) s u :=
  spans_cons.2 ⟨t, h, hrest⟩

theorem token {kind : TokenKind} {parts : List Ebnf} (h : Takes fits kind s)
    (hrest : Spans fits (.sequence parts) (advance s) t) :
    Spans fits (.sequence (.token kind :: parts)) s t :=
  part (spans_token.2 ⟨h, rfl⟩) hrest

theorem append {parts others : List Ebnf} (h : Spans fits (.sequence parts) s t)
    (hrest : Spans fits (.sequence others) t u) : Spans fits (.sequence (parts ++ others)) s u := by
  induction parts generalizing s with
  | nil =>
    obtain rfl := spans_nil.1 h
    exact hrest
  | cons _ parts ih =>
    obtain ⟨v, hfirst, hparts⟩ := spans_cons.1 h
    exact part hfirst (ih hparts)

theorem absent : Spans fits (.optional e) s s :=
  spans_optional.2 (.inl rfl)

theorem present (h : Spans fits e s t) : Spans fits (.optional e) s t :=
  spans_optional.2 (.inr h)

theorem none : Spans fits (.repeated e) s s :=
  spans_repeated.2 .done

theorem more (h : Spans fits e s t) (hrest : Spans fits (.repeated e) t u) :
    Spans fits (.repeated e) s u :=
  spans_repeated.2 (.next h (spans_repeated.1 hrest))

theorem concat {c : Category} {first item : Ebnf} (hrule : c.rule = .sequence [first, .repeated item])
    (h : Spans fits (.category c) s t) (hitem : Spans fits item t u) :
    Spans fits (.category c) s u := by
  rw [spans_category, hrule] at h ⊢
  simp only [spans_cons, spans_nil, spans_repeated] at h ⊢
  obtain ⟨v, hfirst, w, hitems, rfl⟩ := h
  exact ⟨v, hfirst, u, hitems.concat hitem, rfl⟩

theorem remaining_le (h : Spans fits e s t) : remaining t ≤ remaining s := by
  obtain ⟨tokens, hbetween, _⟩ := h
  exact hbetween.remaining_le

theorem next_kind {c : Category} {kind : TokenKind} {parts : List Ebnf}
    (hrule : c.rule = .sequence (.token kind :: parts)) (h : Spans fits (.category c) s t) :
    (peek s).kind = kind := by
  rw [spans_category, hrule, spans_cons] at h
  obtain ⟨_, hfirst, _⟩ := h
  exact (spans_token.1 hfirst).1.1

theorem starts {kinds : List TokenKind} (hstart : e.StartsIn kinds) (h : Spans fits e s t) :
    (peek s).kind ∈ kinds ∧ remaining t < remaining s := by
  obtain ⟨tokens, hbetween, hyields, _⟩ := h
  obtain ⟨kind, rest, hkinds, hkind⟩ := hstart _ hyields
  cases hbetween with
  | nil => nomatch hkinds
  | cons heof hrest =>
    obtain ⟨rfl, _⟩ := List.cons.inj hkinds
    exact ⟨hkind, Nat.lt_of_le_of_lt hrest.remaining_le (remaining_advance s heof)⟩

end Spans

end

end MipsCompiler
