import MipsCompiler.Proofs.Grammar.Acceptance
import MipsCompiler.Proofs.Parsing.Lockstep
import MipsCompiler.Proofs.Printing.Text

set_option autoImplicit false

/-!
# Expressions are read back from their text

A parser that stands before the text of an expression, with a token behind it that cannot continue
it, gives back the expression. The loops of the tiers and of designators grow their result on the
left, as the text does: `Continues` says that once a loop has read the text of its left part it goes
on with that part as its value, whatever stands behind.
-/

namespace MipsCompiler

/-- Tokens of these spellings stand between two places. -/
def TokenStream.Shows {σ : Type} [TokenStream σ] (text : List Spelling) (s t : σ) : Prop :=
  ∃ tokens, Between s tokens t ∧ tokens.map Token.spelling = text

namespace TokenStream.Shows

variable {σ : Type} [TokenStream σ] {s t u : σ} {text : List Spelling}

theorem next {kind : TokenKind} {lexeme : String} (h : Shows ((kind, lexeme) :: text) s t) :
    ((peek s).kind = kind ∧ (peek s).lexeme = lexeme) ∧ remaining (advance s) < remaining s ∧
      Shows text (advance s) t := by
  obtain ⟨tokens, hbetween, htokens⟩ := h
  cases hbetween with
  | nil => cases htokens
  | cons heof hrest =>
    obtain ⟨hfirst, hothers⟩ := List.cons.inj htokens
    exact ⟨Prod.mk.inj hfirst, remaining_advance s heof, _, hrest, hothers⟩

theorem done (h : Shows [] s t) : t = s := by
  obtain ⟨tokens, hbetween, htokens⟩ := h
  obtain rfl := List.map_eq_nil_iff.1 htokens
  cases hbetween
  rfl

theorem split {front rest : List Spelling} (h : Shows (front ++ rest) s u) :
    ∃ t, Shows front s t ∧ Shows rest t u := by
  obtain ⟨tokens, hbetween, htokens⟩ := h
  obtain ⟨before, behind, rfl, hbefore, hbehind⟩ := List.map_eq_append_iff.1 htokens
  obtain ⟨t, hfront, hrest⟩ := between_append.1 hbetween
  exact ⟨t, ⟨before, hfront, hbefore⟩, ⟨behind, hrest, hbehind⟩⟩

theorem remaining_le (h : Shows text s t) : remaining t ≤ remaining s := by
  obtain ⟨tokens, hbetween, _⟩ := h
  exact hbetween.remaining_le

theorem spans {e : Ebnf} (h : Shows text s t) (hyields : Yields e (kindsOf text)) :
    Spans (fun _ => True) e s t := by
  obtain ⟨tokens, hbetween, rfl⟩ := h
  rw [kindsOf, List.map_map] at hyields
  exact ⟨tokens, hbetween, hyields, fun _ _ => trivial⟩

end TokenStream.Shows

open TokenStream (Shows)

def Scope.printer (scope : Scope) (decimal : Single → String) : Printer :=
  ⟨fun id => (scope.symbol id).name, decimal⟩

/-- The names of a phrase mean their symbols in the scope, and the decimals of its floats are read
back. -/
structure Printer.Suits (printer : Printer) (scope : Scope) (phrase : Phrase) : Prop where
  names : ∀ id ∈ phrase.mentions, scope.find? (printer.name id) = some id
  floats : ∀ node value, Expr.literal node (.float value) ∈ phrase.subexprs →
    Single.ofText? (printer.decimal value) = some value

theorem Printer.Suits.part {printer : Printer} {scope : Scope} {whole phrase : Phrase}
    (h : printer.Suits scope whole) (hmentions : phrase.mentions ⊆ whole.mentions)
    (hsubexprs : phrase.subexprs ⊆ whole.subexprs) : printer.Suits scope phrase :=
  ⟨fun id hid => h.names id (hmentions hid),
    fun node value hvalue => h.floats node value (hsubexprs hvalue)⟩

namespace Parser

variable {σ : Type}

/-- Started in the scope at one place of the stream, the parser ends well at another with such a
result, and leaves the scope and the log as they are. -/
def Gives {α : Type} (scope : Scope) (p : Parser σ α) (s t : σ) (good : α → Prop) : Prop :=
  ∀ state : ParseState σ, state.stream = s → state.scope = scope →
    ∃ a later, p state = .ok a later ∧ good a ∧ later.stream = t ∧ later.scope = scope ∧
      later.log = state.log

namespace Gives

variable {scope : Scope} {α β : Type} {s t u : σ} {good : α → Prop}

theorem pure {a : α} (h : good a) : Gives scope (Pure.pure a : Parser σ α) s s good := by
  intro state hstream hscope
  exact ⟨a, state, rfl, h, hstream, hscope, rfl⟩

theorem bind {p : Parser σ β} {f : β → Parser σ α} {goodFirst : β → Prop}
    (hp : Gives scope p s t goodFirst) (hf : ∀ b, goodFirst b → Gives scope (f b) t u good) :
    Gives scope (p >>= f) s u good := by
  intro state hstream hscope
  obtain ⟨b, middle, hfirst, hb, hstream, hscope, hlog⟩ := hp state hstream hscope
  obtain ⟨a, later, hrest, ha, hend⟩ := hf b hb middle hstream hscope
  exact ⟨a, later, bind_ok.2 ⟨b, middle, hfirst, hrest⟩, ha, hlog ▸ hend⟩

theorem freshNode {pos : Position} : Gives scope (Parser.freshNode pos) s s fun _ => True := by
  intro state hstream hscope
  exact ⟨_, _, rfl, trivial, hstream, hscope, rfl⟩

theorem node {pos : Position} {f : Node → α} (h : ∀ node, good (f node)) :
    Gives scope (do return f (← Parser.freshNode pos)) s s good :=
  .bind freshNode fun node _ => .pure (h node)

theorem resolve {name : Token} {id : SymbolId} (h : scope.find? name.lexeme = some id) :
    Gives scope (Parser.resolve name) s s (· = id) := by
  rintro state hstream rfl
  have hanswer : state.scope.resolve name.lexeme name.pos = ⟨state.scope, id, none⟩ := by
    rw [Scope.resolve, h]
  have hrun : state.resolve name = (id, state) := by
    simp [ParseState.resolve, settle, hanswer]
  exact ⟨id, state, resolve_ok.2 hrun, rfl, hstream, rfl, rfl⟩

variable [TokenStream σ]

theorem peek {f : Token → Parser σ α} (h : Gives scope (f (TokenStream.peek s)) s t good) :
    Gives scope (Parser.peek >>= f) s t good := by
  rintro state rfl
  exact h state rfl

theorem remaining {f : Nat → Parser σ α} (h : Gives scope (f (TokenStream.remaining s)) s t good) :
    Gives scope (Parser.remaining >>= f) s t good := by
  rintro state rfl
  exact h state rfl

theorem advance {f : Token → Parser σ α}
    (h : Gives scope (f (TokenStream.peek s)) (TokenStream.advance s) t good) :
    Gives scope (Parser.advance >>= f) s t good := by
  rintro state rfl
  exact h state.advance rfl

theorem expect {kind : TokenKind} {f : Token → Parser σ α}
    (hkind : (TokenStream.peek s).kind = kind)
    (h : Gives scope (f (TokenStream.peek s)) (TokenStream.advance s) t good) :
    Gives scope (Parser.expect kind >>= f) s t good := by
  rintro state rfl hscope
  obtain ⟨a, later, hrun, hend⟩ := h state.advance rfl hscope
  exact ⟨a, later, bind_ok.2 ⟨_, _, expect_ok.2 ⟨hkind, rfl, rfl⟩, hrun⟩, hend⟩

theorem extend_done {choose : TokenKind → Option β} {step : α → β → Parser σ α} {a : α} {n : Nat}
    (hnext : choose (TokenStream.peek s).kind = none) (h : good a) :
    Gives scope (extend choose step n a) s s good := by
  rintro state rfl hscope
  exact ⟨a, state, extend_stop hnext n a, h, rfl, hscope, rfl⟩

end Gives

variable [TokenStream σ]

/-- A loop that reads the text of a left part goes on behind it with such a value. -/
def Continues {α β : Type} (scope : Scope) (p : Parser σ α) (choose : TokenKind → Option β)
    (step : α → β → Parser σ α) (s t : σ) (good : α → Prop) : Prop :=
  ∀ u final,
    (∀ a n, good a → TokenStream.remaining t ≤ n → Gives scope (extend choose step n a) t u final) →
      Gives scope p s u final

namespace Continues

variable {scope : Scope} {α β : Type} {p : Parser σ α} {choose : TokenKind → Option β}
  {step : α → β → Parser σ α} {s t u : σ} {good : α → Prop}

theorem start (h : Gives scope p s t good) :
    Continues scope (do extended choose step (← p)) choose step s t good := by
  intro u final hrest
  exact .bind h fun a ha => .remaining (hrest a _ ha (Nat.le_refl _))

theorem next {b : β} {better : α → Prop} (h : Continues scope p choose step s t good)
    (hchoice : choose (TokenStream.peek t).kind = some b)
    (hlt : TokenStream.remaining u < TokenStream.remaining t)
    (hstep : ∀ a, good a → Gives scope (step a b) t u better) :
    Continues scope p choose step s u better := by
  intro v final hrest
  refine h v final fun a n ha hn => ?_
  cases n with
  | zero => omega
  | succ n =>
    refine .peek ?_
    simp only [hchoice]
    exact .bind (hstep a ha) fun a' ha' => hrest a' n ha' (by omega)

theorem finish (h : Continues scope p choose step s t good)
    (hnext : choose (TokenStream.peek t).kind = none) : Gives scope p s t good :=
  h t good fun _ _ ha _ => .extend_done hnext ha

end Continues

def atStrength (operand : Parser σ Expr) : Nat → Parser σ Expr
  | 0 => comparison operand
  | 1 => sum operand
  | 2 => chain .product operand
  | _ => operand

section

variable (σ) (printer : Printer) (scope : Scope)

/-- The text of an expression is read back. -/
def ReadsWhole (e : Expr) : Prop :=
  ∀ (n : Nat) (s t : σ), TokenStream.remaining s ≤ n → Shows (e.printed printer) s t →
    Halts e.nextLeast e.endsOpen (TokenStream.peek t).kind →
    Gives scope (comparison (operand n)) s t fun a => a.skeleton = e.skeleton

/-- The text of an expression is read back where a strength is asked for. -/
def ReadsAt (least : Nat) (e : Expr) : Prop :=
  ∀ (n : Nat) (s t : σ), TokenStream.remaining s ≤ n →
    Shows (e.enclosed least (e.printed printer)) s t →
    Halts least (e.opensAt least) (TokenStream.peek t).kind →
    Gives scope (atStrength (operand n) least) s t fun a => a.skeleton = e.skeleton

/-- The loop of a tier goes on behind the text of an expression. -/
def ReadsOn (tier : Tier) (e : Expr) : Prop :=
  ∀ (n : Nat) (s t : σ), TokenStream.remaining s ≤ n →
    Shows (e.enclosed tier.strength (e.printed printer)) s t →
    Halts (tier.strength + 1) (e.opensAt tier.strength) (TokenStream.peek t).kind →
    Continues scope (atStrength (operand n) tier.strength) tier.operator?
      (binary (atStrength (operand n) (tier.strength + 1))) s t fun a => a.skeleton = e.skeleton

structure Restores (e : Expr) : Prop where
  whole : ReadsWhole σ printer scope e
  sums : ReadsOn σ printer scope .sum e
  sum : ReadsAt σ printer scope 1 e
  products : ReadsOn σ printer scope .product e
  product : ReadsAt σ printer scope 2 e
  operand : ReadsAt σ printer scope 3 e

end

section

variable {printer : Printer} {scope : Scope} {e : Expr}

theorem ReadsOn.of_item {tier : Tier} (htier : tier ≠ .comparison)
    (hstrength : e.strength ≠ tier.strength)
    (h : ReadsAt σ printer scope (tier.strength + 1) e) : ReadsOn σ printer scope tier e := by
  intro n s t hn hshows hhalts
  rw [Expr.enclosed_succ hstrength] at hshows
  rw [Expr.opensAt_succ hstrength] at hhalts
  have hitem := h n s t hn hshows hhalts
  cases tier with
  | comparison => exact absurd rfl htier
  | sum => exact .start hitem
  | product => exact .start hitem

theorem ReadsAt.of_loop {tier : Tier} (h : ReadsOn σ printer scope tier e) :
    ReadsAt σ printer scope tier.strength e := by
  intro n s t hn hshows hhalts
  have hloop := h n s t hn hshows (hhalts.mono (Nat.le_succ _))
  exact hloop.finish (hhalts.operator tier (Nat.le_refl _))

theorem ReadsWhole.of_sum (hstrength : e.strength ≠ 0) (h : ReadsAt σ printer scope 1 e) :
    ReadsWhole σ printer scope e := by
  intro n s t hn hshows hhalts
  have hone : 1 ≤ e.strength := Nat.one_le_iff_ne_zero.2 hstrength
  rw [Expr.nextLeast, if_neg hstrength] at hhalts
  have hsum : Gives scope (sum (Parser.operand n)) s t fun a => a.skeleton = e.skeleton := by
    refine h n s t hn ?_ ?_
    · rwa [Expr.enclosed_of_le hone]
    · rw [Expr.opensAt_of_le hone]
      exact hhalts.mono (Nat.zero_le 1)
  refine .bind hsum fun a ha => .peek ?_
  simp only [hhalts.operator .comparison (Nat.le_refl 0)]
  exact .pure ha

/-- What binds too loosely stands in parentheses. -/
theorem ReadsAt.of_whole (hstrength : e.strength < 3) (h : ReadsWhole σ printer scope e) :
    ReadsAt σ printer scope 3 e := by
  intro n s t hn hshows _
  rw [Expr.enclosed_of_lt hstrength] at hshows
  obtain ⟨⟨hopen, _⟩, hlt, hshows⟩ := hshows.next
  obtain ⟨u, hinner, hshows⟩ := hshows.split
  obtain ⟨⟨hclose, _⟩, _, hshows⟩ := hshows.next
  obtain rfl := hshows.done
  have hhalts : Halts e.nextLeast e.endsOpen (TokenStream.peek u).kind :=
    .of_mem (hclose ▸ List.mem_cons_self)
  cases n with
  | zero => omega
  | succ n =>
    refine .peek ?_
    simp only [hopen]
    refine .advance (.bind (h n _ u (by omega) hinner hhalts) fun a ha => ?_)
    exact .expect hclose (.pure ha)

namespace Restores

theorem of_operand (hstrength : e.strength = 3) (h : ReadsAt σ printer scope 3 e) :
    Restores σ printer scope e := by
  have hproducts : ReadsOn σ printer scope .product e :=
    .of_item (by decide) (hstrength ▸ by decide) h
  have hsums : ReadsOn σ printer scope .sum e :=
    .of_item (by decide) (hstrength ▸ by decide) (.of_loop hproducts)
  exact ⟨.of_sum (hstrength ▸ by decide) (.of_loop hsums), hsums, .of_loop hsums, hproducts,
    .of_loop hproducts, h⟩

theorem of_products (hstrength : e.strength = Tier.product.strength)
    (h : ReadsOn σ printer scope .product e) : Restores σ printer scope e := by
  have hsums : ReadsOn σ printer scope .sum e :=
    .of_item (by decide) (hstrength ▸ by decide) (.of_loop h)
  have hwhole : ReadsWhole σ printer scope e := .of_sum (hstrength ▸ by decide) (.of_loop hsums)
  exact ⟨hwhole, hsums, .of_loop hsums, h, .of_loop h, .of_whole (hstrength ▸ by decide) hwhole⟩

theorem of_sums (hstrength : e.strength = Tier.sum.strength)
    (h : ReadsOn σ printer scope .sum e) : Restores σ printer scope e := by
  have hwhole : ReadsWhole σ printer scope e := .of_sum (hstrength ▸ by decide) (.of_loop h)
  have hoperand : ReadsAt σ printer scope 3 e := .of_whole (hstrength ▸ by decide) hwhole
  have hproducts : ReadsOn σ printer scope .product e :=
    .of_item (by decide) (hstrength ▸ by decide) hoperand
  exact ⟨hwhole, h, .of_loop h, hproducts, .of_loop hproducts, hoperand⟩

theorem of_whole (hstrength : e.strength = Tier.comparison.strength)
    (h : ReadsWhole σ printer scope e) : Restores σ printer scope e := by
  have hoperand : ReadsAt σ printer scope 3 e := .of_whole (hstrength ▸ by decide) h
  have hproducts : ReadsOn σ printer scope .product e :=
    .of_item (by decide) (hstrength ▸ by decide) hoperand
  have hsums : ReadsOn σ printer scope .sum e :=
    .of_item (by decide) (hstrength ▸ by decide) (.of_loop hproducts)
  exact ⟨h, hsums, .of_loop hsums, hproducts, .of_loop hproducts, hoperand⟩

end Restores

section

variable {node : Node} {op : BinaryOp} {left right : Expr}

theorem ReadsOn.binary {tier : Tier} (hleast : tier.leftLeast = tier.strength) (hop : op.tier = tier)
    (hleft : ReadsOn σ printer scope tier left)
    (hright : ReadsAt σ printer scope (tier.strength + 1) right) :
    ReadsOn σ printer scope tier (.binary node op left right) := by
  subst hop
  intro n s t hn hshows hhalts
  have hstrength : op.tier.strength ≤ (Expr.binary node op left right).strength := Nat.le_refl _
  rw [Expr.opensAt_of_le hstrength] at hhalts
  rw [Expr.enclosed_of_le hstrength, Expr.printed, hleast] at hshows
  obtain ⟨u, hshowsLeft, hshows⟩ := hshows.split
  obtain ⟨⟨hkind, _⟩, hlt, hshowsRight⟩ := hshows.next
  have hle := hshowsLeft.remaining_le
  have hloop := hleft n s u hn hshowsLeft (hkind ▸ .of_operator op)
  refine hloop.next (hkind ▸ Tier.operator?_kind op) ?_ fun a ha => .advance ?_
  · exact Nat.lt_of_le_of_lt hshowsRight.remaining_le hlt
  · refine .bind (hright n _ t (by omega) hshowsRight hhalts) fun b hb => .node fun node => ?_
    rw [Expr.skeleton, Expr.skeleton, ha, hb]

theorem ReadsWhole.comparison (hop : op.tier = .comparison)
    (hleft : ReadsAt σ printer scope 1 left) (hright : ReadsAt σ printer scope 1 right) :
    ReadsWhole σ printer scope (.binary node op left right) := by
  intro n s t hn hshows hhalts
  have hoperator := Tier.operator?_kind op
  have hbetween : Halts (op.tier.strength + 1) (left.opensAt 1) op.kind := .of_operator op
  have hopen : (Expr.binary node op left right).endsOpen = right.opensAt op.tier.rightLeast := rfl
  have hnext : (Expr.binary node op left right).nextLeast = 1 := by
    rw [Expr.nextLeast, Expr.strength, hop]
    rfl
  rw [Expr.printed] at hshows
  rw [hopen, hnext] at hhalts
  rw [hop] at hshows hhalts hoperator hbetween
  obtain ⟨u, hshowsLeft, hshows⟩ := hshows.split
  obtain ⟨⟨hkind, _⟩, hlt, hshowsRight⟩ := hshows.next
  have hle := hshowsLeft.remaining_le
  refine .bind (hleft n s u hn hshowsLeft (hkind ▸ hbetween)) fun a ha => .peek ?_
  simp only [hkind, hoperator]
  refine .advance (.bind (hright n _ t (by omega) hshowsRight hhalts) fun b hb => ?_)
  refine .node fun node => ?_
  rw [Expr.skeleton, Expr.skeleton, ha, hb]

theorem Restores.binary (hleft : Restores σ printer scope left)
    (hright : Restores σ printer scope right) :
    Restores σ printer scope (.binary node op left right) := by
  cases htier : op.tier with
  | comparison => exact .of_whole (congrArg Tier.strength htier) (.comparison htier hleft.sum hright.sum)
  | sum => exact .of_sums (congrArg Tier.strength htier) (.binary rfl htier hleft.sums hright.product)
  | product =>
    exact .of_products (congrArg Tier.strength htier) (.binary rfl htier hleft.products hright.operand)

end

/-- The loop of a designator goes on behind the text of a place. -/
def ReadsPlace (σ : Type) [TokenStream σ] (printer : Printer) (scope : Scope) (e : Expr) : Prop :=
  ∀ (n : Nat) (s t : σ), TokenStream.remaining s ≤ n + 1 → Shows (e.printed printer) s t →
    Continues scope (designator (operand n)) (fun kind => if kind = .openBracket then some () else none)
      (fun base _ => subscript (operand n) (TokenStream.peek s) base) s t
      fun a => a.skeleton = e.skeleton

section

variable {node : Node}

theorem ReadsPlace.address {symbol : SymbolId}
    (hname : scope.find? (printer.name symbol) = some symbol) :
    ReadsPlace σ printer scope (.address node symbol) := by
  intro n s t _ hshows u final hrest
  obtain ⟨⟨hkind, hlexeme⟩, _, hshows⟩ := hshows.next
  obtain rfl := hshows.done
  refine .expect hkind (.bind (.resolve (hlexeme ▸ hname)) fun found hfound => ?_)
  refine .bind .freshNode fun node _ => .remaining (hrest _ _ ?_ (Nat.le_refl _))
  rw [hfound]
  rfl

theorem ReadsPlace.index {base offset : Expr} (hbase : ReadsPlace σ printer scope base)
    (hoffset : Restores σ printer scope offset) :
    ReadsPlace σ printer scope (.index node base offset) := by
  intro n s t hn hshows
  rw [Expr.printed] at hshows
  obtain ⟨u, hshowsBase, hshows⟩ := hshows.split
  obtain ⟨⟨hopen, _⟩, hlt, hshows⟩ := hshows.next
  obtain ⟨v, hshowsOffset, hshows⟩ := hshows.split
  obtain ⟨⟨hclose, _⟩, hltClose, hshows⟩ := hshows.next
  obtain rfl := hshows.done
  have hle := hshowsBase.remaining_le
  have hleOffset := hshowsOffset.remaining_le
  have hhalts : Halts offset.nextLeast offset.endsOpen (TokenStream.peek v).kind :=
    .of_mem (hclose ▸ List.mem_cons_of_mem _ List.mem_cons_self)
  refine (hbase n s u hn hshowsBase).next (if_pos hopen) (by omega) fun a ha => .advance ?_
  refine .bind (hoffset.whole n _ v (by omega) hshowsOffset hhalts) fun b hb => .expect hclose ?_
  refine .node fun node => ?_
  rw [Expr.skeleton, Expr.skeleton, ha, hb]

theorem Restores.deref {operand : Expr} (hplace : operand.isPlace)
    (h : ReadsPlace σ printer scope operand) : Restores σ printer scope (.deref node operand) := by
  refine .of_operand rfl fun n s t hn hshows hhalts => ?_
  have hspans := hshows.spans ((Expr.printed_yields printer (.expr operand)).1 hplace)
  have hkind := hspans.next_kind rfl
  have hlt := TokenStream.remaining_advance s (hkind ▸ by decide)
  cases n with
  | zero => omega
  | succ n =>
    refine .peek ?_
    simp only [hkind]
    refine .peek (.bind ((h n s t hn hshows).finish (if_neg (hhalts.bracket rfl))) fun a ha => ?_)
    refine .node fun node => ?_
    rw [Expr.skeleton, Expr.skeleton, ha]

theorem Restores.not {operand : Expr} (h : Restores σ printer scope operand) :
    Restores σ printer scope (.not node operand) := by
  refine .of_operand rfl fun n s t hn hshows hhalts => ?_
  obtain ⟨⟨hkind, _⟩, hlt, hshows⟩ := hshows.next
  cases n with
  | zero => omega
  | succ n =>
    refine .peek ?_
    simp only [hkind]
    refine .advance (.bind (h.operand n _ t (by omega) hshows hhalts) fun a ha => ?_)
    refine .node fun node => ?_
    rw [Expr.skeleton, Expr.skeleton, ha]

omit [TokenStream σ] in
theorem literalValue_gives {token : Token} {value : Literal} {s : σ}
    (hspelling : token.spelling = value.spelled printer)
    (hfloat : ∀ x, value = .float x → Single.ofText? (printer.decimal x) = some x) :
    Gives scope (literalValue token) s s (· = value) := by
  obtain ⟨hkind, hlexeme⟩ := Prod.mk.inj hspelling
  unfold literalValue
  rw [hkind, hlexeme]
  cases value with
  | int value =>
    refine .pure ?_
    change Literal.int (Numeral.word (toString value.toNat)) = .int value
    rw [Numeral.word_toString, BitVec.ofNat_toNat, BitVec.setWidth_eq]
  | float value =>
    have hvalue := hfloat value rfl
    simp only [hvalue]
    exact .pure rfl
  | bool value => cases value <;> exact .pure rfl

theorem Restores.literal {value : Literal}
    (hfloat : ∀ x, value = .float x → Single.ofText? (printer.decimal x) = some x) :
    Restores σ printer scope (.literal node value) := by
  refine .of_operand rfl fun n s t hn hshows _ => ?_
  obtain ⟨⟨hkind, hlexeme⟩, hlt, hshows⟩ := hshows.next
  obtain rfl := hshows.done
  have hvalue : Gives scope (literalValue (TokenStream.peek s)) (TokenStream.advance s)
      (TokenStream.advance s) (· = value) :=
    literalValue_gives (Prod.ext hkind hlexeme) hfloat
  have hread : Gives scope Parser.literal s (TokenStream.advance s)
      fun a => a.skeleton = (Expr.literal node value).skeleton := by
    refine .advance (.bind hvalue fun found hfound => .node fun node => ?_)
    rw [hfound]
    rfl
  cases n with
  | zero => omega
  | succ n =>
    refine .peek ?_
    rw [hkind]
    cases value with
    | int | float => exact hread
    | bool value => cases value <;> exact hread

structure RestoresArgs (σ : Type) [TokenStream σ] (printer : Printer) (scope : Scope)
    (es : List Expr) : Prop where
  rest : ∀ (n m : Nat) (s t : σ), TokenStream.remaining s ≤ n → TokenStream.remaining s ≤ m →
    Shows (Expr.printedRest printer es) s t → (TokenStream.peek t).kind = .closeParen →
    Gives scope (many (fun kind => kind = .comma) (do
      let _ ← advance
      comparison (operand n)) m) s t fun as => Expr.skeletons as = Expr.skeletons es
  list : ∀ (n : Nat) (s t : σ), TokenStream.remaining s ≤ n →
    Shows (Expr.printedArgs printer es) s t → (TokenStream.peek t).kind = .closeParen →
    Gives scope (optionalList .expression (comparison (operand n))) s t
      fun as => Expr.skeletons as = Expr.skeletons es

namespace RestoresArgs

theorem nil : RestoresArgs σ printer scope [] where
  rest n m s t _ _ hshows hclose := by
    obtain rfl := hshows.done
    rintro state rfl hscope
    have hstop : decide ((TokenStream.peek state.stream).kind = .comma) = false := by
      rw [hclose]
      rfl
    exact ⟨[], state, many_stop hstop m, rfl, rfl, hscope, rfl⟩
  list n s t _ hshows hclose := by
    obtain rfl := hshows.done
    refine .peek ?_
    rw [hclose]
    exact .pure rfl

theorem next_closes {es : List Expr} {s t : σ} (hshows : Shows (Expr.printedRest printer es) s t)
    (hclose : (TokenStream.peek t).kind = .closeParen) :
    (TokenStream.peek s).kind ∈ [TokenKind.closeParen, .closeBracket, .comma] := by
  cases es with
  | nil =>
    rw [← hshows.done, hclose]
    exact List.mem_cons_self
  | cons e es =>
    rw [hshows.next.1.1]
    exact List.mem_cons_of_mem _ (List.mem_cons_of_mem _ List.mem_cons_self)

theorem cons {e : Expr} {es : List Expr} (hvalue : e.isValue) (h : Restores σ printer scope e)
    (hs : RestoresArgs σ printer scope es) : RestoresArgs σ printer scope (e :: es) where
  rest n m s t hn hm hshows hclose := by
    obtain ⟨⟨hcomma, _⟩, hlt, hshows⟩ := hshows.next
    obtain ⟨u, hfirst, hrest⟩ := hshows.split
    have hle := hfirst.remaining_le
    cases m with
    | zero => omega
    | succ m =>
      refine .peek ?_
      rw [if_pos (decide_eq_true hcomma)]
      refine .bind (.advance (h.whole n _ u (by omega) hfirst (.of_mem (next_closes hrest hclose))))
        fun a ha => ?_
      refine .bind (hs.rest n m u t (by omega) (by omega) hrest hclose) fun as has => .pure ?_
      rw [Expr.skeletons, Expr.skeletons, ha, has]
  list n s t hn hshows hclose := by
    obtain ⟨u, hfirst, hrest⟩ := hshows.split
    have hle := hfirst.remaining_le
    have hyields := ((Expr.printed_yields printer (.expr e)).2 hvalue).loosen (Nat.zero_le _)
      e.strength_le
    have hkind := ((hfirst.spans hyields).starts (Nonterminal.startsIn_first .expression)).1
    have hstarts : Nonterminal.expression.starts (TokenStream.peek s).kind = true :=
      List.contains_iff_mem.2 hkind
    refine .peek ?_
    rw [if_pos hstarts]
    refine .bind (h.whole n s u hn hfirst (.of_mem (next_closes hrest hclose))) fun a ha => ?_
    refine .bind (.remaining (hs.rest n _ u t (by omega) (Nat.le_refl _) hrest hclose))
      fun as has => .pure ?_
    rw [Expr.skeletons, Expr.skeletons, ha, has]

end RestoresArgs

theorem Restores.call {callee : SymbolId} {args : List Expr}
    (hname : scope.find? (printer.name callee) = some callee)
    (hargs : RestoresArgs σ printer scope args) :
    Restores σ printer scope (.call node callee args) := by
  refine .of_operand rfl fun n s t hn hshows _ => ?_
  obtain ⟨⟨hcall, _⟩, hlt, hshows⟩ := hshows.next
  obtain ⟨⟨hkind, hlexeme⟩, hltName, hshows⟩ := hshows.next
  obtain ⟨⟨hopen, _⟩, hltOpen, hshows⟩ := hshows.next
  obtain ⟨u, hshowsArgs, hshows⟩ := hshows.split
  obtain ⟨⟨hclose, _⟩, _, hshows⟩ := hshows.next
  obtain rfl := hshows.done
  cases n with
  | zero => omega
  | succ n =>
    have hparts : Gives scope (callParts (Parser.operand n)) s (TokenStream.advance u)
        fun parts => parts.2.1 = callee ∧ Expr.skeletons parts.2.2 = Expr.skeletons args := by
      refine .expect hcall (.expect hkind (.bind (.resolve (hlexeme ▸ hname)) fun found hfound => ?_))
      refine .expect hopen (.bind (hargs.list n _ u (by omega) hshowsArgs hclose) fun as has => ?_)
      exact .expect hclose (.node fun node => ⟨hfound, has⟩)
    refine .peek ?_
    simp only [hcall]
    refine .bind hparts fun parts hfound => .pure ?_
    rw [Expr.skeleton, Expr.skeleton, hfound.1, hfound.2]

end

def RestoresPhrase (σ : Type) [TokenStream σ] (printer : Printer) (scope : Scope) : Phrase → Prop
  | .expr e =>
    (e.isPlace → ReadsPlace σ printer scope e) ∧ (e.isValue → Restores σ printer scope e)
  | .args es => Expr.areValues es → RestoresArgs σ printer scope es

theorem restoresPhrase {phrase : Phrase} (h : printer.Suits scope phrase) :
    RestoresPhrase σ printer scope phrase := by
  induction phrase using Phrase.induct with
  | literal node value =>
    refine ⟨fun hplace => (by cases hplace), fun _ => .literal fun x hx => ?_⟩
    exact h.floats node x (hx ▸ List.mem_cons_self)
  | address node symbol =>
    exact ⟨fun _ => .address (h.names symbol List.mem_cons_self), fun hvalue => (by cases hvalue)⟩
  | deref node operand ih =>
    have hpart : printer.Suits scope (.expr operand) :=
      h.part (List.Subset.refl _) (List.subset_cons_self _ _)
    exact ⟨fun hplace => (by cases hplace), fun hvalue => .deref hvalue ((ih hpart).1 hvalue)⟩
  | index node base offset ihbase ihoffset =>
    have hbase : printer.Suits scope (.expr base) :=
      h.part (List.subset_append_left _ _)
        (List.subset_cons_of_subset _ (List.subset_append_left _ _))
    have hoffset : printer.Suits scope (.expr offset) :=
      h.part (List.subset_append_right _ _)
        (List.subset_cons_of_subset _ (List.subset_append_right _ _))
    refine ⟨fun hplace => ?_, fun hvalue => (by cases hvalue)⟩
    obtain ⟨hplace, hvalue⟩ := Bool.and_eq_true_iff.1 hplace
    exact .index ((ihbase hbase).1 hplace) ((ihoffset hoffset).2 hvalue)
  | binary node op left right ihleft ihright =>
    have hleft : printer.Suits scope (.expr left) :=
      h.part (List.subset_append_left _ _)
        (List.subset_cons_of_subset _ (List.subset_append_left _ _))
    have hright : printer.Suits scope (.expr right) :=
      h.part (List.subset_append_right _ _)
        (List.subset_cons_of_subset _ (List.subset_append_right _ _))
    refine ⟨fun hplace => (by cases hplace), fun hvalue => ?_⟩
    obtain ⟨hvalueLeft, hvalueRight⟩ := Bool.and_eq_true_iff.1 hvalue
    exact .binary ((ihleft hleft).2 hvalueLeft) ((ihright hright).2 hvalueRight)
  | not node operand ih =>
    have hpart : printer.Suits scope (.expr operand) :=
      h.part (List.Subset.refl _) (List.subset_cons_self _ _)
    exact ⟨fun hplace => (by cases hplace), fun hvalue => .not ((ih hpart).2 hvalue)⟩
  | call node callee args ih =>
    have hpart : printer.Suits scope (.args args) :=
      h.part (List.subset_cons_self _ _) (List.subset_cons_self _ _)
    have hname := h.names callee List.mem_cons_self
    exact ⟨fun hplace => (by cases hplace), fun hvalue => .call hname (ih hpart hvalue)⟩
  | nil => exact fun _ => .nil
  | cons e es ih ihs =>
    have hfirst : printer.Suits scope (.expr e) :=
      h.part (List.subset_append_left _ _) (List.subset_append_left _ _)
    have hrest : printer.Suits scope (.args es) :=
      h.part (List.subset_append_right _ _) (List.subset_append_right _ _)
    intro hvalues
    obtain ⟨hvalue, hvalues⟩ := Bool.and_eq_true_iff.1 hvalues
    exact .cons hvalue ((ih hfirst).2 hvalue) (ihs hrest hvalues)

end

end Parser

/-- An expression over names that mean their symbols is read back from its text, whatever its tokens'
positions are and whatever token comes behind them that no sentence goes on with. -/
theorem printed_expressions_read_back {σ : Type} [TokenStream σ] (decimal : Single → String)
    (e : Expr) (s : ParseState σ) (tokens : List Token) (after : σ) (hvalue : e.isValue)
    (hnames : ∀ id ∈ e.mentions, s.scope.find? (s.scope.symbol id).name = some id)
    (hfloats : ∀ node x, Expr.literal node (.float x) ∈ e.subexprs →
      Single.ofText? (decimal x) = some x)
    (htext : tokens.map Token.spelling = e.printed (s.scope.printer decimal))
    (hstream : TokenStream.Between s.stream tokens after)
    (hnext : ∀ rest, ¬ Yields (.category .expression)
      (tokens.map Token.kind ++ (TokenStream.peek after).kind :: rest)) :
    ∃ found t, Parser.expression s = .ok found t ∧ found.skeleton = e.skeleton ∧
      t.stream = after ∧ t.scope = s.scope ∧ t.log = s.log := by
  have hsuits : (s.scope.printer decimal).Suits s.scope (.expr e) := ⟨hnames, hfloats⟩
  have hkinds : tokens.map Token.kind = kindsOf (e.printed (s.scope.printer decimal)) := by
    rw [← htext, kindsOf, List.map_map]
    rfl
  have hhalts := Expr.halts_of_unextended hvalue (hkinds ▸ hnext)
  have hread := ((Parser.restoresPhrase hsuits).2 hvalue).whole _ s.stream after (Nat.le_refl _)
    ⟨tokens, hstream, htext⟩ hhalts
  exact Parser.Gives.remaining hread s rfl rfl

def oneVariable : Scope :=
  (Scope.initial.declare ⟨"x", .int, .var, Position.start⟩).scope

/-- `(x[0] + 1) * not (x < ::readInt())` -/
def nestedExpr : Expr :=
  .binary ⟨9, Position.start⟩ .mul
    (.binary ⟨8, Position.start⟩ .add
      (.deref ⟨7, Position.start⟩ (.index ⟨7, Position.start⟩ (.address ⟨7, Position.start⟩ 6)
        (.literal ⟨7, Position.start⟩ (.int 0))))
      (.literal ⟨7, Position.start⟩ (.int 1)))
    (.not ⟨8, Position.start⟩ (.binary ⟨8, Position.start⟩ (.compare .lt)
      (.deref ⟨7, Position.start⟩ (.address ⟨7, Position.start⟩ 6))
      (.call ⟨7, Position.start⟩ 0 [])))

def nestedTokens : List Token :=
  [("(", .openParen), ("x", .identifier), ("[", .openBracket), ("0", .integer), ("]", .closeBracket),
    ("+", .add), ("1", .integer), (")", .closeParen), ("*", .mul), ("not", .notKw),
    ("(", .openParen), ("x", .identifier), ("<", .lessThan), ("::", .call), ("readInt", .identifier),
    ("(", .openParen), (")", .closeParen), (")", .closeParen)].map
      fun word => ⟨word.2, word.1, Position.start⟩

def nestedStart : ParseState TokenQueue :=
  ⟨⟨nestedTokens ++ [⟨.semicolon, ";", Position.start⟩], Position.start⟩, oneVariable, [], 0⟩

theorem nestedExpr_read_back :
    nestedTokens.map Token.spelling = nestedExpr.printed (oneVariable.printer fun _ => "") ∧
      ∃ found t, Parser.expression nestedStart = .ok found t ∧
        found.skeleton = nestedExpr.skeleton ∧
        t.stream = ⟨[⟨.semicolon, ";", Position.start⟩], Position.start⟩ ∧
        t.scope = oneVariable ∧ t.log = [] := by
  have htext : nestedTokens.map Token.spelling =
      nestedExpr.printed (oneVariable.printer fun _ => "") := by decide +kernel
  refine ⟨htext, printed_expressions_read_back (fun _ => "") nestedExpr nestedStart nestedTokens _
    rfl (by decide +kernel) ?_ htext (TokenQueue.between_append _ _ _ (by decide)) ?_⟩
  · intro node x hx
    simp [nestedExpr, Expr.subexprs, Expr.subexprsAll] at hx
  · intro rest hyields
    exact hyields.semicolon_not_mem (List.mem_append_right _ List.mem_cons_self)

end MipsCompiler
