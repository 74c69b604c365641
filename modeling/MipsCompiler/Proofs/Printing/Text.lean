import MipsCompiler.Numeral
import MipsCompiler.Proofs.Grammar.Syntax
import MipsCompiler.Proofs.Parts
import MipsCompiler.Token.Basic

set_option autoImplicit false

/-!
# The text of an expression

An expression is written with parentheses only where the tiers ask for them: an operand is enclosed
if it binds more loosely than its place allows. The right operand of a chained operator has to bind
tighter than the operator itself, and so do both operands of a comparison, which does not chain.

What is written is a sentence of the grammar. `Halts` says which tokens cannot continue it.
-/

namespace MipsCompiler

abbrev Spelling := TokenKind × String

def Token.spelling (token : Token) : Spelling :=
  (token.kind, token.lexeme)

def TokenKind.spelled (kind : TokenKind) : Spelling :=
  (kind, kind.lexeme?.getD "")

@[simp] theorem TokenKind.spelled_fst (kind : TokenKind) : kind.spelled.1 = kind := rfl

/-- How symbols and floats are spelled. -/
structure Printer where
  name : SymbolId → String
  decimal : Single → String

def Literal.spelled (printer : Printer) : Literal → Spelling
  | .int value => (.integer, toString value.toNat)
  | .float value => (.float, printer.decimal value)
  | .bool true => TokenKind.trueKw.spelled
  | .bool false => TokenKind.falseKw.spelled

def Comparison.kind : Comparison → TokenKind
  | ge => .greaterEqual
  | le => .lesserEqual
  | ne => .notEqual
  | eq => .equal
  | gt => .greaterThan
  | lt => .lessThan

def BinaryOp.kind : BinaryOp → TokenKind
  | add => .add
  | sub => .sub
  | mul => .mul
  | div => .div
  | and => .andKw
  | or => .orKw
  | compare comparison => comparison.kind

/-- How tightly the operators of a tier bind. -/
def Tier.strength : Tier → Nat
  | comparison => 0
  | sum => 1
  | product => 2

def Tier.leftLeast : Tier → Nat
  | comparison => 1
  | sum => 1
  | product => 2

def Tier.rightLeast (tier : Tier) : Nat :=
  tier.strength + 1

theorem Tier.leftLeast_le (tier : Tier) : tier.leftLeast ≤ 3 := by
  cases tier <;> decide

theorem Tier.rightLeast_le (tier : Tier) : tier.rightLeast ≤ 3 := by
  cases tier <;> decide

def kindsOf (text : List Spelling) : List TokenKind :=
  text.map Prod.fst

@[simp] theorem kindsOf_cons (word : Spelling) (text : List Spelling) :
    kindsOf (word :: text) = word.1 :: kindsOf text := rfl

@[simp] theorem kindsOf_nil : kindsOf [] = [] := rfl

@[simp] theorem kindsOf_append (front rest : List Spelling) :
    kindsOf (front ++ rest) = kindsOf front ++ kindsOf rest :=
  List.map_append

namespace Expr

/-- How tightly an expression binds. Nothing binds tighter than an operand. -/
def strength : Expr → Nat
  | .binary _ op _ _ => op.tier.strength
  | _ => 3

/-- The text of an expression at a place that asks for a strength. -/
def enclosed (least : Nat) (e : Expr) (text : List Spelling) : List Spelling :=
  if e.strength < least then
    TokenKind.openParen.spelled :: (text ++ [TokenKind.closeParen.spelled])
  else text

mutual

def printed (printer : Printer) : Expr → List Spelling
  | .literal _ value => [value.spelled printer]
  | .address _ symbol => [(.identifier, printer.name symbol)]
  | .deref _ operand => operand.printed printer
  | .index _ base offset =>
    base.printed printer ++ TokenKind.openBracket.spelled ::
      (offset.printed printer ++ [TokenKind.closeBracket.spelled])
  | .binary _ op left right =>
    enclosed op.tier.leftLeast left (left.printed printer) ++
      op.kind.spelled :: enclosed op.tier.rightLeast right (right.printed printer)
  | .not _ operand => TokenKind.notKw.spelled :: enclosed 3 operand (operand.printed printer)
  | .call _ callee args =>
    TokenKind.call.spelled :: (.identifier, printer.name callee) :: TokenKind.openParen.spelled ::
      (printedArgs printer args ++ [TokenKind.closeParen.spelled])

def printedArgs (printer : Printer) : List Expr → List Spelling
  | [] => []
  | e :: es => e.printed printer ++ printedRest printer es

def printedRest (printer : Printer) : List Expr → List Spelling
  | [] => []
  | e :: es => TokenKind.comma.spelled :: (e.printed printer ++ printedRest printer es)

end

mutual

/-- The expression without the numbers and positions of its nodes. -/
def skeleton : Expr → Expr
  | .literal _ value => .literal ⟨0, Position.nowhere⟩ value
  | .address _ symbol => .address ⟨0, Position.nowhere⟩ symbol
  | .deref _ operand => .deref ⟨0, Position.nowhere⟩ operand.skeleton
  | .index _ base offset => .index ⟨0, Position.nowhere⟩ base.skeleton offset.skeleton
  | .binary _ op left right => .binary ⟨0, Position.nowhere⟩ op left.skeleton right.skeleton
  | .not _ operand => .not ⟨0, Position.nowhere⟩ operand.skeleton
  | .call _ callee args => .call ⟨0, Position.nowhere⟩ callee (skeletons args)

def skeletons : List Expr → List Expr
  | [] => []
  | e :: es => e.skeleton :: skeletons es

end

/-- The text ends in a designator, which one more bracket would extend. -/
def endsOpen : Expr → Bool
  | .deref _ _ => true
  | .not _ operand => decide (3 ≤ operand.strength) && operand.endsOpen
  | .binary _ op _ right => decide (op.tier.rightLeast ≤ right.strength) && right.endsOpen
  | _ => false

def opensAt (least : Nat) (e : Expr) : Bool :=
  decide (least ≤ e.strength) && e.endsOpen

theorem strength_le (e : Expr) : e.strength ≤ 3 := by
  cases e with
  | binary _ op _ _ => exact Nat.le_of_succ_le op.tier.rightLeast_le
  | _ => exact Nat.le_refl 3

theorem enclosed_of_le {least : Nat} {e : Expr} (h : least ≤ e.strength) (text : List Spelling) :
    enclosed least e text = text :=
  if_neg (Nat.not_lt.2 h)

theorem enclosed_of_lt {least : Nat} {e : Expr} (h : e.strength < least) (text : List Spelling) :
    enclosed least e text = TokenKind.openParen.spelled :: (text ++ [TokenKind.closeParen.spelled]) :=
  if_pos h

/-- Only the operators of one tier tell two strengths next to each other apart. -/
theorem enclosed_succ {least : Nat} {e : Expr} (h : e.strength ≠ least) (text : List Spelling) :
    enclosed least e text = enclosed (least + 1) e text := by
  rcases Nat.lt_or_gt_of_ne h with hlt | hlt
  · rw [enclosed_of_lt hlt, enclosed_of_lt (Nat.lt_succ_of_lt hlt)]
  · rw [enclosed_of_le (Nat.le_of_lt hlt), enclosed_of_le hlt]

theorem opensAt_succ {least : Nat} {e : Expr} (h : e.strength ≠ least) :
    e.opensAt least = e.opensAt (least + 1) := by
  have hle : least ≤ e.strength ↔ least + 1 ≤ e.strength := by omega
  rw [opensAt, opensAt, decide_eq_decide.2 hle]

theorem opensAt_of_le {least : Nat} {e : Expr} (h : least ≤ e.strength) :
    e.opensAt least = e.endsOpen := by
  rw [opensAt, decide_eq_true h, Bool.true_and]

end Expr

theorem BinaryOp.ofKind?_kind (op : BinaryOp) : ofKind? op.kind = some op := by
  cases op with
  | compare comparison => cases comparison <;> rfl
  | _ => rfl

theorem Tier.operator?_kind (op : BinaryOp) : op.tier.operator? op.kind = some op := by
  simp [operator?, op.ofKind?_kind]

namespace Numeral

theorem foldl_eq_ofNat (digits : List Char) (total : Nat) :
    digits.foldl (fun total c => 10 * total + BitVec.ofNat 32 (digitValue c))
        (BitVec.ofNat 32 total) =
      BitVec.ofNat 32 (Nat.ofDigitChars 10 digits total) := by
  induction digits generalizing total with
  | nil => rfl
  | cons c digits ih =>
    have hstep : 10 * BitVec.ofNat 32 total + BitVec.ofNat 32 (digitValue c) =
        BitVec.ofNat 32 (10 * total + digitValue c) := by
      simp [BitVec.ofNat_add, BitVec.ofNat_mul]
    rw [List.foldl_cons, hstep, ih]
    rfl

/-- A number is read back from its decimal text, up to wrapping. -/
theorem word_toString (n : Nat) : word (toString n) = BitVec.ofNat 32 n := by
  have hdigits : (toString n).toList = Nat.toDigits 10 n := Nat.toList_repr
  have hall : (Nat.toDigits 10 n).filter Char.isDigit = Nat.toDigits 10 n :=
    List.filter_eq_self.2 fun c hc => Nat.isDigit_of_mem_toDigits (by decide) (by decide) hc
  have hvalue := foldl_eq_ofNat (Nat.toDigits 10 n) 0
  rw [Nat.ofDigitChars_ten_toDigits] at hvalue
  rw [word, hdigits, hall]
  exact hvalue

end Numeral

/-- The category of expressions that bind at least so tightly. -/
def strengthCategory : Nat → Category
  | 0 => .expression
  | 1 => .sum
  | 2 => .product
  | _ => .operand

theorem yields_pair {first second : Ebnf} {kinds : List TokenKind} :
    Yields (.sequence [first, second]) kinds ↔
      ∃ front rest, kinds = front ++ rest ∧ Yields first front ∧ Yields second rest := by
  constructor
  · intro h
    obtain ⟨front, _, rfl, hfirst, hrest⟩ := yields_cons.1 h
    obtain ⟨rest, _, rfl, hsecond, hnil⟩ := yields_cons.1 hrest
    obtain rfl := yields_nil.1 hnil
    exact ⟨front, rest, by rw [List.append_nil], hfirst, hsecond⟩
  · rintro ⟨front, rest, rfl, hfirst, hsecond⟩
    have hall := Yields.cons hfirst (.cons hsecond .nil)
    rwa [List.append_nil] at hall

namespace Yields

variable {kinds more : List TokenKind}

theorem pair {first second : Ebnf} {front rest : List TokenKind} (hfirst : Yields first front)
    (hsecond : Yields second rest) : Yields (.sequence [first, second]) (front ++ rest) :=
  yields_pair.2 ⟨front, rest, rfl, hfirst, hsecond⟩

theorem concat {e : Ebnf} (h : Yields (.repeated e) kinds) (hmore : Yields e more) :
    Yields (.repeated e) (kinds ++ more) := by
  obtain ⟨pieces, rfl, hpieces⟩ := yields_repeated.1 h
  refine yields_repeated.2 ⟨pieces ++ [more], by simp, ?_⟩
  exact List.forall_mem_append.2 ⟨hpieces, List.forall_mem_singleton.2 hmore⟩

theorem operator {tier : Tier} {kind : TokenKind} (h : (tier.operator? kind).isSome) :
    Yields (.category tier.operators.category) [kind] := by
  apply Yields.category
  rw [tier.operators_rule]
  exact .choice (List.mem_map_of_mem ((tier.operator?_isSome kind).1 h)) .token

theorem integer_operand : Yields (.category .operand) [.integer] := by
  have hliteral : Yields (.category .literal) [.integer] :=
    .category (.choice List.mem_cons_self .token)
  exact .category (.choice (by simp) hliteral)

section

variable {c item ops : Category}

theorem chain_single
    (hrule : c.rule = .sequence [.category item, .repeated (.sequence [.category ops, .category item])])
    (h : Yields (.category item) kinds) : Yields (.category c) kinds := by
  rw [yields_category, hrule]
  exact List.append_nil kinds ▸ h.pair .none

theorem chain_concat {kind : TokenKind}
    (hrule : c.rule = .sequence [.category item, .repeated (.sequence [.category ops, .category item])])
    (h : Yields (.category c) kinds) (hop : Yields (.category ops) [kind])
    (hmore : Yields (.category item) more) : Yields (.category c) (kinds ++ kind :: more) := by
  rw [yields_category, hrule] at h ⊢
  obtain ⟨first, rest, rfl, hfirst, hrest⟩ := yields_pair.1 h
  rw [List.append_assoc]
  exact hfirst.pair (hrest.concat (hop.pair hmore))

theorem chain_grow
    (hrule : c.rule = .sequence [.category item, .repeated (.sequence [.category ops, .category item])])
    (hgrow : ∀ kinds, Yields (.category item) kinds → Yields (.category item) (kinds ++ more))
    (h : Yields (.category c) kinds) : Yields (.category c) (kinds ++ more) := by
  rw [yields_category, hrule] at h ⊢
  obtain ⟨first, rest, rfl, hfirst, hrest⟩ := yields_pair.1 h
  obtain ⟨pieces, rfl, hpieces⟩ := yields_repeated.1 hrest
  rcases List.eq_nil_or_concat pieces with rfl | ⟨front, last, rfl⟩
  · simpa using (hgrow first hfirst).pair (.none (e := .sequence [.category ops, .category item]))
  · rw [List.concat_eq_append, List.forall_mem_append, List.forall_mem_singleton] at hpieces
    obtain ⟨hfront, hlast⟩ := hpieces
    obtain ⟨op, operand, rfl, hop, hoperand⟩ := yields_pair.1 hlast
    have hfront := yields_repeated.2 ⟨front, rfl, hfront⟩
    have hall := hfirst.pair (hfront.concat (hop.pair (hgrow operand hoperand)))
    simpa using hall

end

theorem expression_of_sum (h : Yields (.category .sum) kinds) :
    Yields (.category .expression) kinds :=
  .category (List.append_nil kinds ▸ h.pair .absent)

theorem expression_of_comparison {left op right : List TokenKind}
    (hleft : Yields (.category .sum) left) (hop : Yields (.category .comparisonOp) op)
    (hright : Yields (.category .sum) right) :
    Yields (.category .expression) (left ++ (op ++ right)) :=
  .category (hleft.pair (.present (hop.pair hright)))

theorem expression_grow
    (hgrow : ∀ kinds, Yields (.category .sum) kinds → Yields (.category .sum) (kinds ++ more))
    (h : Yields (.category .expression) kinds) : Yields (.category .expression) (kinds ++ more) := by
  obtain ⟨first, rest, rfl, hfirst, hrest⟩ := yields_pair.1 (yields_category.1 h)
  rcases yields_optional.1 hrest with rfl | hcompared
  · rw [List.append_nil]
    exact expression_of_sum (hgrow first hfirst)
  · obtain ⟨op, right, rfl, hop, hright⟩ := yields_pair.1 hcompared
    simpa using expression_of_comparison hfirst hop (hgrow right hright)

theorem expression_operator {tier : Tier} {next : TokenKind} (hop : (tier.operator? next).isSome)
    (h : Yields (.category .expression) kinds)
    (hsum : tier = .comparison → Yields (.category .sum) kinds) :
    Yields (.category .expression) (kinds ++ [next, .integer]) := by
  have hnext := Yields.operator hop
  have hproduct : Yields (.category .product) [.integer] := chain_single rfl integer_operand
  cases tier with
  | comparison => exact expression_of_comparison (hsum rfl) hnext (chain_single rfl hproduct)
  | sum => exact h.expression_grow fun kinds h => chain_concat rfl h hnext hproduct
  | product =>
    refine h.expression_grow fun kinds h => chain_grow rfl (fun kinds h => ?_) h
    exact chain_concat rfl h hnext integer_operand

theorem loosen_one {strength : Nat} (hstrength : strength < 3)
    (h : Yields (.category (strengthCategory (strength + 1))) kinds) :
    Yields (.category (strengthCategory strength)) kinds := by
  obtain rfl | rfl | rfl : strength = 0 ∨ strength = 1 ∨ strength = 2 := by omega
  · exact expression_of_sum h
  · exact chain_single rfl h
  · exact chain_single rfl h

theorem loosen {strength least : Nat} (hle : least ≤ strength) (hstrength : strength ≤ 3)
    (h : Yields (.category (strengthCategory strength)) kinds) :
    Yields (.category (strengthCategory least)) kinds := by
  induction hle with
  | refl => exact h
  | step _ ih => exact ih (Nat.le_of_lt hstrength) (loosen_one hstrength h)

end Yields

namespace Expr

variable {printer : Printer}

theorem enclosed_yields {e : Expr} {text : List Spelling} {least : Nat} (hleast : least ≤ 3)
    (h : Yields (.category (strengthCategory e.strength)) (kindsOf text)) :
    Yields (.category (strengthCategory least)) (kindsOf (enclosed least e text)) := by
  rcases Nat.lt_or_ge e.strength least with hlt | hle
  · have hwhole := h.loosen (Nat.zero_le _) e.strength_le
    have hparens : Yields (.sequence [.token .openParen, .category .expression, .token .closeParen])
        ([.openParen] ++ (kindsOf text ++ ([.closeParen] ++ []))) :=
      .cons .token (.cons hwhole (.cons .token .nil))
    have hoperand : Yields (.category (strengthCategory 3)) _ :=
      .category (.choice (by simp) hparens)
    simpa [enclosed_of_lt hlt] using hoperand.loosen hleast (Nat.le_refl 3)
  · rw [enclosed_of_le hle]
    exact h.loosen hle e.strength_le

theorem binary_yields {node : Node} {op : BinaryOp} {left right : Expr}
    {leftText rightText : List TokenKind}
    (hleft : Yields (.category (strengthCategory op.tier.leftLeast)) leftText)
    (hright : Yields (.category (strengthCategory op.tier.rightLeast)) rightText) :
    Yields (.category (strengthCategory (Expr.binary node op left right).strength))
      (leftText ++ op.kind :: rightText) := by
  have hop : Yields (.category op.tier.operators.category) [op.kind] :=
    .operator (Option.isSome_iff_exists.2 ⟨op, Tier.operator?_kind op⟩)
  change Yields (.category (strengthCategory op.tier.strength)) _
  cases htier : op.tier with
  | comparison =>
    rw [htier] at hleft hright hop
    exact .expression_of_comparison hleft hop hright
  | sum =>
    rw [htier] at hleft hright hop
    exact .chain_concat rfl hleft hop hright
  | product =>
    rw [htier] at hleft hright hop
    exact .chain_concat rfl hleft hop hright

/-- What is written for a place, a value or a list of arguments is a sentence. -/
def Written (printer : Printer) : Phrase → Prop
  | .expr e =>
    (e.isPlace → Yields (.category .designator) (kindsOf (e.printed printer))) ∧
      (e.isValue → Yields (.category (strengthCategory e.strength)) (kindsOf (e.printed printer)))
  | .args es => areValues es →
    Yields (.category .arguments) (kindsOf (printedArgs printer es)) ∧
      Yields (.repeated (.sequence [.token .comma, .category .expression]))
        (kindsOf (printedRest printer es))

theorem literal_yields (value : Literal) :
    Yields (.category .operand) [(value.spelled printer).1] := by
  have hliteral : Yields (.category .literal) [(value.spelled printer).1] := by
    refine .category (.choice ?_ .token)
    cases value with
    | int | float => simp [Literal.spelled]
    | bool value => cases value <;> simp [Literal.spelled]
  exact .category (.choice (by simp) hliteral)

theorem printed_yields (printer : Printer) (phrase : Phrase) : Written printer phrase := by
  induction phrase using Phrase.induct with
  | literal node value => exact ⟨fun h => (by cases h), fun _ => literal_yields value⟩
  | address node symbol =>
    exact ⟨fun _ => .category (Yields.pair .token .none), fun h => (by cases h)⟩
  | deref node operand ih =>
    exact ⟨fun h => (by cases h), fun h => .category (.choice (by simp) (ih.1 h))⟩
  | index node base offset ihbase ihoffset =>
    refine ⟨fun h => ?_, fun h => (by cases h)⟩
    obtain ⟨hbase, hoffset⟩ := Bool.and_eq_true_iff.1 h
    have hoffset := (ihoffset.2 hoffset).loosen (Nat.zero_le _) offset.strength_le
    have hbrackets : Yields (.sequence
        [.token .openBracket, .category .expression, .token .closeBracket])
        ([.openBracket] ++ (kindsOf (offset.printed printer) ++ ([.closeBracket] ++ []))) :=
      .cons .token (.cons hoffset (.cons .token .nil))
    obtain ⟨name, rest, hkinds, hname, hrest⟩ := yields_pair.1 (yields_category.1 (ihbase.1 hbase))
    have hall : Yields (.category .designator) _ := .category (hname.pair (hrest.concat hbrackets))
    simpa [printed, hkinds] using hall
  | binary node op left right ihleft ihright =>
    refine ⟨fun h => (by cases h), fun h => ?_⟩
    obtain ⟨hleft, hright⟩ := Bool.and_eq_true_iff.1 h
    have hleft := enclosed_yields op.tier.leftLeast_le (ihleft.2 hleft)
    have hright := enclosed_yields op.tier.rightLeast_le (ihright.2 hright)
    simpa [printed] using binary_yields hleft hright
  | not node operand ih =>
    refine ⟨fun h => (by cases h), fun h => ?_⟩
    have hnot : Yields (.sequence [.token .notKw, .category .operand]) _ :=
      .pair .token (enclosed_yields (Nat.le_refl 3) (ih.2 h))
    exact .category (.choice (by simp) hnot)
  | call node callee args ih =>
    refine ⟨fun h => (by cases h), fun h => ?_⟩
    have hcall : Yields (.category .call) _ := .category (.cons .token (.cons .token (.cons .token
      (.cons (ih h).1 (.cons .token .nil)))))
    have hall : Yields (.category (strengthCategory (Expr.call node callee args).strength)) _ :=
      .category (.choice (by simp) hcall)
    simpa [printed] using hall
  | nil => exact fun _ => ⟨.category .absent, .none⟩
  | cons e es ih ihs =>
    intro h
    obtain ⟨he, hes⟩ := Bool.and_eq_true_iff.1 h
    have hfirst := (ih.2 he).loosen (Nat.zero_le _) e.strength_le
    have hrest := (ihs hes).2
    constructor
    · rw [printedArgs, kindsOf_append]
      exact .category (.present (.pair hfirst hrest))
    · rw [printedRest, kindsOf_cons, kindsOf_append]
      exact .more (.pair .token hfirst) hrest

def bracketed : Expr → Expr
  | .deref node operand => .deref node (.index node operand (.literal node (.int 0)))
  | .not node operand => .not node operand.bracketed
  | .binary node op left right => .binary node op left right.bracketed
  | e => e

theorem bracketed_strength (e : Expr) : e.bracketed.strength = e.strength := by
  cases e <;> rfl

theorem bracketed_enclosed {e : Expr} {least : Nat} (h : least ≤ e.strength)
    (text : List Spelling) : enclosed least e.bracketed text = text :=
  enclosed_of_le (e.bracketed_strength.symm ▸ h) text

/-- A bracket behind an open end gives the text of another value. -/
theorem bracketed_printed (printer : Printer) {e : Expr} (hvalue : e.isValue) (hopen : e.endsOpen) :
    e.bracketed.isValue ∧ kindsOf (e.bracketed.printed printer) =
      kindsOf (e.printed printer) ++ [.openBracket, .integer, .closeBracket] := by
  induction e using Expr.bracketed.induct with
  | case1 node operand =>
    exact ⟨Bool.and_eq_true_iff.2 ⟨hvalue, rfl⟩, by simp [bracketed, printed, Literal.spelled]⟩
  | case2 node operand ih =>
    obtain ⟨hstrength, hopen⟩ := Bool.and_eq_true_iff.1 hopen
    have hstrength := of_decide_eq_true hstrength
    obtain ⟨hformed, htext⟩ := ih hvalue hopen
    refine ⟨hformed, ?_⟩
    simp [bracketed, printed, bracketed_enclosed hstrength, enclosed_of_le hstrength, htext]
  | case3 node op left right ih =>
    obtain ⟨hstrength, hopen⟩ := Bool.and_eq_true_iff.1 hopen
    have hstrength := of_decide_eq_true hstrength
    obtain ⟨hleft, hright⟩ := Bool.and_eq_true_iff.1 hvalue
    obtain ⟨hformed, htext⟩ := ih hright hopen
    refine ⟨Bool.and_eq_true_iff.2 ⟨hleft, hformed⟩, ?_⟩
    simp [bracketed, printed, bracketed_enclosed hstrength, enclosed_of_le hstrength, htext]
  | case4 e hderef hnot hbinary =>
    cases e with
    | deref => exact absurd rfl (hderef _ _)
    | not => exact absurd rfl (hnot _ _)
    | binary => exact absurd rfl (hbinary _ _ _ _)
    | _ => cases hopen

/-- The loosest operators that can stand behind an expression: comparisons do not chain. -/
def nextLeast (e : Expr) : Nat :=
  if e.strength = 0 then 1 else 0

end Expr

/-- No operator that binds so tightly or tighter, and no bracket behind an open end. -/
structure Halts (least : Nat) (isOpen : Bool) (next : TokenKind) : Prop where
  operator : ∀ tier : Tier, least ≤ tier.strength → tier.operator? next = none
  bracket : isOpen = true → next ≠ .openBracket

namespace Halts

variable {least : Nat} {isOpen : Bool} {next : TokenKind}

theorem mono {more : Nat} (h : Halts least isOpen next) (hle : least ≤ more) :
    Halts more isOpen next :=
  ⟨fun tier htier => h.operator tier (Nat.le_trans hle htier), h.bracket⟩

theorem of_mem (h : next ∈ [TokenKind.closeParen, .closeBracket, .comma]) :
    Halts least isOpen next := by
  have hall : ∀ kind ∈ [TokenKind.closeParen, .closeBracket, .comma],
      (∀ tier ∈ [Tier.comparison, .sum, .product], tier.operator? kind = none) ∧
        kind ≠ .openBracket := by decide
  obtain ⟨hoperator, hbracket⟩ := hall next h
  refine ⟨fun tier _ => hoperator tier ?_, fun _ => hbracket⟩
  cases tier <;> decide

theorem of_operator (op : BinaryOp) : Halts (op.tier.strength + 1) isOpen op.kind := by
  constructor
  · intro tier hlt
    have htier : op.tier ≠ tier := by
      rintro rfl
      omega
    simp [Tier.operator?, op.ofKind?_kind, htier]
  · intro _ hkind
    have hop := op.ofKind?_kind
    rw [hkind] at hop
    cases hop

end Halts

/-- A token with which no sentence goes on is no operator of a tier in question and no bracket that
an open end would take. -/
theorem Expr.halts_of_unextended {printer : Printer} {e : Expr} {next : TokenKind} (hvalue : e.isValue)
    (h : ∀ rest, ¬ Yields (.category .expression) (kindsOf (e.printed printer) ++ next :: rest)) :
    Halts e.nextLeast e.endsOpen next := by
  have hself := (Expr.printed_yields printer (.expr e)).2 hvalue
  have hwhole := hself.loosen (Nat.zero_le _) e.strength_le
  constructor
  · intro tier hleast
    refine Option.eq_none_iff_forall_ne_some.2 fun op hop => h [.integer] ?_
    refine hwhole.expression_operator (Option.isSome_iff_exists.2 ⟨op, hop⟩) ?_
    rintro rfl
    have hstrength : e.strength ≠ 0 := by
      intro hzero
      rw [Expr.nextLeast, if_pos hzero] at hleast
      exact absurd hleast (by decide)
    exact hself.loosen (Nat.one_le_iff_ne_zero.2 hstrength) e.strength_le
  · rintro hopen rfl
    obtain ⟨hformed, htext⟩ := Expr.bracketed_printed printer hvalue hopen
    have hlonger := (Expr.printed_yields printer (.expr e.bracketed)).2 hformed
    have hlonger := hlonger.loosen (Nat.zero_le _) e.bracketed.strength_le
    rw [htext] at hlonger
    exact h _ hlonger

def Category.isExpression : Category → Bool
  | .literal | .designator | .comparisonOp | .sumOp | .productOp | .expression | .sum | .product
  | .operand | .call | .arguments => true
  | _ => false

theorem Category.expression_uses (c : Category) (h : c.isExpression) :
    c.rule.uses isExpression fun kind => kind ≠ .semicolon := by
  revert h
  cases c <;> decide

theorem Yields.semicolon_not_mem {kinds : List TokenKind} (h : Yields (.category .expression) kinds) :
    .semicolon ∉ kinds := by
  intro hmem
  have hne := h.uses Category.expression_uses rfl _ hmem
  exact absurd rfl (of_decide_eq_true hne)

end MipsCompiler
