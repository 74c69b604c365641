import MipsCompiler.Proofs.Parsing.DeclaredErrors

set_option autoImplicit false

/-!
# The wording of types

The text of a type without errors says where it ends: two such texts in front of any rests are equal
only if the types are, and then so are the rests. Hence no text is the beginning of another, and the
types can be read off every message that shows some. The message of an error is shown as it is, so
errors have to be left out.
-/

namespace MipsCompiler

namespace Ty

/-- There is no error in the type, at any depth. -/
def ErrorFree (t : Ty) : Prop :=
  ∀ message, ¬ t.Contains message

theorem errorFree_array {extent : Nat} {base : Ty} :
    (array extent base).ErrorFree ↔ base.ErrorFree := by
  refine ⟨fun h message hbase => h message (.element hbase), fun h message harray => ?_⟩
  cases harray with
  | element hbase => exact h message hbase

theorem errorFree_address {base : Ty} : (address base).ErrorFree ↔ base.ErrorFree := by
  refine ⟨fun h message hbase => h message (.target hbase), fun h message haddress => ?_⟩
  cases haddress with
  | target hbase => exact h message hbase

theorem errorFree_func {params : List Ty} {result : Ty} :
    (func params result).ErrorFree ↔ (∀ param ∈ params, param.ErrorFree) ∧ result.ErrorFree := by
  constructor
  · intro h
    exact ⟨fun param hparam message hinner => h message (.param hparam hinner),
      fun message hinner => h message (.result hinner)⟩
  · rintro ⟨hparams, hresult⟩ message hfunc
    cases hfunc with
    | param hparam hinner => exact hparams _ hparam message hinner
    | result hinner => exact hresult message hinner

/-! ## How texts begin -/

/-- The word that the text of a type begins with. -/
def opening : Ty → String
  | int => "int"
  | float => "float"
  | bool => "bool"
  | void => "void"
  | array _ _ => "array["
  | address _ => "Address("
  | func _ _ => "func(TypeList("
  | error _ => "ErrorType("

def openings : List String :=
  ["int", "float", "bool", "void", "array[", "Address(", "func(TypeList(", "ErrorType("]

theorem opening_mem (t : Ty) : t.opening ∈ openings := by
  cases t <;> simp [opening, openings]

def body : Ty → List Char
  | array extent base => (toString extent).toList ++ ',' :: (base.text.toList ++ [']'])
  | address base => base.text.toList ++ [')']
  | func params result => (textAll params).toList ++ ')' :: ')' :: ':' :: result.text.toList
  | error message => message.toList ++ [')']
  | _ => []

theorem toList_text (t : Ty) : t.text.toList = t.opening.toList ++ t.body := by
  cases t with
  | int | float | bool | void => exact (List.append_nil _).symm
  | array extent base =>
    change ("array[" ++ toString extent ++ "," ++ base.text ++ "]").toList = _
    simp only [String.toList_append, List.append_assoc]
    rfl
  | address base =>
    change ("Address(" ++ base.text ++ ")").toList = _
    simp only [String.toList_append, List.append_assoc]
    rfl
  | func params result =>
    change ("func(TypeList(" ++ textAll params ++ ")):" ++ result.text).toList = _
    simp only [String.toList_append, List.append_assoc]
    rfl
  | error message =>
    change ("ErrorType(" ++ message ++ ")").toList = _
    simp only [String.toList_append, List.append_assoc]
    rfl

theorem opening_eq {s t : Ty} {x y : List Char} (h : s.text.toList ++ x = t.text.toList ++ y) :
    s.opening = t.opening := by
  have hfree : ∀ first ∈ openings, ∀ second ∈ openings,
      first.toList <+: second.toList → first = second := by
    decide
  rw [toList_text, toList_text, List.append_assoc, List.append_assoc] at h
  have hs : s.opening.toList <+: t.opening.toList ++ (t.body ++ y) := h ▸ List.prefix_append _ _
  rcases List.prefix_or_prefix_of_prefix hs (List.prefix_append _ _) with hprefix | hprefix
  · exact hfree _ s.opening_mem _ t.opening_mem hprefix
  · exact (hfree _ t.opening_mem _ s.opening_mem hprefix).symm

theorem body_append {s t : Ty} {x y : List Char} (h : s.text.toList ++ x = t.text.toList ++ y) :
    s.body ++ x = t.body ++ y := by
  have hopening := opening_eq h
  rw [toList_text, toList_text, hopening, List.append_assoc, List.append_assoc] at h
  exact List.append_cancel_left h

theorem numeral_append_inj {m n : Nat} {x y : List Char}
    (h : (toString m).toList ++ ',' :: x = (toString n).toList ++ ',' :: y) : m = n ∧ x = y := by
  have htake (k : Nat) (z : List Char) :
      (Nat.toDigits 10 k ++ ',' :: z).takeWhile Char.isDigit = Nat.toDigits 10 k := by
    have hcomma : ¬ Char.isDigit ',' = true := by decide
    rw [List.takeWhile_append_of_pos
        fun c hc => Nat.isDigit_of_mem_toDigits (by decide) (by decide) hc,
      List.takeWhile_cons_of_neg hcomma, List.append_nil]
  rw [Nat.toString_eq_repr, Nat.toString_eq_repr, Nat.toList_repr, Nat.toList_repr] at h
  have hdigits := congrArg (List.takeWhile Char.isDigit) h
  rw [htake, htake] at hdigits
  have hvalue := congrArg (Nat.ofDigitChars 10 · 0) hdigits
  rw [Nat.ofDigitChars_ten_toDigits, Nat.ofDigitChars_ten_toDigits] at hvalue
  rw [hdigits] at h
  exact ⟨hvalue, (List.cons.inj (List.append_cancel_left h)).2⟩

/-! ## Where texts end -/

def tailChars : List Ty → List Char
  | [] => []
  | t :: ts => ',' :: ' ' :: (textAll (t :: ts)).toList

theorem toList_textAll_cons (t : Ty) (ts : List Ty) :
    (textAll (t :: ts)).toList = t.text.toList ++ tailChars ts := by
  cases ts with
  | nil => rw [textAll, tailChars, List.append_nil]
  | cons u us => simp [textAll, tailChars]

theorem text_append_ne (t : Ty) (x y : List Char) : t.text.toList ++ x ≠ ')' :: y := by
  have hletter : ∀ first ∈ openings, first.toList.head?.any (· ≠ ')') := by decide
  intro h
  have hfirst := hletter _ t.opening_mem
  rw [toList_text] at h
  cases hopening : t.opening.toList with
  | nil => simp [hopening] at hfirst
  | cons c cs =>
    rw [hopening] at h hfirst
    simp [(List.cons.inj h).1] at hfirst

mutual

theorem text_append_inj (s t : Ty) (x y : List Char) (hs : s.ErrorFree) (ht : t.ErrorFree)
    (h : s.text.toList ++ x = t.text.toList ++ y) : s = t ∧ x = y := by
  have hopening := opening_eq h
  have hbody := body_append h
  cases s <;> cases t <;> simp [opening] at hopening
  case int.int | float.float | bool.bool | void.void => exact ⟨rfl, hbody⟩
  case array.array m s n t =>
    simp only [body, List.append_assoc, List.cons_append, List.nil_append] at hbody
    obtain ⟨rfl, hbase⟩ := numeral_append_inj hbody
    obtain ⟨rfl, hrest⟩ := text_append_inj s t _ _ (errorFree_array.1 hs) (errorFree_array.1 ht) hbase
    exact ⟨rfl, (List.cons.inj hrest).2⟩
  case address.address s t =>
    simp only [body, List.append_assoc, List.cons_append, List.nil_append] at hbody
    obtain ⟨rfl, hrest⟩ :=
      text_append_inj s t _ _ (errorFree_address.1 hs) (errorFree_address.1 ht) hbody
    exact ⟨rfl, (List.cons.inj hrest).2⟩
  case func.func params s others t =>
    obtain ⟨hparams, hsresult⟩ := errorFree_func.1 hs
    obtain ⟨hothers, htresult⟩ := errorFree_func.1 ht
    simp only [body, List.append_assoc, List.cons_append] at hbody
    obtain ⟨hequal, hbehind⟩ := textAll_append_inj params others _ _ hparams hothers hbody
    have hresult := (List.cons.inj (List.cons.inj hbehind).2).2
    obtain ⟨rfl, hrest⟩ := text_append_inj s t _ _ hsresult htresult hresult
    exact ⟨congrArg (func · s) hequal, hrest⟩
  case error.error => exact absurd .here (hs _)

theorem textAll_append_inj (ss ts : List Ty) (x y : List Char) (hss : ∀ s ∈ ss, s.ErrorFree)
    (hts : ∀ t ∈ ts, t.ErrorFree)
    (h : (textAll ss).toList ++ ')' :: x = (textAll ts).toList ++ ')' :: y) : ss = ts ∧ x = y := by
  cases ss with
  | nil =>
    cases ts with
    | nil => exact ⟨rfl, (List.cons.inj h).2⟩
    | cons t ts =>
      rw [toList_textAll_cons, List.append_assoc] at h
      exact absurd h.symm (text_append_ne t _ _)
  | cons s ss =>
    obtain ⟨hs, hsrest⟩ := List.forall_mem_cons.1 hss
    cases ts with
    | nil =>
      rw [toList_textAll_cons, List.append_assoc] at h
      exact absurd h (text_append_ne s _ _)
    | cons t ts =>
      obtain ⟨ht, htrest⟩ := List.forall_mem_cons.1 hts
      rw [toList_textAll_cons, toList_textAll_cons, List.append_assoc, List.append_assoc] at h
      obtain ⟨rfl, htail⟩ := text_append_inj s t _ _ hs ht h
      -- a comma or the bracket tells whether another type follows
      cases ss with
      | nil =>
        cases ts with
        | nil => exact ⟨rfl, (List.cons.inj htail).2⟩
        | cons t ts => exact absurd (List.cons.inj htail).1 (by decide)
      | cons s ss =>
        cases ts with
        | nil => exact absurd (List.cons.inj htail).1 (by decide)
        | cons t ts =>
          have hall := (List.cons.inj (List.cons.inj htail).2).2
          obtain ⟨hequal, hrest⟩ := textAll_append_inj (s :: ss) (t :: ts) x y hsrest htrest hall
          exact ⟨congrArg _ hequal, hrest⟩

end

theorem text_inj {s t : Ty} (hs : s.ErrorFree) (ht : t.ErrorFree) {x y : String}
    (h : s.text ++ x = t.text ++ y) : s = t ∧ x = y := by
  have hchars := congrArg String.toList h
  rw [String.toList_append, String.toList_append] at hchars
  obtain ⟨hequal, hrest⟩ := text_append_inj s t _ _ hs ht hchars
  exact ⟨hequal, String.toList_inj.1 hrest⟩

theorem listText_inj {ss ts : List Ty} (hss : ∀ s ∈ ss, s.ErrorFree) (hts : ∀ t ∈ ts, t.ErrorFree)
    {x y : String} (h : listText ss ++ x = listText ts ++ y) : ss = ts ∧ x = y := by
  unfold listText at h
  rw [String.append_assoc, String.append_assoc, String.append_assoc, String.append_assoc,
    String.append_right_inj] at h
  have hchars := congrArg String.toList h
  simp only [String.toList_append] at hchars
  obtain ⟨hequal, hrest⟩ := textAll_append_inj ss ts _ _ hss hts hchars
  exact ⟨hequal, String.toList_inj.1 hrest⟩

theorem eq_of_text_prefix {s t : Ty} (hs : s.ErrorFree) (ht : t.ErrorFree)
    (h : s.text.toList <+: t.text.toList) : s = t := by
  obtain ⟨rest, hrest⟩ := h
  rw [← List.append_nil t.text.toList] at hrest
  exact (text_append_inj s t rest [] hs ht hrest).1

end Ty

/-! ## Messages -/

namespace TypeFault

/-- The types that a fault shows. -/
def types : TypeFault → List Ty
  | operands _ left right => [left, right]
  | negation operand => [operand]
  | dereference operand => [operand]
  | index base offset => [base, offset]
  | assignment target source => [target, source]
  | call callee args => callee :: args
  | variableType _ ty => [ty]
  | arrayBase _ base => [base]
  | arraySize _ ty => [ty]
  | brokenResult _ result => [result]
  | condition _ ty => [ty]
  | returned _ expected actual => [expected, actual]
  | _ => []

/-- Two faults that differ in their types at most. -/
inductive Alike : TypeFault → TypeFault → Prop
  | same (fault : TypeFault) : Alike fault fault
  | operands (op : Operation) (left right left' right' : Ty) :
      Alike (.operands op left right) (.operands op left' right')
  | negation (operand operand' : Ty) : Alike (.negation operand) (.negation operand')
  | dereference (operand operand' : Ty) : Alike (.dereference operand) (.dereference operand')
  | index (base offset base' offset' : Ty) : Alike (.index base offset) (.index base' offset')
  | assignment (target source target' source' : Ty) :
      Alike (.assignment target source) (.assignment target' source')
  | call (callee callee' : Ty) (args args' : List Ty) : Alike (.call callee args) (.call callee' args')
  | variableType (name : String) (ty ty' : Ty) : Alike (.variableType name ty) (.variableType name ty')
  | arrayBase (name : String) (base base' : Ty) : Alike (.arrayBase name base) (.arrayBase name base')
  | arraySize (name : String) (ty ty' : Ty) : Alike (.arraySize name ty) (.arraySize name ty')
  | brokenResult (name : String) (result result' : Ty) :
      Alike (.brokenResult name result) (.brokenResult name result')
  | condition (construct : Construct) (ty ty' : Ty) :
      Alike (.condition construct ty) (.condition construct ty')
  | returned (name : String) (expected actual expected' actual' : Ty) :
      Alike (.returned name expected actual) (.returned name expected' actual')

section

variable {s t s' t' : Ty}

theorem shown_inj (before after : String) (hs : s.ErrorFree) (ht : t.ErrorFree)
    (h : before ++ s.text ++ after = before ++ t.text ++ after) : s = t := by
  rw [String.append_assoc, String.append_assoc, String.append_right_inj] at h
  exact (Ty.text_inj hs ht h).1

theorem both_shown_inj (before between after : String) (hs : s.ErrorFree) (ht : t.ErrorFree)
    (hs' : s'.ErrorFree) (ht' : t'.ErrorFree)
    (h : before ++ s.text ++ between ++ s'.text ++ after =
      before ++ t.text ++ between ++ t'.text ++ after) : s = t ∧ s' = t' := by
  simp only [String.append_assoc, String.append_right_inj] at h
  obtain ⟨hfirst, hrest⟩ := Ty.text_inj hs ht h
  rw [String.append_right_inj] at hrest
  exact ⟨hfirst, (Ty.text_inj hs' ht' hrest).1⟩

end

theorem operandsMessage_inj {op : Operation} {left right left' right' : Ty} (hl : left.ErrorFree)
    (hr : right.ErrorFree) (hl' : left'.ErrorFree) (hr' : right'.ErrorFree)
    (h : operandsMessage left right op = operandsMessage left' right' op) :
    left = left' ∧ right = right' := by
  cases op with
  | add => exact both_shown_inj "Cannot add " " with " "." hl hl' hr hr' h
  | sub => exact (both_shown_inj "Cannot subtract " " from " "." hr hr' hl hl' h).symm
  | mul => exact both_shown_inj "Cannot multiply " " with " "." hl hl' hr hr' h
  | div => exact both_shown_inj "Cannot divide " " by " "." hl hl' hr hr' h
  | and => exact both_shown_inj "Cannot compute " " and " "." hl hl' hr hr' h
  | or => exact both_shown_inj "Cannot compute " " or " "." hl hl' hr hr' h
  | compare => exact both_shown_inj "Cannot compare " " with " "." hl hl' hr hr' h

theorem callMessage_inj {callee callee' : Ty} {args args' : List Ty} (hcallee : callee.ErrorFree)
    (hcallee' : callee'.ErrorFree) (hargs : ∀ t ∈ args, t.ErrorFree)
    (hargs' : ∀ t ∈ args', t.ErrorFree)
    (h : "Cannot call " ++ callee.text ++ " using " ++ Ty.listText args ++ "." =
      "Cannot call " ++ callee'.text ++ " using " ++ Ty.listText args' ++ ".") :
    callee = callee' ∧ args = args' := by
  simp only [String.append_assoc, String.append_right_inj] at h
  obtain ⟨hfirst, hrest⟩ := Ty.text_inj hcallee hcallee' h
  rw [String.append_right_inj] at hrest
  exact ⟨hfirst, (Ty.listText_inj hargs hargs' hrest).1⟩

theorem Alike.eq_of_message {f g : TypeFault} (h : Alike f g) (hf : ∀ t ∈ f.types, t.ErrorFree)
    (hg : ∀ t ∈ g.types, t.ErrorFree) (hmessage : f.message = g.message) : f = g := by
  -- the types of a fault that shows one, and those of a fault that shows two
  have hone {t : Ty} {ts : List Ty} (hall : ∀ u ∈ t :: ts, u.ErrorFree) : t.ErrorFree :=
    hall t (.head _)
  have htwo {t u : Ty} {ts : List Ty} (hall : ∀ v ∈ t :: u :: ts, v.ErrorFree) : u.ErrorFree :=
    hall u (.tail _ (.head _))
  cases h with
  | same => rfl
  | operands op left right left' right' =>
    obtain ⟨rfl, rfl⟩ := operandsMessage_inj (hone hf) (htwo hf) (hone hg) (htwo hg) hmessage
    rfl
  | negation operand operand' =>
    rw [shown_inj "Cannot negate " "." (hone hf) (hone hg) hmessage]
  | dereference operand operand' =>
    rw [shown_inj "Cannot dereference " "." (hone hf) (hone hg) hmessage]
  | index base offset base' offset' =>
    obtain ⟨rfl, rfl⟩ := both_shown_inj "Cannot index " " with " "." (hone hf) (hone hg) (htwo hf)
      (htwo hg) hmessage
    rfl
  | assignment target source target' source' =>
    obtain ⟨rfl, rfl⟩ := both_shown_inj "Cannot assign " " to " "." (htwo hf) (htwo hg) (hone hf)
      (hone hg) hmessage
    rfl
  | call callee callee' args args' =>
    obtain ⟨hcallee, hargs⟩ := List.forall_mem_cons.1 hf
    obtain ⟨hcallee', hargs'⟩ := List.forall_mem_cons.1 hg
    obtain ⟨rfl, rfl⟩ := callMessage_inj hcallee hcallee' hargs hargs' hmessage
    rfl
  | variableType name ty ty' =>
    rw [shown_inj ("Variable " ++ name ++ " has invalid type ") "." (hone hf) (hone hg) hmessage]
  | arrayBase name base base' =>
    rw [shown_inj ("Array " ++ name ++ " has invalid base type ") "." (hone hf) (hone hg) hmessage]
  | arraySize name ty ty' =>
    rw [shown_inj ("Array " ++ name ++ " of type ") " is too large." (hone hf) (hone hg) hmessage]
  | brokenResult name result result' =>
    rw [shown_inj ("Function " ++ name ++ " has invalid return type ") "." (hone hf) (hone hg)
      hmessage]
  | condition construct ty ty' =>
    rw [shown_inj (construct.name ++ " requires bool condition not ") "." (hone hf) (hone hg)
      hmessage]
  | returned name expected actual expected' actual' =>
    obtain ⟨rfl, rfl⟩ := both_shown_inj ("Function " ++ name ++ " returns ") " not " "." (hone hf)
      (hone hg) (htwo hf) (htwo hg) hmessage
    rfl

end TypeFault

/-- Different types without errors are never shown as the same text, alone, in a list or in the message
of a fault, and no text of a type begins that of another. -/
theorem types_shown_unambiguously :
    (∀ s t : Ty, s.ErrorFree → t.ErrorFree →
      (s.text = t.text ↔ s = t) ∧ (s.text.toList <+: t.text.toList ↔ s = t)) ∧
    (∀ ss ts : List Ty, (∀ s ∈ ss, s.ErrorFree) → (∀ t ∈ ts, t.ErrorFree) →
      (Ty.listText ss = Ty.listText ts ↔ ss = ts)) ∧
    ∀ f g : TypeFault, f.Alike g → (∀ t ∈ f.types, t.ErrorFree) → (∀ t ∈ g.types, t.ErrorFree) →
      (f.message = g.message ↔ f = g) := by
  refine ⟨fun s t hs ht => ?_, fun ss ts hss hts => ?_, fun f g halike hf hg => ?_⟩
  · have hprefix (h : s.text.toList <+: t.text.toList) : s = t := Ty.eq_of_text_prefix hs ht h
    refine ⟨⟨fun h => hprefix (h ▸ List.prefix_refl _), congrArg Ty.text⟩, hprefix, ?_⟩
    rintro rfl
    exact List.prefix_refl _
  · refine ⟨fun h => ?_, congrArg Ty.listText⟩
    exact (Ty.listText_inj hss hts (congrArg (· ++ "") h)).1
  · exact ⟨halike.eq_of_message hf hg, congrArg TypeFault.message⟩

/-- The message of an error can look like the end of a type. -/
example : Ty.listText [.error "a), ErrorType(b"] = Ty.listText [.error "a", .error "b"] := by
  decide

/-- Two functions whose texts differ in the place of one bracket. -/
def takesFunction : Ty :=
  .func [.func [.int] (.array 12 .bool), .float] .void

def takesBoth : Ty :=
  .func [.func [.int, .float] (.array 1 .bool)] .void

theorem functions_told_apart :
    takesFunction.ErrorFree ∧ takesBoth.ErrorFree ∧ takesFunction.text ≠ takesBoth.text ∧
      ¬ takesFunction.text.toList <+: takesBoth.text.toList ∧
      Ty.listText [takesFunction] ≠ Ty.listText [takesBoth] ∧
      (TypeFault.assignment takesFunction takesBoth).message ≠
        (TypeFault.assignment takesBoth takesFunction).message := by
  have hint : Ty.int.ErrorFree := fun message h => by cases h
  have hfloat : Ty.float.ErrorFree := fun message h => by cases h
  have hbool : Ty.bool.ErrorFree := fun message h => by cases h
  have hvoid : Ty.void.ErrorFree := fun message h => by cases h
  have hfunction : takesFunction.ErrorFree := by
    simp [takesFunction, Ty.errorFree_func, Ty.errorFree_array, hint, hfloat, hbool, hvoid]
  have hboth : takesBoth.ErrorFree := by
    simp [takesBoth, Ty.errorFree_func, Ty.errorFree_array, hint, hfloat, hbool, hvoid]
  have hne : takesFunction ≠ takesBoth := by decide
  obtain ⟨htexts, hlists, hfaults⟩ := types_shown_unambiguously
  obtain ⟨htext, hbegins⟩ := htexts takesFunction takesBoth hfunction hboth
  refine ⟨hfunction, hboth, fun h => hne (htext.1 h), fun h => hne (hbegins.1 h), fun h => ?_,
    fun h => ?_⟩
  · have hlist := (hlists [takesFunction] [takesBoth] (by simpa using hfunction)
      (by simpa using hboth)).1 h
    exact hne (List.cons.inj hlist).1
  · have hfault := (hfaults _ _ (.assignment takesFunction takesBoth takesBoth takesFunction)
      (by simp [TypeFault.types, hfunction, hboth]) (by simp [TypeFault.types, hfunction, hboth])).1 h
    exact hne (TypeFault.assignment.inj hfault).1

end MipsCompiler
