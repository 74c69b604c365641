import Mathlib.Data.List.Find
import MipsCompiler.Proofs.Parsing.Accounting
import MipsCompiler.Proofs.Typing.Entries

set_option autoImplicit false

/-!
# Type errors are reported where they arise

A node whose type is an error is an origin if none of its inputs is an error, unless it is a name or
declares an error symbol. The checker reports the origins, each of them once and in the order of their
numbers. Any other error has come from the first input that is an error, or from a symbol, and this
can be followed to something that has been reported.
-/

namespace MipsCompiler

def Subtree.variable? : Subtree → Option SymbolId
  | decl (.var d) => some d.symbol
  | stmt (.var d) => some d.symbol
  | _ => none

namespace Parsed

section

variable (parsed : Parsed) (entry : String)

def parts : List Subtree :=
  (Subtree.tree parsed.tree).postorder

def checked : Checked :=
  check parsed.symbols entry parsed.tree

def recorded (part : Subtree) : Option Ty :=
  (parsed.checked entry).types.get? part.id

/-- The type of an input: what is recorded for a node, and declared for a symbol. -/
def inputTy : Input → Option Ty
  | .operand e => parsed.recorded entry (.expr e)
  | .symbol id => some (parsed.symbols.get id).ty

def firstBroken (part : Subtree) : Option Input :=
  part.inputs.find? fun input => (parsed.inputTy entry input).any Ty.isError

/-- The error of the node arises there. -/
structure IsOrigin (part : Subtree) (message : String) : Prop where
  recorded : parsed.recorded entry part = some (.error message)
  not_name : part.isName = false
  not_refused : ∀ id ∈ part.symbol?, (parsed.symbols.get id).isError = false
  inputs : parsed.firstBroken entry part = none

/-- The error of the node is that of its first input that is one, or that of its symbol. -/
inductive CarriedFrom (part : Subtree) (message : String) : Input → Prop
  | input {input : Input} :
      parsed.firstBroken entry part = some input →
      parsed.inputTy entry input = some (.error message) → CarriedFrom part message input
  | symbol {id : SymbolId} :
      part.symbol? = some id → (parsed.symbols.get id).ty = .error message →
      CarriedFrom part message (.symbol id)

/-- The fault of a symbol is in one of the logs. -/
inductive Reported (id : SymbolId) : Prop
  | refused : (parsed.symbols.get id).RefusedIn parsed.log → Reported id
  | ofVariable {part : Subtree} {message : String} :
      part ∈ parsed.parts → part.variable? = some id → parsed.IsOrigin entry part message →
      Reported id
  | ofParameter {definition : FuncDef} {message : String} :
      Subtree.decl (.func definition) ∈ parsed.parts → id ∈ definition.params →
      parsed.IsOrigin entry (.decl (.func definition)) message → Reported id
  | ofRefused {definition : FuncDef} :
      Subtree.decl (.func definition) ∈ parsed.parts → id ∈ definition.params →
      (parsed.symbols.get definition.symbol).RefusedIn parsed.log → Reported id

/-- The error of the node can be followed to something that has been reported. -/
inductive Traces (message : String) : Subtree → Prop
  | origin {part : Subtree} : parsed.IsOrigin entry part message → Traces message part
  | operand {part : Subtree} {e : Expr} :
      parsed.CarriedFrom entry part message (.operand e) → Traces message (.expr e) →
      Traces message part
  | symbol {part : Subtree} {id : SymbolId} :
      parsed.CarriedFrom entry part message (.symbol id) → parsed.Reported entry id →
      Traces message part

/-- The log of checking lists the origins, and every error is one of them or has come from one or from
a symbol that has been reported. -/
structure ReportsOrigins : Prop where
  log : ∃ origins : List (Subtree × String),
    (origins.map fun origin => origin.1.id).Pairwise (· < ·) ∧
    (∀ part message, (part, message) ∈ origins ↔
      part ∈ parsed.parts ∧ parsed.IsOrigin entry part message) ∧
    (parsed.checked entry).log = origins.map fun origin => .mistyped origin.1.node.pos origin.2
  carried : ∀ part ∈ parsed.parts, ∀ message,
    parsed.recorded entry part = some (.error message) →
      parsed.IsOrigin entry part message ∨ ∃ source, parsed.CarriedFrom entry part message source
  traced : ∀ part ∈ parsed.parts, ∀ message,
    parsed.recorded entry part = some (.error message) → parsed.Traces entry message part

end

end Parsed

namespace Subtree

variable {part : Subtree} {id : SymbolId} {e : Expr}

theorem expr_mem_children (h : Input.operand e ∈ part.inputs) : expr e ∈ part.children := by
  cases part with
  | tree | decl | block => cases h
  | stmt s =>
    cases s with
    | var => cases h
    | call => simpa [inputs, children] using h
    | _ =>
      simp only [inputs, List.mem_cons, Input.operand.injEq, List.not_mem_nil, or_false] at h
      simp [children, h]
  | expr e =>
    cases e with
    | literal | address => cases h
    | call => simpa [inputs, children] using h
    | _ =>
      simp only [inputs, List.mem_cons, Input.operand.injEq, List.not_mem_nil, or_false] at h
      simp [children, h]

theorem mem_names_of_input (h : Input.symbol id ∈ part.inputs) : id ∈ part.names := by
  cases part with
  | tree | decl | block => cases h
  | stmt s => cases s <;> simp_all [inputs, names]
  | expr e => cases e <;> simp_all [inputs, names]

theorem mem_names_of_symbol? (h : part.symbol? = some id) : id ∈ part.names := by
  cases part with
  | tree | block => cases h
  | decl d => exact Option.some.inj h ▸ List.mem_cons_self
  | stmt s =>
    cases s with
    | var d => exact Option.some.inj h ▸ List.mem_cons_self
    | _ => cases h
  | expr e =>
    cases e with
    | address => exact Option.some.inj h ▸ List.mem_cons_self
    | _ => cases h

theorem mem_declares (h : id ∈ part.declares) :
    part.variable? = some id ∨ ∃ definition, part = decl (.func definition) ∧ id ∈ definition.params := by
  cases part with
  | tree | block | expr => cases h
  | decl d =>
    cases d with
    | var d => exact .inl (congrArg some (List.mem_singleton.1 h).symm)
    | array => cases h
    | func definition => exact .inr ⟨definition, rfl, h⟩
  | stmt s =>
    cases s with
    | var d => exact .inl (congrArg some (List.mem_singleton.1 h).symm)
    | _ => cases h

theorem variable_entry (h : part.variable? = some id) :
    part.isName = false ∧ part.symbol? = some id ∧ part.inputs = [] ∧
      ∀ symbols entry promise,
        (part.ownEntry symbols entry promise).ty = (symbols.get id).variableTy := by
  cases part with
  | tree | block | expr => cases h
  | decl d =>
    cases d with
    | var d =>
      cases h
      exact ⟨rfl, rfl, rfl, fun _ _ _ => TypeEntry.declared_ty⟩
    | _ => cases h
  | stmt s =>
    cases s with
    | var d =>
      cases h
      exact ⟨rfl, rfl, rfl, fun _ _ _ => TypeEntry.declared_ty⟩
    | _ => cases h

end Subtree

namespace Parsed

variable {parsed : Parsed} {entry : String} {part : Subtree} {message : String}

theorem forall₂_entries (parsed : Parsed) (entry : String) :
    List.Forall₂ (fun part x => ∃ promise, x = part.ownEntry parsed.symbols entry promise)
      parsed.parts (parsed.tree.entries parsed.symbols entry) := by
  have hall := @Subtree.forall₂_entries parsed.symbols entry ⟨parsed.symbols, "", none⟩ rfl
    (.tree parsed.tree)
  exact hall.imp fun _ _ ⟨promise, _, hx⟩ => ⟨promise, hx⟩

section

variable (hids : (parsed.parts.map Subtree.id).Pairwise (· < ·))

include hids

theorem recorded_of_mem {x : TypeEntry} {promise : Promise}
    (hx : x ∈ parsed.tree.entries parsed.symbols entry)
    (hentry : x = part.ownEntry parsed.symbols entry promise) :
    parsed.recorded entry part = some x.ty := by
  have hnodup : parsed.tree.postorder.Nodup := by
    have hordered := hids
    rw [parts, Subtree.postorder_ids] at hordered
    exact hordered.imp Nat.ne_of_lt
  rw [recorded, ← part.ownEntry_id parsed.symbols entry promise, ← hentry]
  exact check_get? hnodup hx

theorem exists_entry (entry : String) (hpart : part ∈ parsed.parts) :
    ∃ promise, parsed.recorded entry part =
      some (part.ownEntry parsed.symbols entry promise).ty := by
  have hall := parsed.forall₂_entries entry
  obtain ⟨⟨i, hi⟩, rfl⟩ := List.get_of_mem hpart
  have hi' := hall.length_eq ▸ hi
  obtain ⟨promise, hentry⟩ := hall.get hi hi'
  refine ⟨promise, ?_⟩
  rw [← hentry]
  exact recorded_of_mem hids (List.get_mem _ ⟨i, hi'⟩) hentry

theorem recorded_expr {e : Expr} (hpart : Subtree.expr e ∈ parsed.parts) :
    parsed.recorded entry (.expr e) = some (e.ty parsed.symbols) := by
  obtain ⟨promise, hrecorded⟩ := exists_entry hids entry hpart
  rw [hrecorded]
  cases e <;> rfl

theorem inputTy_eq (hpart : part ∈ parsed.parts) {input : Input} (hinput : input ∈ part.inputs) :
    parsed.inputTy entry input = some (input.ty parsed.symbols) := by
  cases input with
  | symbol id => rfl
  | operand e =>
    have hchild := Subtree.child_mem_postorder (Subtree.expr_mem_children hinput)
      (Subtree.self_mem_postorder _)
    exact recorded_expr hids ((Subtree.postorder_sublist hpart).subset hchild)

theorem firstError_eq (hpart : part ∈ parsed.parts) :
    Ty.firstError (part.inputs.map (Input.ty parsed.symbols)) =
      (parsed.firstBroken entry part).map (Input.ty parsed.symbols) := by
  rw [Ty.firstError, List.find?_map, firstBroken]
  refine congrArg _ (List.find?_congr fun input hinput => ?_)
  rw [inputTy_eq hids hpart hinput]
  rfl

theorem firstBroken_eq_none (hpart : part ∈ parsed.parts) :
    parsed.firstBroken entry part = none ↔
      Ty.firstError (part.inputs.map (Input.ty parsed.symbols)) = none := by
  rw [firstError_eq hids hpart, Option.map_eq_none_iff]

theorem report_iff {x : TypeEntry} {d : Diagnostic} (hpart : part ∈ parsed.parts)
    (hsettled : part.Settled parsed.symbols x) (hrecorded : parsed.recorded entry part = some x.ty) :
    x.report = some d ↔
      ∃ message, parsed.IsOrigin entry part message ∧ d = .mistyped part.node.pos message := by
  cases hsettled with
  | void =>
    refine iff_of_false TypeEntry.silent_report ?_
    rintro ⟨message, horigin, _⟩
    cases horigin.recorded.symm.trans hrecorded
  | name hname _ =>
    refine iff_of_false TypeEntry.silent_report ?_
    rintro ⟨message, horigin, _⟩
    cases horigin.not_name.symm.trans hname
  | refused hsymbol herror =>
    refine iff_of_false TypeEntry.silent_report ?_
    rintro ⟨message, horigin, _⟩
    cases (horigin.not_refused _ hsymbol).symm.trans herror
  | computed hname hsymbol _ =>
    rw [TypeEntry.computed_report]
    constructor
    · rintro ⟨message, rfl, hinputs, hd⟩
      exact ⟨message, ⟨hrecorded, hname, hsymbol, (firstBroken_eq_none hids hpart).2 hinputs⟩, hd⟩
    · rintro ⟨message, horigin, hd⟩
      refine ⟨message, ?_, (firstBroken_eq_none hids hpart).1 horigin.inputs, hd⟩
      exact Option.some.inj (hrecorded.symm.trans horigin.recorded)

theorem carried {x : TypeEntry} (hpart : part ∈ parsed.parts)
    (hsettled : part.Settled parsed.symbols x) (hrecorded : parsed.recorded entry part = some x.ty)
    (hty : x.ty = .error message) :
    parsed.IsOrigin entry part message ∨ ∃ source, parsed.CarriedFrom entry part message source := by
  cases hsettled with
  | void => cases hty
  | @name id _ hsymbol =>
    refine .inr ⟨_, .symbol hsymbol ?_⟩
    have hplace : (parsed.symbols.get id).ty.place = .error message := hty
    cases hsymbolTy : (parsed.symbols.get id).ty with
    | error other => rw [hsymbolTy] at hplace; exact hplace
    | _ => rw [hsymbolTy] at hplace; cases hplace
  | refused hsymbol _ => exact .inr ⟨_, .symbol hsymbol hty⟩
  | computed hname hsymbol hfirst =>
    cases hbroken : parsed.firstBroken entry part with
    | none => exact .inl ⟨hrecorded.trans (congrArg some hty), hname, hsymbol, hbroken⟩
    | some input =>
      refine .inr ⟨input, .input hbroken ?_⟩
      have hinput := List.mem_of_find?_eq_some hbroken
      have herror := hfirst (input.ty parsed.symbols) (by rw [firstError_eq hids hpart, hbroken]; rfl)
      rw [inputTy_eq hids hpart hinput, ← herror]
      exact congrArg some hty

/-- The error of a declaration arises there, unless its name was refused. -/
theorem declaration_origin {id : SymbolId} (entry : String) (hpart : part ∈ parsed.parts)
    (hname : part.isName = false) (hsymbol : part.symbol? = some id) (hinputs : part.inputs = [])
    (herror : (parsed.symbols.get id).isError = false)
    (hty : ∀ promise, (part.ownEntry parsed.symbols entry promise).ty.isError) :
    ∃ message, parsed.IsOrigin entry part message := by
  obtain ⟨promise, hrecorded⟩ := exists_entry hids entry hpart
  have herrorTy := hty promise
  cases hentry : (part.ownEntry parsed.symbols entry promise).ty with
  | error message =>
    refine ⟨message, hentry ▸ hrecorded, hname, ?_, ?_⟩
    · intro other hother
      cases hsymbol.symm.trans hother
      exact herror
    · rw [firstBroken, hinputs]
      rfl
  | _ =>
    rw [hentry] at herrorTy
    cases herrorTy

section

variable (haccounted : parsed.Accounted)

include haccounted

omit hids in
theorem settled (entry : String) (hpart : part ∈ parsed.parts) (promise : Promise) :
    part.Settled parsed.symbols (part.ownEntry parsed.symbols entry promise) := by
  refine Subtree.ownEntry_settled fun id hid herror => ?_
  have hnamed := haccounted.names part hpart id (Subtree.mem_names_of_symbol? hid)
  obtain ⟨_, _, _, _, _, _, hsymbol⟩ := (haccounted.symbols id hnamed).refusedIn herror
  rw [hsymbol]
  rfl

theorem reported {id : SymbolId} (hpart : part ∈ parsed.parts) (hid : id ∈ part.names)
    (hty : (parsed.symbols.get id).ty.isError) : parsed.Reported entry id := by
  cases haccounted.symbols id (haccounted.names part hpart id hid) with
  | refused h => exact .refused h
  | sound _ h => rw [h] at hty; cases hty
  | declared herror hdeclared =>
    obtain ⟨other, hother, hdeclares⟩ := List.mem_flatMap.1 hdeclared
    rcases Subtree.mem_declares hdeclares with hvariable | ⟨definition, rfl, hparam⟩
    · obtain ⟨hname, hsymbol, hinputs, hentry⟩ := Subtree.variable_entry hvariable
      have hbroken := Symbol.isError_variableTy herror hty
      obtain ⟨message, horigin⟩ := declaration_origin hids entry hother hname hsymbol hinputs herror
        fun promise => (hentry parsed.symbols entry promise).symm ▸ hbroken
      exact .ofVariable hother hvariable horigin
    · have hsigned := haccounted.signed definition hother
      cases hfunction : (parsed.symbols.get definition.symbol).isError with
      | true =>
        have hexplained := haccounted.symbols definition.symbol hsigned.symbol
        exact .ofRefused hother hparam (hexplained.refusedIn hfunction)
      | false =>
        obtain ⟨result, hsignature⟩ := hsigned.signature.resolve_left (by simp [hfunction])
        have hbroken : (definition.ty parsed.symbols entry).isError :=
          FuncDef.isError_ty hsignature ⟨_, List.mem_map_of_mem hparam, hty⟩
        have hentry (promise : Promise) : ((Subtree.decl (.func definition)).ownEntry parsed.symbols
            entry promise).ty = definition.ty parsed.symbols entry := TypeEntry.declared_ty
        obtain ⟨message, horigin⟩ := declaration_origin hids entry hother rfl rfl rfl hfunction
          fun promise => (hentry promise).symm ▸ hbroken
        exact .ofParameter hother hparam horigin

theorem carried_of_recorded (hpart : part ∈ parsed.parts)
    (hrecorded : parsed.recorded entry part = some (.error message)) :
    parsed.IsOrigin entry part message ∨ ∃ source, parsed.CarriedFrom entry part message source := by
  obtain ⟨promise, hentry⟩ := exists_entry hids entry hpart
  refine carried hids hpart (settled haccounted entry hpart promise) hentry ?_
  exact Option.some.inj (hentry.symm.trans hrecorded)

theorem traces (hpart : part ∈ parsed.parts)
    (hrecorded : parsed.recorded entry part = some (.error message)) :
    parsed.Traces entry message part := by
  induction part using Subtree.induct with
  | step part ih =>
    rcases carried_of_recorded hids haccounted hpart hrecorded with horigin | ⟨source, hcarried⟩
    · exact .origin horigin
    · cases source with
      | operand e =>
        cases hcarried with
        | input hfirst hty =>
          have hchild := Subtree.expr_mem_children (List.mem_of_find?_eq_some hfirst)
          have hmem := Subtree.child_mem_postorder hchild (Subtree.self_mem_postorder _)
          have hbelow := (Subtree.postorder_sublist hpart).subset hmem
          exact .operand (.input hfirst hty) (ih _ hchild hbelow hty)
      | symbol id =>
        have hnamed : id ∈ part.names ∧ (parsed.symbols.get id).ty = .error message := by
          cases hcarried with
          | input hfirst hty =>
            exact ⟨Subtree.mem_names_of_input (List.mem_of_find?_eq_some hfirst), Option.some.inj hty⟩
          | symbol hsymbol hty => exact ⟨Subtree.mem_names_of_symbol? hsymbol, hty⟩
        exact .symbol hcarried (reported hids haccounted hpart hnamed.1 (hnamed.2 ▸ rfl))

theorem forall₂_reports (entry : String) :
    List.Forall₂ (fun part (x : TypeEntry) => ∀ d, x.report = some d ↔
      ∃ message, parsed.IsOrigin entry part message ∧ d = .mistyped part.node.pos message)
      parsed.parts (parsed.tree.entries parsed.symbols entry) := by
  have hall := parsed.forall₂_entries entry
  refine List.forall₂_iff_zip.2 ⟨hall.length_eq, fun {part x} hmem d => ?_⟩
  obtain ⟨hpart, hx⟩ := List.of_mem_zip hmem
  obtain ⟨promise, hentry⟩ := List.forall₂_zip hall hmem
  have hsettled := settled haccounted entry hpart promise
  exact report_iff hids hpart (hentry ▸ hsettled) (recorded_of_mem hids hx hentry)

end

end

theorem IsOrigin.unique {other : String} (h : parsed.IsOrigin entry part message)
    (h' : parsed.IsOrigin entry part other) : message = other := by
  cases h.recorded.symm.trans h'.recorded
  rfl

end Parsed

theorem exists_origins {parts : List Subtree} {entries : List TypeEntry}
    {P : Subtree → String → Prop}
    (h : List.Forall₂ (fun part (x : TypeEntry) => ∀ d, x.report = some d ↔
      ∃ message, P part message ∧ d = .mistyped part.node.pos message) parts entries)
    (hunique : ∀ part message other, P part message → P part other → message = other) :
    ∃ origins : List (Subtree × String), (origins.map Prod.fst).Sublist parts ∧
      (∀ part message, (part, message) ∈ origins ↔ part ∈ parts ∧ P part message) ∧
      entries.filterMap TypeEntry.report =
        origins.map fun origin => .mistyped origin.1.node.pos origin.2 := by
  induction h with
  | nil => exact ⟨[], .slnil, by simp, rfl⟩
  | @cons part x parts entries hfirst _ ih =>
    obtain ⟨origins, hsublist, hmem, hreports⟩ := ih
    cases hreport : x.report with
    | none =>
      have hnone (message : String) : ¬ P part message := by
        intro hP
        have hsome := (hfirst _).2 ⟨message, hP, rfl⟩
        rw [hreport] at hsome
        cases hsome
      refine ⟨origins, hsublist.cons part, ?_, ?_⟩
      · intro other message
        rw [hmem, List.mem_cons]
        constructor
        · rintro ⟨hother, hP⟩
          exact ⟨.inr hother, hP⟩
        · rintro ⟨rfl | hother, hP⟩
          · exact absurd hP (hnone message)
          · exact ⟨hother, hP⟩
      · rw [List.filterMap_cons_none hreport, hreports]
    | some d =>
      obtain ⟨message, hP, rfl⟩ := (hfirst d).1 hreport
      refine ⟨(part, message) :: origins, hsublist.cons_cons part, ?_, ?_⟩
      · intro other found
        rw [List.mem_cons, hmem, List.mem_cons, Prod.mk.injEq]
        constructor
        · rintro (⟨rfl, rfl⟩ | ⟨hother, hfound⟩)
          · exact ⟨.inl rfl, hP⟩
          · exact ⟨.inr hother, hfound⟩
        · rintro ⟨rfl | hother, hfound⟩
          · exact .inl ⟨rfl, hunique _ _ _ hfound hP⟩
          · exact .inr ⟨hother, hfound⟩
      · rw [List.filterMap_cons_some hreport, hreports]
        rfl

/-- If a parse is not given up, checking it reports each error where it arises, in the order of the
nodes, refused names or not. -/
theorem type_errors_reported_at_origins {σ : Type} [TokenStream σ] (stream : σ) (entry : String)
    (h : (parse stream).tree.isError = false) : (parse stream).ReportsOrigins entry := by
  have hids : ((parse stream).parts.map Subtree.id).Pairwise (· < ·) := by
    rw [Parsed.parts, parse_subtree_ids h]
    exact List.pairwise_lt_range
  have haccounted := parse_accounts h
  refine ⟨?_, fun part hpart message => Parsed.carried_of_recorded hids haccounted hpart,
    fun part hpart message => Parsed.traces hids haccounted hpart⟩
  obtain ⟨origins, hsublist, hmem, hlog⟩ := exists_origins
    (Parsed.forall₂_reports hids haccounted entry) fun _ _ _ => Parsed.IsOrigin.unique
  refine ⟨origins, ?_, hmem, hlog⟩
  have hsublistIds := hsublist.map Subtree.id
  rw [List.map_map] at hsublistIds
  exact hids.sublist hsublistIds

def brokenNames : List Token :=
  [⟨.varKw, "var", ⟨1, 1⟩⟩, ⟨.identifier, "x", ⟨1, 5⟩⟩, ⟨.colon, ":", ⟨1, 6⟩⟩,
    ⟨.identifier, "word", ⟨1, 8⟩⟩, ⟨.semicolon, ";", ⟨1, 12⟩⟩, ⟨.funcKw, "func", ⟨2, 1⟩⟩,
    ⟨.identifier, "f", ⟨2, 6⟩⟩, ⟨.openParen, "(", ⟨2, 7⟩⟩, ⟨.identifier, "p", ⟨2, 8⟩⟩,
    ⟨.colon, ":", ⟨2, 9⟩⟩, ⟨.identifier, "word", ⟨2, 11⟩⟩, ⟨.closeParen, ")", ⟨2, 15⟩⟩,
    ⟨.colon, ":", ⟨2, 17⟩⟩, ⟨.identifier, "int", ⟨2, 19⟩⟩, ⟨.openBrace, "\x7b", ⟨2, 23⟩⟩,
    ⟨.letKw, "let", ⟨3, 3⟩⟩, ⟨.identifier, "x", ⟨3, 7⟩⟩, ⟨.assign, "=", ⟨3, 9⟩⟩,
    ⟨.identifier, "p", ⟨3, 11⟩⟩, ⟨.add, "+", ⟨3, 13⟩⟩, ⟨.identifier, "y", ⟨3, 15⟩⟩,
    ⟨.semicolon, ";", ⟨3, 16⟩⟩, ⟨.returnKw, "return", ⟨4, 3⟩⟩, ⟨.integer, "1", ⟨4, 10⟩⟩,
    ⟨.add, "+", ⟨4, 12⟩⟩, ⟨.trueKw, "true", ⟨4, 14⟩⟩, ⟨.semicolon, ";", ⟨4, 18⟩⟩,
    ⟨.closeBrace, "\x7d", ⟨5, 1⟩⟩]

theorem brokenNames_reported :
    (parseTokens brokenNames).tree.isError = false ∧
      ((parseTokens brokenNames).checked "main").log.map Diagnostic.pos =
        [⟨1, 1⟩, ⟨4, 12⟩, ⟨2, 1⟩] ∧
      (parseTokens brokenNames).ReportsOrigins "main" := by
  have hread : (parseTokens brokenNames).tree.isError = false ∧
      ((parseTokens brokenNames).checked "main").log.map Diagnostic.pos =
        [⟨1, 1⟩, ⟨4, 12⟩, ⟨2, 1⟩] := by decide +kernel
  exact ⟨hread.1, hread.2,
    type_errors_reported_at_origins (TokenQueue.ofTokens brokenNames) "main" hread.1⟩

end MipsCompiler
