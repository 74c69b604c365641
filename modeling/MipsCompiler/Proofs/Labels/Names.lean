import MipsCompiler.Proofs.Labels.Supply
import MipsCompiler.Proofs.Lowering.Layout
import MipsCompiler.Proofs.Parsing.Scoping
import MipsCompiler.Proofs.Scanning.Lexeme

set_option autoImplicit false

/-!
# The names of labels

Names of four kinds are requested: the data of a global, the start and the end of a function, and the
places inside a function. A name that was scanned from a text is a word, so that it has no dot in it,
does not read as a numeral and is not the keyword `func`, and that alone keeps the kinds apart.
-/

namespace MipsCompiler

open LabelSupply (label parts isNumbered)

structure IsName (name : String) : Prop where
  isWord : name.toList.all Cursor.isWordPart
  notNumeral : name.toList.all Char.isDigit = false
  notKeyword : name ≠ "func"

theorem IsName.noDot {name : String} (h : IsName name) : '.' ∉ name.toList :=
  fun hmem => absurd (List.all_eq_true.1 h.isWord _ hmem) (by decide)

theorem IsName.parts {name : String} (h : IsName name) : parts name = [name.toList] :=
  LabelSupply.parts_of_no_dot h.noDot

theorem HasForm.isName {cs : List Char} (h : HasForm .identifier cs) :
    IsName (String.ofList cs) := by
  cases h with
  | fixed htext => nomatch htext
  | identifier hword hkeyword =>
    cases cs with
    | nil => nomatch hword
    | cons c cs =>
      obtain ⟨hstart, hparts⟩ := Bool.and_eq_true_iff.1 hword
      refine ⟨?_, ?_, fun hfunc => hkeyword .funcKw (by decide) (congrArg some hfunc.symm)⟩
      · rw [String.toList_ofList, List.all_cons, Cursor.isWordPart_of_isWordStart hstart, hparts]
        rfl
      · rw [String.toList_ofList, List.all_cons, Cursor.isDigit_of_isWordStart hstart]
        rfl

theorem Cursor.isName_of_lexemeAt {cs : List Char} (h : (lexemeAt cs).1 = .identifier) :
    IsName (String.ofList (lexemeAt cs).2) := by
  cases cs with
  | nil => nomatch h
  | cons c cs =>
    have hform := lexemeAt_form c cs
    rw [h] at hform
    rcases hform with hform | ⟨herror, _⟩
    · exact hform.isName
    · nomatch herror

namespace Scanner

theorem exists_cursor_of_ahead {cursor : Cursor} {later : Scanner}
    (h : TokenStream.Ahead (ofCursor cursor) later) : ∃ cursor', later = ofCursor cursor' := by
  cases h with
  | here => exact ⟨cursor, rfl⟩
  | later _ => exact ⟨_, rfl⟩

theorem isName_of_ahead {source : String} {later : Scanner}
    (h : TokenStream.Ahead (ofText source) later)
    (hkind : (TokenStream.peek later).kind = .identifier) :
    IsName (TokenStream.peek later).lexeme := by
  obtain ⟨cursor, rfl⟩ := exists_cursor_of_ahead h
  exact Cursor.isName_of_lexemeAt hkind

end Scanner

/-- What stands behind the name of a function in the names of the places inside it. -/
def innerNames : List String :=
  ["compare", "else", "ifelse.end", "while", "while.end"]

/-- The names that lowering a declaration requests labels for. -/
inductive Decl.Requests (env : Environment) : Decl → String → Prop
  | var {decl : VarDecl} :
      Decl.Requests env (.var decl) (env.symbols.get decl.symbol).dataLabel
  | array {decl : VarDecl} :
      Decl.Requests env (.array decl) (env.symbols.get decl.symbol).dataLabel
  | start {definition : FuncDef} :
      Decl.Requests env (.func definition)
        ((env.symbols.get definition.symbol).codeLabel env.entry)
  | finish {definition : FuncDef} {n : Nat} :
      Decl.Requests env (.func definition)
        (label ((env.symbols.get definition.symbol).codeLabel env.entry) n ++ ".end")
  | inner {definition : FuncDef} {suffix : String} :
      suffix ∈ innerNames →
      Decl.Requests env (.func definition)
        ((env.symbols.get definition.symbol).name ++ "." ++ suffix)

section

variable {s : Symbol}

theorem Symbol.dataLabel_eq (s : Symbol) : s.dataLabel = "cruxdata" ++ "." ++ s.name :=
  rfl

theorem Symbol.parts_dataLabel (h : IsName s.name) :
    parts s.dataLabel = ["cruxdata".toList, s.name.toList] := by
  rw [dataLabel_eq, LabelSupply.parts_dot, h.parts]
  rfl

theorem Symbol.codeLabel_eq (entry : String) (s : Symbol) :
    (s.name = entry ∧ s.codeLabel entry = s.name) ∨ s.codeLabel entry = "func" ++ "." ++ s.name := by
  unfold codeLabel
  split
  · next h => exact .inl ⟨h, rfl⟩
  · exact .inr rfl

theorem Symbol.callLabel_eq (entry : String) (h : s.isBuiltin = false) :
    s.callLabel entry = s.codeLabel entry := by
  unfold callLabel codeLabel
  by_cases hentry : s.name = entry <;> simp [hentry, h]

theorem Symbol.parts_codeLabel (entry : String) (h : IsName s.name) :
    (s.name = entry ∧ parts (s.codeLabel entry) = [s.name.toList]) ∨
      parts (s.codeLabel entry) = ["func".toList, s.name.toList] := by
  rcases s.codeLabel_eq entry with ⟨hentry, heq⟩ | heq
  · exact .inl ⟨hentry, heq ▸ h.parts⟩
  · right
    rw [heq, LabelSupply.parts_dot, h.parts]
    rfl

theorem Symbol.codeLabel_inj {entry : String} {a b : Symbol} (ha : IsName a.name)
    (hb : IsName b.name) (h : a.codeLabel entry = b.codeLabel entry) : a.name = b.name := by
  have hparts := congrArg parts h
  rcases parts_codeLabel entry ha with ⟨ha', hpa⟩ | hpa
  · rcases parts_codeLabel entry hb with ⟨hb', hpb⟩ | hpb
    · exact ha'.trans hb'.symm
    · rw [hpa, hpb] at hparts
      exact nomatch (List.cons.inj hparts).2
  · rcases parts_codeLabel entry hb with ⟨_, hpb⟩ | hpb
    · rw [hpa, hpb] at hparts
      exact nomatch (List.cons.inj hparts).2
    · rw [hpa, hpb] at hparts
      exact String.toList_inj.1 (List.cons.inj (List.cons.inj hparts).2).1

theorem IsName.not_numbered {name : String} (h : IsName name) : isNumbered name = false := by
  rw [isNumbered, h.parts]
  exact h.notNumeral

theorem endLabel_eq (start : String) : start ++ ".end" = start ++ "." ++ "end" :=
  (@String.append_assoc start "." "end").symm

theorem Symbol.codeLabel_not_numbered (entry : String) (h : IsName s.name) :
    isNumbered (s.codeLabel entry) = false := by
  rcases s.codeLabel_eq entry with ⟨_, heq⟩ | heq
  · exact heq ▸ h.not_numbered
  · rw [heq, LabelSupply.isNumbered_dot]
    exact h.not_numbered

end

def RoutineLine.label? : RoutineLine → Option String
  | label name => some name
  | _ => none

def RoutineLine.operand? : RoutineLine → Option String
  | reference _ target => some target
  | _ => none

def Library.labels : List String :=
  strings.map LibraryString.label ++ routines.filterMap RoutineLine.label?

theorem Library.exists_builtin {l : String} (h : l ∈ labels) {name : List Char}
    (hparts : parts l = ["func".toList, name]) :
    ∃ routine ∈ Scope.builtins, routine.1.toList = name := by
  have hall := (by decide : ∀ l ∈ labels, (parts l).head? = some "func".toList →
    ∃ routine ∈ Scope.builtins, (parts l).getLast? = some routine.1.toList) l h
  rw [hparts] at hall
  obtain ⟨routine, hroutine, heq⟩ := hall rfl
  exact ⟨routine, hroutine, (Option.some.inj heq).symm⟩

theorem parts_innerNames {suffix : String} (h : suffix ∈ innerNames) :
    ∃ middle last, parts suffix = middle ++ [last] ∧
      last ∈ ["compare".toList, "else".toList, "end".toList, "while".toList] := by
  have hlast := (by decide : ∀ suffix ∈ innerNames, (parts suffix).getLast?.getD [] ∈
    ["compare".toList, "else".toList, "end".toList, "while".toList]) suffix h
  refine ⟨(parts suffix).dropLast, _, ?_, hlast⟩
  rw [List.getLast?_eq_some_getLast (LabelSupply.parts_ne_nil suffix), Option.getD_some,
    List.dropLast_concat_getLast]

namespace Decl.Requests

variable {env : Environment} {decl : Decl} {name : String}

theorem not_numbered (h : decl.Requests env name)
    (hname : IsName (env.symbols.get decl.symbol).name) : isNumbered name = false := by
  cases h with
  | var | array =>
    rw [Symbol.dataLabel_eq, LabelSupply.isNumbered_dot]
    exact hname.not_numbered
  | start => exact Symbol.codeLabel_not_numbered env.entry hname
  | finish =>
    rw [endLabel_eq, LabelSupply.isNumbered_dot]
    decide
  | inner hsuffix =>
    rw [LabelSupply.isNumbered_dot]
    revert hsuffix
    exact (by decide : ∀ suffix ∈ innerNames, isNumbered suffix = false) _

/-- The names that are neither of a global nor of a start end in a word of their own, and begin with
the function's name or have a part more. -/
theorem parts_cases (h : decl.Requests env name)
    (hname : IsName (env.symbols.get decl.symbol).name) :
    name = (env.symbols.get decl.symbol).dataLabel ∨
      name = (env.symbols.get decl.symbol).codeLabel env.entry ∨
      ∃ first middle last, parts name = first :: (middle ++ [last]) ∧
        last ∈ ["compare".toList, "else".toList, "end".toList, "while".toList] ∧
        (first = (env.symbols.get decl.symbol).name.toList ∨ middle ≠ []) := by
  cases h with
  | var | array => exact .inl rfl
  | start => exact .inr (.inl rfl)
  | @finish definition n =>
    refine .inr (.inr ?_)
    change IsName (env.symbols.get definition.symbol).name at hname
    obtain ⟨number, hnumber⟩ := LabelSupply.exists_parts_label
      ((env.symbols.get definition.symbol).codeLabel env.entry) n
    rw [endLabel_eq, LabelSupply.parts_dot, hnumber, List.append_assoc]
    rcases Symbol.parts_codeLabel env.entry hname with ⟨_, hcode⟩ | hcode
    · rw [hcode]
      exact ⟨_, number, "end".toList, rfl, by simp, .inl rfl⟩
    · rw [hcode]
      exact ⟨_, _ :: number, "end".toList, rfl, by simp, .inr (List.cons_ne_nil _ _)⟩
  | @inner definition suffix hsuffix =>
    refine .inr (.inr ?_)
    change IsName (env.symbols.get definition.symbol).name at hname
    obtain ⟨middle, last, hparts, hlast⟩ := parts_innerNames hsuffix
    refine ⟨_, middle, last, ?_, hlast, .inl rfl⟩
    rw [LabelSupply.parts_dot, hparts, hname.parts]
    rfl

/-- A library label ends in none of the words, and starts with `func` only if it is a routine's. -/
theorem not_library (h : decl.Requests env name)
    (hname : IsName (env.symbols.get decl.symbol).name)
    (hfresh : ∀ routine ∈ Scope.builtins, routine.1 ≠ (env.symbols.get decl.symbol).name) :
    name ∉ Library.labels := by
  intro hmem
  rcases h.parts_cases hname with hdata | hcode | ⟨first, middle, last, hparts, hlast, _⟩
  · have hhead : (parts name).head? = some "cruxdata".toList := by
      rw [hdata, Symbol.parts_dataLabel hname]
      rfl
    revert hhead
    exact (by decide : ∀ l ∈ Library.labels, (parts l).head? ≠ some "cruxdata".toList) name hmem
  · rcases Symbol.parts_codeLabel env.entry hname with ⟨_, hparts⟩ | hparts
    · have hlength : (parts name).length = 1 := by
        rw [hcode, hparts]
        rfl
      revert hlength
      exact (by decide : ∀ l ∈ Library.labels, (parts l).length ≠ 1) name hmem
    · rw [← hcode] at hparts
      obtain ⟨routine, hroutine, heq⟩ := Library.exists_builtin hmem hparts
      exact hfresh routine hroutine (String.toList_inj.1 heq)
  · have hgetLast : (parts name).getLast? = some last := by
      rw [hparts, ← List.cons_append, List.getLast?_concat]
    exact (by decide : ∀ l ∈ Library.labels, ∀ last ∈ ["compare".toList, "else".toList,
      "end".toList, "while".toList], (parts l).getLast? ≠ some last) name hmem last hlast hgetLast

theorem ne_codeLabel (h : decl.Requests env name)
    (hname : IsName (env.symbols.get decl.symbol).name) {s : Symbol} (hs : IsName s.name)
    (hne : (env.symbols.get decl.symbol).name ≠ s.name) : name ≠ s.codeLabel env.entry := by
  intro heq
  rcases h.parts_cases hname with hdata | hcode | ⟨first, middle, last, hinner, _, hfirst⟩
  · have hparts : ["cruxdata".toList, _] = parts (s.codeLabel env.entry) :=
      (Symbol.parts_dataLabel hname).symm.trans (congrArg parts (hdata.symm.trans heq))
    rcases Symbol.parts_codeLabel env.entry hs with ⟨_, hcode⟩ | hcode
    · exact nomatch (List.cons.inj (hparts.trans hcode)).2
    · exact absurd (List.cons.inj (hparts.trans hcode)).1 (by decide)
  · exact hne (Symbol.codeLabel_inj hname hs (hcode.symm.trans heq))
  · rw [heq] at hinner
    rcases Symbol.parts_codeLabel env.entry hs with ⟨_, hcode⟩ | hcode
    · have hrest := (List.cons.inj (hcode.symm.trans hinner)).2
      exact List.cons_ne_nil _ _ (List.append_eq_nil_iff.1 hrest.symm).2
    · obtain ⟨hfunc, hrest⟩ := List.cons.inj (hcode.symm.trans hinner)
      -- two parts leave no room in the middle, so that the first one is the name
      have hmiddle : middle = [] := by
        have hlength := congrArg List.length hrest
        rw [List.length_append] at hlength
        exact List.length_eq_zero_iff.1 (Nat.succ.inj hlength.symm)
      have hfunc' := hfirst.resolve_right fun hne => hne hmiddle
      exact hname.notKeyword (String.toList_inj.1 (hfunc'.symm.trans hfunc.symm))

end Decl.Requests

end MipsCompiler
