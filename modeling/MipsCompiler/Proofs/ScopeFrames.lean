import Mathlib.Data.List.Forall2
import Mathlib.Data.List.Induction
import MipsCompiler.Proofs.LexicalScope
import MipsCompiler.Proofs.Parsing.Accounting

set_option autoImplicit false

/-!
# What frames hold

The frames of a scope are compared with the declarations of the open scopes, all of them in the order
they were made. A frame binds a name to its last declaration and lists the symbol of its first one.
The two differ only for a name that is declared again, which is then bound to an error symbol.

`Frame.Holds` says so in the terms of a frame. Each call preserves it for every open frame, while the
table of symbols grows and their types change. What a reader of a frame can rely on follows from it,
and so does the listing of the open scopes. The depth that a frame got when its scope was opened stays
the number of scopes around it, as `Nested` says.
-/

namespace MipsCompiler

theorem Symbol.name_retype (symbol : Symbol) (ty : Ty) : (symbol.retype ty).name = symbol.name := by
  unfold retype
  split <;> rfl

theorem Symbol.pos_retype (symbol : Symbol) (ty : Ty) : (symbol.retype ty).pos = symbol.pos := by
  unfold retype
  split <;> rfl

theorem SymbolTable.get_eq {symbols : SymbolTable} {id : SymbolId} {symbol : Symbol}
    (h : symbols[id]? = some symbol) : symbols.get id = symbol := by
  rw [get, List.getD_eq_getElem?_getD, h, Option.getD_some]

theorem SymbolTable.getElem?_append {symbols : SymbolTable} {id : SymbolId} {symbol : Symbol}
    (h : symbols[id]? = some symbol) (more : SymbolTable) : (symbols ++ more)[id]? = some symbol := by
  obtain ⟨hid, _⟩ := List.getElem?_eq_some_iff.1 h
  rw [List.getElem?_append_left hid, h]

/-- A declaration: its symbol, with the type that was set last, and the answer to it. -/
structure ScopeEntry where
  symbol : Symbol
  id : SymbolId

namespace ScopeEntry

def name (e : ScopeEntry) : String :=
  e.symbol.name

def retype (id : SymbolId) (ty : Ty) (e : ScopeEntry) : ScopeEntry :=
  if e.id = id then { e with symbol := e.symbol.retype ty } else e

def namesakes (entries : List ScopeEntry) (name : String) : List ScopeEntry :=
  entries.filter fun e => e.name = name

def firsts : List ScopeEntry → List ScopeEntry
  | [] => []
  | e :: entries => e :: (firsts entries).filter fun other => other.name ≠ e.name

def line (depth : Nat) (e : ScopeEntry) : String :=
  String.ofList (List.replicate (2 * depth) ' ') ++ e.symbol.text ++ "\n"

/-- The lines for the declarations of open scopes, which are given innermost first: outer scopes come
first, and each has a line for the first declaration of each name. -/
def lines (scopes : List (List ScopeEntry)) : List String :=
  scopes.reverse.zipIdx.flatMap fun scope => (firsts scope.1).map (line scope.2)

end ScopeEntry

/-- The declarations of the open scopes after one more event, the innermost scope first. The outermost
one is never closed. -/
def ScopeEvent.scopesAfter (scopes : List (List ScopeEntry)) (event : ScopeEvent) :
    List (List ScopeEntry) :=
  match event.call, event.answer with
  | .enter, _ => [] :: scopes
  | .exit, _ => if scopes.length = 1 then scopes else scopes.tail
  | .declare symbol, some id => scopes.modifyHead fun entries => entries ++ [⟨symbol, id⟩]
  | .retype id ty, _ => scopes.map fun entries => entries.map (ScopeEntry.retype id ty)
  | _, _ => scopes

def Scope.openScopes (calls : List ScopeCall) : List (List ScopeEntry) :=
  (Scope.past calls).foldl ScopeEvent.scopesAfter [[]]

namespace ScopeEntry

section

variable (entries : List ScopeEntry)

theorem namesakes_concat (e : ScopeEntry) (name : String) :
    namesakes (entries ++ [e]) name =
      if e.name = name then namesakes entries name ++ [e] else namesakes entries name := by
  rw [namesakes, List.filter_append]
  by_cases h : e.name = name
  · rw [if_pos h, List.filter_cons_of_pos (by simpa using h), List.filter_nil, namesakes]
  · rw [if_neg h, List.filter_cons_of_neg (by simpa using h), List.filter_nil, List.append_nil,
      namesakes]

variable {entries} in
theorem namesakes_eq_nil_iff {name : String} :
    namesakes entries name = [] ↔ name ∉ entries.map ScopeEntry.name := by
  simp [namesakes, List.filter_eq_nil_iff]

theorem firsts_concat (e : ScopeEntry) :
    firsts (entries ++ [e]) =
      if e.name ∈ entries.map name then firsts entries else firsts entries ++ [e] := by
  induction entries with
  | nil => rfl
  | cons first entries ih =>
    rw [List.cons_append, firsts, ih, firsts]
    by_cases hmem : e.name ∈ entries.map name
    · have hany : e.name ∈ (first :: entries).map name := List.mem_cons_of_mem _ hmem
      rw [if_pos hmem, if_pos hany]
    · rw [if_neg hmem, List.filter_append]
      by_cases hname : e.name = first.name
      · rw [if_pos (by simp [hname]), List.filter_cons_of_neg (by simpa using hname), List.filter_nil,
          List.append_nil]
      · have hother : e.name ∉ (first :: entries).map name := by simpa [hname] using hmem
        rw [if_neg hother, List.filter_cons_of_pos (by simpa using hname), List.filter_nil,
          List.cons_append]

theorem firsts_subset : firsts entries ⊆ entries := by
  induction entries with
  | nil => exact List.Subset.refl []
  | cons e entries ih => exact List.cons_subset_cons e (List.Subset.trans (List.filter_subset_self _) ih)

theorem firsts_nodup : ((firsts entries).map name).Nodup := by
  induction entries with
  | nil => exact List.nodup_nil
  | cons e entries ih =>
    rw [firsts, List.map_cons, List.nodup_cons]
    refine ⟨?_, ih.sublist (List.filter_sublist.map name)⟩
    intro hmem
    obtain ⟨other, hother, hname⟩ := List.mem_map.1 hmem
    exact absurd hname (of_decide_eq_true (List.mem_filter.1 hother).2)

theorem mem_map_firsts (name : String) :
    name ∈ (firsts entries).map ScopeEntry.name ↔ name ∈ entries.map ScopeEntry.name := by
  induction entries with
  | nil => exact Iff.rfl
  | cons e entries ih =>
    rw [firsts, List.map_cons, List.map_cons, List.mem_cons, List.mem_cons, ← ih]
    refine or_congr_right' fun hne => ?_
    simp only [List.mem_map, List.mem_filter, decide_eq_true_eq]
    constructor
    · rintro ⟨other, ⟨hother, _⟩, hname⟩
      exact ⟨other, hother, hname⟩
    · rintro ⟨other, hother, rfl⟩
      exact ⟨other, ⟨hother, hne⟩, rfl⟩

theorem mem_firsts_of_namesakes {e : ScopeEntry} {name : String} {others : List ScopeEntry}
    (h : namesakes entries name = e :: others) : e ∈ firsts entries := by
  have hname : e.name = name := by
    have hmem : e ∈ namesakes entries name := h ▸ List.mem_cons_self
    exact of_decide_eq_true (List.mem_filter.1 hmem).2
  induction entries with
  | nil => cases h
  | cons first entries ih =>
    by_cases hfirst : first.name = name
    · rw [namesakes, List.filter_cons_of_pos (by simpa using hfirst)] at h
      rw [(List.cons.inj h).1]
      exact List.mem_cons_self
    · rw [namesakes, List.filter_cons_of_neg (by simpa using hfirst)] at h
      refine List.mem_cons_of_mem _ (List.mem_filter.2 ⟨ih h, ?_⟩)
      exact decide_eq_true (hname ▸ Ne.symm hfirst)

end

/-! ## Types that are set -/

section

variable (id : SymbolId) (ty : Ty)

@[simp] theorem retype_id (e : ScopeEntry) : (e.retype id ty).id = e.id := by
  unfold retype
  split <;> rfl

theorem retype_keeps {β : Type} {f : Symbol → β} (hf : ∀ symbol ty, f (symbol.retype ty) = f symbol)
    (e : ScopeEntry) : f (e.retype id ty).symbol = f e.symbol := by
  unfold retype
  split
  · exact hf e.symbol ty
  · rfl

@[simp] theorem retype_name (e : ScopeEntry) : (e.retype id ty).name = e.name :=
  retype_keeps id ty Symbol.name_retype e

theorem firsts_retype (entries : List ScopeEntry) :
    firsts (entries.map (retype id ty)) = (firsts entries).map (retype id ty) := by
  induction entries with
  | nil => rfl
  | cons e entries ih =>
    rw [List.map_cons, firsts, ih, firsts, List.map_cons, List.filter_map]
    congr 2
    refine List.filter_congr fun other _ => ?_
    simp

theorem namesakes_retype (entries : List ScopeEntry) (name : String) :
    namesakes (entries.map (retype id ty)) name = (namesakes entries name).map (retype id ty) := by
  rw [namesakes, List.filter_map]
  congr 1
  refine List.filter_congr fun other _ => ?_
  simp

end

def NoErrors (scopes : List (List ScopeEntry)) : Prop :=
  ∀ entries ∈ scopes, ∀ e ∈ entries, e.symbol.isError = false

namespace NoErrors

variable {scopes : List (List ScopeEntry)}

theorem step (h : NoErrors scopes) {event : ScopeEvent}
    (hevent : ∀ symbol, event.call = .declare symbol → symbol.isError = false) :
    NoErrors (ScopeEvent.scopesAfter scopes event) := by
  obtain ⟨call, answer⟩ := event
  cases call with
  | enter => exact List.forall_mem_cons.2 ⟨by simp, h⟩
  | exit =>
    change NoErrors (if scopes.length = 1 then scopes else scopes.tail)
    split
    · exact h
    · exact fun entries hentries => h entries (List.mem_of_mem_tail hentries)
  | declare symbol =>
    cases answer with
    | none => exact h
    | some id =>
      cases scopes with
      | nil => exact h
      | cons entries outer =>
        obtain ⟨hcurrent, houter⟩ := List.forall_mem_cons.1 h
        refine List.forall_mem_cons.2 ⟨List.forall_mem_append.2 ⟨hcurrent, ?_⟩, houter⟩
        simpa using hevent symbol rfl
  | resolve name pos => exact h
  | retype id ty =>
    intro entries hentries e he
    obtain ⟨former, hformer, rfl⟩ := List.mem_map.1 hentries
    obtain ⟨old, hold, rfl⟩ := List.mem_map.1 he
    rw [retype_keeps id ty Symbol.isError_retype]
    exact h former hformer old hold

theorem run {events : List ScopeEvent} (h : NoErrors scopes)
    (hevents : ∀ event ∈ events, ∀ symbol, event.call = .declare symbol → symbol.isError = false) :
    NoErrors (events.foldl ScopeEvent.scopesAfter scopes) := by
  induction events generalizing scopes with
  | nil => exact h
  | cons event events ih =>
    obtain ⟨hfirst, hrest⟩ := List.forall_mem_cons.1 hevents
    exact ih (h.step hfirst) hrest

end NoErrors

end ScopeEntry

/-! ## Frames -/

namespace Frame

open ScopeEntry (namesakes firsts)

/-- The frame holds the declarations, each bound in its turn. The first one of a name is listed, with
its own symbol in the table, and every other one has an error symbol there. -/
structure Holds (symbols : SymbolTable) (frame : Frame) (entries : List ScopeEntry) : Prop where
  bindings : frame.bindings = (entries.map fun e => (e.name, e.id)).reverse
  listed : frame.listed = (firsts entries).map ScopeEntry.id
  first : ∀ e ∈ firsts entries, symbols[e.id]? = some e.symbol
  again : ∀ name, ∀ e ∈ (namesakes entries name).tail, ∃ dump,
    symbols[e.id]? = some (.refused name (.redeclared e.symbol.pos name dump))

namespace Holds

variable {symbols : SymbolTable} {frame : Frame} {entries : List ScopeEntry}

theorem empty {depth : Nat} : Holds symbols (Frame.empty depth) [] where
  bindings := rfl
  listed := rfl
  first := by simp [firsts]
  again := by simp [namesakes]

theorem find?_eq (h : Holds symbols frame entries) (name : String) :
    frame.find? name = (namesakes entries name).getLast?.map ScopeEntry.id := by
  rw [find?, h.bindings]
  clear h
  induction entries using List.reverseRecOn with
  | nil => rfl
  | append_singleton entries e ih =>
    rw [List.map_append, List.map_singleton, List.reverse_append, List.reverse_singleton,
      List.singleton_append, List.lookup_cons, ih, ScopeEntry.namesakes_concat]
    by_cases hname : e.name = name
    · simp [hname]
    · have hbeq : (name == e.name) = false := beq_eq_false_iff_ne.2 (Ne.symm hname)
      rw [hbeq, if_neg hname]

theorem find?_eq_none_iff (h : Holds symbols frame entries) (name : String) :
    frame.find? name = none ↔ name ∉ entries.map ScopeEntry.name := by
  rw [h.find?_eq, Option.map_eq_none_iff, List.getLast?_eq_none_iff, ScopeEntry.namesakes_eq_nil_iff]

theorem mono (h : Holds symbols frame entries) (more : SymbolTable) :
    Holds (symbols ++ more) frame entries where
  bindings := h.bindings
  listed := h.listed
  first e he := SymbolTable.getElem?_append (h.first e he) more
  again name e he := by
    obtain ⟨dump, hdump⟩ := h.again name e he
    exact ⟨dump, SymbolTable.getElem?_append hdump more⟩

theorem retype (h : Holds symbols frame entries) (id : SymbolId) (ty : Ty) :
    Holds (symbols.retype id ty) frame (entries.map (ScopeEntry.retype id ty)) where
  bindings := by
    rw [h.bindings, List.map_map]
    congr 1
    exact List.map_congr_left fun e _ => by simp
  listed := by
    rw [h.listed, ScopeEntry.firsts_retype, List.map_map]
    exact List.map_congr_left fun e _ => (e.retype_id id ty).symm
  first e' he' := by
    rw [ScopeEntry.firsts_retype] at he'
    obtain ⟨e, he, rfl⟩ := List.mem_map.1 he'
    rw [ScopeEntry.retype_id, SymbolTable.retype, List.getElem?_modify, h.first e he, ScopeEntry.retype]
    by_cases hid : e.id = id
    · simp [hid]
    · simp [hid, Ne.symm hid]
  again name e' he' := by
    rw [ScopeEntry.namesakes_retype, ← List.map_tail] at he'
    obtain ⟨e, he, rfl⟩ := List.mem_map.1 he'
    obtain ⟨dump, hdump⟩ := h.again name e he
    refine ⟨dump, ?_⟩
    rw [ScopeEntry.retype_id, ScopeEntry.retype_keeps id ty Symbol.pos_retype, SymbolTable.retype,
      List.getElem?_modify, hdump]
    -- An error symbol keeps its type.
    split <;> rfl

theorem bind (h : Holds symbols frame entries) {e : ScopeEntry} (hid : e.id = symbols.length)
    (hfree : e.name ∉ entries.map ScopeEntry.name) :
    Holds (symbols ++ [e.symbol]) (frame.bind e.name e.id) (entries ++ [e]) where
  bindings := by simp [Frame.bind, h.bindings]
  listed := by
    rw [ScopeEntry.firsts_concat, if_neg hfree, List.map_append, ← h.listed]
    rfl
  first other hother := by
    rw [ScopeEntry.firsts_concat, if_neg hfree, List.mem_append, List.mem_singleton] at hother
    rcases hother with hold | rfl
    · exact SymbolTable.getElem?_append (h.first other hold) _
    · simp [hid]
  again name other hother := by
    refine (h.mono [e.symbol]).again name other ?_
    rw [ScopeEntry.namesakes_concat] at hother
    split at hother
    · next hname =>
      rw [← hname, ScopeEntry.namesakes_eq_nil_iff.2 hfree] at hother
      cases hother
    · exact hother

theorem rebind (h : Holds symbols frame entries) {e : ScopeEntry} (hid : e.id = symbols.length)
    (htaken : e.name ∈ entries.map ScopeEntry.name) (dump : String) :
    Holds (symbols ++ [.refused e.name (.redeclared e.symbol.pos e.name dump)])
      (frame.rebind e.name e.id) (entries ++ [e]) where
  bindings := by simp [Frame.rebind, h.bindings]
  listed := by
    rw [ScopeEntry.firsts_concat, if_pos htaken, ← h.listed]
    rfl
  first other hother := by
    rw [ScopeEntry.firsts_concat, if_pos htaken] at hother
    exact SymbolTable.getElem?_append (h.first other hother) _
  again name other hother := by
    rw [ScopeEntry.namesakes_concat] at hother
    split at hother
    · next hname =>
      have hsome : namesakes entries name ≠ [] := by
        rw [← hname]
        exact fun hnone => ScopeEntry.namesakes_eq_nil_iff.1 hnone htaken
      rw [List.tail_append_of_ne_nil hsome, List.mem_append, List.mem_singleton] at hother
      rcases hother with hold | rfl
      · exact (h.mono _).again name other hold
      · exact ⟨dump, by simp [hid, hname]⟩
    · exact (h.mono _).again name other hother

theorem exists_symbol (h : Holds symbols frame entries) {e : ScopeEntry} (he : e ∈ entries) :
    ∃ symbol, symbols[e.id]? = some symbol ∧ symbol.name = e.name := by
  have hmem : e ∈ namesakes entries e.name := List.mem_filter.2 ⟨he, decide_eq_true rfl⟩
  cases hnames : namesakes entries e.name with
  | nil =>
    rw [hnames] at hmem
    cases hmem
  | cons first others =>
    rw [hnames] at hmem
    rcases List.mem_cons.1 hmem with rfl | hother
    · exact ⟨e.symbol, h.first e (ScopeEntry.mem_firsts_of_namesakes entries hnames), rfl⟩
    · have htail : e ∈ (namesakes entries e.name).tail := hnames ▸ hother
      obtain ⟨dump, hdump⟩ := h.again e.name e htail
      exact ⟨_, hdump, rfl⟩

theorem map_listed (h : Holds symbols frame entries) :
    (frame.listed.map fun id => (symbols.get id).name) = (firsts entries).map ScopeEntry.name := by
  rw [h.listed, List.map_map]
  refine List.map_congr_left fun e he => ?_
  exact congrArg Symbol.name (SymbolTable.get_eq (h.first e he))

end Holds

/-- What can be read off a frame, by the declarations made in its scope. Its listed symbols are those
of the first declarations, as they are now, and the names it binds are theirs. A name that was
declared once is bound to the symbol that is listed for it, and one that was declared again to the
error symbol made for the last of its declarations. -/
structure Represents (symbols : SymbolTable) (frame : Frame) (entries : List ScopeEntry) : Prop where
  listed : frame.listed = (firsts entries).map ScopeEntry.id
  current : ∀ e ∈ firsts entries, symbols.get e.id = e.symbol
  distinct : (frame.listed.map fun id => (symbols.get id).name).Nodup
  declared : ∀ name, (name ∈ frame.listed.map fun id => (symbols.get id).name) ↔
    name ∈ entries.map ScopeEntry.name
  keys : ∀ name, (∃ id, frame.find? name = some id) ↔
    name ∈ frame.listed.map fun id => (symbols.get id).name
  valid : ∀ name id, frame.find? name = some id →
    id < symbols.length ∧ (symbols.get id).name = name
  once : ∀ name e, namesakes entries name = [e] →
    e.id ∈ frame.listed ∧ frame.find? name = some e.id
  again : ∀ name first others last, namesakes entries name = first :: others ++ [last] →
    first.id ∈ frame.listed ∧ frame.find? name = some last.id ∧
      ∃ dump, symbols.get last.id = .refused name (.redeclared last.symbol.pos name dump)

theorem Holds.represents {symbols : SymbolTable} {frame : Frame} {entries : List ScopeEntry}
    (h : Holds symbols frame entries) : Represents symbols frame entries := by
  have hnames := h.map_listed
  have hfirst {name : String} {e : ScopeEntry} {others : List ScopeEntry}
      (he : namesakes entries name = e :: others) : e.id ∈ frame.listed := by
    rw [h.listed]
    exact List.mem_map_of_mem (ScopeEntry.mem_firsts_of_namesakes entries he)
  constructor
  case listed => exact h.listed
  case current => exact fun e he => SymbolTable.get_eq (h.first e he)
  case distinct => exact hnames ▸ ScopeEntry.firsts_nodup entries
  case declared => exact fun name => hnames ▸ ScopeEntry.mem_map_firsts entries name
  case keys =>
    intro name
    rw [hnames, ScopeEntry.mem_map_firsts, ← Option.ne_none_iff_exists', ne_eq, h.find?_eq_none_iff,
      not_not]
  case valid =>
    intro name id hfind
    rw [h.find?_eq] at hfind
    obtain ⟨e, hlast, rfl⟩ := Option.map_eq_some_iff.1 hfind
    obtain ⟨he, hname⟩ := List.mem_filter.1 (List.mem_of_getLast? hlast)
    obtain ⟨symbol, hsymbol, hsame⟩ := h.exists_symbol he
    rw [SymbolTable.get_eq hsymbol, hsame]
    exact ⟨(List.getElem?_eq_some_iff.1 hsymbol).1, of_decide_eq_true hname⟩
  case once =>
    intro name e he
    refine ⟨hfirst he, ?_⟩
    rw [h.find?_eq, he]
    rfl
  case again =>
    intro name first others last hlast
    have htail : last ∈ (namesakes entries name).tail := by simp [hlast]
    obtain ⟨dump, hdump⟩ := h.again name last htail
    refine ⟨hfirst hlast, ?_, dump, SymbolTable.get_eq hdump⟩
    rw [h.find?_eq, hlast, List.getLast?_concat]
    rfl

end Frame

/-! ## Runs -/

namespace Scope

def Holds (s : Scope) (scopes : List (List ScopeEntry)) : Prop :=
  List.Forall₂ (Frame.Holds s.symbols) s.frames scopes

namespace Holds

variable {s : Scope} {scopes : List (List ScopeEntry)}

theorem mono {t : Scope} (h : s.Holds scopes) (hframes : t.frames = s.frames) (more : SymbolTable)
    (hsymbols : t.symbols = s.symbols ++ more) : t.Holds scopes := by
  rw [Holds, hframes, hsymbols]
  exact h.imp fun _ _ hframe => hframe.mono more

theorem exit (h : s.Holds scopes) :
    s.exit.Holds (if scopes.length = 1 then scopes else scopes.tail) := by
  have hlength : s.outer.length + 1 = scopes.length := h.length_eq
  unfold Scope.exit
  cases houter : s.outer with
  | nil =>
    have hone : scopes.length = 1 := by rw [← hlength, houter]; rfl
    rw [if_pos hone]
    exact h
  | cons frame outer =>
    have hne : scopes.length ≠ 1 := by simp [← hlength, houter]
    rw [if_neg hne]
    rw [Holds, frames, houter] at h
    cases h with
    | cons _ hrest => exact hrest

theorem declare (h : s.Holds scopes) (symbol : Symbol) :
    (s.declare symbol).scope.Holds
      (scopes.modifyHead fun entries => entries ++ [⟨symbol, (s.declare symbol).symbol⟩]) := by
  cases h with
  | @cons _ entries _ outer hcurrent houter =>
    have hfind := hcurrent.find?_eq_none_iff symbol.name
    unfold Scope.declare
    cases hbound : s.current.find? symbol.name with
    | none =>
      refine .cons (hcurrent.bind (e := ⟨symbol, s.symbols.length⟩) rfl (hfind.1 hbound)) ?_
      exact houter.imp fun _ _ hframe => hframe.mono [symbol]
    | some id =>
      have htaken : symbol.name ∈ entries.map ScopeEntry.name := by
        by_contra hfree
        cases hbound.symm.trans (hfind.2 hfree)
      refine .cons (hcurrent.rebind (e := ⟨symbol, s.symbols.length⟩) rfl htaken s.dump) ?_
      exact houter.imp fun _ _ hframe => hframe.mono _

theorem step (h : s.Holds scopes) (call : ScopeCall) :
    (s.after call).Holds (ScopeEvent.scopesAfter scopes ⟨call, s.answer? call⟩) := by
  cases call with
  | enter => exact .cons .empty h
  | exit => exact h.exit
  | declare symbol => exact h.declare symbol
  | resolve name pos =>
    cases hfind : s.find? name with
    | some id =>
      rw [after, (s.resolve_eq_iff name pos id).2 hfind]
      exact h
    | none =>
      rw [after, resolve_unbound pos hfind]
      exact h.mono rfl _ rfl
  | retype id ty =>
    refine List.forall₂_map_right_iff.2 ?_
    exact h.imp fun _ _ hframe => hframe.retype id ty

end Holds

theorem present_holds (calls : List ScopeCall) : (present calls).Holds (openScopes calls) := by
  refine present_induction
    (P := fun events s => s.Holds (events.foldl ScopeEvent.scopesAfter [[]]))
    (.cons .empty .nil) ?_ calls
  intro events s h call
  rw [List.foldl_concat]
  exact h.step call

/-! ## Depths -/

def Nested : List Frame → Prop
  | [] => True
  | frame :: outer => frame.depth = outer.length ∧ Nested outer

theorem Nested.depth_eq {frames : List Frame} (h : Nested frames) {i : Nat} {frame : Frame}
    (hframe : frames.reverse[i]? = some frame) : frame.depth = i := by
  induction frames with
  | nil => cases hframe
  | cons first outer ih =>
    rw [List.reverse_cons, List.getElem?_append] at hframe
    split at hframe
    · exact ih h.2 hframe
    · next hi =>
      obtain ⟨hlast, hfirst⟩ := List.getElem?_eq_some_iff.1 hframe
      rw [List.length_reverse] at hi
      rw [List.length_singleton, List.length_reverse] at hlast
      rw [List.getElem_singleton] at hfirst
      rw [← hfirst, h.1]
      omega

theorem nested_after {s : Scope} (h : Nested s.frames) (call : ScopeCall) :
    Nested (s.after call).frames := by
  cases call with
  | enter => exact ⟨congrArg Nat.succ h.1, h⟩
  | exit =>
    rw [after, exit]
    cases houter : s.outer with
    | nil => exact h
    | cons frame outer =>
      rw [frames, houter] at h
      exact h.2
  | declare symbol =>
    rw [after, declare]
    split
    · exact h
    · exact h
  | resolve name pos =>
    rw [after, resolve_frames]
    exact h
  | retype id ty => exact h

theorem present_nested (calls : List ScopeCall) : Nested (present calls).frames :=
  present_induction (P := fun _ s => Nested s.frames) ⟨rfl, trivial⟩
    (fun _ _ h call => nested_after h call) calls

/-! ## Listings -/

theorem listing_eq {symbols : SymbolTable} {frames : List Frame} {scopes : List (List ScopeEntry)}
    (h : List.Forall₂ (Frame.Holds symbols) frames scopes) (hnested : Nested frames) :
    listing symbols frames = String.join (ScopeEntry.lines scopes) := by
  induction h with
  | nil => rfl
  | @cons frame entries outer scopes hframe hrest ih =>
    have hlines : ScopeEntry.lines (entries :: scopes) = ScopeEntry.lines scopes ++
        (ScopeEntry.firsts entries).map (ScopeEntry.line outer.length) := by
      simp [ScopeEntry.lines, List.zipIdx_append, hrest.length_eq]
    rw [listing, ih hnested.2, hlines, String.join_append, hframe.listed, List.map_map]
    congr 2
    refine List.map_congr_left fun e he => ?_
    rw [Function.comp_apply, SymbolTable.get_eq (hframe.first e he), hnested.1, ScopeEntry.line]

/-! ## What every reachable scope satisfies -/

theorem openScopes_noErrors {calls : List ScopeCall}
    (h : ∀ symbol, ScopeCall.declare symbol ∈ calls → symbol.isError = false) :
    ScopeEntry.NoErrors (openScopes calls) := by
  refine ScopeEntry.NoErrors.run (by simp [ScopeEntry.NoErrors]) fun event hevent symbol hcall => ?_
  have hmem : ScopeCall.declare symbol ∈ declareBuiltins ++ calls := by
    rw [← history_calls bare (declareBuiltins ++ calls), ← hcall]
    exact List.mem_map_of_mem hevent
  rcases List.mem_append.1 hmem with hbuiltin | hmade
  · obtain ⟨routine, _, hroutine⟩ := List.mem_map.1 hbuiltin
    obtain rfl := ScopeCall.declare.inj hroutine
    rfl
  · exact h symbol hmade

/-- After any calls there is a frame for each open scope, the outermost one always among them. It has
the depth of the scope, from zero for the outermost, and represents the declarations made there. If no
error symbol is declared then none is listed. The dump has the lines of the open scopes. -/
theorem frames_represent_declarations (calls : List ScopeCall) :
    (present calls).frames.length = ScopeCall.level calls + 1 ∧
    (∀ (i : Nat) (frame : Frame), (present calls).frames.reverse[i]? = some frame → frame.depth = i) ∧
    List.Forall₂ (Frame.Represents (present calls).symbols) (present calls).frames
      (openScopes calls) ∧
    ((∀ symbol, ScopeCall.declare symbol ∈ calls → symbol.isError = false) →
      ∀ frame ∈ (present calls).frames, ∀ id ∈ frame.listed,
        ((present calls).symbol id).isError = false) ∧
    (present calls).dump = String.join (ScopeEntry.lines (openScopes calls)) := by
  have hholds := present_holds calls
  have hnested := present_nested calls
  refine ⟨?_, fun _ _ => hnested.depth_eq, hholds.imp fun _ _ hframe => hframe.represents, ?_,
    listing_eq hholds hnested⟩
  · exact congrArg Nat.succ (present_outer calls)
  · intro hcalls frame hmem id hid
    obtain ⟨i, hi, rfl⟩ := List.mem_iff_getElem.1 hmem
    have hscope : i < (openScopes calls).length := hholds.length_eq ▸ hi
    have hframe := hholds.get hi hscope
    rw [List.get_eq_getElem, List.get_eq_getElem] at hframe
    rw [hframe.listed] at hid
    obtain ⟨e, he, rfl⟩ := List.mem_map.1 hid
    rw [symbol, SymbolTable.get_eq (hframe.first e he)]
    exact openScopes_noErrors hcalls _ (List.getElem_mem hscope) e (ScopeEntry.firsts_subset _ he)

def declareAndRetype : List ScopeCall :=
  declareOnce ++ ScopeCall.enter :: declareTwice ++ [ScopeCall.retype 7 .bool]

theorem redeclared_represented :
    (present declareAndRetype).depth = 1 ∧
      (∀ id ∈ (present declareAndRetype).current.listed,
        ((present declareAndRetype).symbol id).isError = false) ∧
      (7 ∈ (present declareAndRetype).current.listed ∧
        (present declareAndRetype).current.find? "x" = some 8 ∧
        ∃ dump, (present declareAndRetype).symbol 8 =
          .refused "x" (.redeclared ⟨3, 7⟩ "x" dump)) ∧
      (present declareAndRetype).symbol 7 = ⟨"x", .bool, .var, ⟨2, 7⟩⟩ ∧
      ∀ frame ∈ (present declareAndRetype).outer,
        frame.depth = 0 ∧ 6 ∈ frame.listed ∧ frame.find? "x" = some 6 := by
  have hsound : ∀ symbol, ScopeCall.declare symbol ∈ declareAndRetype → symbol.isError = false := by
    simp [declareAndRetype, declareOnce, declareTwice, Symbol.isError]
  obtain ⟨_, hdepth, hframes, hlisted, _⟩ := frames_represent_declarations declareAndRetype
  have hinner := (List.forall₂_cons.1 hframes).1
  have houter := (List.forall₂_cons.1 (List.forall₂_cons.1 hframes).2).1
  refine ⟨hdepth 1 _ rfl, hlisted hsound _ List.mem_cons_self, ?_, ?_, ?_⟩
  · exact hinner.again "x" ⟨⟨"x", .bool, .var, ⟨2, 7⟩⟩, 7⟩ [] ⟨⟨"x", .bool, .var, ⟨3, 7⟩⟩, 8⟩ rfl
  · exact hinner.current ⟨⟨"x", .bool, .var, ⟨2, 7⟩⟩, 7⟩ List.mem_cons_self
  · intro frame hframe
    obtain rfl := List.mem_singleton.1 hframe
    exact ⟨hdepth 0 _ rfl, houter.once "x" ⟨⟨"x", .int, .var, ⟨1, 5⟩⟩, 6⟩ rfl⟩

end Scope

end MipsCompiler
