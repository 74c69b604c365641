import MipsCompiler.Proofs.Parsing.Scoping

set_option autoImplicit false

/-!
# Every declaration makes a symbol

A declaration takes the next index of the symbol table, whatever name it declares and in whatever
block it stands. So the declarations of a program are numbered in the order of the text: a function,
its parameters, the variables of its body, and then what comes behind it.
-/

namespace MipsCompiler

def Decl.symbols : Decl → List SymbolId
  | .var decl => [decl.symbol]
  | .array decl => [decl.symbol]
  | .func definition =>
    definition.symbol :: (definition.params ++ definition.body.locals.map VarDecl.symbol)

/-- `ids` are the next indices behind the first `n`, up to `m`. -/
structure Fresh (n : Nat) (ids : List SymbolId) (m : Nat) : Prop where
  ids_eq : ids = List.range' n ids.length
  next : m = n + ids.length

namespace Fresh

variable {n m k : Nat} {ids others : List SymbolId}

theorem nil : Fresh n [] n :=
  ⟨rfl, rfl⟩

theorem append (h : Fresh n ids m) (h' : Fresh m others k) : Fresh n (ids ++ others) k := by
  have hrest : others = List.range' (n + ids.length) others.length := by
    rw [← h.next]
    exact h'.ids_eq
  constructor
  · calc ids ++ others
        = List.range' n ids.length ++ List.range' (n + ids.length) others.length := by
          rw [← h.ids_eq, ← hrest]
      _ = List.range' n (ids ++ others).length := by
          rw [List.range'_append_1, List.length_append]
  · rw [h'.next, h.next, List.length_append, Nat.add_assoc]

theorem nodup (h : Fresh n ids m) : ids.Nodup := by
  rw [h.ids_eq]
  exact List.nodup_range'

end Fresh

theorem Scope.Declares.fresh {kind : SymbolKind} {s t : Scope} {ids : List SymbolId}
    (h : s.Declares kind ids t) : Fresh s.symbols.length ids t.symbols.length := by
  obtain ⟨new, hnew, hids, _⟩ := h.made
  have hlength : ids.length = new.length := by rw [hids, List.length_range']
  rw [← hlength] at hids
  exact ⟨hids, by rw [hnew, List.length_append, hlength]⟩

theorem Scope.exit_symbols (s : Scope) : s.exit.symbols = s.symbols := by
  unfold exit
  split <;> rfl

namespace Parser

variable {σ : Type} [TokenStream σ] {s t : ParseState σ}

theorem DerivesVar.fresh {decl : VarDecl} (h : DerivesVar s decl t) (hlog : t.log = []) :
    s.log = [] ∧ Fresh s.scope.symbols.length [decl.symbol] t.scope.symbols.length := by
  obtain ⟨hclean, hdeclares, _⟩ := h.introduces hlog
  exact ⟨hclean, hdeclares.fresh⟩

theorem DerivesArray.fresh {decl : VarDecl} (h : DerivesArray s decl t) (hlog : t.log = []) :
    s.log = [] ∧ Fresh s.scope.symbols.length [decl.symbol] t.scope.symbols.length := by
  obtain @⟨u, v, id, extents, _, _, hdeclare, _, _, _, hextents, _⟩ := h
  have hkept : (v.log, v.scope) = (u.log, u.scope) := by
    refine hextents.keeps (f := fun s => (s.log, s.scope)) ?_
    rintro _ _ _ ⟨_, _, _, _⟩
    rfl
  obtain ⟨hsame, hscope⟩ := Prod.mk.inj hkept
  obtain ⟨hclean, _, hid, hdeclared⟩ := ParseState.declare_clean hdeclare (hsame ▸ hlog)
  refine ⟨hclean, congrArg ([·]) hid, ?_⟩
  change (v.scope.symbols.retype id _).length = s.scope.symbols.length + 1
  rw [SymbolTable.length_retype, hscope, hdeclared]
  exact List.length_append

theorem DerivesFunction.fresh {definition : FuncDef} (h : DerivesFunction s definition t)
    (hlog : t.log = []) :
    s.log = [] ∧
      Fresh s.scope.symbols.length (Decl.func definition).symbols t.scope.symbols.length := by
  obtain @⟨t, u, v, id, params, body, _, _, hdeclare, _, hparams, _, _, _, hbody⟩ := h
  obtain ⟨hu, hlocals, _⟩ := hbody.introduces hlog
  obtain ⟨ht, hdeclared⟩ := hparams.declares hu
  obtain ⟨hs, _, hid, hscope⟩ := ParseState.declare_clean hdeclare ht
  have hname : Fresh s.scope.symbols.length [id] t.scope.symbols.length := by
    refine ⟨congrArg ([·]) hid, ?_⟩
    rw [hscope]
    exact List.length_append
  have hinner : Fresh u.scope.symbols.length (body.locals.map VarDecl.symbol)
      v.scope.symbols.length := by
    have hlength := SymbolTable.length_retype u.scope.symbols id
    exact hlength _ ▸ hlocals.fresh
  have hall := hname.append (hdeclared.fresh.append hinner)
  rw [← v.scope.exit_symbols] at hall
  exact ⟨hs, hall⟩

theorem DerivesDecl.fresh {decl : Decl} (h : DerivesDecl s decl t) (hlog : t.log = []) :
    s.log = [] ∧ Fresh s.scope.symbols.length decl.symbols t.scope.symbols.length := by
  cases h with
  | var h => exact h.fresh hlog
  | array h => exact h.fresh hlog
  | func h => exact h.fresh hlog

theorem Items.fresh {decls : List Decl} (h : Items DerivesDecl s decls t) (hlog : t.log = []) :
    s.log = [] ∧
      Fresh s.scope.symbols.length (decls.flatMap Decl.symbols) t.scope.symbols.length := by
  induction h with
  | nil => exact ⟨hlog, .nil⟩
  | cons hdecl _ ih =>
    obtain ⟨hclean, hrest⟩ := ih hlog
    obtain ⟨hstart, hfirst⟩ := hdecl.fresh hclean
    exact ⟨hstart, hfirst.append hrest⟩

end Parser

/-- The declarations of a program make the symbols of its table, each one once and in order. -/
theorem parse_fresh {σ : Type} [TokenStream σ] {stream : σ} (h : (parse stream).log = []) :
    Fresh Scope.initial.symbols.length ((parse stream).tree.decls.flatMap Decl.symbols)
      (parse stream).symbols.length := by
  obtain ⟨_, _, ⟨hdecls, _⟩, hparse⟩ := parse_derives (parse_isError_of_clean h)
  rw [hparse] at h ⊢
  exact (hdecls.fresh h).2

end MipsCompiler
