import Mathlib.Algebra.Group.Int.Defs
import Mathlib.Algebra.Group.Nat.Defs
import Mathlib.Data.List.Nodup
import MipsCompiler.Proofs.Labels.Program
import MipsCompiler.Proofs.Parsing.Freshness

set_option autoImplicit false

/-!
# Storage layout

Where the variables of a function are while its body is lowered. Parameters are found above the saved
words and locals below them, one word each, and globals under labels of their own. A symbol is made
for every declaration, so that variables have their own storage even if they share a name.
-/

namespace MipsCompiler

/-! ## Frames -/

theorem lookup_of_mem {β : Type} {slots : List (SymbolId × β)} (hnodup : (slots.map Prod.fst).Nodup)
    {slot : SymbolId × β} (h : slot ∈ slots) : slots.lookup slot.1 = some slot.2 := by
  induction slots with
  | nil => exact absurd h List.not_mem_nil
  | cons first slots ih =>
    obtain ⟨hfirst, hrest⟩ := List.nodup_cons.1 hnodup
    rcases List.mem_cons.1 h with rfl | h
    · exact List.lookup_cons_self
    · have hne : slot.1 ≠ first.1 := fun heq => hfirst (heq ▸ List.mem_map_of_mem h)
      rw [List.lookup_cons, beq_eq_false_iff_ne.2 hne]
      exact ih hrest h

theorem lookup_eq_none {β : Type} {slots : List (SymbolId × β)} {id : SymbolId}
    (h : id ∉ slots.map Prod.fst) : slots.lookup id = none := by
  refine List.lookup_eq_none_iff.2 fun slot hslot => bne_iff_ne.2 ?_
  rintro rfl
  exact h (List.mem_map_of_mem hslot)

namespace StackFrame

variable {symbols : SymbolTable}

theorem parameterSlots_eq (pos : Position) {ids : List SymbolId}
    (h : ∀ id ∈ ids, (symbols.get id).ty.isScalar) (offset : Nat) :
    parameterSlots symbols pos offset ids =
      .ok (ids.mapIdx fun k id => (id, ((offset + wordBytes * k : Nat) : Int))) := by
  induction ids generalizing offset with
  | nil => rfl
  | cons id ids ih =>
    obtain ⟨hid, hids⟩ := List.forall_mem_cons.1 h
    have hstep (k : Nat) : offset + wordBytes + wordBytes * k = offset + wordBytes * (k + 1) := by
      rw [Nat.mul_succ, Nat.add_assoc, Nat.add_comm wordBytes]
    rw [parameterSlots, sizeAt_ok.2 (Ty.size?_of_isScalar hid), List.mapIdx_cons]
    change (parameterSlots symbols pos (offset + wordBytes) ids >>= _) = _
    rw [ih hids]
    simp only [hstep]
    rfl

theorem localSlots_eq {decls : List VarDecl}
    (h : ∀ id ∈ decls.map VarDecl.symbol, (symbols.get id).ty.isScalar) (size : Nat) :
    localSlots symbols size decls =
      .ok (decls.mapIdx fun j decl =>
          (decl.symbol, -((savedSize + size + wordBytes * (j + 1) : Nat) : Int)),
        size + wordBytes * decls.length) := by
  induction decls generalizing size with
  | nil => rfl
  | cons decl decls ih =>
    obtain ⟨hdecl, hdecls⟩ := List.forall_mem_cons.1 h
    have hstep (j : Nat) : savedSize + (size + wordBytes) + wordBytes * (j + 1) =
        savedSize + size + wordBytes * (j + 1 + 1) := by
      rw [Nat.mul_succ wordBytes (j + 1)]
      omega
    have htotal : size + wordBytes + wordBytes * decls.length =
        size + wordBytes * (decl :: decls).length := by
      rw [List.length_cons, Nat.mul_succ]
      omega
    rw [localSlots, sizeAt_ok.2 (Ty.size?_of_isScalar hdecl), List.mapIdx_cons]
    change (localSlots symbols (size + wordBytes) decls >>= _) = _
    rw [ih hdecls, htotal]
    simp only [hstep]
    rfl

end StackFrame

def Stmt.declared? : Stmt → Option VarDecl
  | .var decl => some decl
  | _ => none

/-- The variables of a function: one for each declaration that stands anywhere in its body. -/
def FuncDef.variables (definition : FuncDef) : List SymbolId :=
  (definition.body.substmts.filterMap Stmt.declared?).map VarDecl.symbol

theorem StmtPhrase.declared_eq (phrase : StmtPhrase) :
    (phrase.substmts.filterMap Stmt.declared?).map VarDecl.symbol = phrase.locals := by
  induction phrase using StmtPhrase.induct with
  | var | call | assign | ret | nil => rfl
  | branch node condition thenBlock elseBlock ihthen ihelse =>
    change ((thenBlock.substmts ++ elseBlock.substmts).filterMap _).map _ =
      (thenBlock.locals ++ elseBlock.locals).map _
    rw [List.filterMap_append, List.map_append, List.map_append]
    exact congr (congrArg _ ihthen) ihelse
  | loop node condition body ih => exact ih
  | block node stmts ih => exact ih
  | cons s ss ih ihs =>
    change ((s.substmts ++ Stmt.substmtsAll ss).filterMap _).map _ =
      (s.locals ++ Stmt.localsAll ss).map _
    rw [List.filterMap_append, List.map_append, List.map_append]
    exact congr (congrArg _ ih) ihs

theorem FuncDef.variables_eq (definition : FuncDef) :
    definition.variables = definition.body.locals.map VarDecl.symbol :=
  StmtPhrase.declared_eq (.block definition.body)

/-- The offsets of a function's parameters, of which `n` are in its signature, and of its locals. -/
def paramOffset (n k : Nat) : Int :=
  4 * ((n : Int) - 1 - k)

def localOffset (j : Nat) : Int :=
  -(12 + 4 * (j : Int))

namespace StackFrame

variable {symbols : SymbolTable} {definition : FuncDef}

/-- The frame of a function on scalars, slot by slot. -/
structure Slots (frame : StackFrame) (definition : FuncDef) : Prop where
  params : ∀ k id, definition.params[k]? = some id →
    (id, paramOffset definition.params.length k) ∈ frame.params
  locals : ∀ j id, definition.variables[j]? = some id → (id, localOffset j) ∈ frame.locals
  paramKeys : frame.params.map Prod.fst = definition.params.reverse
  localKeys : frame.locals.map Prod.fst = definition.variables
  bytes : frame.localBytes = wordBytes * definition.variables.length

theorem ofFunction_slots (hparams : ∀ id ∈ definition.params, (symbols.get id).ty.isScalar)
    (hlocals : ∀ id ∈ definition.variables, (symbols.get id).ty.isScalar) :
    ∃ frame, ofFunction symbols definition = .ok frame ∧ frame.Slots definition := by
  rw [FuncDef.variables_eq] at hlocals
  have hreverse : ∀ id ∈ definition.params.reverse, (symbols.get id).ty.isScalar :=
    fun id hid => hparams id (List.mem_reverse.1 hid)
  obtain ⟨params, hp, hpkeys⟩ := parameterSlots_total definition.node.pos hreverse 0
  obtain ⟨locals, total, hl, hlkeys⟩ := localSlots_total hlocals 0
  have hframe : ofFunction symbols definition = .ok ⟨params, locals, total⟩ := by
    rw [ofFunction, hp]
    change (localSlots symbols 0 definition.body.locals >>= _) = _
    rw [hl]
    rfl
  have hparamSlots := Except.ok.inj (hp.symm.trans (parameterSlots_eq _ hreverse 0))
  obtain ⟨hlocalSlots, htotal⟩ :=
    Prod.mk.inj (Except.ok.inj (hl.symm.trans (localSlots_eq hlocals 0)))
  refine ⟨_, hframe, fun k id hk => ?_, fun j id hj => ?_, hpkeys, ?_, ?_⟩
  · refine List.mem_iff_getElem?.2 ⟨definition.params.length - 1 - k, ?_⟩
    obtain ⟨hlt, _⟩ := List.getElem?_eq_some_iff.1 hk
    have hback : definition.params.reverse[definition.params.length - 1 - k]? = some id := by
      rw [List.getElem?_reverse (by omega), ← hk]
      congr 1
      omega
    have hoffset : ((0 + wordBytes * (definition.params.length - 1 - k) : Nat) : Int) =
        paramOffset definition.params.length k := by
      simp only [paramOffset, wordBytes]
      omega
    rw [hparamSlots, List.getElem?_mapIdx, hback, ← hoffset]
    rfl
  · rw [FuncDef.variables_eq, List.getElem?_map] at hj
    obtain ⟨decl, hdecl, rfl⟩ := Option.map_eq_some_iff.1 hj
    refine List.mem_iff_getElem?.2 ⟨j, ?_⟩
    have hoffset : -((savedSize + 0 + wordBytes * (j + 1) : Nat) : Int) = localOffset j := by
      simp only [localOffset, savedSize, wordBytes]
      omega
    rw [hlocalSlots, List.getElem?_mapIdx, hdecl, ← hoffset]
    rfl
  · rw [hlkeys, FuncDef.variables_eq]
  · rw [htotal, FuncDef.variables_eq, List.length_map, Nat.zero_add]

end StackFrame

/-! ## Globals -/

def Decl.reserved? : Decl → Option SymbolId
  | .var decl => some decl.symbol
  | .array decl => some decl.symbol
  | .func _ => none

/-- The storage of a global. -/
structure GlobalSlot where
  symbol : SymbolId
  label : String
  bytes : Nat

def GlobalSlot.line (slot : GlobalSlot) : DataLine :=
  .space slot.label slot.bytes

/-- What lowering declarations adds to the storage: one slot for each global, latest first. -/
structure Reserves (env : Environment) (decls : List Decl) (storage : Storage) (segments : Segments)
    (storage' : Storage) (slots : List GlobalSlot) : Prop where
  frames : storage'.frames = storage.frames
  globals : storage'.globals =
    (slots.map fun slot => (slot.symbol, slot.label)).reverse ++ storage.globals
  data : segments.data = slots.map GlobalSlot.line
  symbols : slots.map GlobalSlot.symbol = decls.filterMap Decl.reserved?
  sizes : ∀ slot ∈ slots, (env.symbols.get slot.symbol).ty.size? = some slot.bytes

section

variable {env : Environment} {storage storage' : Storage} {s t : LowerState} {segments : Segments}

theorem Reserves.nil : Reserves env [] storage Segments.empty storage [] :=
  ⟨rfl, rfl, rfl, rfl, fun _ h => absurd h List.not_mem_nil⟩

theorem Reserves.append {decls decls' : List Decl} {a b : Segments} {storage'' : Storage}
    {slots slots' : List GlobalSlot} (ha : Reserves env decls storage a storage' slots)
    (hb : Reserves env decls' storage' b storage'' slots') :
    Reserves env (decls ++ decls') storage (a.append b) storage'' (slots ++ slots') where
  frames := hb.frames.trans ha.frames
  globals := by
    rw [hb.globals, ha.globals, List.map_append, List.reverse_append, List.append_assoc]
  data := by
    rw [List.map_append, ← ha.data, ← hb.data]
    rfl
  symbols := by rw [List.map_append, ha.symbols, hb.symbols, List.filterMap_append]
  sizes := List.forall_mem_append.2 ⟨ha.sizes, hb.sizes⟩

theorem Reserves.of_global {decl : VarDecl} {line : DataLine} (entry : Decl)
    (hentry : entry.reserved? = some decl.symbol)
    (h : env.reserveGlobal storage decl s = .ok (line, storage') t) :
    ∃ slot, Reserves env [entry] storage ⟨[line], []⟩ storage' [slot] := by
  obtain ⟨bytes, hbytes, rfl, rfl, rfl⟩ := Environment.reserveGlobal_ok.1 h
  refine ⟨⟨decl.symbol, s.label (env.symbols.get decl.symbol).dataLabel, bytes⟩, rfl, rfl, rfl, ?_,
    List.forall_mem_singleton.2 hbytes⟩
  rw [List.filterMap_cons, hentry]
  rfl

theorem Reserves.of_lowerOnto {decls : List Decl}
    (h : env.lowerOnto storage decls s = .ok (segments, storage') t) :
    ∃ slots, Reserves env decls storage segments storage' slots := by
  induction decls generalizing storage s segments with
  | nil =>
    obtain ⟨rfl, rfl, rfl⟩ := Environment.lowerOnto_nil_ok.1 h
    exact ⟨[], .nil⟩
  | cons decl decls ih =>
    obtain ⟨first, storage₁, u, rest, hdecl, hrest, rfl⟩ := Environment.lowerOnto_cons_ok.1 h
    obtain ⟨slots, hslots⟩ := ih hrest
    have hfirst : ∃ own, Reserves env [decl] storage first storage₁ own := by
      cases decl with
      | var decl =>
        obtain ⟨line, hline, rfl⟩ := Environment.lowerDecl_var_ok.1 hdecl
        obtain ⟨slot, hslot⟩ := Reserves.of_global (.var decl) rfl hline
        exact ⟨[slot], hslot⟩
      | array decl =>
        obtain ⟨line, hline, rfl⟩ := Environment.lowerDecl_var_ok.1 hdecl
        obtain ⟨slot, hslot⟩ := Reserves.of_global (.array decl) rfl hline
        exact ⟨[slot], hslot⟩
      | func definition =>
        obtain ⟨code, _, rfl, rfl⟩ := Environment.lowerDecl_func_ok.1 hdecl
        exact ⟨[], rfl, rfl, rfl, rfl, fun _ h => absurd h List.not_mem_nil⟩
    obtain ⟨own, hown⟩ := hfirst
    exact ⟨own ++ slots, hown.append hslots⟩

theorem Accepted.dataLabels_nodup {decls before : List Decl} (h : Accepted env IsName decls)
    (hbefore : ∀ decl ∈ before, decl ∈ decls)
    (hrun : env.lowerOnto storage before LowerState.initial = .ok (segments, storage') t) :
    segments.dataLabels.Nodup := by
  have hlaid := Laid.of_lowerOnto hrun
  have hissued : t.labels.issued.Nodup := by
    refine LabelSupply.issuedFor_nodup fun name hname => ?_
    obtain ⟨decl, hdecl, hrequest⟩ := hlaid.of_requested name hname
    exact hrequest.not_numbered (h.isName (hbefore decl hdecl))
  refine List.nodup_iff_count.2 fun l => ?_
  have hcounts := hlaid.counts l
  have hone := List.nodup_iff_count.1 hissued l
  omega

end

theorem Decl.reserved_sublist (decls : List Decl) :
    (decls.filterMap Decl.reserved?).Sublist (decls.flatMap Decl.symbols) := by
  induction decls with
  | nil => exact .slnil
  | cons decl decls ih =>
    cases decl with
    | var decl | array decl => exact ih.cons_cons decl.symbol
    | func definition => exact ih.trans (List.sublist_append_right _ _)

theorem FuncDef.symbols_nodup {definition : FuncDef} {before after : List Decl}
    (h : ((before ++ .func definition :: after).flatMap Decl.symbols).Nodup) :
    (definition.params ++ definition.variables ++ before.filterMap Decl.reserved?).Nodup := by
  rw [List.flatMap_append, List.flatMap_cons, ← List.append_assoc] at h
  have hfront := (List.nodup_append.1 h).1
  have hinside : (before.filterMap Decl.reserved? ++
      (definition.params ++ definition.variables)).Nodup := by
    rw [FuncDef.variables_eq]
    exact hfront.sublist ((Decl.reserved_sublist before).append (List.sublist_cons_self _ _))
  exact List.perm_append_comm.nodup_iff.1 hinside

/-! ## Locations -/

def frameBytes (fp : Word) (offset : Int) : List Word :=
  (List.range wordBytes).map fun i : Nat => fp + BitVec.ofInt 32 (offset + i)

/-- Words at different multiples of the word size have no byte in common, as long as the offsets do
not run around the whole memory. -/
theorem frameBytes_disjoint {x y : Int} (hx : 4 ∣ x) (hy : 4 ∣ y) (hne : x ≠ y)
    (hfar : x - y + 4 ≤ 2 ^ 32 ∧ y - x + 4 ≤ 2 ^ 32) (fp : Word) :
    (frameBytes fp x).Disjoint (frameBytes fp y) := by
  intro byte hbyte hbyte'
  obtain ⟨i, hi, rfl⟩ := List.mem_map.1 hbyte
  obtain ⟨j, hj, heq⟩ := List.mem_map.1 hbyte'
  have hi : i < 4 := List.mem_range.1 hi
  have hj : j < 4 := List.mem_range.1 hj
  have hoffset : BitVec.ofInt 32 (y + j) = BitVec.ofInt 32 (x + i) :=
    (BitVec.add_right_inj fp).1 heq
  have hsame := congrArg BitVec.toInt hoffset
  rw [BitVec.toInt_ofInt, BitVec.toInt_ofInt, Int.bmod_eq_bmod_iff_bmod_sub_eq_zero] at hsame
  have hdvd := Int.dvd_of_bmod_eq_zero hsame
  omega

namespace Storage

variable {storage : Storage} {frame : StackFrame} {id : SymbolId}

theorem locate?_enter_frame {offset : Int} (h : frame.offset? id = some offset) :
    (storage.enter frame).locate? id = some (.frame offset) := by
  simp [locate?, enter, h]

theorem locate?_enter_global (hframes : storage.frames = []) (h : frame.offset? id = none)
    {label : String} (hlabel : storage.globals.lookup id = some label) :
    (storage.enter frame).locate? id = some (.static label) := by
  simp [locate?, enter, hframes, h, hlabel]

end Storage

namespace StackFrame.Slots

variable {frame : StackFrame} {definition : FuncDef}

theorem offset?_param (h : frame.Slots definition) (hnodup : definition.params.Nodup) {k : Nat}
    {id : SymbolId} (hk : definition.params[k]? = some id) :
    frame.offset? id = some (paramOffset definition.params.length k) := by
  have hkeys : (frame.params.map Prod.fst).Nodup := by
    rw [h.paramKeys]
    exact List.nodup_reverse.2 hnodup
  have hlookup := lookup_of_mem hkeys (h.params k id hk)
  rw [offset?, hlookup]
  rfl

theorem lookup_params_eq_none (h : frame.Slots definition) {id : SymbolId}
    (hid : id ∉ definition.params) : frame.params.lookup id = none := by
  apply lookup_eq_none
  rw [h.paramKeys]
  exact fun hmem => hid (List.mem_reverse.1 hmem)

theorem offset?_local (h : frame.Slots definition) (hnodup : definition.variables.Nodup) {j : Nat}
    {id : SymbolId} (hj : definition.variables[j]? = some id) (hid : id ∉ definition.params) :
    frame.offset? id = some (localOffset j) := by
  have hkeys : (frame.locals.map Prod.fst).Nodup := by
    rw [h.localKeys]
    exact hnodup
  have hlookup := lookup_of_mem hkeys (h.locals j id hj)
  rw [offset?, h.lookup_params_eq_none hid, hlookup]
  rfl

theorem offset?_eq_none (h : frame.Slots definition) {id : SymbolId}
    (hid : id ∉ definition.params ++ definition.variables) : frame.offset? id = none := by
  have hlocal : frame.locals.lookup id = none := by
    apply lookup_eq_none
    rw [h.localKeys]
    exact fun hmem => hid (List.mem_append_right _ hmem)
  rw [offset?, h.lookup_params_eq_none fun hmem => hid (List.mem_append_left _ hmem), hlocal]
  rfl

end StackFrame.Slots

namespace FunctionSite

variable {env : Environment}

def inReach (f : FunctionSite env) (before : List Decl) : List SymbolId :=
  f.definition.params ++ f.definition.variables ++ before.filterMap Decl.reserved?

/-- What keeps the storage of a function's variables apart: one slot for each of them, and different
symbols and labels. -/
structure Apart (f : FunctionSite env) (before : List Decl) (ahead : Segments)
    (slots : List GlobalSlot) : Prop where
  frame : f.frame.Slots f.definition
  reserves : Reserves env before Storage.empty ahead f.storage slots
  symbols : (f.inReach before).Nodup
  labels : ahead.dataLabels.Nodup

namespace Apart

variable {f : FunctionSite env} {before : List Decl} {ahead : Segments} {slots : List GlobalSlot}

theorem locate?_param (h : f.Apart before ahead slots) {k : Nat} {id : SymbolId}
    (hk : f.definition.params[k]? = some id) :
    f.body.storage.locate? id = some (.frame (paramOffset f.definition.params.length k)) := by
  have hnodup := (List.nodup_append.1 (List.nodup_append.1 h.symbols).1).1
  exact Storage.locate?_enter_frame (h.frame.offset?_param hnodup hk)

theorem locate?_local (h : f.Apart before ahead slots) {j : Nat} {id : SymbolId}
    (hj : f.definition.variables[j]? = some id) :
    f.body.storage.locate? id = some (.frame (localOffset j)) := by
  obtain ⟨_, hnodup, hdisjoint⟩ := List.nodup_append.1 (List.nodup_append.1 h.symbols).1
  have hparam : id ∉ f.definition.params := fun hmem =>
    hdisjoint id hmem id (List.mem_of_getElem? hj) rfl
  exact Storage.locate?_enter_frame (h.frame.offset?_local hnodup hj hparam)

theorem locate?_global (h : f.Apart before ahead slots) {slot : GlobalSlot} (hslot : slot ∈ slots) :
    f.body.storage.locate? slot.symbol = some (.static slot.label) := by
  obtain ⟨_, hnodup, hdisjoint⟩ := List.nodup_append.1 h.symbols
  have hmem : slot.symbol ∈ before.filterMap Decl.reserved? := by
    rw [← h.reserves.symbols]
    exact List.mem_map_of_mem hslot
  have houtside : slot.symbol ∉ f.definition.params ++ f.definition.variables := fun hinside =>
    hdisjoint _ hinside _ hmem rfl
  have hglobals : f.storage.globals = (slots.map fun slot => (slot.symbol, slot.label)).reverse := by
    rw [h.reserves.globals]
    exact List.append_nil _
  have hkeys : (f.storage.globals.map Prod.fst).Nodup := by
    rw [hglobals, List.map_reverse, List.map_map, List.nodup_reverse]
    exact h.reserves.symbols ▸ hnodup
  have hpair : (slot.symbol, slot.label) ∈ f.storage.globals := by
    rw [hglobals, List.mem_reverse]
    exact List.mem_map_of_mem hslot
  exact Storage.locate?_enter_global h.reserves.frames (h.frame.offset?_eq_none houtside)
    (lookup_of_mem hkeys hpair)

theorem dataLabels_eq (h : f.Apart before ahead slots) :
    ahead.dataLabels = slots.map GlobalSlot.label := by
  rw [Segments.dataLabels, h.reserves.data, List.filterMap_map]
  exact congrFun List.filterMap_eq_map slots

theorem slot_unique (h : f.Apart before ahead slots) {a b : GlobalSlot} (ha : a ∈ slots)
    (hb : b ∈ slots) (hlabel : a.label = b.label) : a = b := by
  have hnodup := h.labels
  rw [h.dataLabels_eq] at hnodup
  exact List.inj_on_of_nodup_map hnodup ha hb hlabel

end Apart

/-- A location with the symbol that is kept there. -/
inductive Keeps (f : FunctionSite env) (slots : List GlobalSlot) : Location → SymbolId → Prop
  | param {k : Nat} {id : SymbolId} : f.definition.params[k]? = some id →
      Keeps f slots (.frame (paramOffset f.definition.params.length k)) id
  | declared {j : Nat} {id : SymbolId} : f.definition.variables[j]? = some id →
      Keeps f slots (.frame (localOffset j)) id
  | global {slot : GlobalSlot} : slot ∈ slots → Keeps f slots (.static slot.label) slot.symbol

namespace Apart

variable {f : FunctionSite env} {before : List Decl} {ahead : Segments} {slots : List GlobalSlot}

theorem keeps_unique (h : f.Apart before ahead slots) {a b : SymbolId} {l l' : Location}
    (ha : f.Keeps slots l a) (hb : f.Keeps slots l' b) (hl : l = l') : a = b := by
  cases ha with
  | @param k a hk =>
    obtain ⟨hk_lt, _⟩ := List.getElem?_eq_some_iff.1 hk
    cases hb with
    | @param k' b hk' =>
      have hoffset := Location.frame.inj hl
      obtain rfl : k = k' := by
        simp only [paramOffset] at hoffset
        omega
      exact Option.some.inj (hk.symm.trans hk')
    | declared =>
      have hoffset := Location.frame.inj hl
      simp only [paramOffset, localOffset] at hoffset
      omega
    | global => cases hl
  | @declared j a hj =>
    cases hb with
    | @param k b hk =>
      obtain ⟨hk_lt, _⟩ := List.getElem?_eq_some_iff.1 hk
      have hoffset := Location.frame.inj hl
      simp only [paramOffset, localOffset] at hoffset
      omega
    | @declared j' b hj' =>
      have hoffset := Location.frame.inj hl
      obtain rfl : j = j' := by
        simp only [localOffset] at hoffset
        omega
      exact Option.some.inj (hj.symm.trans hj')
    | global => cases hl
  | @global slot hslot =>
    cases hb with
    | param | declared => cases hl
    | @global slot' hslot' =>
      exact congrArg GlobalSlot.symbol (h.slot_unique hslot hslot' (Location.static.inj hl))

theorem exists_keeps (h : f.Apart before ahead slots) {id : SymbolId} (hid : id ∈ f.inReach before) :
    ∃ l, f.body.storage.locate? id = some l ∧ f.Keeps slots l id := by
  rcases List.mem_append.1 hid with hid | hid
  · rcases List.mem_append.1 hid with hid | hid
    · obtain ⟨k, hk⟩ := List.mem_iff_getElem?.1 hid
      exact ⟨_, h.locate?_param hk, .param hk⟩
    · obtain ⟨j, hj⟩ := List.mem_iff_getElem?.1 hid
      exact ⟨_, h.locate?_local hj, .declared hj⟩
  · rw [← h.reserves.symbols] at hid
    obtain ⟨slot, hslot, rfl⟩ := List.mem_map.1 hid
    exact ⟨_, h.locate?_global hslot, .global hslot⟩

theorem eq_of_locate?_eq (h : f.Apart before ahead slots) {a b : SymbolId}
    (ha : a ∈ f.inReach before) (hb : b ∈ f.inReach before)
    (hsame : f.body.storage.locate? a = f.body.storage.locate? b) : a = b := by
  obtain ⟨l, hl, hkeeps⟩ := h.exists_keeps ha
  obtain ⟨l', hl', hkeeps'⟩ := h.exists_keeps hb
  rw [hl, hl'] at hsame
  exact h.keeps_unique hkeeps hkeeps' (Option.some.inj hsame)

theorem frame_bounds (h : f.Apart before ahead slots) {id : SymbolId}
    (hid : id ∈ f.definition.params ++ f.definition.variables) {x : Int}
    (hx : f.body.storage.locate? id = some (.frame x)) :
    4 ∣ x ∧ (0 ≤ x ∧ x < 4 * (f.definition.params.length : Int) ∨
      -(8 + 4 * (f.definition.variables.length : Int)) ≤ x ∧ x ≤ -12) := by
  rcases List.mem_append.1 hid with hid | hid
  · obtain ⟨k, hk⟩ := List.mem_iff_getElem?.1 hid
    obtain ⟨hlt, _⟩ := List.getElem?_eq_some_iff.1 hk
    rw [h.locate?_param hk, Option.some.injEq, Location.frame.injEq, paramOffset] at hx
    omega
  · obtain ⟨j, hj⟩ := List.mem_iff_getElem?.1 hid
    obtain ⟨hlt, _⟩ := List.getElem?_eq_some_iff.1 hj
    rw [h.locate?_local hj, Option.some.injEq, Location.frame.injEq, localOffset] at hx
    omega

end Apart

/-- Where everything is while the body of a function is lowered, behind the declarations `before`
and the data that they reserved. -/
structure Layout (f : FunctionSite env) (before : List Decl) (data : List DataLine) : Prop where
  params : ∀ (k : Nat) id, f.definition.params[k]? = some id →
    f.body.storage.locate? id = some (.frame (4 * ((f.definition.params.length : Int) - 1 - k)))
  locals : ∀ (j : Nat) id, f.definition.variables[j]? = some id →
    f.body.storage.locate? id = some (.frame (-(12 + 4 * (j : Int))))
  reserved : f.opening = .label f.start :: Code.prologue (4 * f.definition.variables.length)
  globals : ∀ id ∈ before.filterMap Decl.reserved?, ∃ label bytes,
    f.body.storage.locate? id = some (.static label) ∧
      (env.symbols.get id).ty.size? = some bytes ∧ .space label bytes ∈ data ∧
      ∀ line ∈ data, line.label? = some label → line = .space label bytes
  distinct : ((f.inReach before).map f.body.storage.locate?).Nodup
  apart : ∀ a ∈ f.definition.params ++ f.definition.variables,
    ∀ b ∈ f.definition.params ++ f.definition.variables, a ≠ b → ∀ x y,
    f.body.storage.locate? a = some (.frame x) → f.body.storage.locate? b = some (.frame y) →
    ∀ fp, (frameBytes fp x).Disjoint (frameBytes fp y)
  unsaved : ∀ a ∈ f.definition.params ++ f.definition.variables, ∀ x,
    f.body.storage.locate? a = some (.frame x) → ∀ fp, ∀ saved ∈ [-8, -4],
    (frameBytes fp x).Disjoint (frameBytes fp saved)
  inside : ∀ a ∈ f.definition.variables, ∀ x, f.body.storage.locate? a = some (.frame x) →
    -(8 + 4 * (f.definition.variables.length : Int)) ≤ x ∧ x + 4 ≤ -8

theorem Apart.layout {f : FunctionSite env} {before : List Decl} {ahead : Segments}
    {slots : List GlobalSlot} (h : f.Apart before ahead slots)
    (hparams : f.definition.params.length < 2 ^ 28)
    (hvariables : f.definition.variables.length < 2 ^ 28) : f.Layout before ahead.data where
  params k id hk := h.locate?_param hk
  locals j id hj := h.locate?_local hj
  reserved := by
    rw [opening, h.frame.bytes]
    rfl
  globals id hid := by
    rw [← h.reserves.symbols] at hid
    obtain ⟨slot, hslot, rfl⟩ := List.mem_map.1 hid
    refine ⟨slot.label, slot.bytes, h.locate?_global hslot, h.reserves.sizes slot hslot, ?_, ?_⟩
    · rw [h.reserves.data]
      exact List.mem_map_of_mem hslot
    · intro line hline hlabel
      rw [h.reserves.data] at hline
      obtain ⟨other, hother, rfl⟩ := List.mem_map.1 hline
      rw [h.slot_unique hother hslot (Option.some.inj hlabel)]
      rfl
  distinct := h.symbols.map_on fun a ha b hb => h.eq_of_locate?_eq ha hb
  apart a ha b hb hne x y hx hy fp := by
    obtain ⟨hdvd, hrange⟩ := h.frame_bounds ha hx
    obtain ⟨hdvd', hrange'⟩ := h.frame_bounds hb hy
    refine frameBytes_disjoint hdvd hdvd' ?_ ?_ fp
    · rintro rfl
      exact hne (h.eq_of_locate?_eq (List.mem_append_left _ ha) (List.mem_append_left _ hb)
        (hx.trans hy.symm))
    · omega
  unsaved a ha x hx fp saved hsaved := by
    obtain ⟨hdvd, hrange⟩ := h.frame_bounds ha hx
    have hsaved : saved = -8 ∨ saved = -4 := by simpa using hsaved
    refine frameBytes_disjoint hdvd ?_ ?_ ?_ fp
    · omega
    · omega
    · omega
  inside a ha x hx := by
    obtain ⟨j, hj⟩ := List.mem_iff_getElem?.1 ha
    obtain ⟨hlt, _⟩ := List.getElem?_eq_some_iff.1 hj
    rw [h.locate?_local hj, Option.some.injEq, Location.frame.injEq, localOffset] at hx
    omega

end FunctionSite

theorem Accepted.exists_apart {env : Environment} {decls before after : List Decl}
    {definition : FuncDef} (h : Accepted env IsName decls)
    (hfresh : (decls.flatMap Decl.symbols).Nodup)
    (hsplit : decls = before ++ .func definition :: after) {ahead : Segments} {storage : Storage}
    {s : LowerState}
    (hreached : env.lowerOnto Storage.empty before LowerState.initial = .ok (ahead, storage) s) :
    ∃ (f : FunctionSite env) (slots : List GlobalSlot), f.definition = definition ∧
      f.storage = storage ∧ f.state = s ∧
      StackFrame.ofFunction env.symbols definition = .ok f.frame ∧ f.Apart before ahead slots := by
  have htyped := h.typed
  rw [hsplit] at htyped hfresh
  obtain ⟨htail, _⟩ := htyped.split h.covers hreached
  have hscalars : (∀ id ∈ definition.params, (env.symbols.get id).ty.isScalar) ∧
      ∀ id ∈ definition.variables, (env.symbols.get id).ty.isScalar := by
    rw [FuncDef.variables_eq]
    cases htail with
    | func hfunc _ => exact ⟨hfunc.params, hfunc.locals⟩
  obtain ⟨frame, hframe, hslots⟩ := StackFrame.ofFunction_slots hscalars.1 hscalars.2
  obtain ⟨slots, hreserves⟩ := Reserves.of_lowerOnto hreached
  have hbefore : ∀ decl ∈ before, decl ∈ decls := by
    intro decl hdecl
    rw [hsplit]
    exact List.mem_append_left _ hdecl
  exact ⟨⟨definition, storage, s, frame⟩, slots, rfl, rfl, rfl, hframe, hslots, hreserves,
    FuncDef.symbols_nodup hfresh, h.dataLabels_nodup hbefore hreached⟩

end MipsCompiler
