import MipsCompiler.Scope

set_option autoImplicit false

/-!
# Lexical scoping

A scope answers calls, and its answers are compared with the history of all calls made before. A
declaration counts while the scope it was made in is open, and a name means the latest declaration in
the innermost open scope that has one. The history keeps every call and knows nothing of frames:
whether a scope is still open is read off the number of scopes around each later call.

`Linked` ties the frames to the history. Each call preserves it, so it holds after every run.
-/

namespace MipsCompiler

inductive ScopeCall where
  | enter
  | exit
  | declare (symbol : Symbol)
  | resolve (name : String) (pos : Position)
  | retype (id : SymbolId) (ty : Ty)

namespace Scope

def after (s : Scope) : ScopeCall → Scope
  | .enter => s.enter
  | .exit => s.exit
  | .declare symbol => (s.declare symbol).scope
  | .resolve name pos => (s.resolve name pos).scope
  | .retype id ty => s.retype id ty

def answer? (s : Scope) : ScopeCall → Option SymbolId
  | .declare symbol => some (s.declare symbol).symbol
  | .resolve name pos => some (s.resolve name pos).symbol
  | _ => none

def afterAll (s : Scope) (calls : List ScopeCall) : Scope :=
  calls.foldl after s

end Scope

structure ScopeEvent where
  call : ScopeCall
  answer : Option SymbolId

def Scope.history (s : Scope) : List ScopeCall → List ScopeEvent
  | [] => []
  | call :: calls => ⟨call, s.answer? call⟩ :: (s.after call).history calls

/-- How many scopes are open inside the outermost one. Closing the outermost one has no effect. -/
def ScopeCall.level (calls : List ScopeCall) : Nat :=
  calls.foldl (fun n call =>
    match call with
    | .enter => n + 1
    | .exit => n - 1
    | _ => n) 0

namespace ScopeEvent

def level (events : List ScopeEvent) : Nat :=
  ScopeCall.level (events.map call)

/-- After the events `before` the name was declared with the answer `id`, in a scope that is still
open: since then there have never been fewer scopes around. -/
def Declared (events before : List ScopeEvent) (name : String) (id : SymbolId) : Prop :=
  ∃ symbol after, events = before ++ ⟨.declare symbol, some id⟩ :: after ∧ symbol.name = name ∧
    ∀ later, later <+: after → level before ≤ level (before ++ ⟨.declare symbol, some id⟩ :: later)

/-- The latest declaration of the name in the open scope at a level. -/
def Latest (events : List ScopeEvent) (depth : Nat) (name : String) (id : SymbolId) : Prop :=
  ∃ before, Declared events before name id ∧ level before = depth ∧
    ∀ other id', Declared events other name id' → level other = depth →
      other.length ≤ before.length

def Taken (events : List ScopeEvent) (name : String) : Prop :=
  ∃ before id, Declared events before name id ∧ level before = level events

/-- The declaration that the name means: the latest in the innermost open scope that has any. -/
def Visible (events : List ScopeEvent) (name : String) (id : SymbolId) : Prop :=
  ∃ depth, Latest events depth name id ∧
    ∀ before id', Declared events before name id' → level before ≤ depth

section

variable {events before : List ScopeEvent} {event : ScopeEvent} {name : String} {id : SymbolId}

theorem level_concat (events : List ScopeEvent) (event : ScopeEvent) :
    level (events ++ [event]) =
      match event.call with
      | .enter => level events + 1
      | .exit => level events - 1
      | _ => level events := by
  simp only [level, ScopeCall.level, List.map_append, List.foldl_append]
  rfl

theorem Declared.level_le (h : Declared events before name id) : level before ≤ level events := by
  obtain ⟨symbol, after, rfl, _, hopen⟩ := h
  exact hopen after (List.prefix_refl after)

theorem Declared.id_eq {id' : SymbolId} (h : Declared events before name id)
    (h' : Declared events before name id') : id = id' := by
  obtain ⟨symbol, after, rfl, _, _⟩ := h
  obtain ⟨symbol', after', hevents, _, _⟩ := h'
  have hevent := (List.cons.inj (List.append_cancel_left hevents)).1
  exact Option.some.inj (ScopeEvent.mk.inj hevent).2

theorem Declared.length_lt (h : Declared events before name id) : before.length < events.length := by
  obtain ⟨symbol, after, rfl, _, _⟩ := h
  simp

theorem Declared.latest {before : List ScopeEvent} {id : SymbolId}
    (h : Declared events before name id) : ∃ id', Latest events (level before) name id' := by
  by_cases hlast : ∀ other id', Declared events other name id' → level other = level before →
      other.length ≤ before.length
  · exact ⟨id, before, h, rfl, hlast⟩
  · simp only [Classical.not_forall, Nat.not_le] at hlast
    obtain ⟨later, id', hlater, hlevel, hlength⟩ := hlast
    have hbound := hlater.length_lt
    rw [← hlevel]
    exact hlater.latest
termination_by events.length - before.length

/-- With one more event, a declaration that counts has counted before and its scope has not been
closed, or it is that event. -/
theorem declared_concat :
    Declared (events ++ [event]) before name id ↔
      (Declared events before name id ∧ level before ≤ level (events ++ [event])) ∨
        before = events ∧ ∃ symbol, event = ⟨.declare symbol, some id⟩ ∧ symbol.name = name := by
  constructor
  · intro h
    have hlevel := h.level_le
    obtain ⟨symbol, after, hevents, hname, hopen⟩ := h
    rcases List.eq_nil_or_concat after with rfl | ⟨after, last, rfl⟩
    · obtain ⟨rfl, hevent⟩ := List.append_inj' hevents rfl
      exact .inr ⟨rfl, symbol, (List.cons.inj hevent).1, hname⟩
    · rw [List.concat_eq_append, ← List.cons_append, ← List.append_assoc] at hevents
      obtain ⟨rfl, _⟩ := List.append_inj' hevents rfl
      refine .inl ⟨⟨symbol, after, rfl, hname, fun later hlater => hopen later ?_⟩, hlevel⟩
      rw [List.concat_eq_append]
      exact hlater.trans (List.prefix_append _ _)
  · rintro (⟨⟨symbol, after, rfl, hname, hopen⟩, hlevel⟩ | ⟨rfl, symbol, rfl, hname⟩)
    · refine ⟨symbol, after ++ [event], by simp, hname, fun later hlater => ?_⟩
      rcases List.prefix_concat_iff.1 hlater with rfl | hlater
      · simpa using hlevel
      · exact hopen later hlater
    · refine ⟨symbol, [], rfl, hname, fun later hlater => ?_⟩
      obtain rfl := List.prefix_nil.1 hlater
      exact Nat.le_of_eq (level_concat before ⟨.declare symbol, some id⟩).symm

theorem declared_concat_of_not_declare (hevent : ∀ symbol, event.call ≠ .declare symbol) :
    Declared (events ++ [event]) before name id ↔
      Declared events before name id ∧ level before ≤ level (events ++ [event]) := by
  rw [declared_concat, or_iff_left]
  rintro ⟨_, symbol, rfl, _⟩
  exact hevent symbol rfl

theorem latest_of_iff {others : List ScopeEvent} {depth : Nat}
    (h : ∀ before id, level before = depth →
      (Declared others before name id ↔ Declared events before name id)) :
    Latest others depth name id ↔ Latest events depth name id := by
  constructor
  · rintro ⟨before, hdeclared, hdepth, hlatest⟩
    exact ⟨before, (h before id hdepth).1 hdeclared, hdepth, fun other id' hother hlevel =>
      hlatest other id' ((h other id' hlevel).2 hother) hlevel⟩
  · rintro ⟨before, hdeclared, hdepth, hlatest⟩
    exact ⟨before, (h before id hdepth).2 hdeclared, hdepth, fun other id' hother hlevel =>
      hlatest other id' ((h other id' hlevel).1 hother) hlevel⟩

theorem latest_concat_declare (events : List ScopeEvent) (symbol : Symbol) (new : SymbolId) :
    Latest (events ++ [⟨.declare symbol, some new⟩]) (level events) name id ↔
      if name = symbol.name then id = new else Latest events (level events) name id := by
  split
  · next heq =>
    subst heq
    have hself : Declared (events ++ [⟨.declare symbol, some new⟩]) events symbol.name new :=
      declared_concat.2 (.inr ⟨rfl, symbol, rfl, rfl⟩)
    constructor
    · rintro ⟨before, hdeclared, _, hlatest⟩
      have hlength := hlatest events new hself rfl
      rcases declared_concat.1 hdeclared with ⟨⟨_, after, rfl, _, _⟩, _⟩ | ⟨rfl, _⟩
      · simp only [List.length_append, List.length_cons] at hlength
        omega
      · exact hdeclared.id_eq hself
    · rintro rfl
      refine ⟨events, hself, rfl, fun other id' hother _ => ?_⟩
      rcases declared_concat.1 hother with ⟨⟨_, after, rfl, _, _⟩, _⟩ | ⟨rfl, _⟩
      · simp
      · exact Nat.le_refl _
  · next hne =>
    refine latest_of_iff fun before id _ => ?_
    rw [declared_concat, level_concat]
    constructor
    · rintro (⟨h, _⟩ | ⟨_, symbol', hevent, hname⟩)
      · exact h
      · cases hevent
        exact absurd hname.symm hne
    · exact fun h => .inl ⟨h, h.level_le⟩

end

end ScopeEvent

namespace Scope

open ScopeEvent (Declared Latest Taken Visible level level_concat declared_concat)

/-- The frames and the history of a run agree: there are as many frames as open scopes, and each
binds a name to its latest declaration there. -/
structure Linked (events : List ScopeEvent) (s : Scope) : Prop where
  outer : level events = s.outer.length
  bound : ∀ frame outer, frame :: outer <:+ s.frames → ∀ name id,
    frame.find? name = some id ↔ Latest events outer.length name id

variable {events : List ScopeEvent} {s : Scope}

theorem length_le_outer {frame : Frame} {outer : List Frame} (h : frame :: outer <:+ s.frames) :
    outer.length ≤ s.outer.length :=
  Nat.le_of_succ_le_succ h.length_le

theorem declare_find? (s : Scope) (symbol : Symbol) (name : String) :
    (s.declare symbol).scope.current.find? name =
      if name = symbol.name then some (s.declare symbol).symbol else s.current.find? name := by
  have hlookup : (s.declare symbol).scope.current.bindings =
      (symbol.name, (s.declare symbol).symbol) :: s.current.bindings := by
    unfold declare
    split <;> rfl
  rw [Frame.find?, hlookup, List.lookup_cons]
  by_cases heq : name = symbol.name
  · simp [heq]
  · have hbeq : (name == symbol.name) = false := beq_eq_false_iff_ne.2 heq
    rw [hbeq, if_neg heq]
    rfl

theorem declare_outer (s : Scope) (symbol : Symbol) :
    (s.declare symbol).scope.outer = s.outer := by
  unfold declare
  split <;> rfl

theorem resolve_frames (s : Scope) (name : String) (pos : Position) :
    (s.resolve name pos).scope.frames = s.frames := by
  unfold resolve
  split <;> rfl

namespace Linked

theorem of_frames {t : Scope} {event : ScopeEvent} (h : Linked events s)
    (hframes : t.frames = s.frames) (hevent : ∀ symbol, event.call ≠ .declare symbol)
    (hlevel : level (events ++ [event]) = level events) : Linked (events ++ [event]) t where
  outer := by
    have hlength := congrArg List.length hframes
    rw [hlevel, h.outer]
    exact (Nat.succ.inj hlength).symm
  bound frame outer hsuffix name id := by
    rw [h.bound frame outer (hframes ▸ hsuffix) name id]
    refine (ScopeEvent.latest_of_iff fun before id _ => ?_).symm
    rw [ScopeEvent.declared_concat_of_not_declare hevent, hlevel]
    exact and_iff_left_of_imp Declared.level_le

theorem enter (h : Linked events s) (answer : Option SymbolId) :
    Linked (events ++ [⟨.enter, answer⟩]) s.enter := by
  have hlevel : level (events ++ [⟨.enter, answer⟩]) = level events + 1 := level_concat events _
  have hdeclared (before : List ScopeEvent) (name : String) (id : SymbolId) :
      Declared (events ++ [⟨.enter, answer⟩]) before name id ↔ Declared events before name id := by
    rw [ScopeEvent.declared_concat_of_not_declare (fun _ => by simp), hlevel]
    exact and_iff_left_of_imp fun h => Nat.le_succ_of_le h.level_le
  refine ⟨hlevel.trans (congrArg Nat.succ h.outer), fun frame outer hsuffix name id => ?_⟩
  rcases List.suffix_cons_iff.1 hsuffix with hnew | hold
  · -- The new frame is empty, and nothing in force was declared above the former level.
    obtain ⟨rfl, rfl⟩ := List.cons.inj hnew
    refine iff_of_false (fun hfind => nomatch hfind) ?_
    rintro ⟨before, hbefore, hdepth, _⟩
    have hle := ((hdeclared before name id).1 hbefore).level_le
    rw [h.outer, hdepth] at hle
    exact absurd hle (Nat.not_succ_le_self s.outer.length)
  · rw [h.bound frame outer hold name id]
    exact (ScopeEvent.latest_of_iff fun before id _ => hdeclared before name id).symm

theorem exit (h : Linked events s) (answer : Option SymbolId) :
    Linked (events ++ [⟨.exit, answer⟩]) s.exit := by
  have hlevel : level (events ++ [⟨.exit, answer⟩]) = level events - 1 := level_concat events _
  cases houter : s.outer with
  | nil =>
    have hzero : level events = 0 := by rw [h.outer, houter]; rfl
    have hexit : s.exit = s := by rw [Scope.exit, houter]
    refine h.of_frames (congrArg frames hexit) (fun _ => by simp) ?_
    rw [hlevel, hzero]
  | cons closed rest =>
    have hframes : s.exit.frames = s.outer := by rw [Scope.exit, houter]; rfl
    have hlength : s.exit.outer.length = s.outer.length - 1 := by simp [Scope.exit, houter]
    refine ⟨by rw [hlevel, hlength, h.outer], fun frame outer hsuffix name id => ?_⟩
    have hle := length_le_outer hsuffix
    rw [hframes] at hsuffix
    rw [h.bound frame outer (hsuffix.trans (List.suffix_cons _ _)) name id]
    refine (ScopeEvent.latest_of_iff fun before id hbefore => ?_).symm
    rw [ScopeEvent.declared_concat_of_not_declare (fun _ => by simp), hlevel, h.outer, hbefore]
    exact and_iff_left (hlength ▸ hle)

theorem declare (h : Linked events s) (symbol : Symbol) :
    Linked (events ++ [⟨.declare symbol, some (s.declare symbol).symbol⟩])
      (s.declare symbol).scope := by
  have hlevel : level (events ++ [⟨.declare symbol, some (s.declare symbol).symbol⟩]) =
      level events := level_concat events _
  have houter := s.declare_outer symbol
  refine ⟨by rw [hlevel, h.outer, houter], ?_⟩
  intro frame outer hsuffix name id
  rcases List.suffix_cons_iff.1 hsuffix with hnew | hold
  · obtain ⟨rfl, rfl⟩ := List.cons.inj hnew
    have hcurrent := h.bound s.current s.outer (List.suffix_refl _) name id
    rw [declare_find?, houter, ← h.outer, ScopeEvent.latest_concat_declare]
    rw [← h.outer] at hcurrent
    split
    · rw [Option.some.injEq, eq_comm]
    · exact hcurrent
  · -- The scopes around the current one have no part in it.
    rw [houter] at hold
    have hlt : outer.length < s.outer.length := hold.length_le
    rw [h.bound frame outer (hold.trans (List.suffix_cons _ _)) name id]
    refine (ScopeEvent.latest_of_iff fun before id hbefore => ?_).symm
    rw [declared_concat, hlevel]
    constructor
    · rintro (⟨hdeclared, _⟩ | ⟨rfl, _⟩)
      · exact hdeclared
      · rw [h.outer] at hbefore
        omega
    · exact fun hdeclared => .inl ⟨hdeclared, hdeclared.level_le⟩

theorem step (h : Linked events s) (call : ScopeCall) :
    Linked (events ++ [⟨call, s.answer? call⟩]) (s.after call) := by
  cases call with
  | enter => exact h.enter _
  | exit => exact h.exit _
  | declare symbol => exact h.declare symbol
  | resolve name pos =>
    exact h.of_frames (s.resolve_frames name pos) (fun _ => by simp) (level_concat events _)
  | retype id ty => exact h.of_frames rfl (fun _ => by simp) (level_concat events _)

theorem find?_iff (h : Linked events s) (name : String) (id : SymbolId) :
    s.find? name = some id ↔ Visible events name id := by
  -- Outwards from any open scope, with no declaration of the name in the scopes inside it.
  have houtwards (frames : List Frame) (hsuffix : frames <:+ s.frames)
      (hinner : ∀ before id', Declared events before name id' → level before < frames.length) :
      frames.findSome? (fun frame => frame.find? name) = some id ↔ Visible events name id := by
    induction frames with
    | nil =>
      refine iff_of_false (fun hfind => nomatch hfind) ?_
      rintro ⟨depth, ⟨before, hbefore, _, _⟩, _⟩
      exact absurd (hinner before id hbefore) (Nat.not_lt_zero _)
    | cons frame outer ih =>
      have hbound := h.bound frame outer hsuffix name
      rw [List.findSome?_cons]
      cases hfind : frame.find? name with
      | some found =>
        have hfound := (hbound found).1 hfind
        change some found = some id ↔ _
        rw [Option.some.injEq]
        constructor
        · rintro rfl
          exact ⟨outer.length, hfound, fun before id' hbefore =>
            Nat.le_of_lt_succ (hinner before id' hbefore)⟩
        · rintro ⟨depth, hlatest, hinnermost⟩
          have hle : outer.length ≤ depth := by
            obtain ⟨before, hbefore, hlevel, _⟩ := hfound
            exact hlevel ▸ hinnermost before found hbefore
          have hge : depth ≤ outer.length := by
            obtain ⟨before, hbefore, hlevel, _⟩ := hlatest
            exact hlevel ▸ Nat.le_of_lt_succ (hinner before id hbefore)
          rw [Nat.le_antisymm hge hle] at hlatest
          exact Option.some.inj (hfind.symm.trans ((hbound id).2 hlatest))
      | none =>
        refine ih ((List.suffix_cons _ _).trans hsuffix) fun before id' hbefore => ?_
        -- A declaration at the level of this frame would have been found in it.
        have hne : level before ≠ outer.length := by
          intro hlevel
          obtain ⟨latest, hlatest⟩ := hbefore.latest
          rw [hlevel] at hlatest
          exact nomatch hfind.symm.trans ((hbound latest).2 hlatest)
        have hlt := hinner before id' hbefore
        rw [List.length_cons] at hlt
        omega
  refine houtwards s.frames (List.suffix_refl _) fun before id' hbefore => ?_
  have hle := hbefore.level_le
  rw [h.outer] at hle
  exact Nat.lt_succ_of_le hle

theorem find?_none_iff (h : Linked events s) (name : String) :
    s.find? name = none ↔ ∀ before id, ¬ Declared events before name id := by
  constructor
  · intro hfind before id hbefore
    obtain ⟨latest, hlatest⟩ := hbefore.latest
    have hle := hbefore.level_le
    rw [h.outer] at hle
    have hsuffix : s.frames.drop (s.outer.length - level before) <:+ s.frames := List.drop_suffix _ _
    have hlength : (s.frames.drop (s.outer.length - level before)).length = level before + 1 := by
      have hframes : s.frames.length = s.outer.length + 1 := rfl
      rw [List.length_drop, hframes]
      omega
    obtain ⟨frame, outer, hframe⟩ := List.exists_cons_of_length_eq_add_one hlength
    rw [hframe] at hsuffix hlength
    rw [← Nat.succ.inj hlength] at hlatest
    have hnone := List.findSome?_eq_none_iff.1 hfind frame (hsuffix.subset List.mem_cons_self)
    exact nomatch hnone.symm.trans ((h.bound frame outer hsuffix name latest).2 hlatest)
  · intro hnone
    rw [Option.eq_none_iff_forall_ne_some]
    intro id hfind
    obtain ⟨_, ⟨before, hbefore, _⟩, _⟩ := (h.find?_iff name id).1 hfind
    exact hnone before id hbefore

theorem current_iff (h : Linked events s) (name : String) :
    (∃ id, s.current.find? name = some id) ↔ Taken events name := by
  have hbound := h.bound s.current s.outer (List.suffix_refl _) name
  rw [← h.outer] at hbound
  constructor
  · rintro ⟨id, hfind⟩
    obtain ⟨before, hbefore, hlevel, _⟩ := (hbound id).1 hfind
    exact ⟨before, id, hbefore, hlevel⟩
  · rintro ⟨before, id, hbefore, hlevel⟩
    obtain ⟨latest, hlatest⟩ := hbefore.latest
    rw [hlevel] at hlatest
    exact ⟨latest, (hbound latest).2 hlatest⟩

end Linked

theorem resolve_eq_iff (s : Scope) (name : String) (pos : Position) (id : SymbolId) :
    s.resolve name pos = ⟨s, id, none⟩ ↔ s.find? name = some id := by
  unfold resolve
  cases s.find? name <;> simp

theorem resolve_unbound {s : Scope} {name : String} (pos : Position) (h : s.find? name = none) :
    s.resolve name pos =
      ⟨{ s with symbols := s.symbols ++ [.refused name (.unresolved pos name s.dump)] },
        s.symbols.length, some (.unresolved pos name s.dump)⟩ := by
  rw [resolve, h]

/-- Every symbol that was answered is in the table. -/
def Issued (events : List ScopeEvent) (s : Scope) : Prop :=
  ∀ event ∈ events, ∀ id, event.answer = some id → id < s.symbols.length

theorem declare_symbols (s : Scope) (symbol : Symbol) :
    (s.declare symbol).symbol = s.symbols.length ∧
      ∃ made, (s.declare symbol).scope.symbols = s.symbols ++ [made] := by
  unfold declare
  split
  · exact ⟨rfl, _, rfl⟩
  · exact ⟨rfl, _, rfl⟩

theorem length_le_after (s : Scope) (call : ScopeCall) :
    s.symbols.length ≤ (s.after call).symbols.length := by
  cases call with
  | enter => exact Nat.le_refl _
  | exit =>
    rw [after, exit]
    split <;> exact Nat.le_refl _
  | declare symbol =>
    obtain ⟨_, made, hmade⟩ := s.declare_symbols symbol
    simp [after, hmade]
  | resolve name pos =>
    rw [after, resolve]
    split <;> simp
  | retype id ty => simp [after, Scope.retype, SymbolTable.retype]

theorem Issued.step (h : Issued events s) (hlinked : Linked events s) (call : ScopeCall) :
    Issued (events ++ [⟨call, s.answer? call⟩]) (s.after call) := by
  intro event hevent id hid
  rcases List.mem_append.1 hevent with hold | hnew
  · exact Nat.lt_of_lt_of_le (h event hold id hid) (s.length_le_after call)
  · obtain rfl := List.mem_singleton.1 hnew
    cases call with
    | enter | exit | retype => nomatch hid
    | declare symbol =>
      obtain ⟨hsymbol, made, hmade⟩ := s.declare_symbols symbol
      obtain rfl := Option.some.inj hid
      simp [after, hsymbol, hmade]
    | resolve name pos =>
      obtain rfl := Option.some.inj hid
      cases hfind : s.find? name with
      | none => simp [after, resolve_unbound pos hfind]
      | some found =>
        -- What is found was answered by a declaration.
        obtain ⟨_, ⟨before, ⟨symbol, rest, hevents, _⟩, _⟩, _⟩ := (hlinked.find?_iff name found).1 hfind
        have hanswered : ⟨.declare symbol, some found⟩ ∈ events := hevents ▸ by simp
        have hlt := h _ hanswered found rfl
        rw [after, (s.resolve_eq_iff name pos found).2 hfind]
        exact hlt

def bare : Scope := ⟨Frame.empty 0, [], []⟩

def declareBuiltins : List ScopeCall :=
  builtins.map fun routine => .declare ⟨routine.1, routine.2, .builtin, Position.nowhere⟩

theorem bare_afterAll_builtins : bare.afterAll declareBuiltins = initial := by
  rfl

def present (calls : List ScopeCall) : Scope :=
  initial.afterAll calls

/-- The history of calls from the beginning. The built-in routines count as declarations. -/
def past (calls : List ScopeCall) : List ScopeEvent :=
  bare.history (declareBuiltins ++ calls)

theorem afterAll_append (s : Scope) (calls more : List ScopeCall) :
    s.afterAll (calls ++ more) = (s.afterAll calls).afterAll more :=
  List.foldl_append

theorem present_concat (calls : List ScopeCall) (call : ScopeCall) :
    present (calls ++ [call]) = (present calls).after call :=
  initial.afterAll_append calls [call]

/-- What every call keeps, of a history and the scope it leads to, is kept by a run of calls. -/
theorem run_induction {P : List ScopeEvent → Scope → Prop}
    (hstep : ∀ events s, P events s → ∀ call, P (events ++ [⟨call, s.answer? call⟩]) (s.after call))
    {events : List ScopeEvent} {s : Scope} (h : P events s) (calls : List ScopeCall) :
    P (events ++ s.history calls) (s.afterAll calls) := by
  induction calls generalizing events s with
  | nil => simpa [history, afterAll] using h
  | cons call calls ih =>
    have hrest := ih (hstep events s h call)
    rw [List.append_assoc] at hrest
    exact hrest

theorem present_induction {P : List ScopeEvent → Scope → Prop} (hbare : P [] bare)
    (hstep : ∀ events s, P events s → ∀ call, P (events ++ [⟨call, s.answer? call⟩]) (s.after call))
    (calls : List ScopeCall) : P (past calls) (present calls) := by
  have hrun := run_induction hstep hbare (declareBuiltins ++ calls)
  rw [afterAll_append, bare_afterAll_builtins] at hrun
  exact hrun

theorem Linked.bare : Linked [] bare := by
  refine ⟨rfl, fun frame outer hsuffix name id => ?_⟩
  have hlength := hsuffix.length_le
  obtain ⟨rfl, rfl⟩ : frame = Frame.empty 0 ∧ outer = [] := by
    have hframe := hsuffix.eq_of_length_le (Nat.le_add_left 1 outer.length)
    exact List.cons.inj hframe
  refine iff_of_false (fun hfind => nomatch hfind) ?_
  rintro ⟨before, hbefore, _⟩
  exact absurd hbefore.length_lt (Nat.not_lt_zero _)

theorem present_linked (calls : List ScopeCall) :
    Linked (past calls) (present calls) ∧ Issued (past calls) (present calls) := by
  have hissued : Issued [] bare := fun event hevent => absurd hevent List.not_mem_nil
  refine present_induction (P := fun events s => Linked events s ∧ Issued events s)
    ⟨.bare, hissued⟩ ?_ calls
  -- A lookup issues what it finds, so the second invariant needs the first.
  rintro events s ⟨hlinked, hissued⟩ call
  exact ⟨hlinked.step call, hissued.step hlinked call⟩

theorem history_calls (s : Scope) (calls : List ScopeCall) :
    (s.history calls).map ScopeEvent.call = calls := by
  induction calls generalizing s with
  | nil => rfl
  | cons call calls ih => exact congrArg (call :: ·) (ih _)

theorem present_outer (calls : List ScopeCall) :
    (present calls).outer.length = ScopeCall.level calls := by
  have hlevel : level (past calls) = ScopeCall.level calls := by
    rw [level, past, history_calls, ScopeCall.level, List.foldl_append]
    rfl
  exact (present_linked calls).1.outer.symm.trans hlevel

end Scope

/-- After `calls` a scope is opened, which is still open and the innermost one behind `inner`. -/
def ScopeCall.Inside (calls inner : List ScopeCall) : Prop :=
  (∀ made, made <+: inner → level calls < level (calls ++ ScopeCall.enter :: made)) ∧
    level (calls ++ ScopeCall.enter :: inner) = level calls + 1

namespace Scope

open ScopeEvent (Declared Taken Visible)

theorem after_outer {frames : List Frame} {s : Scope} {call : ScopeCall} (h : frames <:+ s.outer)
    (hlength : frames.length ≤ (s.after call).outer.length) : frames <:+ (s.after call).outer := by
  cases call with
  | enter => exact h.trans (List.suffix_cons _ _)
  | exit =>
    cases houter : s.outer with
    | nil =>
      rw [after, exit, houter]
      exact h
    | cons frame rest =>
      have hrest : (s.after .exit).outer = rest := by rw [after, exit, houter]
      rw [houter] at h
      rw [hrest] at hlength
      rw [hrest]
      rcases List.suffix_cons_iff.1 h with rfl | hsuffix
      · exact absurd hlength (Nat.not_succ_le_self _)
      · exact hsuffix
  | declare symbol =>
    rw [after, declare_outer]
    exact h
  | resolve name pos =>
    have houter := (List.cons.inj (s.resolve_frames name pos)).2
    rw [after, houter]
    exact h
  | retype id ty => exact h

theorem afterAll_outer {frames : List Frame} {s : Scope} {calls : List ScopeCall}
    (h : frames <:+ s.outer)
    (hlength : ∀ made, made <+: calls → frames.length ≤ (s.afterAll made).outer.length) :
    frames <:+ (s.afterAll calls).outer := by
  induction calls generalizing s with
  | nil => exact h
  | cons call calls ih =>
    have hfirst := hlength [call] (List.prefix_append [call] calls)
    apply ih (after_outer h hfirst)
    intro made hmade
    exact hlength (call :: made) ((List.prefix_cons_inj call).2 hmade)

theorem exit_frames {calls inner : List ScopeCall} (h : ScopeCall.Inside calls inner) :
    (present (calls ++ ScopeCall.enter :: inner ++ [ScopeCall.exit])).frames =
      (present calls).frames := by
  have hpresent (made : List ScopeCall) :
      present (calls ++ ScopeCall.enter :: made) = (present calls).enter.afterAll made := by
    rw [present, afterAll_append]
    rfl
  have hlevel (made : List ScopeCall) : ((present calls).enter.afterAll made).outer.length =
      ScopeCall.level (calls ++ ScopeCall.enter :: made) := by
    rw [← hpresent, present_outer]
  have hlength : (present calls).frames.length = ScopeCall.level calls + 1 := by
    rw [← present_outer]
    rfl
  have hkept : (present calls).frames <:+ ((present calls).enter.afterAll inner).outer := by
    refine afterAll_outer (List.suffix_refl _) fun made hmade => ?_
    rw [hlevel, hlength]
    exact h.1 made hmade
  have houter : (present calls).frames = ((present calls).enter.afterAll inner).outer := by
    apply hkept.eq_of_length
    rw [hlength, ← h.2, ← hlevel]
  rw [present_concat, hpresent, after, exit, ← houter]
  rfl

/-- The answer is a symbol that was never answered before, and the table has `symbol` there. -/
structure Answer.IsNew (events : List ScopeEvent) (answer : Answer) (symbol : Symbol) : Prop where
  unanswered : ∀ event ∈ events, event.answer ≠ some answer.symbol
  held : answer.scope.symbol answer.symbol = symbol

theorem Issued.isNew {events : List ScopeEvent} {s : Scope} (h : Issued events s) {answer : Answer}
    {symbol : Symbol} (hsymbol : answer.symbol = s.symbols.length)
    (hsymbols : answer.scope.symbols = s.symbols ++ [symbol]) : answer.IsNew events symbol := by
  constructor
  · intro event hevent hanswer
    have hlt := h event hevent _ hanswer
    exact absurd hsymbol (Nat.ne_of_lt hlt)
  · rw [Scope.symbol, hsymbols, hsymbol]
    simp [SymbolTable.get]

def Answer.Refuses (events : List ScopeEvent) (answer : Answer) (name : String)
    (refusal : Diagnostic) : Prop :=
  answer.refusal = some refusal ∧ answer.IsNew events (.refused name refusal)

theorem resolve_refuses {calls : List ScopeCall} {name : String}
    (h : (present calls).find? name = none) (pos : Position) :
    ((present calls).resolve name pos).Refuses (past calls) name
      (.unresolved pos name (present calls).dump) := by
  rw [resolve_unbound pos h]
  exact ⟨rfl, (present_linked calls).2.isNew rfl rfl⟩

/-- The answers of a scope after any calls are those of lexical scoping. A name that is declared in an
open scope resolves to its declaration, and nothing changes. Any other name is refused each time and
is not bound by that. A declaration is refused exactly if the current scope has one of the same name,
and makes the symbol it is given otherwise. Closing a scope brings back what every name meant when it
was opened. -/
theorem scoping_lexical (calls : List ScopeCall) :
    (∀ name pos id, Visible (past calls) name id →
      (present calls).resolve name pos = ⟨present calls, id, none⟩) ∧
    (∀ name pos, (∀ before id, ¬ Declared (past calls) before name id) →
      ((present calls).resolve name pos).Refuses (past calls) name
          (.unresolved pos name (present calls).dump) ∧
        ((present calls).resolve name pos).scope.frames = (present calls).frames ∧
        ∀ pos', ((present (calls ++ [ScopeCall.resolve name pos])).resolve name pos').Refuses
            (past (calls ++ [ScopeCall.resolve name pos])) name
            (.unresolved pos' name (present (calls ++ [ScopeCall.resolve name pos])).dump) ∧
          ((present (calls ++ [ScopeCall.resolve name pos])).resolve name pos').symbol ≠
            ((present calls).resolve name pos).symbol) ∧
    (∀ symbol,
      (((present calls).declare symbol).Refuses (past calls) symbol.name
          (.redeclared symbol.pos symbol.name (present calls).dump) ↔
        Taken (past calls) symbol.name) ∧
      (¬ Taken (past calls) symbol.name →
        ((present calls).declare symbol).refusal = none ∧
          ((present calls).declare symbol).IsNew (past calls) symbol)) ∧
    ∀ inner, ScopeCall.Inside calls inner → ∀ name pos id,
      (present (calls ++ ScopeCall.enter :: inner ++ [ScopeCall.exit])).resolve name pos =
          ⟨present (calls ++ ScopeCall.enter :: inner ++ [ScopeCall.exit]), id, none⟩ ↔
        (present calls).resolve name pos = ⟨present calls, id, none⟩ := by
  obtain ⟨hlinked, hissued⟩ := present_linked calls
  refine ⟨?_, ?_, ?_, ?_⟩
  · intro name pos id hvisible
    rw [resolve_eq_iff, hlinked.find?_iff]
    exact hvisible
  · intro name pos hnone
    have hfind := (hlinked.find?_none_iff name).2 hnone
    have hagain : (present (calls ++ [ScopeCall.resolve name pos])).find? name = none := by
      rw [present_concat, find?, after, resolve_frames]
      exact hfind
    refine ⟨resolve_refuses hfind pos, resolve_frames _ name pos, fun pos' => ?_⟩
    refine ⟨resolve_refuses hagain pos', ?_⟩
    rw [resolve_unbound pos' hagain, present_concat, after, resolve_unbound pos hfind]
    simp
  · intro symbol
    rw [← hlinked.current_iff symbol.name]
    cases hfind : (present calls).current.find? symbol.name with
    | none =>
      rw [declare, hfind]
      refine ⟨iff_of_false ?_ ?_, fun _ => ⟨rfl, hissued.isNew rfl rfl⟩⟩
      · rintro ⟨hrefusal, _⟩
        nomatch hrefusal
      · rintro ⟨id, hid⟩
        nomatch hid
    | some id =>
      rw [declare, hfind]
      refine ⟨iff_of_true ⟨rfl, hissued.isNew rfl rfl⟩ ⟨id, rfl⟩, fun hfree => ?_⟩
      exact absurd ⟨id, rfl⟩ hfree
  · intro inner hinside name pos id
    rw [resolve_eq_iff, resolve_eq_iff, find?, find?, exit_frames hinside]

def declareOnce : List ScopeCall :=
  [.declare ⟨"x", .int, .var, ⟨1, 5⟩⟩]

def declareTwice : List ScopeCall :=
  [.declare ⟨"x", .float, .var, ⟨2, 7⟩⟩, .declare ⟨"x", .bool, .var, ⟨3, 7⟩⟩]

theorem shadowing_undone :
    (present (declareOnce ++ ScopeCall.enter :: declareTwice)).resolve "x" ⟨4, 1⟩ =
        ⟨present (declareOnce ++ ScopeCall.enter :: declareTwice), 8, none⟩ ∧
      (present (declareOnce ++ ScopeCall.enter :: declareTwice ++ [ScopeCall.exit])).resolve "x" ⟨5, 1⟩ =
        ⟨present (declareOnce ++ ScopeCall.enter :: declareTwice ++ [ScopeCall.exit]), 6, none⟩ ∧
      ((present (declareOnce ++ [.enter])).declare ⟨"x", .float, .var, ⟨2, 7⟩⟩).refusal = none ∧
      ((present declareOnce).resolve "y" ⟨1, 9⟩).refusal.isSome := by
  have hinside : ScopeCall.Inside declareOnce declareTwice := by
    have hdeep : ∀ n ≤ 2, ScopeCall.level declareOnce <
        ScopeCall.level (declareOnce ++ ScopeCall.enter :: declareTwice.take n) := by decide
    refine ⟨fun made hmade => ?_, by decide⟩
    rw [List.prefix_iff_eq_take.1 hmade]
    exact hdeep made.length hmade.length_le
  have hinner : Visible (past (declareOnce ++ ScopeCall.enter :: declareTwice)) "x" 8 :=
    ((present_linked _).1.find?_iff "x" 8).1 (by decide)
  have houter : Visible (past declareOnce) "x" 6 :=
    ((present_linked _).1.find?_iff "x" 6).1 (by decide)
  have hfree : ¬ Taken (past (declareOnce ++ [.enter])) "x" := by
    rw [← (present_linked _).1.current_iff]
    rintro ⟨id, hid⟩
    nomatch hid
  have hunknown : ∀ before id, ¬ Declared (past declareOnce) before "y" id :=
    ((present_linked _).1.find?_none_iff "y").1 (by decide)
  obtain ⟨hresolve, hunbound, _, hclosed⟩ := scoping_lexical declareOnce
  obtain ⟨_, _, hdeclare, _⟩ := scoping_lexical (declareOnce ++ [.enter])
  refine ⟨(scoping_lexical _).1 "x" _ 8 hinner, ?_, ((hdeclare _).2 hfree).1, ?_⟩
  · exact (hclosed declareTwice hinside "x" _ 6).2 (hresolve "x" _ 6 houter)
  · rw [(hunbound "y" ⟨1, 9⟩ hunknown).1.1]
    rfl

end Scope

end MipsCompiler
