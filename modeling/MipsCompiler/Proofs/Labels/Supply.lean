import MipsCompiler.Assembly.Label

set_option autoImplicit false

/-!
# Labels are issued once

A name is taken apart at its dots. A label is the requested name or that name with a numeral as one
more part, so two requests get the same label only if a requested name ends in a numeral itself.
`Collides` says exactly when they do: the name that ends in a numeral is then the label of another
name, which is requested often enough to get it.
-/

namespace MipsCompiler

namespace LabelSupply

theorem label_of_pos (name : String) {n : Nat} (h : 1 ≤ n) :
    label name n = name ++ "." ++ toString n :=
  if_neg (Nat.ne_of_gt h)

def parts (name : String) : List (List Char) :=
  name.toList.splitOn '.'

theorem parts_dot (a b : String) : parts (a ++ "." ++ b) = parts a ++ parts b := by
  have hdot : (a ++ "." ++ b).toList = a.toList ++ '.' :: b.toList := by simp
  rw [parts, hdot, List.splitOn_append_cons_self]
  rfl

theorem parts_of_no_dot {name : String} (h : '.' ∉ name.toList) : parts name = [name.toList] :=
  List.splitOn_eq_singleton h

theorem parts_ne_nil (name : String) : parts name ≠ [] :=
  List.splitOn_ne_nil _ _

theorem parts_inj {a b : String} (h : parts a = parts b) : a = b := by
  have hjoin := congrArg (List.intercalate ['.']) h
  rw [parts, parts, List.intercalate_splitOn, List.intercalate_splitOn] at hjoin
  exact String.toList_inj.1 hjoin

/-- Whether the last part of a name is a numeral. -/
def isNumbered (name : String) : Bool :=
  ((parts name).getLast?.getD []).all Char.isDigit

theorem parts_label_succ (name : String) (n : Nat) :
    parts (label name (n + 1)) = parts name ++ [Nat.toDigits 10 (n + 1)] := by
  have hnumeral : '.' ∉ (toString (n + 1)).toList := by
    intro hmem
    rw [Nat.toString_eq_repr, Nat.toList_repr] at hmem
    exact absurd (Nat.isDigit_of_mem_toDigits (by decide) (by decide) hmem) (by decide)
  rw [label, if_neg (Nat.succ_ne_zero n), parts_dot, parts_of_no_dot hnumeral,
    Nat.toString_eq_repr, Nat.toList_repr]

theorem exists_parts_label (name : String) (n : Nat) :
    ∃ number, parts (label name n) = parts name ++ number := by
  cases n with
  | zero => exact ⟨[], (List.append_nil _).symm⟩
  | succ n => exact ⟨_, parts_label_succ name n⟩

theorem isNumbered_dot (a b : String) : isNumbered (a ++ "." ++ b) = isNumbered b := by
  obtain ⟨last, hlast⟩ := Option.isSome_iff_exists.1
    (List.getLast?_isSome.2 (parts_ne_nil b))
  rw [isNumbered, parts_dot, List.getLast?_append, isNumbered, hlast]
  rfl

theorem isNumbered_of_parts {name : String} {front : List (List Char)} {n : Nat}
    (h : parts name = front ++ [Nat.toDigits 10 n]) : isNumbered name = true := by
  rw [isNumbered, h, List.getLast?_concat, Option.getD_some, List.all_eq_true]
  intro c hc
  exact Nat.isDigit_of_mem_toDigits (by decide) (by decide) hc

/-- A label can be read back, but for a requested name that looks like the label of another one. -/
theorem label_cases {a b : String} {m n : Nat} (h : label a m = label b n) :
    (a = b ∧ m = n) ∨ (m = 0 ∧ 1 ≤ n ∧ a = label b n) ∨ (n = 0 ∧ 1 ≤ m ∧ b = label a m) := by
  cases m with
  | zero =>
    cases n with
    | zero => exact .inl ⟨h, rfl⟩
    | succ n => exact .inr (.inl ⟨rfl, Nat.succ_pos n, h⟩)
  | succ m =>
    cases n with
    | zero => exact .inr (.inr ⟨rfl, Nat.succ_pos m, h.symm⟩)
    | succ n =>
      have hparts := congrArg parts h
      rw [parts_label_succ, parts_label_succ] at hparts
      obtain ⟨hfront, hlast⟩ := List.append_inj' hparts rfl
      have hdigits := congrArg (Nat.ofDigitChars 10 · 0) (List.cons.inj hlast).1
      rw [Nat.ofDigitChars_ten_toDigits, Nat.ofDigitChars_ten_toDigits] at hdigits
      exact .inl ⟨parts_inj hfront, hdigits⟩

theorem isNumbered_label {name : String} {n : Nat} (h : 1 ≤ n) :
    isNumbered (label name n) = true := by
  obtain ⟨n, rfl⟩ := Nat.exists_eq_add_of_le' h
  exact isNumbered_of_parts (parts_label_succ name n)

theorem label_inj {a b : String} {m n : Nat} (ha : isNumbered a = false)
    (hb : isNumbered b = false) (h : label a m = label b n) : a = b ∧ m = n := by
  rcases label_cases h with hsame | ⟨_, hpos, rfl⟩ | ⟨_, hpos, rfl⟩
  · exact hsame
  · exact absurd (isNumbered_label hpos) (Bool.eq_false_iff.1 ha)
  · exact absurd (isNumbered_label hpos) (Bool.eq_false_iff.1 hb)

/-- The labels given out for requests that are listed latest first. -/
def issuedFor : List String → List String
  | [] => []
  | name :: earlier => label name (earlier.count name) :: issuedFor earlier

def issued (supply : LabelSupply) : List String :=
  issuedFor supply.requested

theorem issued_request (supply : LabelSupply) (name : String) :
    (supply.request name).2.issued = (supply.request name).1 :: supply.issued :=
  rfl

theorem exists_of_mem_issuedFor {l : String} {names : List String} (h : l ∈ issuedFor names) :
    ∃ name n, name ∈ names ∧ n < names.count name ∧ l = label name n := by
  induction names with
  | nil => exact absurd h List.not_mem_nil
  | cons first earlier ih =>
    rcases List.mem_cons.1 h with rfl | hmem
    · refine ⟨first, earlier.count first, List.mem_cons_self, ?_, rfl⟩
      rw [List.count_cons_self]
      exact Nat.lt_succ_self _
    · obtain ⟨name, n, hname, hn, rfl⟩ := ih hmem
      refine ⟨name, n, List.mem_cons_of_mem _ hname, ?_, rfl⟩
      exact Nat.lt_of_lt_of_le hn (List.count_le_count_cons)

/-- A requested name looks like a label of another one, which is requested often enough to get this
label. -/
def Collides (names : List String) : Prop :=
  ∃ name n, 1 ≤ n ∧ label name n ∈ names ∧ n < names.count name

theorem Collides.cons {names : List String} (h : Collides names) (name : String) :
    Collides (name :: names) := by
  obtain ⟨other, n, hn, hmem, hcount⟩ := h
  exact ⟨other, n, hn, List.mem_cons_of_mem _ hmem,
    Nat.lt_of_lt_of_le hcount List.count_le_count_cons⟩

theorem eq_of_count_cons {first name : String} {earlier : List String} {n : Nat}
    (h : n < (first :: earlier).count name) (hearlier : ¬ n < earlier.count name) :
    first = name ∧ n = earlier.count first := by
  have hfirst : first = name := by
    refine Decidable.byContradiction fun hne => hearlier ?_
    rwa [List.count_cons_of_ne hne] at h
  subst hfirst
  rw [List.count_cons_self] at h
  exact ⟨rfl, Nat.le_antisymm (Nat.le_of_lt_succ h) (Nat.not_lt.1 hearlier)⟩

theorem label_mem_issuedFor {name : String} {n : Nat} {names : List String}
    (h : n < names.count name) : label name n ∈ issuedFor names := by
  induction names with
  | nil => exact absurd h (Nat.not_lt_zero n)
  | cons first earlier ih =>
    by_cases hn : n < earlier.count name
    · exact List.mem_cons_of_mem _ (ih hn)
    · obtain ⟨rfl, rfl⟩ := eq_of_count_cons h hn
      exact List.mem_cons_self

theorem label_ne_self (name : String) {n : Nat} (h : 1 ≤ n) : label name n ≠ name := by
  intro heq
  have hlength := congrArg String.length heq
  rw [label_of_pos name h, String.length_append, String.length_append] at hlength
  have hdot : ".".length = 1 := rfl
  omega

/-- Whichever of the two requests comes last gets a label that was issued before. -/
theorem not_nodup_of_collides {names : List String} (h : Collides names) :
    ¬ (issuedFor names).Nodup := by
  induction names with
  | nil =>
    obtain ⟨_, _, _, hmem, _⟩ := h
    exact absurd hmem List.not_mem_nil
  | cons first earlier ih =>
    intro hnodup
    obtain ⟨hnew, hearlier⟩ := List.nodup_cons.1 hnodup
    obtain ⟨name, n, hn, hmem, hcount⟩ := h
    by_cases hold : label name n ∈ earlier
    · by_cases hoften : n < earlier.count name
      · exact ih ⟨name, n, hn, hold, hoften⟩ hearlier
      · obtain ⟨rfl, rfl⟩ := eq_of_count_cons hcount hoften
        have hissued := label_mem_issuedFor (List.count_pos_iff.2 hold)
        exact hnew hissued
    · have hfirst : label name n = first := (List.mem_cons.1 hmem).resolve_right hold
      subst hfirst
      rw [List.count_cons_of_ne (label_ne_self name hn)] at hcount
      rw [List.count_eq_zero_of_not_mem hold] at hnew
      have hissued : label name n ∈ issuedFor earlier := label_mem_issuedFor hcount
      exact hnew hissued

theorem nodup_of_not_collides {names : List String} (h : ¬ Collides names) :
    (issuedFor names).Nodup := by
  induction names with
  | nil => exact List.nodup_nil
  | cons name earlier ih =>
    refine List.nodup_cons.2 ⟨fun hmem => ?_, ih fun hearlier => h (hearlier.cons name)⟩
    obtain ⟨other, n, hother, hn, hlabel⟩ := exists_of_mem_issuedFor hmem
    rcases label_cases hlabel with ⟨rfl, hsame⟩ | ⟨_, hpos, hname⟩ | ⟨_, hpos, rfl⟩
    · exact absurd hsame (Nat.ne_of_gt hn)
    · exact h ⟨other, n, hpos, hname ▸ List.mem_cons_self,
        Nat.lt_of_lt_of_le hn List.count_le_count_cons⟩
    · refine h ⟨name, earlier.count name, hpos, List.mem_cons_of_mem _ hother, ?_⟩
      rw [List.count_cons_self]
      exact Nat.lt_succ_self _

theorem issuedFor_nodup {names : List String} (h : ∀ name ∈ names, isNumbered name = false) :
    (issuedFor names).Nodup := by
  refine nodup_of_not_collides ?_
  rintro ⟨name, n, hn, hmem, _⟩
  exact absurd (isNumbered_label hn) (Bool.eq_false_iff.1 (h _ hmem))

theorem request_of_new {supply : LabelSupply} {name : String} (h : name ∉ supply.requested) :
    (supply.request name).1 = name := by
  rw [request, List.count_eq_zero_of_not_mem h]
  rfl

theorem issuedFor_append (supply : LabelSupply) (names : List String) :
    issuedFor (names.reverse ++ supply.requested) =
      (supply.requestAll names).reverse ++ issuedFor supply.requested := by
  induction names generalizing supply with
  | nil => rfl
  | cons name names ih =>
    have hrest := ih (supply.request name).2
    rw [List.reverse_cons, List.append_assoc]
    exact hrest.trans (by rw [requestAll, List.reverse_cons, List.append_assoc]; rfl)

/-- Labels collide exactly if a requested name is another one with a number behind a dot, and that
one is requested often enough to get this number. Without such names they never do. -/
theorem labels_collide_iff (names : List String) :
    (¬ (empty.requestAll names).Nodup ↔
      ∃ name n, 1 ≤ n ∧ name ++ "." ++ toString n ∈ names ∧ n + 1 ≤ names.count name) ∧
    ((∀ name n, 1 ≤ n → name ++ "." ++ toString n ∉ names) → (empty.requestAll names).Nodup) := by
  have hissued : issuedFor names.reverse = (empty.requestAll names).reverse := by
    have happend := issuedFor_append empty names
    rwa [empty, List.append_nil, issuedFor, List.append_nil] at happend
  have hcollides : ¬ (empty.requestAll names).Nodup ↔
      ∃ name n, 1 ≤ n ∧ name ++ "." ++ toString n ∈ names ∧ n + 1 ≤ names.count name := by
    rw [← (List.reverse_perm _).nodup_iff, ← hissued]
    constructor
    · intro h
      obtain ⟨name, n, hn, hmem, hcount⟩ := Classical.byContradiction (mt nodup_of_not_collides h)
      rw [label_of_pos name hn, List.mem_reverse] at hmem
      exact ⟨name, n, hn, hmem, by rwa [List.count_reverse] at hcount⟩
    · rintro ⟨name, n, hn, hmem, hcount⟩
      refine not_nodup_of_collides ⟨name, n, hn, ?_, by rwa [List.count_reverse]⟩
      rwa [label_of_pos name hn, List.mem_reverse]
  refine ⟨hcollides, fun h => Decidable.byContradiction fun hdup => ?_⟩
  obtain ⟨name, n, hn, hmem, _⟩ := hcollides.1 hdup
  exact h name n hn hmem

example : empty.requestAll ["a", "a", "a.1", "a.01"] = ["a", "a.1", "a.1", "a.01"] := by decide

end LabelSupply

end MipsCompiler
