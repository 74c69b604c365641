import MipsCompiler.Proofs.Parts
import MipsCompiler.Typing.Returns

set_option autoImplicit false

/-!
# Paths through statements

A path takes either side of a branch and runs the body of a loop any number of times, whatever the
conditions are. It ends at a return, and goes on behind every other statement. Statements return on
all paths exactly if none falls through.

`FallsThrough` only tells that there is a path to the end. `Path` has every path with the statements
on it.
-/

namespace MipsCompiler

def StmtPhrase.returns : StmtPhrase → Bool
  | .stmt s => s.returns
  | .stmts ss => Stmt.someReturns ss
  | .block b => b.returns

/-- There is a path that leaves at the end and not by a return. -/
inductive FallsThrough : StmtPhrase → Prop
  | var {decl : VarDecl} : FallsThrough (.stmt (.var decl))
  | call {node : Node} {callee : SymbolId} {args : List Expr} :
      FallsThrough (.stmt (.call node callee args))
  | assign {node : Node} {target source : Expr} : FallsThrough (.stmt (.assign node target source))
  | thenSide {node : Node} {condition : Expr} {thenBlock elseBlock : Block} :
      FallsThrough (.block thenBlock) →
      FallsThrough (.stmt (.branch node condition thenBlock elseBlock))
  | elseSide {node : Node} {condition : Expr} {thenBlock elseBlock : Block} :
      FallsThrough (.block elseBlock) →
      FallsThrough (.stmt (.branch node condition thenBlock elseBlock))
  | leave {node : Node} {condition : Expr} {body : Block} :
      FallsThrough (.stmt (.loop node condition body))
  | again {node : Node} {condition : Expr} {body : Block} :
      FallsThrough (.block body) → FallsThrough (.stmt (.loop node condition body)) →
      FallsThrough (.stmt (.loop node condition body))
  | block {node : Node} {stmts : List Stmt} :
      FallsThrough (.stmts stmts) → FallsThrough (.block (.mk node stmts))
  | nil : FallsThrough (.stmts [])
  | cons {s : Stmt} {ss : List Stmt} :
      FallsThrough (.stmt s) → FallsThrough (.stmts ss) → FallsThrough (.stmts (s :: ss))

theorem FallsThrough.returns_eq_false {phrase : StmtPhrase} (h : FallsThrough phrase) :
    phrase.returns = false := by
  induction h with
  | var | call | assign | leave | again | nil => rfl
  | thenSide _ ih => exact Bool.and_eq_false_iff.2 (.inl ih)
  | elseSide _ ih => exact Bool.and_eq_false_iff.2 (.inr ih)
  | block _ ih => exact ih
  | cons _ _ ih ihs => exact Bool.or_eq_false_iff.2 ⟨ih, ihs⟩

theorem StmtPhrase.fallsThrough {phrase : StmtPhrase} (h : phrase.returns = false) :
    FallsThrough phrase := by
  induction phrase using StmtPhrase.induct with
  | var => exact .var
  | call => exact .call
  | assign => exact .assign
  | branch node condition thenBlock elseBlock ihthen ihelse =>
    rcases Bool.and_eq_false_iff.1 h with hthen | helse
    · exact .thenSide (ihthen hthen)
    · exact .elseSide (ihelse helse)
  | loop => exact .leave
  | ret => nomatch h
  | block node stmts ih => exact .block (ih h)
  | nil => exact .nil
  | cons s ss ih ihs =>
    obtain ⟨hfirst, hrest⟩ := Bool.or_eq_false_iff.1 h
    exact .cons (ih hfirst) (ihs hrest)

theorem StmtPhrase.returns_iff (phrase : StmtPhrase) :
    phrase.returns = true ↔ ¬ FallsThrough phrase := by
  constructor
  · intro hreturns hfalls
    exact Bool.noConfusion (hreturns.symm.trans hfalls.returns_eq_false)
  · intro hpaths
    cases hreturns : phrase.returns with
    | true => rfl
    | false => exact absurd (StmtPhrase.fallsThrough hreturns) hpaths

inductive Ending where
  | fell
  | returned
deriving DecidableEq

/-- The paths through a phrase, each with the statements that it comes by in their order. A branch is
passed once, and a loop each time that its condition is evaluated. -/
inductive Path : StmtPhrase → List Stmt → Ending → Prop
  | var {decl : VarDecl} : Path (.stmt (.var decl)) [.var decl] .fell
  | call {node : Node} {callee : SymbolId} {args : List Expr} :
      Path (.stmt (.call node callee args)) [.call node callee args] .fell
  | assign {node : Node} {target source : Expr} :
      Path (.stmt (.assign node target source)) [.assign node target source] .fell
  | ret {node : Node} {value : Expr} : Path (.stmt (.ret node value)) [.ret node value] .returned
  | thenSide {node : Node} {condition : Expr} {thenBlock elseBlock : Block} {trace : List Stmt}
      {ending : Ending} :
      Path (.block thenBlock) trace ending →
      Path (.stmt (.branch node condition thenBlock elseBlock))
        (.branch node condition thenBlock elseBlock :: trace) ending
  | elseSide {node : Node} {condition : Expr} {thenBlock elseBlock : Block} {trace : List Stmt}
      {ending : Ending} :
      Path (.block elseBlock) trace ending →
      Path (.stmt (.branch node condition thenBlock elseBlock))
        (.branch node condition thenBlock elseBlock :: trace) ending
  | leave {node : Node} {condition : Expr} {body : Block} :
      Path (.stmt (.loop node condition body)) [.loop node condition body] .fell
  | again {node : Node} {condition : Expr} {body : Block} {round rest : List Stmt}
      {ending : Ending} :
      Path (.block body) round .fell → Path (.stmt (.loop node condition body)) rest ending →
      Path (.stmt (.loop node condition body)) (.loop node condition body :: (round ++ rest)) ending
  | within {node : Node} {condition : Expr} {body : Block} {round : List Stmt} :
      Path (.block body) round .returned →
      Path (.stmt (.loop node condition body)) (.loop node condition body :: round) .returned
  | block {node : Node} {stmts : List Stmt} {trace : List Stmt} {ending : Ending} :
      Path (.stmts stmts) trace ending → Path (.block (.mk node stmts)) trace ending
  | nil : Path (.stmts []) [] .fell
  | cons {s : Stmt} {ss first rest : List Stmt} {ending : Ending} :
      Path (.stmt s) first .fell → Path (.stmts ss) rest ending →
      Path (.stmts (s :: ss)) (first ++ rest) ending
  | stop {s : Stmt} {ss first : List Stmt} :
      Path (.stmt s) first .returned → Path (.stmts (s :: ss)) first .returned

def Stmt.isReturn : Stmt → Bool
  | .ret _ _ => true
  | _ => false

/-- The statements on a path with this end: none is a return, or the last one alone is. -/
def Ending.OfTrace : Ending → List Stmt → Prop
  | .fell, trace => ∀ s ∈ trace, s.isReturn = false
  | .returned, trace => ∃ front last, trace = front ++ [last] ∧ last.isReturn = true ∧
    ∀ s ∈ front, s.isReturn = false

theorem Ending.OfTrace.prepend {ending : Ending} {trace : List Stmt} (h : ending.OfTrace trace)
    {passed : List Stmt} (hpassed : ∀ s ∈ passed, s.isReturn = false) :
    ending.OfTrace (passed ++ trace) := by
  cases ending with
  | fell => exact List.forall_mem_append.2 ⟨hpassed, h⟩
  | returned =>
    obtain ⟨front, last, rfl, hlast, hfront⟩ := h
    refine ⟨passed ++ front, last, (List.append_assoc _ _ _).symm, hlast, ?_⟩
    exact List.forall_mem_append.2 ⟨hpassed, hfront⟩

namespace Path

variable {phrase : StmtPhrase} {trace : List Stmt} {ending : Ending}

theorem ofTrace (h : Path phrase trace ending) : ending.OfTrace trace := by
  induction h with
  | var | call | assign | leave => exact List.forall_mem_singleton.2 rfl
  | ret => exact ⟨[], _, rfl, rfl, fun _ h => absurd h List.not_mem_nil⟩
  | @thenSide node condition thenBlock elseBlock _ _ _ ih
  | @elseSide node condition thenBlock elseBlock _ _ _ ih =>
    exact @Ending.OfTrace.prepend _ _ ih [.branch node condition thenBlock elseBlock]
      (List.forall_mem_singleton.2 rfl)
  | @again node condition body round rest _ _ _ ihround ih =>
    exact @Ending.OfTrace.prepend _ _ ih (.loop node condition body :: round)
      (List.forall_mem_cons.2 ⟨rfl, ihround⟩)
  | @within node condition body _ _ ih =>
    exact @Ending.OfTrace.prepend _ _ ih [.loop node condition body]
      (List.forall_mem_singleton.2 rfl)
  | block _ ih => exact ih
  | nil => exact fun _ h => absurd h List.not_mem_nil
  | cons _ _ ihfirst ih => exact ih.prepend ihfirst
  | stop _ ih => exact ih

theorem fallsThrough (h : Path phrase trace ending) (hfell : ending = .fell) :
    FallsThrough phrase := by
  induction h with
  | var => exact .var
  | call => exact .call
  | assign => exact .assign
  | thenSide _ ih => exact .thenSide (ih hfell)
  | elseSide _ ih => exact .elseSide (ih hfell)
  | leave => exact .leave
  | again _ _ ihround ih => exact .again (ihround rfl) (ih hfell)
  | block _ ih => exact .block (ih hfell)
  | nil => exact .nil
  | cons _ _ ihfirst ih => exact .cons (ihfirst rfl) (ih hfell)
  | ret | within | stop => cases hfell

end Path

theorem FallsThrough.exists_path {phrase : StmtPhrase} (h : FallsThrough phrase) :
    ∃ trace, Path phrase trace .fell := by
  induction h with
  | var => exact ⟨_, .var⟩
  | call => exact ⟨_, .call⟩
  | assign => exact ⟨_, .assign⟩
  | thenSide _ ih =>
    obtain ⟨trace, hpath⟩ := ih
    exact ⟨_, .thenSide hpath⟩
  | elseSide _ ih =>
    obtain ⟨trace, hpath⟩ := ih
    exact ⟨_, .elseSide hpath⟩
  | leave => exact ⟨_, .leave⟩
  | again _ _ ihround ih =>
    obtain ⟨round, hround⟩ := ihround
    obtain ⟨rest, hrest⟩ := ih
    exact ⟨_, .again hround hrest⟩
  | block _ ih =>
    obtain ⟨trace, hpath⟩ := ih
    exact ⟨trace, .block hpath⟩
  | nil => exact ⟨[], .nil⟩
  | cons _ _ ihfirst ih =>
    obtain ⟨first, hfirst⟩ := ihfirst
    obtain ⟨rest, hrest⟩ := ih
    exact ⟨_, .cons hfirst hrest⟩

theorem fallsThrough_iff {phrase : StmtPhrase} :
    FallsThrough phrase ↔ ∃ trace, Path phrase trace .fell := by
  constructor
  · exact FallsThrough.exists_path
  · rintro ⟨trace, hpath⟩
    exact hpath.fallsThrough rfl

theorem StmtPhrase.exists_path_returned {phrase : StmtPhrase} (h : phrase.returns = true) :
    ∃ trace, Path phrase trace .returned := by
  induction phrase using StmtPhrase.induct with
  | var | call | assign | loop | nil => cases h
  | branch node condition thenBlock elseBlock ihthen _ =>
    obtain ⟨trace, hpath⟩ := ihthen (Bool.and_eq_true_iff.1 h).1
    exact ⟨_, .thenSide hpath⟩
  | ret => exact ⟨_, .ret⟩
  | block node stmts ih =>
    obtain ⟨trace, hpath⟩ := ih h
    exact ⟨trace, .block hpath⟩
  | cons s ss ih ihs =>
    cases hs : s.returns with
    | true =>
      obtain ⟨first, hfirst⟩ := ih hs
      exact ⟨first, .stop hfirst⟩
    | false =>
      -- the first statement can be left, so the return is behind it
      obtain ⟨first, hfirst⟩ := (@StmtPhrase.fallsThrough (.stmt s) hs).exists_path
      obtain ⟨rest, hrest⟩ := ihs ((Bool.or_eq_true_iff.1 h).resolve_left (by simp [hs]))
      exact ⟨_, .cons hfirst hrest⟩

/-- The test for returning on all paths is exact: a block passes it just when none of its paths falls
off its end. There is a path through every block, and the return that ends a path is the only one on
it. -/
theorem returns_iff_no_path_falls_off (b : Block) :
    (b.returns = true ↔ ∀ trace, ¬ Path (.block b) trace .fell) ∧
      (∃ trace ending, Path (.block b) trace ending) ∧
      ∀ trace ending, Path (.block b) trace ending → ending.OfTrace trace := by
  refine ⟨?_, ?_, fun trace ending hpath => hpath.ofTrace⟩
  · have hreturns := StmtPhrase.returns_iff (.block b)
    rwa [fallsThrough_iff, not_exists] at hreturns
  · cases hreturns : b.returns with
    | true =>
      obtain ⟨trace, hpath⟩ := @StmtPhrase.exists_path_returned (.block b) hreturns
      exact ⟨trace, .returned, hpath⟩
    | false =>
      obtain ⟨trace, hpath⟩ := (@StmtPhrase.fallsThrough (.block b) hreturns).exists_path
      exact ⟨trace, .fell, hpath⟩

end MipsCompiler
