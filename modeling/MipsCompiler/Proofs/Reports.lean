import MipsCompiler.Proofs.TypeErrorOrigins

set_option autoImplicit false

/-!
# Reports and their nodes

The log of checking gives positions only. `Parsed.reports` lists it together with the nodes that the
reports are about, and `mem_reports` says when a node is reported.
-/

namespace MipsCompiler

namespace Parsed

def reports (parsed : Parsed) (entry : String) : List (Subtree × Diagnostic) :=
  (parsed.parts.zip (parsed.tree.entries parsed.symbols entry)).filterMap fun item =>
    item.2.report.map fun d => (item.1, d)

variable {parsed : Parsed} {entry : String} {part : Subtree} {d : Diagnostic}

theorem map_reports (parsed : Parsed) (entry : String) :
    (parsed.reports entry).map Prod.snd = (parsed.checked entry).log := by
  have hlength := (parsed.forall₂_entries entry).length_eq
  have hentries : (parsed.parts.zip (parsed.tree.entries parsed.symbols entry)).map Prod.snd =
      parsed.tree.entries parsed.symbols entry := List.map_snd_zip (Nat.le_of_eq hlength.symm)
  change _ = (parsed.tree.entries parsed.symbols entry).filterMap TypeEntry.report
  rw [← hentries, List.filterMap_map, reports, List.map_filterMap]
  refine List.filterMap_congr fun item _ => ?_
  simp [Function.comp_def]

theorem mem_reports (hids : (parsed.parts.map Subtree.id).Pairwise (· < ·))
    (haccounted : parsed.Accounted) :
    (part, d) ∈ parsed.reports entry ↔ part ∈ parsed.parts ∧
      ∃ message, parsed.IsOrigin entry part message ∧ d = .mistyped part.node.pos message := by
  have hall := forall₂_reports hids haccounted entry
  rw [reports, List.mem_filterMap]
  constructor
  · rintro ⟨⟨other, x⟩, hmem, hreport⟩
    obtain ⟨d, hd, heq⟩ := Option.map_eq_some_iff.1 hreport
    cases heq
    exact ⟨(List.of_mem_zip hmem).1, (List.forall₂_zip hall hmem d).1 hd⟩
  · rintro ⟨hpart, horigin⟩
    obtain ⟨i, hi, rfl⟩ := List.getElem_of_mem hpart
    have hi' := hall.length_eq ▸ hi
    have hzip : i < (parsed.parts.zip (parsed.tree.entries parsed.symbols entry)).length := by
      rw [List.length_zip]
      exact Nat.lt_min.2 ⟨hi, hi'⟩
    have hreport := (hall.get hi hi' d).2 horigin
    refine ⟨_, List.getElem_mem hzip, ?_⟩
    rw [List.getElem_zip]
    exact Option.map_eq_some_iff.2 ⟨d, hreport, rfl⟩

end Parsed

theorem parse_parts_ids {σ : Type} [TokenStream σ] {stream : σ}
    (h : (parse stream).tree.isError = false) :
    ((parse stream).parts.map Subtree.id).Pairwise (· < ·) := by
  rw [Parsed.parts, parse_subtree_ids h]
  exact List.pairwise_lt_range

end MipsCompiler
