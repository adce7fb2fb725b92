import ELOntology.Proofs.Index.Classes
import ELOntology.Proofs.Order.Sorted
import ELOntology.Proofs.Saturation.Workspace
import ELOntology.Taxonomy.Realization

/-!
# Direct types

A realization lists the individuals by name, each with the names of its direct types.

Key facts: `Realization.mem_typePlaces_iff` (the nodes that type an individual) and `Realization.build_eq` (a realization
depends on the names of the individuals and on the direct types of each name).
-/

namespace ELOntology

namespace Realization

variable {ix : Index} {w : Workspace} {t : Taxonomy} {id : ExprId}

/-- An individual is typed by the nodes of the classes that its context has as subsumers. -/
theorem mem_typePlaces_iff (hhas : w.Has id) {p : Nat} : p ∈ typePlaces ix w t id ↔
    ∃ cls, ix.isClass cls = true ∧ w.hasSubsumer id cls = true ∧ t.place? (ix.iriOf cls) = some p := by
  obtain ⟨ctx, hctx⟩ := hhas
  have hsubsumer (cls : ExprId) : w.hasSubsumer id cls = true ↔ cls ∈ ctx.facts.subsumers := by
    rw [Workspace.hasSubsumer, hctx]
    exact Facts.mem_exprsOf.symm
  unfold typePlaces
  rw [hctx]
  dsimp only
  rw [mem_distinct, mem_sortBy, List.mem_filterMap]
  refine exists_congr fun cls => ?_
  rw [List.mem_filter, hsubsumer]
  tauto

/-- The lowest of some nodes are those that are above no other one of them. -/
theorem mem_lowest_iff {places : List Nat} {p : Nat} : p ∈ lowest t places ↔
    p ∈ places ∧ ∀ q ∈ places, q ≠ p → p ∉ t.ancestors q := by
  simp only [lowest, List.mem_filter, List.any_map, Bool.not_eq_true', List.any_eq_false, Function.comp_apply,
    Bool.and_eq_true, decide_eq_true_eq, not_and]

/-- The entries of the table are the individuals by name, in order. -/
theorem build_eq {inconsistent : Bool} {types : String → List String}
    (htypes : ∀ id ∈ ix.individuals, directTypes ix w t inconsistent id = types (ix.iriOf id)) :
    build ix w t inconsistent =
      ⟨(sortTexts (ix.individuals.map ix.iriOf)).map fun name => (name, types name),
        invert ((sortTexts (ix.individuals.map ix.iriOf)).map fun name => (name, types name))⟩ := by
  have hentries : (ix.individuals.map fun id => (ix.iriOf id, directTypes ix w t inconsistent id)) =
      (ix.individuals.map ix.iriOf).map fun name => (name, types name) := by
    rw [List.map_map]
    exact List.map_congr_left fun id hid => by rw [htypes id hid]; rfl
  have hsorted : sortBy (fun a b : String × List String => decide (a.1 ≤ b.1))
      ((ix.individuals.map ix.iriOf).map fun name => (name, types name)) =
        (sortTexts (ix.individuals.map ix.iriOf)).map fun name => (name, types name) := by
    refine List.forall₂_eq_eq_eq ▸ List.forall₂_map_right_iff.2 ?_
    refine forall₂_sortBy (R := fun entry name => entry = (name, types name)) (fun a b x y ha hb => ?_)
      (List.forall₂_map_left_iff.2 (List.forall₂_same.2 fun _ _ => rfl))
    rw [ha, hb]
  unfold build
  dsimp only
  rw [hentries, hsorted]

end Realization

end ELOntology
