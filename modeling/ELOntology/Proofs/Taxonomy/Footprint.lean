import ELOntology.Proofs.Saturation.Footprint
import ELOntology.Proofs.Taxonomy.View

/-!
# What a taxonomy looks up

Apart from which classes and individuals an index lists, a taxonomy and a realization look at the nodes of these and at those
of the subsumers that are stored.  Whatever else the index holds makes no difference.

Key facts: `Taxonomy.build_congr` and `Realization.build_congr`.
-/

namespace ELOntology

variable {ix ix' : Index} {w : Workspace}

/-- The nodes that are looked up for a taxonomy and a realization. -/
def Taxonomy.lookups (ix : Index) (w : Workspace) : List ExprId := ix.roots ++ w.subsumers

private theorem Index.iriOf_congr {id : ExprId} (h : ix'.node? id = ix.node? id) : ix'.iriOf id = ix.iriOf id := by
  rw [Index.iriOf, Index.iri?, Index.shape?_congr h]
  rfl

private theorem Index.isClass_congr {id : ExprId} (h : ix'.node? id = ix.node? id) : ix'.isClass id = ix.isClass id := by
  rw [Index.isClass, Index.shape?_congr h]
  rfl

namespace Taxonomy

/-- The classes above a class are classes of the index. -/
private theorem mem_classes_of_mem_summarize (hix : ix.Tidy) {a b : ExprId} (ha : a ∈ ix.classes)
    (hb : b ∈ (summarize ix w a).supers) : b ∈ ix.classes := by
  unfold summarize at hb
  cases hctx : w.context? a with
  | none =>
    rw [hctx] at hb
    rcases List.mem_insert_iff.1 hb with rfl | hb
    · exact ha
    · exact List.mem_singleton.1 hb ▸ hix.thing_mem_classes
  | some ctx =>
    rw [hctx] at hb
    exact Index.mem_classes_iff.2 (List.mem_filter.1 hb).2

theorem build_congr (hix : ix.Tidy) (hclasses : ix'.classes = ix.classes)
    (h : ∀ id ∈ lookups ix w, ix'.node? id = ix.node? id) (inconsistent : Bool) :
    build ix' w inconsistent = build ix w inconsistent := by
  have hsummarize (a : ExprId) : summarize ix' w a = summarize ix w a := by
    unfold summarize
    rw [Index.isListed_congr hclasses]
  have hmatter : SameMatter ix ix' w w := by
    refine ⟨hclasses, fun _ => hsummarize _, fun {a} _ => ?_, fun ha => ?_, mem_classes_of_mem_summarize hix⟩
    · rw [reductionOf, hsummarize, reductionOf]
    · exact Index.iriOf_congr (h _ (List.mem_append_left _ (List.mem_append_left _ ha)))
  exact hmatter.build_eq inconsistent

end Taxonomy

theorem Realization.build_congr (hindividuals : ix'.individuals = ix.individuals)
    (h : ∀ id ∈ Taxonomy.lookups ix w, ix'.node? id = ix.node? id) (t : Taxonomy) (inconsistent : Bool) :
    build ix' w t inconsistent = build ix w t inconsistent := by
  have hplaces (a : ExprId) : typePlaces ix' w t a = typePlaces ix w t a := by
    unfold typePlaces
    cases hctx : w.context? a with
    | none => rfl
    | some ctx =>
      have hnode : ∀ b ∈ ctx.facts.subsumers, ix'.node? b = ix.node? b := fun b hb =>
        h b (List.mem_append_right _ (Workspace.mem_subsumers.2 ⟨a, ctx, hctx, Facts.mem_exprsOf.1 hb⟩))
      have hclasses : ctx.facts.subsumers.filter (fun id => ix'.isClass id) =
          ctx.facts.subsumers.filter fun id => ix.isClass id :=
        List.filter_congr fun b hb => Index.isClass_congr (hnode b hb)
      dsimp only
      rw [hclasses, List.filterMap_congr fun b hb => by rw [Index.iriOf_congr (hnode b (List.mem_of_mem_filter hb))]]
  unfold build directTypes
  rw [hindividuals, List.map_congr_left fun a ha => ?_]
  rw [hplaces, Index.iriOf_congr (h a (List.mem_append_left _ (List.mem_append_right _ ha)))]

end ELOntology
