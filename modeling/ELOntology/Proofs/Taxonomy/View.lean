import ELOntology.Proofs.Taxonomy.Assemble
import ELOntology.Proofs.Semantics.Entailment
import ELOntology.Taxonomy.Realization

/-!
# What a taxonomy is made of

A taxonomy and a realization depend on the contexts of the classes and individuals of an index, and on their names.  More
nodes in the index, a larger table of contexts and contexts of other roots make no difference (`SameView`).

Key facts: `SameView.build_eq` and `SameView.realization_eq`.
-/

namespace ELOntology

namespace Taxonomy

variable {ix ix' : Index} {w w' : Workspace} {a b : ExprId}

/-! ### Taxonomies made of the same -/

/-- The reduction of a class compares only the class and the classes above it. -/
theorem reduce_congr {included included' : ExprId → ExprId → Bool} {supers : List ExprId}
    (h : ∀ b, b = a ∨ b ∈ supers → included' b = included b) : reduce included' a supers = reduce included a supers := by
  have hothers : ∀ b ∈ supers.filter (· ≠ a), included' b = included b :=
    fun b hb => h b (.inr (List.mem_of_mem_filter hb))
  have hstrict : (supers.filter (· ≠ a)).filter (fun sup => !included' sup a) =
      (supers.filter (· ≠ a)).filter fun sup => !included sup a :=
    List.filter_congr fun b hb => by rw [hothers b hb]
  have hequivalents : (supers.filter (· ≠ a)).filter (fun sup => included' sup a) =
      (supers.filter (· ≠ a)).filter fun sup => included sup a :=
    List.filter_congr fun b hb => by rw [hothers b hb]
  unfold reduce
  dsimp only
  rw [hstrict, hequivalents]
  refine congrArg (Reduction.mk a _) (List.filter_congr fun b hb => ?_)
  have hb' := hothers b (List.mem_of_mem_filter hb)
  refine congrArg (!·) (Bool.eq_iff_iff.2 ?_)
  rw [List.any_eq_true, List.any_eq_true]
  refine exists_congr fun c => and_congr_right fun hc => ?_
  rw [hb', hothers c (List.mem_of_mem_filter hc)]

/-- The chosen reductions are among those that are laid out. -/
private theorem mem_of_mem_chosen {rs : List Reduction} {layout : Layout} {r : Reduction}
    (hr : r ∈ (rs.foldl Layout.add layout).chosen) : r ∈ rs ∨ r ∈ layout.chosen := by
  induction rs generalizing layout with
  | nil => exact .inr hr
  | cons s rs ih =>
    rcases ih hr with hr | hr
    · exact .inl (List.mem_cons_of_mem _ hr)
    · unfold Layout.add at hr
      split at hr
      · exact .inr hr
      · rcases List.mem_append.1 hr with hr | hr
        · exact .inr hr
        · exact .inl (List.mem_singleton.1 hr ▸ List.mem_cons_self ..)

/-- The second index and workspace show the same classes, under the same names, with the same reductions. -/
structure SameMatter (ix ix' : Index) (w w' : Workspace) : Prop where
  classes : ix'.classes = ix.classes
  summarize {a : ExprId} : a ∈ ix.classes → summarize ix' w' a = summarize ix w a
  reductionOf {a : ExprId} : a ∈ ix.classes → reductionOf ix' w' a = reductionOf ix w a
  iriOf {a : ExprId} : a ∈ ix.classes → ix'.iriOf a = ix.iriOf a
  supers {a b : ExprId} : a ∈ ix.classes → b ∈ (Taxonomy.summarize ix w a).supers → b ∈ ix.classes

namespace SameMatter

variable (h : SameMatter ix ix' w w')
include h

private theorem layoutOf_eq : layoutOf ix' w' = layoutOf ix w := by
  unfold layoutOf
  rw [reductions_eq, reductions_eq, h.classes]
  have hsatisfiable : ix.classes.filter (fun a => (Taxonomy.summarize ix' w' a).satisfiable) =
      ix.classes.filter fun a => (Taxonomy.summarize ix w a).satisfiable :=
    List.filter_congr fun a ha => by rw [h.summarize ha]
  rw [hsatisfiable]
  exact congrArg _ (List.map_congr_left fun a ha => h.reductionOf (List.mem_of_mem_filter ha))

/-- The classes of a node are classes of the index. -/
private theorem mem_classes_of_mem_chosen {r : Reduction} (hr : r ∈ (layoutOf ix w).chosen) (hb : b ∈ r.equivalents) :
    b ∈ ix.classes := by
  have hmem := (mem_of_mem_chosen hr).resolve_right List.not_mem_nil
  rw [reductions_eq] at hmem
  obtain ⟨a, ha, rfl⟩ := List.mem_map.1 hmem
  have ha := List.mem_of_mem_filter ha
  rcases List.mem_cons.1 (mem_sortBy.1 hb) with rfl | hb
  · exact ha
  · exact h.supers ha (List.mem_of_mem_filter (List.mem_of_mem_filter hb))

private theorem bottomMembers_eq {ids : List ExprId} (hids : ∀ a ∈ ids, a ∈ ix.classes) :
    bottomMembers ix' ids = bottomMembers ix ids := by
  unfold bottomMembers
  rw [List.map_congr_left fun a ha => h.iriOf (hids a (List.mem_of_mem_filter ha))]

private theorem nodesOf_eq : nodesOf ix' w' = nodesOf ix w := by
  have hupward : upward ix' w' = upward ix w := by
    unfold upward spot bottomOf
    rw [h.layoutOf_eq]
  have hdownward : downward ix' w' = downward ix w := funext fun p => by
    unfold downward
    rw [hupward]
  have hbottom : bottomOf ix' w' = bottomOf ix w := by
    unfold bottomOf
    rw [h.layoutOf_eq]
  have hunsatisfiable : ((ix'.classes.map (Taxonomy.summarize ix' w')).filter fun s => !s.satisfiable).map (·.id) =
      ((ix.classes.map (Taxonomy.summarize ix w)).filter fun s => !s.satisfiable).map (·.id) := by
    rw [h.classes, List.map_congr_left fun a ha => h.summarize ha]
  have hmem : ∀ a ∈ ((ix.classes.map (Taxonomy.summarize ix w)).filter fun s => !s.satisfiable).map (·.id),
      a ∈ ix.classes := by
    intro a ha
    obtain ⟨s, hs, rfl⟩ := List.mem_map.1 ha
    obtain ⟨b, hb, rfl⟩ := List.mem_map.1 (List.mem_of_mem_filter hs)
    have hid : (Taxonomy.summarize ix w b).id = b := by
      unfold Taxonomy.summarize
      split <;> rfl
    rwa [hid]
  have hnode : bottomNode ix' w' = bottomNode ix w := by
    unfold bottomNode
    rw [hunsatisfiable, h.bottomMembers_eq hmem, hdownward, hbottom]
  unfold nodesOf
  rw [hnode, hbottom, hupward, hdownward, h.layoutOf_eq]
  refine congrArg (· ++ _) (List.map_congr_left fun entry hentry => ?_)
  have hchosen : entry.1 ∈ (layoutOf ix w).chosen := (List.of_mem_zip hentry).1
  rw [List.map_congr_left fun a ha => h.iriOf (h.mem_classes_of_mem_chosen hchosen ha)]

/-- The taxonomy is the same. -/
theorem build_eq (inconsistent : Bool) : build ix' w' inconsistent = build ix w inconsistent := by
  have hcollapsed : collapsed ix' = collapsed ix := by
    unfold collapsed
    rw [h.classes, h.bottomMembers_eq fun _ ha => ha]
  have hassemble : assemble ix' w' = assemble ix w := by
    rw [assemble_eq, assemble_eq]
    unfold spot bottomOf
    rw [h.nodesOf_eq, h.layoutOf_eq]
  unfold build
  rw [hcollapsed, hassemble]

end SameMatter

end Taxonomy

/-- Of what a taxonomy is made, the second index and workspace show the same as the first. -/
structure SameView (ix ix' : Index) (w w' : Workspace) : Prop where
  names : ix.Names ix'
  classes : ix'.classes = ix.classes
  individuals : ix'.individuals = ix.individuals
  has {root : ExprId} : root ∈ ix.roots → w.Has root
  within {root expr : ExprId} : w.Stores root (.isA expr) → expr.val < ix.nodes.size
  context? {root : ExprId} : root ∈ ix.roots → w'.context? root = w.context? root

namespace SameView

variable {ix ix' : Index} {w w' : Workspace} {a b : ExprId}

theorem shape?_eq (h : SameView ix ix' w w') (ha : a.val < ix.nodes.size) : ix'.shape? a = ix.shape? a := by
  obtain ⟨shape, hshape⟩ := Index.exists_shape? ha
  rw [hshape, h.names.shape? hshape]

theorem iriOf_eq (h : SameView ix ix' w w') (ha : a.val < ix.nodes.size) : ix'.iriOf a = ix.iriOf a := by
  rw [Index.iriOf, Index.iri?, h.shape?_eq ha]
  rfl

theorem isClass_eq (h : SameView ix ix' w w') (ha : a.val < ix.nodes.size) : ix'.isClass a = ix.isClass a := by
  rw [Index.isClass, h.shape?_eq ha]
  rfl

/-! ### Taxonomies -/

open Taxonomy

private theorem summarize_eq (h : SameView ix ix' w w') (ha : a ∈ ix.classes) : summarize ix' w' a = summarize ix w a := by
  rw [summarize, h.context? (List.mem_append_left _ ha), Index.isListed_congr h.classes]
  rfl

private theorem mem_classes_of_mem_supers (h : SameView ix ix' w w') (ha : a ∈ ix.classes)
    (hb : b ∈ (summarize ix w a).supers) : b ∈ ix.classes := by
  obtain ⟨ctx, hctx⟩ := h.has (List.mem_append_left _ ha)
  rw [summarize, hctx] at hb
  exact Index.mem_classes_iff.2 (List.mem_filter.1 hb).2

private theorem reductionOf_eq (h : SameView ix ix' w w') (ha : a ∈ ix.classes) :
    reductionOf ix' w' a = reductionOf ix w a := by
  unfold reductionOf
  rw [h.summarize_eq ha]
  refine reduce_congr fun b hb => ?_
  have hclass : b ∈ ix.classes := by
    rcases hb with rfl | hb
    · exact ha
    · exact h.mem_classes_of_mem_supers ha hb
  exact funext fun c => by unfold included; rw [h.context? (List.mem_append_left _ hclass)]

/-- The taxonomy stays the same. -/
theorem build_eq (h : SameView ix ix' w w') (inconsistent : Bool) :
    Taxonomy.build ix' w' inconsistent = Taxonomy.build ix w inconsistent := by
  have hmatter : SameMatter ix ix' w w' :=
    ⟨h.classes, h.summarize_eq, h.reductionOf_eq,
      fun ha => h.iriOf_eq (Index.lt_size_of_mem_roots (List.mem_append_left _ ha)), h.mem_classes_of_mem_supers⟩
  exact hmatter.build_eq inconsistent

/-! ### Realizations -/

theorem typePlaces_eq (h : SameView ix ix' w w') (t : Taxonomy) (ha : a ∈ ix.individuals) :
    Realization.typePlaces ix' w' t a = Realization.typePlaces ix w t a := by
  unfold Realization.typePlaces
  rw [h.context? (List.mem_append_right _ ha)]
  cases hctx : w.context? a with
  | none => rfl
  | some ctx =>
    have hwithin : ∀ b ∈ ctx.facts.subsumers, b.val < ix.nodes.size := fun b hb =>
      h.within ⟨ctx, hctx, Facts.mem_exprsOf.1 hb⟩
    have hclasses : ctx.facts.subsumers.filter (fun id => ix'.isClass id) =
        ctx.facts.subsumers.filter fun id => ix.isClass id :=
      List.filter_congr fun b hb => h.isClass_eq (hwithin b hb)
    dsimp only
    rw [hclasses, List.filterMap_congr fun b hb => by rw [h.iriOf_eq (hwithin b (List.mem_of_mem_filter hb))]]

/-- The realization stays the same. -/
theorem realization_eq (h : SameView ix ix' w w') (t : Taxonomy) (inconsistent : Bool) :
    Realization.build ix' w' t inconsistent = Realization.build ix w t inconsistent := by
  unfold Realization.build Realization.directTypes
  rw [h.individuals, List.map_congr_left fun a ha => ?_]
  rw [h.typePlaces_eq t ha, h.iriOf_eq (Index.lt_size_of_mem_roots (List.mem_append_right _ ha))]

end SameView

end ELOntology
