import Mathlib.Data.Fintype.EquivFin
import Mathlib.Data.Fintype.Sets
import ELOntology.Proofs.Index.Term

/-!
# The classes and individuals of an index

An index lists the named classes that occur in its axioms, and the top and the bottom class, and the individuals that
occur.

Key facts: `Tidy.iriOf_inj` (different classes have different names) and `Tidy.nodup_individuals` (so have individuals).
-/

namespace ELOntology

/-- The classes of an index. -/
abbrev Index.Class (ix : Index) : Type := { id : ExprId // id ∈ ix.classes }

namespace Index

variable {ix : Index}

def Class.iri (a : ix.Class) : String := ix.iriOf a

instance finite_class (ix : Index) : Finite ix.Class := Finite.of_fintype { id : ExprId // id ∈ ix.classes }

theorem mem_classes_iff {id : ExprId} : id ∈ ix.classes ↔ ix.isListed id = true := by
  rw [classes, List.mem_filter, and_iff_right_iff_imp]
  intro h
  have hclass : ix.isClass id = true := (Bool.and_eq_true_iff.1 h).1
  unfold isClass at hclass
  cases hshape : ix.shape? id with
  | none => rw [hshape] at hclass; cases hclass
  | some shape => exact List.mem_map.2 ⟨id.val, List.mem_range.2 (lt_size_of_shape? hshape), rfl⟩

theorem nodup_ids (ix : Index) : ix.ids.Nodup :=
  List.nodup_range.map fun _ _ e => ExprId.mk.inj e

/-- Indexes with the same classes list the same nodes. -/
theorem isListed_congr {ix' : Index} (h : ix'.classes = ix.classes) : ix'.isListed = ix.isListed := by
  refine funext fun id => Bool.eq_iff_iff.2 ?_
  rw [← mem_classes_iff, ← mem_classes_iff, h]

theorem Tidy.thing_mem_classes (h : ix.Tidy) : .thing ∈ ix.classes := by
  rw [mem_classes_iff, isListed, isClass, h.thing]
  simp

theorem Tidy.nothing_mem_classes (h : ix.Tidy) : .nothing ∈ ix.classes := by
  rw [mem_classes_iff, isListed, isClass, h.nothing]
  simp

theorem exists_shape_of_mem_classes {id : ExprId} (h : id ∈ ix.classes) :
    ∃ iri, ix.shape? id = some (.named iri) ∧ ix.iriOf id = iri := by
  have hclass : ix.isClass id = true := (Bool.and_eq_true_iff.1 (mem_classes_iff.1 h)).1
  unfold isClass at hclass
  split at hclass
  · rename_i iri hshape
    refine ⟨iri, hshape, ?_⟩
    rw [iriOf, iri?, hshape]
    rfl
  · cases hclass

/-- Different classes have different names. -/
theorem Tidy.iriOf_inj (hix : ix.Tidy) {a b : ExprId} (ha : a ∈ ix.classes) (hb : b ∈ ix.classes)
    (h : ix.iriOf a = ix.iriOf b) : a = b := by
  obtain ⟨iri, hshape, rfl⟩ := exists_shape_of_mem_classes ha
  obtain ⟨iri', hshape', rfl⟩ := exists_shape_of_mem_classes hb
  exact hix.shape_unique hshape (h ▸ hshape')

theorem ext_iri (hix : ix.Tidy) {a b : ix.Class} (h : a.iri = b.iri) : a = b := Subtype.ext (hix.iriOf_inj a.2 b.2 h)

theorem Tidy.iriOf_thing (hix : ix.Tidy) : ix.iriOf .thing = owlThing := by
  rw [iriOf, iri?, hix.thing]
  rfl

theorem Tidy.iriOf_nothing (hix : ix.Tidy) : ix.iriOf .nothing = owlNothing := by
  rw [iriOf, iri?, hix.nothing]
  rfl

theorem iriOf_individual {id : ExprId} {name : String} (hid : ix.shape? id = some (.nominal name)) : ix.iriOf id = name := by
  rw [iriOf, iri?, hid]
  rfl

theorem iriOf_class {id : ExprId} {name : String} (hid : ix.shape? id = some (.named name)) : ix.iriOf id = name := by
  rw [iriOf, iri?, hid]
  rfl

theorem Tidy.nodup_classes (hix : ix.Tidy) : (ix.classes.map ix.iriOf).Nodup :=
  (ix.nodup_ids.filter _).map_on fun _ ha _ hb e => hix.iriOf_inj ha hb e

theorem exists_shape_of_mem_individuals {id : ExprId} (h : id ∈ ix.individuals) :
    ∃ name, ix.shape? id = some (.nominal name) ∧ ix.iriOf id = name := by
  have hlisted := (List.mem_filter.1 h).2
  split at hlisted
  · rename_i name hshape
    exact ⟨name, hshape, iriOf_individual hshape⟩
  · cases hlisted

/-- Different individuals have different names. -/
theorem Tidy.nodup_individuals (hix : ix.Tidy) : (ix.individuals.map ix.iriOf).Nodup := by
  refine (ix.nodup_ids.filter _).map_on fun a ha b hb e => ?_
  obtain ⟨n, hn, rfl⟩ := exists_shape_of_mem_individuals ha
  obtain ⟨m, hm, rfl⟩ := exists_shape_of_mem_individuals hb
  exact hix.shape_unique hn (e ▸ hm)

end Index

end ELOntology
