import ELOntology.Proofs.Index.Classes
import ELOntology.Proofs.Saturation.Confluence
import ELOntology.Taxonomy.Build

/-!
# What the contexts of classes answer

A saturated workspace has a context for each class of its index.  Together they answer a preorder: a class is included in
another one if its context is contradictory or has it as a subsumer, although each context was saturated on its own.

Key fact: `answers_of_saturated`.
-/

namespace ELOntology

/-- What the context of a class says about its inclusion in another class. -/
def Workspace.Includes (w : Workspace) (sub sup : ExprId) : Prop :=
  w.isUnsatisfiable sub = true ∨ w.hasSubsumer sub sup = true

/-- The contexts of all classes agree with each other. -/
structure Answers (ix : Index) (w : Workspace) : Prop where
  has {a : ExprId} : a ∈ ix.classes → w.Has a
  self {a : ExprId} : a ∈ ix.classes → w.hasSubsumer a a = true
  thing {a : ExprId} : a ∈ ix.classes → w.hasSubsumer a .thing = true
  trans {a b c : ExprId} : a ∈ ix.classes → b ∈ ix.classes → w.hasSubsumer a b = true → w.hasSubsumer b c = true →
    w.hasSubsumer a c = true
  empty {a b : ExprId} : a ∈ ix.classes → b ∈ ix.classes → w.hasSubsumer a b = true → w.isUnsatisfiable b = true →
    w.isUnsatisfiable a = true
  nothing : w.isUnsatisfiable .nothing = true

/-- Where nothing is left to derive, the contexts of all classes agree with each other. -/
theorem answers_of_saturated {K : Calculus} {ix : Index} {w : Workspace} (hix : ix.Tidy) (hK : K.Regular)
    (h : Saturated K w.Stores) (hself : ∀ {id : ExprId}, id ∈ ix.classes → w.Stores id (.isA id)) : Answers ix w := by
  -- what is stored for a class shows wherever the class holds
  have hmirror {b : ExprId} {c : Conclusion} (hc : w.Stores b c) : Mirrored K w.Stores b c.unsigned :=
    h.mirrored hK (h.derived hc).derivable
  refine ⟨fun ha => (hself ha).has, fun ha => ?_, fun ha => ?_, fun {a b c} _ _ hab hbc => ?_,
    fun {a b} _ _ hab hempty => ?_, ?_⟩
  · exact Workspace.hasSubsumer_iff.2 (hself ha)
  · exact Workspace.hasSubsumer_iff.2 (h.thing (hself ha))
  · exact Workspace.hasSubsumer_iff.2
      (hmirror (Workspace.hasSubsumer_iff.1 hbc) a (Workspace.hasSubsumer_iff.1 hab))
  · exact Workspace.isUnsatisfiable_iff.2
      (hmirror (Workspace.isUnsatisfiable_iff.1 hempty) a (Workspace.hasSubsumer_iff.1 hab))
  · exact Workspace.isUnsatisfiable_iff.2 (h.stored_single (hself hix.nothing_mem_classes) .bottom)

namespace Answers

variable {ix : Index} {w : Workspace} {a b c : ExprId}

theorem includes_refl (h : Answers ix w) (ha : a ∈ ix.classes) : w.Includes a a := .inr (h.self ha)

theorem includes_trans (h : Answers ix w) (ha : a ∈ ix.classes) (hb : b ∈ ix.classes) (hab : w.Includes a b)
    (hbc : w.Includes b c) : w.Includes a c := by
  rcases hab with hempty | hab
  · exact .inl hempty
  · rcases hbc with hempty | hbc
    · exact .inl (h.empty ha hb hab hempty)
    · exact .inr (h.trans ha hb hab hbc)

theorem includes_thing (h : Answers ix w) (ha : a ∈ ix.classes) : w.Includes a .thing := .inr (h.thing ha)

/-- What includes a class that is not empty is not empty. -/
theorem satisfiable_of_includes (h : Answers ix w) (ha : a ∈ ix.classes) (hb : b ∈ ix.classes)
    (hsat : w.isUnsatisfiable a = false) (hab : w.Includes a b) : w.isUnsatisfiable b = false := by
  rcases hab with hempty | hab
  · rw [hsat] at hempty
    cases hempty
  · refine Bool.eq_false_iff.2 fun hempty => ?_
    have := h.empty ha hb hab hempty
    rw [hsat] at this
    cases this

theorem hasSubsumer_of_includes (hsat : w.isUnsatisfiable a = false) (hab : w.Includes a b) : w.hasSubsumer a b = true := by
  rcases hab with hempty | hab
  · rw [hsat] at hempty
    cases hempty
  · exact hab

end Answers

end ELOntology
