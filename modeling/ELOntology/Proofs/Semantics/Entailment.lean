import ELOntology.Proofs.Saturation.Confluence
import ELOntology.Proofs.Semantics.Completeness

/-!
# Saturation decides inclusion

The classes and the individuals of an index are submitted, and what waits is processed until nothing is left.  In whatever
order this is done, the contexts then answer which classes include a root in all models of the index, and whether the root
is empty in all of them.

Key fact: `saturation_decides_inclusion`.
-/

namespace ELOntology

namespace Index

/-- The roots that a classification of the index submits. -/
def roots (ix : Index) : List ExprId := ix.classes ++ ix.individuals

theorem lt_size_of_mem_ids {ix : Index} {id : ExprId} (h : id ∈ ix.ids) : id.val < ix.nodes.size := by
  obtain ⟨i, hi, rfl⟩ := List.mem_map.1 h
  exact List.mem_range.1 hi

theorem lt_size_of_mem_roots {ix : Index} {id : ExprId} (h : id ∈ ix.roots) : id.val < ix.nodes.size := by
  refine lt_size_of_mem_ids ?_
  rcases List.mem_append.1 h with h | h
  · exact List.mem_of_mem_filter h
  · exact List.mem_of_mem_filter h

end Index

/-- Saturation is sound and complete.  After any calls on an index and a commit, the run that nothing interrupts ends;
every run that ends without an interruption is complete; and after every complete run, whatever the order of its steps,
a root that was submitted is included in a named class in all models if and only if it has this class as a subsumer or is
found to be empty, and is found to be empty if and only if it is empty in all models. -/
theorem saturation_decides_inclusion (calls : List Index.Call) (monitor : Monitor) :
    let ix := (Index.after calls).commit.2
    let start := (ix.blank monitor).submitAll ix.roots
    let run := ix.ruleBase.run .derive start.2
    (monitor.Calm → start.1 = false ∧ run.1.isSome = true) ∧
    (start.1 = false → run.1.isSome = true → Completes ix monitor ix.roots run.2) ∧
    ∀ w, Completes ix monitor ix.roots w → ∀ root ∈ ix.roots,
      (∀ id, ix.isClass id = true → ((w.isUnsatisfiable root || w.hasSubsumer root id) = true ↔
        ∀ I : Interpretation, I.Models ix → ∀ x, I.InstanceOf ix root x → I.InstanceOf ix id x)) ∧
      (w.isUnsatisfiable root = true ↔ ∀ I : Interpretation, I.Models ix → ∀ x, ¬ I.InstanceOf ix root x) := by
  intro ix start run
  obtain ⟨hix, -, hpending, -⟩ := (Index.accounts_after calls).commit
  have hcourse := RuleBase.course_run 1 ix.ruleBase .derive start.2
  refine ⟨fun hcalm => ?_, fun hsubmitted => .of_course hsubmitted hcourse, fun w hw root hroot => ?_⟩
  · obtain ⟨hsubmitted, hcalm⟩ := Workspace.submitAll_of_calm (w := ix.blank monitor) hcalm ix.roots
    exact ⟨hsubmitted, hcourse.isSome_of_calm hcalm⟩
  · have hlt := Index.lt_size_of_mem_roots hroot
    have hhas := hw.has hroot hlt
    have hempty := (hw.invariant hix).isUnsatisfiable_iff hix.regular hw.quiet hhas
    refine ⟨fun id hid => ?_, hempty.trans (hix.derivable_contradiction_iff hpending hlt)⟩
    rw [Bool.or_eq_true, hempty, (hw.invariant hix).hasSubsumer_iff hix.regular hw.quiet hhas]
    exact hix.derivable_isA_iff hpending hlt hid

/-- After the axiom that all of a class is in the bottom class, the run finds the class to be empty, as it is in all
models. -/
theorem saturation_decides_inclusion_nothing :
    let ix := (Index.after [.assert (.subClassOf (.named "A") .nothing)]).commit.2
    let run := ix.ruleBase.run .derive ((ix.blank .idle).submitAll ix.roots).2
    run.2.isUnsatisfiable ⟨2⟩ = true ∧ ∀ I : Interpretation, I.Models ix → ∀ x, ¬ I.InstanceOf ix ⟨2⟩ x := by
  intro ix run
  have h := saturation_decides_inclusion [.assert (.subClassOf (.named "A") .nothing)] .idle
  obtain ⟨hsubmitted, hrun⟩ := h.1 Monitor.calm_idle
  have hcomplete := h.2.1 hsubmitted hrun
  have hroot : (⟨2⟩ : ExprId) ∈ ix.roots := by decide +kernel
  have hempty : run.2.isUnsatisfiable ⟨2⟩ = true := by decide +kernel
  exact ⟨hempty, (h.2.2 run.2 hcomplete ⟨2⟩ hroot).2.1 hempty⟩

end ELOntology
