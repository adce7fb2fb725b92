import ELOntology.Proofs.Index.History
import ELOntology.Proofs.Saturation.Calm
import ELOntology.Proofs.Saturation.Script

/-!
# The outcome of a saturation

When nothing waits any more, each context answers what is derivable for its root, whatever links it stores.  So the
answers do not depend on the order of the steps, although the links and even the contexts do.

Key facts: `Deriving.hasSubsumer_iff` and `Deriving.isUnsatisfiable_iff` (what the answers are), `Completes.of_course` (a
run in any order that was not interrupted is complete) and `outcome_unique` (complete runs agree).
-/

namespace ELOntology

namespace Workspace

variable {w : Workspace} {root expr : ExprId}

theorem hasSubsumer_iff : w.hasSubsumer root expr = true ↔ w.Stores root (.isA expr) := by
  unfold hasSubsumer Stores
  cases w.context? root <;> simp [Facts.hasSubsumer_iff]

theorem isUnsatisfiable_iff : w.isUnsatisfiable root = true ↔ w.Stores root .contradiction := by
  unfold isUnsatisfiable Stores
  cases w.context? root <;> simp [Facts.contains]

end Workspace

namespace Deriving

variable {K : Calculus} {w : Workspace} {root expr : ExprId}

/-- A context that has nothing to do has the subsumers that are derivable for its root. -/
theorem hasSubsumer_iff (hK : K.Regular) (h : Deriving K w) (hw : w.Quiet) (hroot : w.Has root) :
    w.hasSubsumer root expr = true ↔ K.Derivable root (.isA expr) :=
  Workspace.hasSubsumer_iff.trans ((h.saturated hw).stored_isA_iff hK (h.stores_self hw hroot).1)

/-- A context that has nothing to do has found its root to be empty if and only if this is derivable. -/
theorem isUnsatisfiable_iff (hK : K.Regular) (h : Deriving K w) (hw : w.Quiet) (hroot : w.Has root) :
    w.isUnsatisfiable root = true ↔ K.Derivable root .contradiction :=
  Workspace.isUnsatisfiable_iff.trans ((h.saturated hw).stored_contradiction_iff hK (h.stores_self hw hroot).1)

end Deriving

/-- The workspace from which an index is saturated, before anything is submitted. -/
def Index.blank (ix : Index) (monitor : Monitor) : Workspace := { Workspace.empty.grow ix.nodes.size with monitor }

/-- A run that has submitted the given roots, and has then taken steps until nothing was left to do. -/
structure Completes (ix : Index) (monitor : Monitor) (roots : List ExprId) (w : Workspace) : Prop where
  submitted : ((ix.blank monitor).submitAll roots).1 = false
  steps : Steps ix.ruleBase .derive ((ix.blank monitor).submitAll roots).2 w
  quiet : w.Quiet

namespace Completes

variable {ix : Index} {monitor : Monitor} {roots : List ExprId} {w : Workspace}

theorem blank_sameWork (ix : Index) (monitor : Monitor) :
    (Workspace.empty.grow ix.nodes.size).SameWork (ix.blank monitor) := .of_contexts rfl rfl

theorem size_start (ix : Index) (monitor : Monitor) (roots : List ExprId) :
    ((ix.blank monitor).submitAll roots).2.contexts.size = ix.nodes.size := by
  rw [Workspace.size_submitAll, (blank_sameWork ix monitor).size, Workspace.size_grow_empty]

theorem deriving_start (ix : Index) (monitor : Monitor) (roots : List ExprId) :
    Deriving ix.ruleBase.calculus ((ix.blank monitor).submitAll roots).2 := by
  refine (Deriving.of_no_contexts fun root hroot => ?_).submitAll roots
  exact Workspace.not_has_grow_empty ix.nodes.size ((blank_sameWork ix monitor).has_iff.1 hroot)

theorem invariant (hix : ix.Accounts) (h : Completes ix monitor roots w) : Deriving ix.ruleBase.calculus w := by
  refine ((deriving_start ix monitor roots).steps hix.regular ?_ h.steps).1
  rw [size_start]
  exact hix.within

theorem scheduled_start (ix : Index) (monitor : Monitor) (roots : List ExprId) :
    Scheduled [] ((ix.blank monitor).submitAll roots).2 := by
  refine Scheduled.submitAll ⟨fun {root ctx} hctx => ?_, fun {root ctx} hctx => ?_⟩ roots
  · exact absurd ((blank_sameWork ix monitor).has_iff.1 ⟨ctx, hctx⟩) (Workspace.not_has_grow_empty _)
  · exact absurd ((blank_sameWork ix monitor).has_iff.1 ⟨ctx, hctx⟩) (Workspace.not_has_grow_empty _)

/-- A run in any order that was not interrupted is complete. -/
theorem of_course {workers : Nat} {result : Option Statistics × Workspace}
    (hsubmitted : ((ix.blank monitor).submitAll roots).1 = false)
    (hcourse : Course workers ix.ruleBase .derive ((ix.blank monitor).submitAll roots).2 result)
    (hrun : result.1.isSome = true) : Completes ix monitor roots result.2 :=
  ⟨hsubmitted, hcourse.steps, hcourse.quiet (scheduled_start ix monitor roots) hrun⟩

/-- A run in any order that nothing interrupts is complete. -/
theorem of_calm (h : monitor.Calm) {workers : Nat} {result : Option Statistics × Workspace}
    (hcourse : Course workers ix.ruleBase .derive ((ix.blank monitor).submitAll roots).2 result) :
    Completes ix monitor roots result.2 := by
  obtain ⟨hsubmitted, hcalm⟩ := Workspace.submitAll_of_calm (w := ix.blank monitor) h roots
  exact of_course hsubmitted hcourse (hcourse.isSome_of_calm hcalm)

/-- Every root that was submitted has a context. -/
theorem has (h : Completes ix monitor roots w) {root : ExprId} (hroot : root ∈ roots) (hlt : root.val < ix.nodes.size) :
    w.Has root := by
  refine h.steps.has ((Workspace.has_submitAll h.submitted).2 (.inr ⟨hroot, ?_⟩))
  rw [(blank_sameWork ix monitor).size, Workspace.size_grow_empty]
  exact hlt

end Completes

/-- Saturation is confluent.  Take any two runs, each in an order of its own, over the rules of the same index and with
the same submitted roots: every submitted root has a context in both, and wherever both have a context, it has the same
subsumers and the same answer to whether the root is empty. -/
theorem outcome_unique (calls : List Index.Call) {monitor monitor' : Monitor} {roots roots' : List ExprId}
    {w w' : Workspace} (hsame : ∀ root, root ∈ roots ↔ root ∈ roots') (hids : ∀ root ∈ roots, root ∈ (Index.after calls).ids)
    (h : Completes (Index.after calls) monitor roots w) (h' : Completes (Index.after calls) monitor' roots' w') :
    (∀ root ∈ roots, w.Has root ∧ w'.Has root) ∧ ∀ root, w.Has root → w'.Has root →
      (∀ expr, w.hasSubsumer root expr = w'.hasSubsumer root expr) ∧ w.isUnsatisfiable root = w'.isUnsatisfiable root := by
  have hix := Index.accounts_after calls
  have hlt (root : ExprId) (hroot : root ∈ roots) : root.val < (Index.after calls).nodes.size := by
    obtain ⟨i, hi, rfl⟩ := List.mem_map.1 (hids root hroot)
    exact List.mem_range.1 hi
  refine ⟨fun root hroot => ⟨h.has hroot (hlt root hroot), h'.has ((hsame root).1 hroot) (hlt root hroot)⟩, ?_⟩
  intro root hroot hroot'
  refine ⟨fun expr => Bool.eq_iff_iff.2 ?_, Bool.eq_iff_iff.2 ?_⟩
  · rw [(h.invariant hix).hasSubsumer_iff hix.regular h.quiet hroot,
      (h'.invariant hix).hasSubsumer_iff hix.regular h'.quiet hroot']
  · rw [(h.invariant hix).isUnsatisfiable_iff hix.regular h.quiet hroot,
      (h'.invariant hix).isUnsatisfiable_iff hix.regular h'.quiet hroot']

/-- Before it looks at the `∃r.D` that is told of `A`, the worker at `A` waits until another one, at `B`, has combined
another `∃r.D` for it. -/
def combining : List Pool.Action :=
  [.take ⟨2⟩, .process ⟨2⟩ .init, .process ⟨2⟩ (.subsumer ⟨2⟩ .positive), .process ⟨2⟩ (.subsumer ⟨6⟩ .positive),
    .take ⟨5⟩, .process ⟨5⟩ .init, .process ⟨5⟩ (.subsumer ⟨5⟩ .positive), .process ⟨5⟩ (.subsumer ⟨3⟩ .positive),
    .process ⟨5⟩ (.propagation ⟨1⟩ ⟨4⟩), .process ⟨5⟩ (.backwardLink ⟨2⟩ ⟨1⟩),
    .process ⟨2⟩ (.subsumer ⟨4⟩ .negative), .handBack ⟨2⟩, .handBack ⟨5⟩]

/-- Let `A` be below `∃r.D` and `∃s.B`, with `B` below `D` and `s` below `r`.  In turns, the `∃r.D` that is told comes first
and is taken apart, so `D` gets a context.  If the one that is combined comes first, `D` gets none.  Yet the contexts that
both runs have, those of `A` and `B`, answer the same. -/
theorem outcome_unique_combining :
    let calls := [.assert (.subClassOf (.named "A") (.someValues "r" (.named "D"))),
      .assert (.subClassOf (.named "A") (.someValues "s" (.named "B"))), .assert (.subClassOf (.named "B") (.named "D")),
      .assert (.subClassOf (.someValues "r" (.named "D")) (.named "C")), .assert (.subRoleOf (.role "s") "r"), .commit]
    let ix := Index.after calls
    let after (e : Engine) := (e.run 2 ix.ruleBase .derive ((ix.blank .idle).submitAll [⟨2⟩]).2).2
    let w := after .single
    let w' := after (.scripted combining)
    (w.Has ⟨3⟩ ∧ ¬ w'.Has ⟨3⟩) ∧ (w.Has ⟨5⟩ ∧ w'.Has ⟨5⟩) ∧
    (∀ root ∈ [⟨2⟩], w.Has root ∧ w'.Has root) ∧ ∀ root, w.Has root → w'.Has root →
      (∀ expr, w.hasSubsumer root expr = w'.hasSubsumer root expr) ∧ w.isUnsatisfiable root = w'.isUnsatisfiable root := by
  intro calls ix after w w'
  have hcontexts : (w.Has ⟨3⟩ ∧ ¬ w'.Has ⟨3⟩) ∧ (w.Has ⟨5⟩ ∧ w'.Has ⟨5⟩) := by decide +kernel
  have hids : ∀ root ∈ [(⟨2⟩ : ExprId)], root ∈ ix.ids := by decide +kernel
  have hcomplete {e : Engine} (he : e.Lawful) : Completes ix .idle [⟨2⟩] (after e) :=
    .of_calm Monitor.calm_idle (he 2 ix.ruleBase .derive _)
  exact ⟨hcontexts.1, hcontexts.2, outcome_unique calls (fun _ => Iff.rfl) hids (hcomplete Engine.lawful_single)
    (hcomplete (Engine.lawful_scripted combining))⟩

end ELOntology
