import ELOntology.Proofs.Saturation.Upkeep

/-!
# Runs that are taken up again

A run that nothing interrupts ends in one still workspace, where it settles (`RuleBase.settle`).  An interrupted run has
gone a part of the way there, so taking it up again ends in the same workspace (`settle_run`), and so does submitting all
roots once more when only some of them had been submitted (`settle_submitAll` and `settle_ensureAll_run`).
-/

namespace ELOntology

namespace Workspace

/-! ### Submitting roots -/

/-- Have the contexts of all roots saturated by the next run. -/
def ensureAll (roots : List ExprId) (w : Workspace) : Workspace := roots.foldl (fun w root => w.ensure root) w

variable {w : Workspace} {root : ExprId} {roots : List ExprId}

@[simp] theorem still_ensureAll : (w.ensureAll roots).still = w.still.ensureAll roots :=
  (List.foldl_hom still fun _ _ => still_ensure.symm).symm

/-- A root that has a context, or that the table does not cover, is not submitted once more. -/
theorem ensureAll_of_has (h : ∀ root ∈ roots, root.val < w.contexts.size → w.Has root) : w.ensureAll roots = w := by
  induction roots with
  | nil => rfl
  | cons root roots ih =>
    have hroot : w.ensure root = w := by
      by_cases hlt : root.val < w.contexts.size
      · exact ensure_of_has (h root (List.mem_cons_self ..) hlt)
      · exact ensure_of_not_lt hlt
    rw [ensureAll, List.foldl_cons, hroot]
    exact ih fun other hother => h other (List.mem_cons_of_mem _ hother)

theorem has_submitAll_of_has (h : w.Has root) : (w.submitAll roots).2.Has root := by
  induction roots generalizing w with
  | nil => exact h
  | cons other roots ih =>
    have hlooked : w.look.2.Has root := h
    rw [submitAll, submit]
    rcases hlook : w.look with ⟨_ | _, w₁⟩ <;> rw [hlook] at hlooked
    · exact ih (has_ensure.2 (.inl hlooked))
    · exact hlooked

/-- Roots that have been submitted so far are not submitted twice, wherever it was that submitting them stopped. -/
theorem still_ensureAll_submitAll : ((w.submitAll roots).2.ensureAll roots).still = (w.ensureAll roots).still := by
  induction roots generalizing w with
  | nil => rfl
  | cons root roots ih =>
    have hlooked : w.look.2.still = w.still := rfl
    rw [submitAll, submit]
    rcases hlook : w.look with ⟨_ | _, w₁⟩ <;> rw [hlook] at hlooked <;> dsimp only at hlooked ⊢
    · have hagain : ((w₁.ensure root).submitAll roots).2.ensure root = ((w₁.ensure root).submitAll roots).2 := by
        by_cases hlt : root.val < w₁.contexts.size
        · exact ensure_of_has (has_submitAll_of_has (has_ensure.2 (.inr ⟨rfl, hlt⟩)))
        · exact ensure_of_not_lt (by rwa [size_submitAll, size_ensure])
      rw [ensureAll, List.foldl_cons, hagain]
      refine ih.trans ?_
      rw [still_ensureAll, still_ensure, hlooked, ← still_ensure, ← still_ensureAll]
      rfl
    · rw [still_ensureAll, hlooked, still_ensureAll]

/-- If no interruption comes in between, all roots are submitted. -/
theorem still_submitAll (h : (w.submitAll roots).1 = false) : (w.submitAll roots).2.still = (w.ensureAll roots).still := by
  rw [← still_ensureAll_submitAll, ensureAll_of_has fun root hroot hlt => ?_]
  exact (has_submitAll h).2 (.inr ⟨hroot, by rwa [size_submitAll] at hlt⟩)

/-- Nothing interrupts submitting in a still workspace. -/
theorem submitAll_still (w : Workspace) (roots : List ExprId) : w.still.submitAll roots = (false, (w.ensureAll roots).still) := by
  induction roots generalizing w with
  | nil => rfl
  | cons root roots ih =>
    have hlook : w.still.look = (false, w.still) := by rw [look, w.calm_still.look]
    rw [submitAll, submit, hlook]
    dsimp only
    rw [← still_ensure, ih]
    rfl

end Workspace

namespace RuleBase

variable {rb : RuleBase} {mode : Mode} {w w' : Workspace} {roots : List ExprId}

/-! ### Where a run ends -/

/-- The still workspace in which a run ends that nothing interrupts. -/
def settle (rb : RuleBase) (mode : Mode) (w : Workspace) : Workspace := (rb.run mode w.still).2.still

theorem settle_congr (h : w.still = w'.still) : rb.settle mode w = rb.settle mode w' := by rw [settle, h, settle]

theorem active_settle : (rb.settle mode w).active.toList = [] :=
  active_run ((course_run 1 rb mode w.still).isSome_of_calm w.calm_still)

theorem ticks_settle : rb.Ticks mode (none, w.still) (none, rb.settle mode w) := by
  have hticks : rb.Ticks mode (none, w.still.still) (none, rb.settle mode w) := ticks_run rb mode w.still
  rwa [Workspace.still_still] at hticks

/-- Wherever ticks lead where no context is active, the run settles there. -/
theorem settle_eq (hticks : rb.Ticks mode (none, w.still) (none, w')) (hidle : w'.active.toList = []) :
    rb.settle mode w = w' :=
  congrArg Prod.snd (ticks_settle.unique hticks (tick_eq_none active_settle) (tick_eq_none hidle))

theorem settle_of_idle (hidle : w.active.toList = []) : rb.settle mode w = w.still := settle_eq .refl hidle

/-- A run that is taken up again settles where it would have settled. -/
theorem settle_run : rb.settle mode (rb.run mode w).2 = rb.settle mode w :=
  (settle_eq ((ticks_run rb mode w).trans ticks_settle) active_settle).symm

/-- A run that was not interrupted has settled. -/
theorem still_run (h : (rb.run mode w).1.isSome = true) : (rb.run mode w).2.still = rb.settle mode w := by
  rw [← settle_run, settle_of_idle (active_run h)]

/-! ### Runs for roots -/

theorem settle_submitAll : rb.settle mode ((w.submitAll roots).2.ensureAll roots) = rb.settle mode (w.ensureAll roots) :=
  settle_congr Workspace.still_ensureAll_submitAll

/-- A run that has been interrupted after roots were submitted goes on when they are submitted once more. -/
theorem settle_ensureAll_run (hmode : mode = .derive ∨ roots = []) (h : (w.submitAll roots).1 = false) :
    rb.settle mode ((rb.run mode (w.submitAll roots).2).2.ensureAll roots) = rb.settle mode (w.ensureAll roots) := by
  have hcourse := course_run 1 rb mode (w.submitAll roots).2
  have hagain : (rb.run mode (w.submitAll roots).2).2.ensureAll roots = (rb.run mode (w.submitAll roots).2).2 := by
    rcases hmode with rfl | rfl
    · refine Workspace.ensureAll_of_has fun root hroot hlt => hcourse.has ?_
      exact (Workspace.has_submitAll h).2 (.inr ⟨hroot, by simpa [hcourse.size] using hlt⟩)
    · rfl
  rw [hagain, settle_run, settle_congr (Workspace.still_submitAll h)]

/-- A run for roots that was not interrupted has settled. -/
theorem still_run_submitAll (h : (w.submitAll roots).1 = false)
    (hrun : (rb.run mode (w.submitAll roots).2).1.isSome = true) :
    (rb.run mode (w.submitAll roots).2).2.still = rb.settle mode (w.ensureAll roots) := by
  rw [still_run hrun, settle_congr (Workspace.still_submitAll h)]

end RuleBase

end ELOntology
