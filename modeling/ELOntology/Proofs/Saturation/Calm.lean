import ELOntology.Proofs.Saturation.Pool

/-!
# Runs that nothing interrupts

A monitor is calm if no interruption is asked for, none is on its way from outside, and no watch and no alarm will ask for
one.  Runs keep it calm, and so they finish (`Course.isSome_of_calm`).
-/

namespace ELOntology

/-- Nothing will ask for an interruption. -/
structure Monitor.Calm (m : Monitor) : Prop where
  interrupt : m.interrupt = .clear
  watches : ∀ watch ∈ m.watches, watch.registered = true → watch.raiseAt = 0
  observer : ∀ mode number seen, m.observer ≠ some (.alarm mode number seen)

theorem Monitor.calm_idle : Monitor.idle.Calm where
  interrupt := rfl
  watches _ h := absurd h List.not_mem_nil
  observer _ _ _ h := by cases h

namespace Monitor.Calm

variable {m : Monitor}

theorem look (h : m.Calm) : m.look = (false, m) := by
  obtain ⟨interrupt, watches, observer, recorder⟩ := m
  obtain rfl : interrupt = .clear := h.interrupt
  rfl

theorem created (h : m.Calm) : m.created.Calm := by
  have hwatch : ∀ watch ∈ m.watches.map Watch.count, watch.registered = true → watch.raiseAt = 0 ∧ watch.created ≠ 0 := by
    intro watch hwatch hregistered
    obtain ⟨old, hold, rfl⟩ := List.mem_map.1 hwatch
    unfold Watch.count at hregistered ⊢
    split at hregistered <;> rename_i hold'
    · rw [if_pos hold']
      exact ⟨h.watches old hold hold', Nat.succ_ne_zero _⟩
    · exact absurd hregistered hold'
  have hquiet : ((m.watches.map Watch.count).any fun watch => watch.registered && watch.created = watch.raiseAt) = false := by
    rw [List.any_eq_false]
    intro watch hmem hraise
    rw [Bool.and_eq_true, decide_eq_true_iff] at hraise
    obtain ⟨hzero, hne⟩ := hwatch watch hmem hraise.1
    exact hne (hraise.2.trans hzero)
  refine ⟨?_, fun watch hmem hregistered => (hwatch watch hmem hregistered).1, h.observer⟩
  unfold Monitor.created
  dsimp only
  rw [hquiet]
  exact h.interrupt

theorem visit (h : m.Calm) (inference : Inference) : (m.visit inference).Calm := by
  unfold Monitor.visit
  cases hobserver : m.observer with
  | none => exact h
  | some observer =>
    cases observer with
    | recorder => exact ⟨h.interrupt, h.watches, fun mode number seen e => by cases e⟩
    | alarm mode number seen => exact absurd hobserver (h.observer mode number seen)

end Monitor.Calm

namespace Workspace

variable {w : Workspace}

theorem monitor_update (root : ExprId) (f : Context → Context) : (w.update root f).monitor = w.monitor := by
  rw [update_eq]

theorem monitor_enqueue (root : ExprId) (c : Conclusion) : (w.enqueue root c).monitor = w.monitor := by
  obtain ⟨_, e⟩ := w.exists_enqueue_eq root c
  rw [e]
  exact monitor_update root _

theorem monitor_markModified (root : ExprId) : (w.markModified root).monitor = w.monitor := by
  obtain ⟨_, e⟩ := w.exists_markModified_eq root
  rw [e]
  exact monitor_update root _

theorem calm_ensure (h : w.monitor.Calm) (root : ExprId) : (w.ensure root).monitor.Calm := by
  obtain e | ⟨-, -, e⟩ := w.ensure_cases root <;> rw [e]
  · exact h
  · refine Monitor.Calm.created ?_
    rw [monitor_enqueue]
    exact h

theorem calm_sendAll (h : w.monitor.Calm) (mode : Mode) (productions : List Production) :
    (RuleBase.sendAll mode productions w).monitor.Calm := by
  induction productions generalizing w with
  | nil => exact h
  | cons p ps ih =>
    refine ih ?_
    cases mode with
    | derive =>
      refine (monitor_enqueue (w := w.ensure p.1) p.1 p.2).symm ▸ calm_ensure h p.1
    | retract => exact (monitor_enqueue (w := w) p.1 p.2).symm ▸ h

/-- Submitting roots is not interrupted. -/
theorem submitAll_of_calm (h : w.monitor.Calm) (roots : List ExprId) :
    (w.submitAll roots).1 = false ∧ (w.submitAll roots).2.monitor.Calm := by
  induction roots generalizing w with
  | nil => exact ⟨rfl, h⟩
  | cons root roots ih =>
    have hlook : w.look = (false, w) := by rw [look, h.look]
    rw [submitAll, submit, hlook]
    exact ih (calm_ensure h root)

end Workspace

namespace RuleBase

variable {rb : RuleBase} {mode : Mode} {w : Workspace}

theorem calm_process (h : w.monitor.Calm) (root : ExprId) (c : Conclusion) :
    (rb.process mode root c w).2.monitor.Calm := by
  obtain e | ⟨ctx, -, -, -, e⟩ | ⟨ctx, -, -, -, e⟩ := rb.process_cases mode root c w <;> rw [e]
  · exact h
  · exact Workspace.calm_sendAll (Monitor.Calm.visit h _) _ _
  · rw [giveUp, Workspace.monitor_markModified, Workspace.monitor_update]
    exact Workspace.calm_sendAll (Monitor.Calm.visit h _) _ _

end RuleBase

theorem Monitor.Calm.moves {workers : Nat} {rb : RuleBase} {mode : Mode} {p p' : Pool} (h : p.workspace.monitor.Calm)
    (hmoves : Pool.Moves workers rb mode p p') : p'.workspace.monitor.Calm := by
  induction hmoves with
  | refl => exact h
  | @tail p₁ p₂ _ hmove ih =>
    have setRecorder {w : Workspace} (hw : w.monitor.Calm) (recorder : Recorder) : (w.setRecorder recorder).monitor.Calm :=
      ⟨hw.interrupt, hw.watches, hw.observer⟩
    cases hmove with
    | look =>
      show p₁.workspace.monitor.look.2.Calm
      rwa [ih.look]
    | take | handBack => exact ih
    | process _ hpick => exact RuleBase.calm_process (hpick.monitor.symm ▸ ih) _ _
    | number => exact setRecorder ih _
    | keep _ hpick => exact setRecorder (RuleBase.calm_process (hpick.monitor.symm ▸ ih) _ _) _
    | finish => exact (Workspace.monitor_update _ _).symm ▸ ih

namespace Course

variable {workers : Nat} {rb : RuleBase} {mode : Mode} {w : Workspace} {result : Option Statistics × Workspace}

private theorem of_calm (h : Course workers rb mode w result) (hcalm : w.monitor.Calm) :
    result.1.isSome = true ∧ result.2.monitor.Calm := by
  have hlook {w₁ w₂ : Workspace} {raised : Bool} (hw₁ : w₁.monitor.Calm) (h : w₁.look = (raised, w₂)) :
      raised = false ∧ w₂ = w₁ := by
    rw [Workspace.look, hw₁.look] at h
    obtain ⟨hraised, hw₂⟩ := Prod.mk.inj h
    exact ⟨hraised.symm, hw₂.symm⟩
  cases h with
  | interrupted hmoves hlooked => cases (hlook (Monitor.Calm.moves hcalm hmoves) hlooked).1
  | @finished w₁ w₂ statistics hmoves hactive hlooked =>
    have hw₁ : w₁.monitor.Calm := Monitor.Calm.moves hcalm hmoves
    obtain ⟨-, rfl⟩ := hlook hw₁ hlooked
    cases mode <;> exact ⟨rfl, hw₁⟩

/-- A run that nothing interrupts finishes. -/
theorem isSome_of_calm (h : Course workers rb mode w result) (hcalm : w.monitor.Calm) : result.1.isSome = true :=
  (h.of_calm hcalm).1

theorem calm (h : Course workers rb mode w result) (hcalm : w.monitor.Calm) : result.2.monitor.Calm :=
  (h.of_calm hcalm).2

end Course

end ELOntology
