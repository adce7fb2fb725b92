import Mathlib.Logic.Relation
import ELOntology.Proofs.Saturation.Still

/-!
# Runs tick by tick

What a run does between two looks at the flag is cut into ticks: a context gets its turn, the context whose turn it is
processes its oldest conclusion, or it has none left and gives up its turn.  A tick depends on nothing but the workspace and
whose turn it is.  So an interrupted run has gone a part of the way that an uninterrupted one goes, and there is one end to
that way (`Ticks.unique`).
-/

namespace ELOntology

namespace RuleBase

/-- What a run does next, if the given context has its turn.  There is nothing to do where none has and none is active. -/
def tick (rb : RuleBase) (mode : Mode) : Option ExprId × Workspace → Option (Option ExprId × Workspace)
  | (none, w) =>
    match w.poll with
    | (none, _) => none
    | (some root, w) => some (some root, w)
  | (some root, w) =>
    match w.next root with
    | (none, w) => some (none, w.deactivate root)
    | (some c, w) => some (some root, (rb.process mode root c w).2)

/-- Any number of ticks. -/
abbrev Ticks (rb : RuleBase) (mode : Mode) : Option ExprId × Workspace → Option ExprId × Workspace → Prop :=
  Relation.ReflTransGen fun s s' => rb.tick mode s = some s'

variable {rb : RuleBase} {mode : Mode} {busy busy' : Option ExprId} {w w' : Workspace}

theorem tick_eq_none (h : w.active.toList = []) : rb.tick mode (none, w) = none := by
  simp [tick, Workspace.poll, Queue.pop?_eq_none_iff.2 h]

/-- Ticks come to the same in the still workspace. -/
theorem tick_still (s : Option ExprId × Workspace) :
    rb.tick mode (s.1, s.2.still) = (rb.tick mode s).map fun s => (s.1, s.2.still) := by
  obtain ⟨_ | root, w⟩ := s
  · unfold tick
    dsimp only
    rw [Workspace.poll_still]
    rcases w.poll with ⟨_ | root, w'⟩ <;> rfl
  · unfold tick
    dsimp only
    rw [Workspace.next_still]
    rcases w.next root with ⟨_ | c, w'⟩
    · exact congrArg (fun w => some (none, w)) Workspace.still_deactivate.symm
    · exact congrArg (fun answer : Bool × Workspace => some (some root, answer.2)) (Workspace.process_still rb mode)

namespace Ticks

theorem still (h : rb.Ticks mode (busy, w) (busy', w')) : rb.Ticks mode (busy, w.still) (busy', w'.still) := by
  refine Relation.ReflTransGen.lift (fun s : Option ExprId × Workspace => (s.1, s.2.still)) (fun s s' hs => ?_) _ _ h
  show rb.tick mode (s.1, s.2.still) = some (s'.1, s'.2.still)
  rw [tick_still, hs]
  rfl

/-- Wherever ticks lead where nothing is left to do, it is the same state. -/
theorem unique {s s₁ s₂ : Option ExprId × Workspace} (h₁ : rb.Ticks mode s s₁) (h₂ : rb.Ticks mode s s₂)
    (hend₁ : rb.tick mode s₁ = none) (hend₂ : rb.tick mode s₂ = none) : s₁ = s₂ := by
  have hright : Relator.RightUnique fun s s' => rb.tick mode s = some s' :=
    fun _ _ _ h h' => Option.some.inj (h.symm.trans h')
  -- no tick leads on from an end
  have heq {t u : Option ExprId × Workspace} (hend : rb.tick mode t = none) (h : rb.Ticks mode t u) : t = u := by
    rcases h.cases_head with e | ⟨v, hv, -⟩
    · exact e
    · rw [hend] at hv
      cases hv
  rcases Relation.ReflTransGen.total_of_right_unique hright h₁ h₂ with h | h
  · exact heq hend₁ h
  · exact (heq hend₂ h).symm

end Ticks

end RuleBase

end ELOntology
