import ELOntology.Proofs.Saturation.Noting
import ELOntology.Proofs.Saturation.Upkeep

/-!
# Workspaces over a vocabulary

All that a workspace holds stays over a vocabulary that its rules do not leave, not only in a run.  Larger tables, new
contexts, a reset and every step of maintenance keep it so (`Workspace.Enclosed`), since what a step of maintenance sends is
concluded by the rules from what is stored.

Key facts: `Enclosed.process` (a step of a run), `Enclosed.seedRemoved`, `Enclosed.seedCleaning`, `Enclosed.restart`,
`Enclosed.replay` and `Enclosed.seedAdded` (maintenance).
-/

namespace ELOntology

namespace Workspace

variable {w w' : Workspace} {v v' : Vocabulary} {rb : RuleBase} {root other : ExprId} {c : Conclusion}

/-- Only contexts join those that have lost a conclusion. -/
theorem mem_modified_of_process {mode : Mode} (h : other ∈ (rb.process mode root c w).2.modified.toList) :
    other ∈ w.modified.toList ∨ w.Has other := by
  cases mode with
  | derive =>
    obtain e | ⟨ctx, -, -, -, e⟩ | ⟨ctx, e, -⟩ := rb.process_cases .derive root c w
    · rw [e] at h
      exact .inl h
    · rw [e, RuleBase.takeIn, modified_sendAll] at h
      exact .inl h
    · cases e
  | retract =>
    by_cases hstored : w.Stores root c
    · rw [toList_modified_process_retract rb hstored] at h
      split at h
      · exact .inl h
      · refine (List.mem_append.1 h).imp_right fun h => ?_
        obtain rfl := List.mem_singleton.1 h
        exact hstored.has
    · rw [RuleBase.process_retract_of_not_stores hstored] at h
      exact .inl h

/-- All that a workspace holds is over the vocabulary, and what waits to be taken is in its table. -/
structure Enclosed (w : Workspace) (v : Vocabulary) : Prop extends w.Over v where
  modified {root : ExprId} : root ∈ w.modified.toList → root.val < w.contexts.size

namespace Enclosed

theorem empty : Workspace.empty.Enclosed v where
  roots hroot := absurd hroot (Nat.not_lt_zero _)
  stores hc := absurd hc.has (not_has_of_size_eq_zero rfl _)
  waits hc := absurd hc.has (not_has_of_size_eq_zero rfl _)
  modified hroot := absurd hroot List.not_mem_nil

theorem mono (hv : v.Le v') (h : w.Enclosed v) : w.Enclosed v' where
  roots hroot := hv.exprs (h.roots hroot)
  stores hc := (h.stores hc).mono hv
  waits hc := (h.waits hc).mono hv
  modified := h.modified

/-- A table may grow up to what the vocabulary has. -/
theorem grow (h : w.Enclosed v) {n : Nat} (hn : ∀ root : ExprId, root.val < n → root ∈ v.exprs) : (w.grow n).Enclosed v where
  roots {root} hroot := by
    rw [size_grow] at hroot
    rcases Nat.lt_or_ge root.val w.contexts.size with hold | hnew
    · exact h.roots hold
    · exact hn root (by omega)
  stores hc := h.stores ((stores_grow n).1 hc)
  waits hc := h.waits ((waits_grow n).1 hc)
  modified hroot := by
    rw [size_grow]
    exact Nat.lt_of_lt_of_le (h.modified hroot) (Nat.le_max_left ..)

theorem reset (h : w.Enclosed v) : w.reset.Enclosed v where
  roots hroot := h.roots (size_reset ▸ hroot)
  stores hc := absurd hc.has (not_has_reset _)
  waits hc := absurd hc.has (not_has_reset _)
  modified hroot := absurd hroot List.not_mem_nil

theorem ensure (h : w.Enclosed v) (root : ExprId) : (w.ensure root).Enclosed v where
  roots hlt := h.roots (size_ensure ▸ hlt)
  stores hc := h.stores (stores_ensure.1 hc)
  waits hc := by
    rcases waits_ensure.1 hc with hc | ⟨-, rfl, -⟩
    · exact h.waits hc
    · trivial
  modified hroot := by
    rw [modified_ensure] at hroot
    rw [size_ensure]
    exact h.modified hroot

theorem sameWork (h : w.Enclosed v) (hsame : w.SameWork w') : w'.Enclosed v where
  toOver := h.toOver.sameWork hsame
  modified hroot := by
    rw [hsame.modified] at hroot
    exact hsame.size ▸ h.modified hroot

/-! ### Runs -/

/-- A conclusion that waits is processed, in whatever order. -/
theorem process (h : w.Enclosed v) (hK : rb.calculus.Over v) (mode : Mode) {ctx : Context} {before after : List Conclusion}
    {rest : Queue Conclusion} (hctx : w.context? root = some ctx) (htodo : ctx.todo.toList = before ++ c :: after)
    (hrest : rest.toList = before ++ after) :
    (rb.process mode root c (w.put root { ctx with todo := rest })).2.Enclosed v := by
  have hpop := Popped.put hctx htodo hrest
  refine ⟨(h.toOver.popped hpop).process hK mode (h.waits hpop.waits), fun hother => ?_⟩
  rw [size_process, hpop.size]
  rcases mem_modified_of_process hother with hother | hother
  · exact h.modified hother
  · exact hpop.size ▸ hother.lt_size

/-! ### Maintenance -/

theorem takeModified (h : w.Enclosed v) : w.takeModified.2.Enclosed v where
  roots hroot := h.roots (size_takeModified ▸ hroot)
  stores hc := h.stores (stores_takeModified.1 hc)
  waits hc := h.waits (waits_takeModified.1 hc)
  modified hroot := absurd hroot List.not_mem_nil

/-- Conclusions over the vocabulary may be sent to contexts that exist. -/
private theorem of_sent (h : w.Enclosed v) (hsent : w.Sends w')
    (hwaits : ∀ {root : ExprId} {c : Conclusion}, w'.Waits root c → w.Waits root c ∨ c.Over v) : w'.Enclosed v where
  roots hroot := h.roots (hsent.size ▸ hroot)
  stores hc := h.stores (hsent.stores.1 hc)
  waits hc := (hwaits hc).elim h.waits id
  modified hroot := by
    rw [hsent.modified] at hroot
    rw [hsent.size]
    exact h.modified hroot

theorem seedRemoved (h : w.Enclosed v) (hK : rb.calculus.Over v) {removed : List Contribution}
    (hremoved : ∀ g ∈ removed, rb.calculus.contributes g) : (w.seedRemoved rb.roles removed).Enclosed v := by
  refine h.of_sent (w.sends_seedRemoved rb.roles removed) fun {root c} hc =>
    ((waits_seedRemoved rb.roles removed).1 hc).imp_right ?_
  rintro ⟨g, hg, premises, hyields, hpremises⟩
  have hroot : root ∈ v.exprs := h.roots (hpremises _ hyields.premise_mem).has.lt_size
  exact ((Combines.apply (hremoved g hg) hyields).over hK hroot fun p hp => h.stores (hpremises p hp)).2

theorem seedCleaning (h : w.Enclosed v) (roots : List ExprId) : (w.seedCleaning roots).Enclosed v :=
  h.of_sent (w.sends_seedCleaning roots) fun hc => ((waits_seedCleaning roots).1 hc).imp_right fun hc => h.stores hc.2.1

theorem restart (h : w.Enclosed v) (cleaned : List ExprId) : (w.restart cleaned).Enclosed v where
  roots hroot := h.roots (size_restart cleaned ▸ hroot)
  stores hc := h.stores ((stores_restart cleaned).1 hc).1
  waits hc := by
    rcases (waits_restart cleaned).1 hc with ⟨hc, -⟩ | ⟨-, rfl, -⟩
    · exact h.waits hc
    · trivial
  modified hroot := by
    rw [modified_restart] at hroot
    rw [size_restart]
    exact h.modified hroot

theorem replay (h : w.Enclosed v) (hK : rb.calculus.Over v) (cleaned : List ExprId) : (rb.replay cleaned w).Enclosed v := by
  refine h.of_sent (w.sends_replay rb cleaned) fun {root c} hc => (waits_replay_iff.1 hc).imp_right ?_
  rintro ⟨-, -, source, -, ⟨expr, hexpr, hunfolds⟩ | ⟨premises, hpremises, hcombines⟩⟩
  · exact (hunfolds.over hK (h.roots hexpr.has.lt_size)).2
  · obtain ⟨p, hp⟩ := hcombines.exists_premise
    exact (hcombines.over hK (h.roots (hpremises p hp).has.lt_size) fun p hp => h.stores (hpremises p hp)).2

theorem seedAdded (h : w.Enclosed v) (added : List Contribution) (cleaned : List ExprId) :
    (w.seedAdded added cleaned).Enclosed v := by
  refine h.of_sent (w.sends_seedAdded added cleaned) fun hc => ((waits_seedAdded added cleaned).1 hc).imp_right ?_
  rintro ⟨-, g, -, hpremise, rfl⟩
  -- the premise of the added contribution is a subsumer that is stored
  have hover : Conclusion.Over v (.isA g.premise) := h.stores hpremise
  exact hover

end Enclosed

end Workspace

end ELOntology
