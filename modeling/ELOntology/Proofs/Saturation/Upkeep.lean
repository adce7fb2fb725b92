import ELOntology.Proofs.Saturation.Calm
import ELOntology.Proofs.Saturation.Renewal
import ELOntology.Proofs.Saturation.Termination

/-!
# Workspaces in order

Between requests a workspace is in order (`Orderly`): whatever has something to do waits for its turn, and whatever has
lost a conclusion waits to be taken.  Every run and every step of maintenance keeps it so, and so do a larger table, a new
context and a change of the monitor.

The section on larger tables shows that growing a table changes nothing but its size; dropping all contexts leaves none.
A run that derives to its end leaves the workspace at rest (`Course.rested`).
-/

namespace ELOntology

namespace Workspace

variable {w w' : Workspace} {root other : ExprId} {c : Conclusion}

/-! ### Larger tables -/

theorem size_grow (n : Nat) : (w.grow n).contexts.size = max w.contexts.size n := by
  simp only [grow, Array.size_append, Array.size_replicate]
  omega

theorem grow_of_le {n : Nat} (h : n ≤ w.contexts.size) : w.grow n = w := by
  simp [grow, Nat.sub_eq_zero_of_le h]

theorem context?_grow (n : Nat) : (w.grow n).context? root = w.context? root := by
  unfold context? grow
  dsimp only
  by_cases hlt : root.val < w.contexts.size
  · rw [Array.getElem?_append_left hlt]
  · rw [Array.getElem?_append_right (by omega), Array.getElem?_eq_none (Nat.le_of_not_lt hlt), Array.getElem?_replicate]
    split <;> rfl

theorem has_grow (n : Nat) : (w.grow n).Has root ↔ w.Has root := by
  unfold Has
  rw [context?_grow]

theorem stores_grow (n : Nat) : (w.grow n).Stores root c ↔ w.Stores root c := by
  unfold Stores
  rw [context?_grow]

theorem waits_grow (n : Nat) : (w.grow n).Waits root c ↔ w.Waits root c := by
  unfold Waits
  rw [context?_grow]

theorem mark?_grow (n : Nat) : (w.grow n).mark? root = w.mark? root := by
  unfold mark?
  rw [context?_grow]

/-! ### No contexts -/

@[simp] theorem size_reset : w.reset.contexts.size = w.contexts.size := by simp [reset]

theorem not_has_reset (root : ExprId) : ¬ w.reset.Has root := by
  rintro ⟨ctx, hctx⟩
  unfold context? reset at hctx
  dsimp only at hctx
  rw [Array.getElem?_replicate] at hctx
  split at hctx <;> cases hctx

theorem not_has_of_size_eq_zero (h : w.contexts.size = 0) (root : ExprId) : ¬ w.Has root := fun hroot => by
  have hlt := hroot.lt_size
  omega

/-! ### What maintenance leaves as it is -/

theorem Sends.calm (h : w.Sends w') (hw : w.monitor.Calm) : w'.monitor.Calm := by
  obtain ⟨productions, rfl⟩ := h
  exact calm_sendAll hw .retract productions

@[simp] theorem size_seedRemoved (roles : RoleHierarchy) (removed : List Contribution) :
    (w.seedRemoved roles removed).contexts.size = w.contexts.size := (w.sends_seedRemoved roles removed).size

@[simp] theorem size_seedCleaning (roots : List ExprId) : (w.seedCleaning roots).contexts.size = w.contexts.size :=
  (w.sends_seedCleaning roots).size

@[simp] theorem size_replay (rb : RuleBase) (cleaned : List ExprId) :
    (rb.replay cleaned w).contexts.size = w.contexts.size := (w.sends_replay rb cleaned).size

@[simp] theorem size_seedAdded (added : List Contribution) (cleaned : List ExprId) :
    (w.seedAdded added cleaned).contexts.size = w.contexts.size := (w.sends_seedAdded added cleaned).size

theorem has_seedRemoved (roles : RoleHierarchy) (removed : List Contribution) :
    (w.seedRemoved roles removed).Has root ↔ w.Has root := (w.sends_seedRemoved roles removed).has

theorem has_seedCleaning (roots : List ExprId) : (w.seedCleaning roots).Has root ↔ w.Has root :=
  (w.sends_seedCleaning roots).has

theorem has_replay (rb : RuleBase) (cleaned : List ExprId) : (rb.replay cleaned w).Has root ↔ w.Has root :=
  (w.sends_replay rb cleaned).has

theorem has_seedAdded (added : List Contribution) (cleaned : List ExprId) :
    (w.seedAdded added cleaned).Has root ↔ w.Has root := (w.sends_seedAdded added cleaned).has

@[simp] theorem modified_seedCleaning (roots : List ExprId) : (w.seedCleaning roots).modified = w.modified :=
  (w.sends_seedCleaning roots).modified

theorem calm_seedRemoved (h : w.monitor.Calm) (roles : RoleHierarchy) (removed : List Contribution) :
    (w.seedRemoved roles removed).monitor.Calm := (w.sends_seedRemoved roles removed).calm h

theorem calm_seedCleaning (h : w.monitor.Calm) (roots : List ExprId) : (w.seedCleaning roots).monitor.Calm :=
  (w.sends_seedCleaning roots).calm h

theorem calm_replay (h : w.monitor.Calm) (rb : RuleBase) (cleaned : List ExprId) :
    (rb.replay cleaned w).monitor.Calm := (w.sends_replay rb cleaned).calm h

theorem calm_seedAdded (h : w.monitor.Calm) (added : List Contribution) (cleaned : List ExprId) :
    (w.seedAdded added cleaned).monitor.Calm := (w.sends_seedAdded added cleaned).calm h

theorem monitor_takeModified (w : Workspace) : w.takeModified.2.monitor = w.monitor := by
  have hall (roots : List ExprId) : ∀ w : Workspace,
      (roots.foldl (fun w root => w.update root fun ctx => { ctx with modified := false }) w).monitor = w.monitor := by
    induction roots with
    | nil => exact fun _ => rfl
    | cons root roots ih => exact fun w => (ih _).trans (monitor_update root _)
  exact hall w.modified.toList w

theorem monitor_restart (w : Workspace) (cleaned : List ExprId) : (w.restart cleaned).monitor = w.monitor := by
  unfold restart
  induction cleaned generalizing w with
  | nil => rfl
  | cons root cleaned ih => exact (ih _).trans ((monitor_enqueue root .init).trans (monitor_update root _))

/-! ### Order -/

/-- Whatever has something to do waits for its turn, and whatever has lost a conclusion waits to be taken. -/
structure Orderly (w : Workspace) : Prop where
  scheduled : Scheduled [] w
  marked : w.Marked

namespace Orderly

theorem of_no_contexts (h : ∀ root, ¬ w.Has root) (hmodified : w.modified.toList = []) : w.Orderly where
  scheduled := ⟨fun hctx => absurd ⟨_, hctx⟩ (h _), fun hctx => absurd ⟨_, hctx⟩ (h _)⟩
  marked := .of_no_contexts h hmodified

theorem reset (w : Workspace) : w.reset.Orderly := of_no_contexts not_has_reset rfl

theorem grow (h : w.Orderly) (n : Nat) : (w.grow n).Orderly where
  scheduled := h.scheduled.congr rfl fun _ => by rw [context?_grow]
  marked := h.marked.congr rfl fun _ => by rw [mark?_grow]

theorem ensure (h : w.Orderly) (root : ExprId) : (w.ensure root).Orderly where
  scheduled := h.scheduled.ensure root
  marked := h.marked.congr modified_ensure fun _ => mark?_ensure

/-- Watching and prompting has no part in the order. -/
theorem monitor (h : w.Orderly) (m : Monitor) : Orderly { w with monitor := m } where
  scheduled := h.scheduled.of_contexts rfl rfl
  marked := h.marked.sameWork (.of_contexts rfl rfl)

theorem submitAll (h : w.Orderly) (roots : List ExprId) : (w.submitAll roots).2.Orderly := by
  induction roots generalizing w with
  | nil => exact h
  | cons root roots ih =>
    have hlooked : w.look.2.Orderly := h.monitor _
    unfold Workspace.submitAll Workspace.submit
    rcases hlook : w.look with ⟨_ | _, w'⟩ <;> rw [hlook] at hlooked
    · exact ih (hlooked.ensure root)
    · exact hlooked

theorem sendAll (h : w.Orderly) (mode : Mode) (productions : List Production) :
    (RuleBase.sendAll mode productions w).Orderly :=
  ⟨h.scheduled.sendAll mode productions, h.marked.sendAll mode productions⟩

theorem sends (h : w.Orderly) (hsent : w.Sends w') : w'.Orderly := by
  obtain ⟨productions, rfl⟩ := hsent
  exact h.sendAll .retract productions

theorem seedRemoved (h : w.Orderly) (roles : RoleHierarchy) (removed : List Contribution) :
    (w.seedRemoved roles removed).Orderly := h.sends (w.sends_seedRemoved roles removed)

theorem seedCleaning (h : w.Orderly) (roots : List ExprId) : (w.seedCleaning roots).Orderly :=
  h.sends (w.sends_seedCleaning roots)

theorem replay (h : w.Orderly) (rb : RuleBase) (cleaned : List ExprId) : (rb.replay cleaned w).Orderly :=
  h.sends (w.sends_replay rb cleaned)

theorem seedAdded (h : w.Orderly) (added : List Contribution) (cleaned : List ExprId) :
    (w.seedAdded added cleaned).Orderly := h.sends (w.sends_seedAdded added cleaned)

theorem takeModified (h : w.Orderly) : w.takeModified.2.Orderly where
  scheduled := by
    have hall (roots : List ExprId) : ∀ w : Workspace, Scheduled [] w →
        Scheduled [] (roots.foldl (fun w root => w.update root fun ctx => { ctx with modified := false }) w) := by
      induction roots with
      | nil => exact fun _ h => h
      | cons root roots ih =>
        exact fun w h => ih _ (h.update (f := fun ctx => { ctx with modified := false }) (fun _ => rfl) (fun _ => rfl) root)
    exact (hall w.modified.toList w h.scheduled).of_contexts rfl rfl
  marked := h.marked.takeModified

/-- A context that starts again keeps its turn, if it has one. -/
private theorem scheduled_clearContext (h : Scheduled [] w) (root : ExprId) : Scheduled [] (w.clearContext root) := by
  unfold clearContext update
  cases hctx : w.context? root with
  | none => exact h
  | some ctx => exact h.put (fun _ => rfl) (fun hflag => h.queued hctx hflag) (Has.lt_size ⟨ctx, hctx⟩)

theorem restart (h : w.Orderly) (hmodified : w.modified.toList = []) (cleaned : List ExprId) :
    (w.restart cleaned).Orderly where
  scheduled := by
    have hall : ∀ w : Workspace, Scheduled [] w →
        Scheduled [] (cleaned.foldl (fun w root => (w.clearContext root).enqueue root .init) w) := by
      induction cleaned with
      | nil => exact fun _ h => h
      | cons root cleaned ih => exact fun w h => ih _ ((scheduled_clearContext h root).enqueue root .init)
    exact hall w h.scheduled
  marked := h.marked.restart hmodified cleaned

theorem course {workers : Nat} {rb : RuleBase} {mode : Mode} {result : Option Statistics × Workspace} (h : w.Orderly)
    (hrun : Course workers rb mode w result) : result.2.Orderly where
  scheduled := hrun.scheduled h.scheduled
  marked := by
    refine hrun.steps.preserve (fun w w' hw hstep => ?_) h.marked
    cases hstep with
    | process hctx htodo hrest => exact (hw.popped hctx).process rb mode _ _
    | schedule hsame => exact hw.sameWork hsame

/-- Where nothing is active, nothing is left to do. -/
theorem quiet (h : w.Orderly) (hactive : w.hasActive = false) : w.Quiet := by
  refine h.scheduled.quiet (Queue.isEmpty_iff.1 ?_)
  simpa [hasActive] using hactive

end Orderly

end Workspace

/-! ### What runs keep -/

/-- A run that derives keeps the invariant of derivation, also over a table that is still empty. -/
theorem Deriving.course {workers : Nat} {rb : RuleBase} {w : Workspace} {result : Option Statistics × Workspace}
    (hK : rb.calculus.Regular) (hn : rb.calculus.Within w.contexts.size ∨ w.contexts.size = 0)
    (h : Deriving rb.calculus w) (hrun : Course workers rb .derive w result) : Deriving rb.calculus result.2 := by
  rcases hn with hn | hzero
  · exact (h.steps hK hn hrun.steps).1
  · exact .of_no_contexts (Workspace.not_has_of_size_eq_zero (hrun.size.trans hzero))

theorem Deriving.grow {K : Calculus} {w : Workspace} (h : Deriving K w) (n : Nat) : Deriving K (w.grow n) :=
  h.extend (Workspace.size_grow n ▸ Nat.le_max_left ..) (fun _ _ => Workspace.stores_grow n)
    (fun _ hroot => .inl ((Workspace.has_grow n).1 hroot)) (fun _ _ hc => (Workspace.waits_grow n).2 hc)
    fun _ _ hc => .inl ((Workspace.waits_grow n).1 hc)

theorem Retracting.grow {K : Calculus} {removed : List Contribution} {base : ExprId → Conclusion → Prop}
    {cleaned : List ExprId} {w : Workspace} (h : Retracting K removed base cleaned w) (n : Nat) :
    Retracting K removed base cleaned (w.grow n) :=
  h.extend (Workspace.size_grow n ▸ Nat.le_max_left ..) (fun _ => Workspace.has_grow n)
    (fun _ _ => Workspace.stores_grow n) (fun _ _ hc => (Workspace.waits_grow n).2 hc) (fun _ hroot => hroot)
    (h.marked.congr rfl fun _ => by rw [Workspace.mark?_grow])

theorem Workspace.Quiet.grow {w : Workspace} (h : w.Quiet) (n : Nat) : (w.grow n).Quiet :=
  fun root c hc => h root c ((Workspace.waits_grow n).1 hc)

/-! ### Rest -/

/-- Nothing is left to do, and every context is marked as saturated. -/
structure Workspace.Rested (w : Workspace) : Prop where
  quiet : w.Quiet
  flagged {root : ExprId} {ctx : Context} : w.context? root = some ctx → ctx.saturated = true

theorem Workspace.flagged_markSaturated {w : Workspace} {root : ExprId} {ctx : Context}
    (h : w.markSaturated.context? root = some ctx) : ctx.saturated = true := by
  unfold Workspace.markSaturated Workspace.context? at h
  rw [Array.getElem?_map] at h
  obtain ⟨place, hplace, e⟩ := Option.map_eq_some_iff.1 (Option.join_eq_some_iff.1 h)
  obtain ⟨old, -, rfl⟩ := Option.map_eq_some_iff.1 e
  rfl

/-- A run that derives and was not interrupted leaves the workspace at rest. -/
theorem Course.rested {workers : Nat} {rb : RuleBase} {w : Workspace} {result : Option Statistics × Workspace}
    (h : Course workers rb .derive w result) (hs : Scheduled [] w) (hsome : result.1.isSome = true) :
    result.2.Rested := by
  refine ⟨h.quiet hs hsome, fun {root ctx} hctx => ?_⟩
  cases h with
  | interrupted => cases hsome
  | finished => exact Workspace.flagged_markSaturated hctx

end ELOntology
