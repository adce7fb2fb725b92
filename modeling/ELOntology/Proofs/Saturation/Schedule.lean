import ELOntology.Proofs.Saturation.Steps

/-!
# Whose turn it is

A context that has something to do waits in the queue of active contexts, unless a worker is at it.  So when that queue is
empty and no worker is at a context, nothing is left to do (`Scheduled.quiet`).
-/

namespace ELOntology

/-- Every context that has something to do is active, and active contexts wait for their turn, save for the busy ones. -/
structure Scheduled (busy : List ExprId) (w : Workspace) : Prop where
  idle {root : ExprId} {ctx : Context} : w.context? root = some ctx → ctx.active = false → ctx.todo.toList = []
  queued {root : ExprId} {ctx : Context} : w.context? root = some ctx → ctx.active = true →
    root ∈ w.active.toList ∨ root ∈ busy

namespace Scheduled

variable {busy : List ExprId} {w w' : Workspace} {root : ExprId} {c : Conclusion}

/-- When no context waits for its turn, nothing is left to do. -/
theorem quiet (h : Scheduled [] w) (hactive : w.active.toList = []) : w.Quiet := by
  rintro root c ⟨ctx, hctx, hc⟩
  cases hflag : ctx.active with
  | false =>
    rw [h.idle hctx hflag] at hc
    cases hc
  | true =>
    rcases h.queued hctx hflag with hmem | e
    · rw [hactive] at hmem
      cases hmem
    · cases e

/-- Only facts and other flags differ. -/
theorem congr (h : Scheduled busy w) (hactive : w'.active = w.active)
    (hcontext : ∀ root, (w'.context? root).map (fun ctx => (ctx.todo.toList, ctx.active)) =
      (w.context? root).map fun ctx => (ctx.todo.toList, ctx.active)) : Scheduled busy w' := by
  have hold {root : ExprId} {ctx' : Context} (hctx' : w'.context? root = some ctx') :
      ∃ ctx, w.context? root = some ctx ∧ ctx.todo.toList = ctx'.todo.toList ∧ ctx.active = ctx'.active := by
    have hsame := hcontext root
    rw [hctx'] at hsame
    obtain ⟨ctx, hctx, e⟩ := Option.map_eq_some_iff.1 hsame.symm
    obtain ⟨htodo, hflag⟩ := Prod.mk.inj e
    exact ⟨ctx, hctx, htodo, hflag⟩
  constructor
  · intro root ctx' hctx' hflag
    obtain ⟨ctx, hctx, htodo, hflag'⟩ := hold hctx'
    exact htodo ▸ h.idle hctx (hflag'.trans hflag)
  · intro root ctx' hctx' hflag
    obtain ⟨ctx, hctx, -, hflag'⟩ := hold hctx'
    rw [hactive]
    exact h.queued hctx (hflag'.trans hflag)

theorem of_contexts (h : Scheduled busy w) (hcontexts : w'.contexts = w.contexts) (hactive : w'.active = w.active) :
    Scheduled busy w' := h.congr hactive fun _ => congrArg _ (Workspace.context?_congr hcontexts)

theorem observe (h : Scheduled busy w) (inference : Inference) : Scheduled busy (w.observe inference) :=
  h.of_contexts rfl rfl

theorem update (h : Scheduled busy w) {f : Context → Context} (htodo : ∀ ctx, (f ctx).todo = ctx.todo)
    (hflag : ∀ ctx, (f ctx).active = ctx.active) (root : ExprId) : Scheduled busy (w.update root f) := by
  refine h.congr ?_ fun other => ?_
  · exact Workspace.active_update _
  · rw [Workspace.context?_update]
    split <;> rename_i e
    · rw [e, Option.map_map]
      refine congrArg (Option.map · _) (funext fun ctx => ?_)
      simp [htodo, hflag]
    · rfl

/-- One context is replaced by one that is active, or has nothing to do and takes no one's turn. -/
theorem put (h : Scheduled busy w) {ctx : Context} (hidle : ctx.active = false → ctx.todo.toList = [])
    (hqueued : ctx.active = true → root ∈ w.active.toList ∨ root ∈ busy) (hlt : root.val < w.contexts.size) :
    Scheduled busy (w.put root ctx) := by
  constructor
  · intro other ctx' hctx' hflag
    rw [Workspace.context?_put hlt] at hctx'
    split at hctx'
    · cases hctx'
      exact hidle hflag
    · exact h.idle hctx' hflag
  · intro other ctx' hctx' hflag
    rw [Workspace.context?_put hlt] at hctx'
    split at hctx' <;> rename_i e
    · cases hctx'
      exact e ▸ hqueued hflag
    · exact h.queued hctx' hflag

/-- Only the facts and other flags of one context change. -/
theorem replace (h : Scheduled busy w) {ctx ctx' : Context} (hctx : w.context? root = some ctx)
    (htodo : ctx'.todo = ctx.todo) (hflag : ctx'.active = ctx.active) : Scheduled busy (w.put root ctx') := by
  refine h.put (fun e => ?_) (fun e => h.queued hctx (hflag ▸ e)) (Workspace.Has.lt_size ⟨ctx, hctx⟩)
  rw [htodo]
  exact h.idle hctx (hflag ▸ e)

/-- One more context may wait for its turn. -/
theorem enlist (h : Scheduled busy w) (root : ExprId) : Scheduled busy { w with active := w.active.push root } := by
  refine ⟨h.idle, fun {other ctx} hctx hflag => (h.queued hctx hflag).imp_left fun hmem => ?_⟩
  rw [Queue.toList_push]
  exact List.mem_append_left _ hmem

theorem enqueue (h : Scheduled busy w) (root : ExprId) (c : Conclusion) : Scheduled busy (w.enqueue root c) := by
  unfold Workspace.enqueue
  cases hctx : w.context? root with
  | none => exact h
  | some ctx =>
    have hlt : root.val < w.contexts.size := Workspace.Has.lt_size ⟨ctx, hctx⟩
    dsimp only
    split <;> rename_i hflag
    · exact h.put (fun e => by cases e) (fun _ => h.queued hctx hflag) hlt
    · refine (h.enlist root).put (fun e => by cases e) (fun _ => .inl ?_) hlt
      simp

theorem ensure (h : Scheduled busy w) (root : ExprId) : Scheduled busy (w.ensure root) := by
  obtain e | ⟨-, hlt, e⟩ := w.ensure_cases root <;> rw [e]
  · exact h
  · have hnew : Scheduled busy (w.put root .new) := h.put (fun _ => rfl) (fun e => by cases e) hlt
    exact (hnew.enqueue root .init).of_contexts rfl rfl

theorem send (h : Scheduled busy w) (mode : Mode) (root : ExprId) (c : Conclusion) :
    Scheduled busy (w.send mode root c) := by
  cases mode with
  | derive => exact (h.ensure root).enqueue root c
  | retract => exact h.enqueue root c

theorem sendAll (h : Scheduled busy w) (mode : Mode) (productions : List Production) :
    Scheduled busy (RuleBase.sendAll mode productions w) := by
  induction productions generalizing w with
  | nil => exact h
  | cons p ps ih => exact ih (h.send mode p.1 p.2)

theorem markModified (h : Scheduled busy w) (root : ExprId) : Scheduled busy (w.markModified root) := by
  obtain ⟨_, e⟩ := w.exists_markModified_eq root
  have hflagged := h.update (f := fun ctx => { ctx with saturated := false, modified := true }) (fun _ => rfl)
    (fun _ => rfl) root
  rw [e]
  exact hflagged.of_contexts rfl rfl

theorem process (h : Scheduled busy w) (rb : RuleBase) (mode : Mode) (root : ExprId) (c : Conclusion) :
    Scheduled busy (rb.process mode root c w).2 := by
  obtain e | ⟨ctx, -, hctx, -, e⟩ | ⟨ctx, -, -, -, e⟩ := rb.process_cases mode root c w <;> rw [e]
  · exact h
  · have hput : Scheduled busy (w.put root { ctx with facts := ctx.facts.insert c, saturated := false }) :=
      h.replace hctx rfl rfl
    exact (hput.observe ⟨root, c, .derive⟩).sendAll .derive _
  · have hsend := (h.observe ⟨root, c, .retract⟩).sendAll .retract (rb.productions .retract root ctx.facts c)
    exact (hsend.update (f := fun ctx => { ctx with facts := ctx.facts.erase c }) (fun _ => rfl) (fun _ => rfl)
      root).markModified root

theorem submitAll (h : Scheduled busy w) (roots : List ExprId) : Scheduled busy (w.submitAll roots).2 := by
  induction roots generalizing w with
  | nil => exact h
  | cons root roots ih =>
    rw [Workspace.submitAll, Workspace.submit]
    cases hlook : w.look with
    | mk raised w₁ =>
      have h₁ : Scheduled busy w₁ := by
        obtain rfl : w.look.2 = w₁ := by rw [hlook]
        exact h.of_contexts rfl rfl
      cases raised with
      | true => exact h₁
      | false => exact ih (h₁.ensure root)

/-! ### Taking turns -/

/-- A worker takes the turn of a context. -/
theorem take (h : Scheduled busy w) {before after : List ExprId} {rest : Queue ExprId}
    (hactive : w.active.toList = before ++ root :: after) (hrest : rest.toList = before ++ after) :
    Scheduled (root :: busy) { w with active := rest } := by
  refine ⟨h.idle, fun {other ctx} hctx hflag => ?_⟩
  rcases h.queued hctx hflag with hmem | hmem
  · rw [hactive, List.mem_append, List.mem_cons] at hmem
    rcases hmem with hmem | rfl | hmem
    · exact .inl (hrest ▸ List.mem_append_left _ hmem)
    · exact .inr (List.mem_cons_self ..)
    · exact .inl (hrest ▸ List.mem_append_right _ hmem)
  · exact .inr (List.mem_cons_of_mem _ hmem)

/-- A context that has something to do may have a conclusion taken from its queue. -/
theorem pick (h : Scheduled busy w) {ctx : Context} (hctx : w.context? root = some ctx) (htodo : ctx.todo.toList ≠ [])
    (rest : Queue Conclusion) : Scheduled busy (w.put root { ctx with todo := rest }) :=
  h.put (fun hflag => absurd (h.idle hctx hflag) htodo) (fun hflag => h.queued hctx hflag)
    (Workspace.Has.lt_size ⟨ctx, hctx⟩)

/-- A context where nothing waits gives up its turn. -/
theorem finish (h : Scheduled busy w) (hnone : ∀ c, ¬ w.Waits root c) :
    Scheduled (busy.erase root) (w.deactivate root) := by
  constructor
  · intro other ctx' hctx' hflag
    rw [Workspace.deactivate, Workspace.context?_update] at hctx'
    split at hctx'
    · obtain ⟨ctx, hctx, rfl⟩ := Option.map_eq_some_iff.1 hctx'
      exact List.eq_nil_iff_forall_not_mem.2 fun c hc => hnone c ⟨ctx, hctx, hc⟩
    · exact h.idle hctx' hflag
  · intro other ctx' hctx' hflag
    rw [Workspace.deactivate, Workspace.context?_update] at hctx'
    rw [Workspace.deactivate, Workspace.active_update]
    split at hctx' <;> rename_i hne
    · obtain ⟨ctx, -, rfl⟩ := Option.map_eq_some_iff.1 hctx'
      cases hflag
    · exact (h.queued hctx' hflag).imp_right (List.mem_erase_of_ne hne).2

/-- A context that a worker leaves waits for its turn again. -/
theorem handBack (h : Scheduled busy w) (root : ExprId) :
    Scheduled (busy.erase root) { w with active := w.active.push root } := by
  refine ⟨h.idle, fun {other ctx} hctx hflag => ?_⟩
  rw [Queue.toList_push]
  by_cases e : other = root
  · subst e
    exact .inl (by simp)
  · exact (h.queued hctx hflag).imp (List.mem_append_left _) (List.mem_erase_of_ne e).2

end Scheduled

end ELOntology
