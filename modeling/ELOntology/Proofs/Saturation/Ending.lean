import ELOntology.Proofs.Saturation.Cone
import ELOntology.Proofs.Saturation.Termination

/-!
# Runs in any order end

Whatever order the waiting conclusions are processed in, no more of them are processed than the bound that is computed at
the start, and as long as something waits there is one more to process.  So every run that is not interrupted comes to the
point where nothing is left to do, however contexts feed each other.

Key facts: `Counted.le_workBound` and `Processes.exists_of_not_quiet`; `exists_retractsTo` (every retraction can be
completed).
-/

namespace ELOntology

/-- Some conclusion that waits in some context is processed. -/
inductive Processes (rb : RuleBase) (mode : Mode) (w : Workspace) : Workspace → Prop
  | take {root : ExprId} {ctx : Context} {c : Conclusion} {before after : List Conclusion} {rest : Queue Conclusion}
      (hctx : w.context? root = some ctx) (htodo : ctx.todo.toList = before ++ c :: after)
      (hrest : rest.toList = before ++ after) :
      Processes rb mode w (rb.process mode root c (w.put root { ctx with todo := rest })).2

/-- Steps of a run, in any order, by which the given number of conclusions is processed. -/
inductive Counted (rb : RuleBase) (mode : Mode) (w : Workspace) : Nat → Workspace → Prop
  | start : Counted rb mode w 0 w
  | process {n : Nat} {w₁ w₂ : Workspace} (h : Counted rb mode w n w₁) (hstep : Processes rb mode w₁ w₂) :
      Counted rb mode w (n + 1) w₂
  | schedule {n : Nat} {w₁ w₂ : Workspace} (h : Counted rb mode w n w₁) (hsame : w₁.SameWork w₂) : Counted rb mode w n w₂

/-! ### What the contexts may still have to do -/

namespace Workspace

variable {w w' : Workspace} {root : ExprId}

/-- The potential without the turns that contexts are waiting for. -/
def load (rate : Rate) (w : Workspace) : Nat := (w.contexts.toList.map rate.ofPlace).sum

theorem SameWork.load_eq (h : w.SameWork w') (rate : Rate) : w'.load rate = w.load rate := by
  unfold load
  congr 1
  refine List.ext_getElem? fun i => ?_
  rw [List.getElem?_map, List.getElem?_map, Array.getElem?_toList, Array.getElem?_toList]
  by_cases hi : i < w.contexts.size
  · have hi' : i < w'.contexts.size := h.size ▸ hi
    have hcontext := h.context? ⟨i⟩
    unfold Workspace.context? at hcontext
    rw [Array.getElem?_eq_getElem hi, Array.getElem?_eq_getElem hi', Option.join_some, Option.join_some] at hcontext
    rw [Array.getElem?_eq_getElem hi, Array.getElem?_eq_getElem hi', Option.map_some, Option.map_some]
    generalize w.contexts[i] = place at hcontext
    generalize w'.contexts[i] = place' at hcontext
    match place, place', hcontext with
    | none, none, _ => rfl
    | some ctx, some ctx', hcontext =>
      obtain ⟨hfacts, e⟩ := Prod.mk.inj (Option.some.inj hcontext)
      obtain ⟨htodo, -⟩ := Prod.mk.inj e
      rw [Rate.ofPlace, Rate.ofPlace, Rate.ofContext, Rate.ofContext, hfacts, htodo]
  · have hi' : ¬ i < w'.contexts.size := h.size ▸ hi
    rw [Array.getElem?_eq_none (Nat.le_of_not_lt hi), Array.getElem?_eq_none (Nat.le_of_not_lt hi')]

/-! ### Turns only become more -/

theorem length_active_enqueue (root : ExprId) (c : Conclusion) :
    w.active.toList.length ≤ (w.enqueue root c).active.toList.length := by
  unfold enqueue
  cases w.context? root with
  | none => exact Nat.le_refl _
  | some ctx =>
    dsimp only
    split
    · exact Nat.le_refl _
    · simp [put]

theorem length_active_send (mode : Mode) (root : ExprId) (c : Conclusion) :
    w.active.toList.length ≤ (w.send mode root c).active.toList.length := by
  have hensure : w.active.toList.length ≤ (w.ensure root).active.toList.length := by
    obtain e | ⟨-, -, e⟩ := w.ensure_cases root <;> rw [e]
    exact length_active_enqueue (w := w.put root .new) root .init
  cases mode with
  | derive => exact Nat.le_trans hensure (length_active_enqueue root c)
  | retract => exact length_active_enqueue root c

theorem length_active_sendAll (mode : Mode) (productions : List Production) :
    w.active.toList.length ≤ (RuleBase.sendAll mode productions w).active.toList.length := by
  induction productions generalizing w with
  | nil => exact Nat.le_refl _
  | cons p ps ih => exact Nat.le_trans (length_active_send mode p.1 p.2) ih

theorem length_active_process (rb : RuleBase) (mode : Mode) (root : ExprId) (c : Conclusion) :
    w.active.toList.length ≤ (rb.process mode root c w).2.active.toList.length := by
  have hmark (w : Workspace) : (w.markModified root).active = w.active := by
    obtain ⟨_, e⟩ := w.exists_markModified_eq root
    rw [e]
    exact active_update _
  obtain e | ⟨ctx, -, -, -, e⟩ | ⟨ctx, -, -, -, e⟩ := rb.process_cases mode root c w <;> rw [e]
  · exact length_active_sendAll (w := (w.put root _).observe _) .derive _
  · rw [RuleBase.giveUp, hmark, active_update]
    exact length_active_sendAll (w := w.observe _) .retract _

end Workspace

/-! ### Every processed conclusion counts -/

namespace Measured

variable {rb : RuleBase} {mode : Mode} {rate : Rate} {I : Workspace → Prop} {w w' : Workspace} {n : Nat}

theorem processes (hm : Measured rb mode rate I) (hw : I w) (h : Processes rb mode w w') :
    I w' ∧ w'.load rate < w.load rate := by
  cases h with
  | @take root ctx c before after rest hctx htodo hrest =>
    obtain ⟨hw', hlt⟩ := hm.process hw (.put hctx htodo hrest)
    rw [Workspace.potential_take rate hctx htodo hrest] at hlt
    have hactive := Workspace.length_active_process (w := w.put root { ctx with todo := rest }) rb mode root c
    have hsame : (w.put root { ctx with todo := rest }).active = w.active := rfl
    rw [hsame] at hactive
    refine ⟨hw', ?_⟩
    unfold Workspace.potential at hlt
    unfold Workspace.load
    omega

theorem counted (hm : Measured rb mode rate I) (hw : I w) (h : Counted rb mode w n w') :
    I w' ∧ n + w'.load rate ≤ w.load rate := by
  induction h with
  | start => exact ⟨hw, by omega⟩
  | process _ hstep ih =>
    obtain ⟨hw', hlt⟩ := hm.processes ih.1 hstep
    exact ⟨hw', by omega⟩
  | schedule _ hsame ih =>
    rw [hsame.load_eq rate]
    exact ⟨hm.sameWork hsame ih.1, ih.2⟩

end Measured

namespace Counted

variable {rb : RuleBase} {mode : Mode} {w w' : Workspace} {n : Nat}

theorem iff_steps : Steps rb mode w w' ↔ ∃ n, Counted rb mode w n w' := by
  constructor
  · intro h
    induction h with
    | refl => exact ⟨0, .start⟩
    | tail _ hstep ih =>
      obtain ⟨n, h⟩ := ih
      cases hstep with
      | process hctx htodo hrest => exact ⟨n + 1, h.process (.take hctx htodo hrest)⟩
      | schedule hsame => exact ⟨n, h.schedule hsame⟩
  · rintro ⟨n, h⟩
    induction h with
    | start => exact .refl
    | process _ hstep ih =>
      cases hstep with
      | take hctx htodo hrest => exact ih.tail (.process hctx htodo hrest)
    | schedule _ hsame ih => exact ih.tail (.schedule hsame)

/-- No order makes a run process more conclusions than this. -/
theorem le_workBound (h : Counted rb mode w n w') : n ≤ rb.workBound w := by
  obtain ⟨rate, I, hm, hw, hlt⟩ := RuleBase.exists_measured rb mode w
  have hle := (hm.counted hw h).2
  unfold Workspace.potential at hlt
  unfold Workspace.load at hle
  omega

end Counted

/-- As long as something is left to do, there is a conclusion to process. -/
theorem Processes.exists_of_not_quiet {rb : RuleBase} {mode : Mode} {w : Workspace} (h : ¬ w.Quiet) :
    ∃ w', Processes rb mode w w' := by
  simp only [Workspace.Quiet, not_forall, not_not] at h
  obtain ⟨root, c, ctx, hctx, hc⟩ := h
  obtain ⟨before, after, htodo⟩ := List.append_of_mem hc
  have hrest : (⟨before ++ after, []⟩ : Queue Conclusion).toList = before ++ after := List.append_nil _
  exact ⟨_, .take hctx htodo hrest⟩

/-- Processing one conclusion after the other, one comes to a workspace that has nothing left to do. -/
theorem Processes.exists_quiet (rb : RuleBase) (mode : Mode) (w : Workspace) :
    ∃ w', Relation.ReflTransGen (Processes rb mode) w w' ∧ w'.Quiet := by
  obtain ⟨rate, I, hm, hw, -⟩ := RuleBase.exists_measured rb mode w
  induction hn : w.load rate using Nat.strongRecOn generalizing w with
  | ind n ih =>
    subst hn
    by_cases hquiet : w.Quiet
    · exact ⟨w, .refl, hquiet⟩
    · obtain ⟨w₁, hstep⟩ := exists_of_not_quiet hquiet
      obtain ⟨hw₁, hlt⟩ := hm.processes hw hstep
      obtain ⟨w₂, hsteps, hquiet⟩ := ih _ hlt w₁ hw₁ rfl
      exact ⟨w₂, .head hstep hsteps, hquiet⟩

/-- Every retraction can be completed. -/
theorem exists_retractsTo (rb : RuleBase) (w : Workspace) : ∃ w', RetractsTo rb w w' := by
  obtain ⟨w', hsteps, hquiet⟩ := Processes.exists_quiet rb .retract w
  refine ⟨w', Relation.ReflTransGen.mono (fun _ _ h => ?_) _ _ hsteps, hquiet⟩
  cases h with
  | take hctx htodo hrest => exact .process hctx htodo hrest

end ELOntology
