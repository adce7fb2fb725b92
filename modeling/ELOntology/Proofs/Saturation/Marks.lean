import ELOntology.Proofs.Saturation.Steps

/-!
# Contexts that have lost a conclusion

A context that has lost a conclusion is marked and waits, once, in the queue of modified contexts until it is taken from
there (`Marked`).  Derivation marks nothing, and retraction marks each context that gives a conclusion up.

Key facts: `Marked.process` and `mem_modified_process`.
-/

namespace ELOntology

namespace Workspace

/-- Whether the context of a root is marked as modified. -/
def mark? (w : Workspace) (root : ExprId) : Option Bool := (w.context? root).map (·.modified)

/-- The marked contexts are those in the queue of modified contexts. -/
structure Marked (w : Workspace) : Prop where
  flagged (root : ExprId) : w.mark? root = some true ↔ root ∈ w.modified.toList
  nodup : w.modified.toList.Nodup

variable {w w' : Workspace} {root other : ExprId} {c : Conclusion}

theorem Marked.congr (h : w.Marked) (hmodified : w'.modified = w.modified)
    (hmarks : ∀ root, w'.mark? root = some true ↔ w.mark? root = some true) : w'.Marked :=
  ⟨fun root => by rw [hmarks, hmodified]; exact h.flagged root, hmodified ▸ h.nodup⟩

theorem Marked.has (h : w.Marked) (hroot : root ∈ w.modified.toList) : w.Has root := by
  obtain ⟨ctx, hctx, -⟩ := Option.map_eq_some_iff.1 ((h.flagged root).2 hroot)
  exact ⟨ctx, hctx⟩

theorem Marked.of_no_contexts (h : ∀ root, ¬ w.Has root) (hmodified : w.modified.toList = []) : w.Marked := by
  refine ⟨fun root => ?_, hmodified ▸ List.nodup_nil⟩
  rw [mark?, not_has_iff.1 (h root), hmodified]
  simp

theorem Marked.sameWork (h : w.Marked) (hsame : w.SameWork w') : w'.Marked := by
  refine h.congr hsame.modified fun root => ?_
  have hcontext := congrArg (Option.map fun x : Facts × List Conclusion × Bool => x.2.2) (hsame.context? root)
  rw [Option.map_map, Option.map_map] at hcontext
  exact iff_of_eq (congrArg (· = some true) hcontext)

/-! ### Operations that mark nothing -/

theorem mark?_update {f : Context → Context} (hf : ∀ ctx, (f ctx).modified = ctx.modified) :
    (w.update root f).mark? other = w.mark? other := by
  rw [mark?, context?_update, mark?]
  split <;> rename_i e
  · rw [e, Option.map_map]
    exact congrArg (Option.map · _) (funext hf)
  · rfl

theorem mark?_put {ctx ctx' : Context} (hctx : w.context? root = some ctx) (hflag : ctx'.modified = ctx.modified) :
    (w.put root ctx').mark? other = w.mark? other := by
  rw [mark?, context?_put (Has.lt_size ⟨ctx, hctx⟩), mark?]
  split <;> rename_i e
  · rw [e, hctx, Option.map_some, Option.map_some, hflag]
  · rfl

theorem mark?_enqueue : (w.enqueue root c).mark? other = w.mark? other := by
  rw [mark?, context?_enqueue, mark?]
  split <;> rename_i e
  · rw [e, Option.map_map]
    rfl
  · rfl

theorem mark?_ensure : (w.ensure root).mark? other = some true ↔ w.mark? other = some true := by
  by_cases hhas : w.Has root
  · rw [ensure_of_has hhas]
  by_cases hlt : root.val < w.contexts.size
  · rw [mark?, context?_ensure_new hhas hlt, context?_enqueue, context?_put hlt, context?_put hlt, mark?]
    split <;> rename_i e
    · rw [e, not_has_iff.1 hhas]
      simp [Context.new]
    · rfl
  · rw [ensure_of_not_lt hlt]

@[simp] theorem modified_ensure : (w.ensure root).modified = w.modified := by
  obtain e | ⟨-, -, e⟩ := w.ensure_cases root <;> rw [e]
  exact modified_enqueue

@[simp] theorem modified_sendAll (mode : Mode) (productions : List Production) :
    (RuleBase.sendAll mode productions w).modified = w.modified := by
  induction productions generalizing w with
  | nil => rfl
  | cons p ps ih =>
    rw [sendAll_cons, ih]
    cases mode <;> simp [send]

theorem mark?_sendAll (mode : Mode) (productions : List Production) :
    (RuleBase.sendAll mode productions w).mark? other = some true ↔ w.mark? other = some true := by
  induction productions generalizing w with
  | nil => rfl
  | cons p ps ih =>
    rw [sendAll_cons, ih]
    cases mode with
    | derive => rw [send, mark?_enqueue, mark?_ensure]
    | retract => rw [send, mark?_enqueue]

theorem Marked.sendAll (h : w.Marked) (mode : Mode) (productions : List Production) :
    (RuleBase.sendAll mode productions w).Marked :=
  h.congr (modified_sendAll mode productions) fun _ => mark?_sendAll mode productions

/-! ### Marking -/

theorem Marked.markModified (h : w.Marked) (root : ExprId) : (w.markModified root).Marked := by
  have hmark (other : ExprId) : (w.markModified root).mark? other =
      if other = root then (w.mark? root).map fun _ => true else w.mark? other := by
    rw [mark?, context?_markModified, context?_update, mark?]
    split <;> simp [mark?, Option.map_map, Function.comp_def]
  cases hctx : w.context? root with
  | none =>
    have hsame : w.markModified root = w := by simp [Workspace.markModified, hctx]
    rwa [hsame]
  | some ctx =>
    have hroot : w.mark? root = some ctx.modified := by simp [mark?, hctx]
    have hflagged := h.flagged root
    rw [hroot] at hflagged
    cases hflag : ctx.modified with
    | true =>
      have hmodified : (w.markModified root).modified = w.modified := by
        simp [Workspace.markModified, hctx, hflag, put]
      rw [hflag] at hflagged hroot
      refine h.congr hmodified fun other => ?_
      rw [hmark]
      by_cases e : other = root <;> simp [e, hroot]
    | false =>
      have hmodified : (w.markModified root).modified.toList = w.modified.toList ++ [root] := by
        simp [Workspace.markModified, hctx, hflag, put]
      rw [hflag] at hflagged hroot
      have hnew : root ∉ w.modified.toList := fun hmem => by cases hflagged.2 hmem
      refine ⟨fun other => ?_, ?_⟩
      · rw [hmark, hmodified, List.mem_append, List.mem_singleton]
        by_cases e : other = root
        · simp [e, hroot]
        · rw [if_neg e, h.flagged other]
          simp [e]
      · rw [hmodified]
        exact List.nodup_append.2 ⟨h.nodup, List.pairwise_singleton _ root, by
          intro a ha b hb e
          rw [List.mem_singleton.1 hb] at e
          exact hnew (e ▸ ha)⟩

theorem mem_modified_markModified (h : other ∈ w.modified.toList) : other ∈ (w.markModified root).modified.toList := by
  unfold markModified
  split
  · exact h
  · dsimp only
    split
    · exact h
    · simpa [put] using Or.inl h

theorem mem_modified_markModified_self (hw : w.Marked) (h : w.Has root) :
    root ∈ (w.markModified root).modified.toList := by
  refine ((hw.markModified root).flagged root).1 ?_
  obtain ⟨ctx, hctx⟩ := h
  rw [mark?, context?_markModified, context?_update, if_pos rfl, hctx]
  rfl

/-! ### Processing a conclusion -/

theorem Marked.popped {ctx : Context} {rest : Queue Conclusion} (h : w.Marked) (hctx : w.context? root = some ctx) :
    (w.put root { ctx with todo := rest }).Marked :=
  h.congr rfl fun _ => iff_of_eq (congrArg (· = some true) (mark?_put hctx rfl))

private theorem Marked.observe (h : w.Marked) (inference : Inference) : (w.observe inference).Marked :=
  h.congr rfl fun _ => Iff.rfl

/-- Before the context is noted, nothing that it gives up changes the marks. -/
private theorem Marked.erased (h : w.Marked) (inference : Inference) (productions : List Production) :
    ((RuleBase.sendAll .retract productions (w.observe inference)).update root
      fun ctx => { ctx with facts := ctx.facts.erase c }).Marked := by
  refine ((h.observe inference).sendAll .retract productions).congr (modified_update _) fun other => ?_
  exact iff_of_eq (congrArg (· = some true)
    (mark?_update (f := fun ctx => { ctx with facts := ctx.facts.erase c }) fun _ => rfl))

theorem Marked.process (h : w.Marked) (rb : RuleBase) (mode : Mode) (root : ExprId) (c : Conclusion) :
    (rb.process mode root c w).2.Marked := by
  obtain e | ⟨ctx, -, hctx, -, e⟩ | ⟨ctx, -, -, -, e⟩ := rb.process_cases mode root c w <;> rw [e]
  · exact h
  · have hput : (w.put root { ctx with facts := ctx.facts.insert c, saturated := false }).Marked :=
      h.congr rfl fun other => iff_of_eq (congrArg (· = some true) (mark?_put hctx rfl))
    exact (hput.observe ⟨root, c, .derive⟩).sendAll .derive _
  · exact (h.erased ⟨root, c, .retract⟩ _).markModified root

/-- A context that gives a conclusion up is marked, and no mark is lost. -/
theorem mem_modified_process {rb : RuleBase} (hw : w.Marked)
    (h : other ∈ w.modified.toList ∨ other = root ∧ w.Stores root c) :
    other ∈ (rb.process .retract root c w).2.modified.toList := by
  by_cases hstored : w.Stores root c
  · obtain ⟨ctx, hctx, hc⟩ := hstored
    rw [RuleBase.process_retract hctx, if_pos hc, RuleBase.giveUp]
    rcases h with h | ⟨rfl, -⟩
    · refine mem_modified_markModified ?_
      rw [modified_update, modified_sendAll]
      exact h
    · exact mem_modified_markModified_self (hw.erased _ _) ((has_update _).2 ((has_sendAll_retract _).2 ⟨ctx, hctx⟩))
  · rw [RuleBase.process_retract_of_not_stores hstored]
    exact h.resolve_right fun h => hstored h.2

end Workspace

end ELOntology
