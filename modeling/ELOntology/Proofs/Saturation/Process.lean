import ELOntology.Proofs.Saturation.Workspace

/-!
# Processing one conclusion

A conclusion is taken from a queue (`Popped`), and then taken in with its productions sent on (`TakenIn`), or given up
with its productions sent on (`GivenUp`).

Key facts: `Popped.put`, `RuleBase.takenIn_process` and `RuleBase.givenUp_process`.
-/

namespace ELOntology

/-! ### Taking from a queue -/

namespace Workspace

variable {w w' : Workspace} {root : ExprId} {c : Conclusion}

/-- What comes next was the oldest conclusion in the queue of the context. -/
theorem next_eq_some (h : w.next root = (some c, w')) : ∃ (ctx : Context) (rest : Queue Conclusion),
    w.context? root = some ctx ∧ ctx.todo.toList = c :: rest.toList ∧ w' = w.put root { ctx with todo := rest } := by
  unfold next at h
  cases hctx : w.context? root with
  | none => rw [hctx] at h; cases h
  | some ctx =>
    rw [hctx] at h
    dsimp only at h
    cases hpop : ctx.todo.pop? with
    | none => rw [hpop] at h; cases h
    | some popped =>
      obtain ⟨d, rest⟩ := popped
      rw [hpop] at h
      cases h
      exact ⟨ctx, rest, rfl, Queue.toList_of_pop? hpop, rfl⟩

/-- Nothing comes next if there is no context or its queue is empty, and nothing changes then. -/
theorem next_eq_none (h : w.next root = (none, w')) :
    w' = w ∧ ∀ ctx, w.context? root = some ctx → ctx.todo.toList = [] := by
  unfold next at h
  cases hctx : w.context? root with
  | none =>
    rw [hctx] at h
    cases h
    exact ⟨rfl, fun ctx e => by cases e⟩
  | some ctx =>
    rw [hctx] at h
    dsimp only at h
    cases hpop : ctx.todo.pop? with
    | none =>
      rw [hpop] at h
      cases h
      exact ⟨rfl, fun ctx' e => Option.some.inj e ▸ Queue.pop?_eq_none_iff.1 hpop⟩
    | some popped => rw [hpop] at h; cases h

/-- The context whose turn it is was the first that waited for its turn. -/
theorem poll_eq_some (h : w.poll = (some root, w')) :
    ∃ rest : Queue ExprId, w.active.toList = root :: rest.toList ∧ w' = { w with active := rest } := by
  unfold poll at h
  cases hpop : w.active.pop? with
  | none => rw [hpop] at h; cases h
  | some popped =>
    rw [hpop] at h
    cases h
    exact ⟨popped.2, Queue.toList_of_pop? hpop, rfl⟩

/-- It is nobody's turn if no context waits for it, and nothing changes then. -/
theorem poll_eq_none (h : w.poll = (none, w')) : w' = w ∧ w.active.toList = [] := by
  unfold poll at h
  cases hpop : w.active.pop? with
  | none =>
    rw [hpop] at h
    cases h
    exact ⟨rfl, Queue.pop?_eq_none_iff.1 hpop⟩
  | some popped => rw [hpop] at h; cases h

end Workspace

/-- `w₀` is `w` without one conclusion that waits at `root`. -/
structure Popped (w : Workspace) (root : ExprId) (c : Conclusion) (w₀ : Workspace) : Prop where
  size : w₀.contexts.size = w.contexts.size
  waits : w.Waits root c
  has (other : ExprId) : w₀.Has other ↔ w.Has other
  stores (other : ExprId) (d : Conclusion) : w₀.Stores other d ↔ w.Stores other d
  waits_of {other : ExprId} {d : Conclusion} : w₀.Waits other d → w.Waits other d
  waits_or {other : ExprId} {d : Conclusion} : w.Waits other d → w₀.Waits other d ∨ other = root ∧ d = c

/-- Any conclusion of the queue of a context may be taken. -/
theorem Popped.put {w : Workspace} {root : ExprId} {ctx : Context} {c : Conclusion} {before after : List Conclusion}
    {rest : Queue Conclusion} (hctx : w.context? root = some ctx) (htodo : ctx.todo.toList = before ++ c :: after)
    (hrest : rest.toList = before ++ after) : Popped w root c (w.put root { ctx with todo := rest }) := by
  have hlt : root.val < w.contexts.size := Workspace.Has.lt_size ⟨ctx, hctx⟩
  have hput (other : ExprId) := Workspace.context?_put hlt { ctx with todo := rest } other
  refine ⟨Workspace.size_put _, ⟨ctx, hctx, by simp [htodo]⟩, fun other => ?_, fun other d => ?_, fun {other d} h => ?_,
    fun {other d} h => ?_⟩
  · unfold Workspace.Has
    rw [hput]
    by_cases e : other = root <;> simp [e, hctx]
  · unfold Workspace.Stores
    rw [hput]
    by_cases e : other = root <;> simp [e, hctx]
  · unfold Workspace.Waits at h ⊢
    rw [hput] at h
    by_cases e : other = root
    · subst e
      obtain ⟨_, e, hd⟩ := h
      rw [if_pos rfl] at e
      cases e
      refine ⟨ctx, hctx, ?_⟩
      rw [hrest] at hd
      rw [htodo]
      grind
    · rwa [if_neg e] at h
  · unfold Workspace.Waits at h ⊢
    rw [hput]
    by_cases e : other = root
    · subst e
      obtain ⟨ctx', hctx', hd⟩ := h
      obtain rfl := Option.some.inj (hctx'.symm.trans hctx)
      rw [if_pos rfl]
      rw [htodo] at hd
      by_cases e : d = c
      · exact .inr ⟨rfl, e⟩
      · refine .inl ⟨_, rfl, ?_⟩
        rw [hrest]
        grind
    · rw [if_neg e]
      exact .inl h

theorem Popped.next {w w₀ : Workspace} {root : ExprId} {c : Conclusion} (h : w.next root = (some c, w₀)) :
    Popped w root c w₀ := by
  obtain ⟨ctx, rest, hctx, htodo, rfl⟩ := Workspace.next_eq_some h
  have htake : ctx.todo.toList = [] ++ c :: rest.toList := htodo
  exact .put hctx htake rfl

/-! ### Processing a conclusion -/

/-- `w'` is `w₀` after a conclusion was taken in at `root` and the productions were sent. -/
structure TakenIn (w₀ : Workspace) (root : ExprId) (c : Conclusion) (productions : List Production) (w' : Workspace) :
    Prop where
  size : w'.contexts.size = w₀.contexts.size
  has (other : ExprId) :
    w'.Has other ↔ w₀.Has other ∨ ((∃ d, (other, d) ∈ productions) ∧ other.val < w₀.contexts.size)
  stores (other : ExprId) (d : Conclusion) :
    w'.Stores other d ↔ w₀.Stores other d ∨ (other = root ∧ c.isStorable = true ∧ d.unsigned = c.unsigned)
  waits (other : ExprId) (d : Conclusion) :
    w'.Waits other d ↔ w₀.Waits other d ∨ ((other, d) ∈ productions ∧ other.val < w₀.contexts.size) ∨
      (d = .init ∧ ¬ w₀.Has other ∧ w'.Has other)

/-- `w'` is `w₀` after a stored conclusion was given up at `root` and the productions were sent. -/
structure GivenUp (w₀ : Workspace) (root : ExprId) (c : Conclusion) (productions : List Production) (w' : Workspace) :
    Prop where
  size : w'.contexts.size = w₀.contexts.size
  has (other : ExprId) : w'.Has other ↔ w₀.Has other
  stores (other : ExprId) (d : Conclusion) :
    w'.Stores other d ↔ w₀.Stores other d ∧ ¬ (other = root ∧ d.unsigned = c.unsigned)
  waits (other : ExprId) (d : Conclusion) :
    w'.Waits other d ↔ w₀.Waits other d ∨ ((other, d) ∈ productions ∧ w₀.Has other)

namespace RuleBase

variable {rb : RuleBase} {w₀ : Workspace} {root : ExprId} {c : Conclusion}

theorem process_derive_of_stores (h : w₀.Stores root c) : (rb.process .derive root c w₀).2 = w₀ := by
  obtain ⟨ctx, hctx, hc⟩ := h
  rw [process_derive hctx, if_pos hc]

/-- A conclusion that is not stored yet is taken in. -/
theorem takenIn_process (rb : RuleBase) {ctx : Context} (hctx : w₀.context? root = some ctx) (hc : ctx.facts.contains c = false) :
    TakenIn w₀ root c (rb.productions .derive root (ctx.facts.insert c) c) (rb.process .derive root c w₀).2 := by
  have hlt : root.val < w₀.contexts.size := Workspace.Has.lt_size ⟨ctx, hctx⟩
  have htake : (rb.process .derive root c w₀).2 = rb.takeIn root ctx c w₀ := by
    rw [process_derive hctx, if_neg (Bool.eq_false_iff.1 hc)]
  rw [takeIn] at htake
  generalize rb.productions .derive root (ctx.facts.insert c) c = productions at htake ⊢
  generalize hw₁ : (w₀.put root { ctx with facts := ctx.facts.insert c, saturated := false }).observe
    ⟨root, c, .derive⟩ = w₁ at htake
  have hcontext (other : ExprId) : w₁.context? other =
      if other = root then some { ctx with facts := ctx.facts.insert c, saturated := false }
      else w₀.context? other := by
    rw [← hw₁]
    exact Workspace.context?_put hlt _ _
  have hsize : w₁.contexts.size = w₀.contexts.size := by
    rw [← hw₁]
    exact Workspace.size_put _
  have hhas (other : ExprId) : w₁.Has other ↔ w₀.Has other := by
    unfold Workspace.Has
    rw [hcontext]
    by_cases e : other = root <;> simp [e, hctx]
  have hstores (other : ExprId) (d : Conclusion) : w₁.Stores other d ↔
      w₀.Stores other d ∨ (other = root ∧ c.isStorable = true ∧ d.unsigned = c.unsigned) := by
    unfold Workspace.Stores
    rw [hcontext]
    by_cases e : other = root
    · simp [e, hctx, or_comm]
    · simp [e]
  have hwaits (other : ExprId) (d : Conclusion) : w₁.Waits other d ↔ w₀.Waits other d := by
    unfold Workspace.Waits
    rw [hcontext]
    by_cases e : other = root <;> simp [e, hctx]
  rw [htake]
  refine ⟨?_, fun other => ?_, fun other d => ?_, fun other d => ?_⟩
  · rw [Workspace.size_sendAll, hsize]
  · rw [Workspace.has_sendAll_derive, hhas, hsize]
  · rw [Workspace.stores_sendAll, hstores]
  · rw [Workspace.waits_sendAll_derive, hwaits, hhas, hsize]

/-- A conclusion that is not stored cannot be given up. -/
theorem process_retract_of_not_stores (h : ¬ w₀.Stores root c) : (rb.process .retract root c w₀).2 = w₀ := by
  cases hctx : w₀.context? root with
  | none => rw [process_of_none hctx]
  | some ctx =>
    rw [Workspace.stores_of_context? hctx] at h
    rw [process_retract hctx, if_neg h]

/-- A stored conclusion is given up. -/
theorem givenUp_process (rb : RuleBase) {ctx : Context} (hctx : w₀.context? root = some ctx) (hc : ctx.facts.contains c = true) :
    GivenUp w₀ root c (rb.productions .retract root ctx.facts c) (rb.process .retract root c w₀).2 := by
  have hgive : (rb.process .retract root c w₀).2 = rb.giveUp root ctx c w₀ := by
    rw [process_retract hctx, if_pos hc]
  rw [giveUp] at hgive
  generalize rb.productions .retract root ctx.facts c = productions at hgive ⊢
  have hsame : w₀.contexts = (w₀.observe ⟨root, c, .retract⟩).contexts := rfl
  generalize w₀.observe ⟨root, c, .retract⟩ = w₁ at hgive hsame
  have hcontext (other : ExprId) : w₁.context? other = w₀.context? other := Workspace.context?_congr hsame.symm
  have hsize : w₁.contexts.size = w₀.contexts.size := congrArg Array.size hsame.symm
  have hhas {other : ExprId} : w₁.Has other ↔ w₀.Has other := by rw [Workspace.Has, hcontext, Workspace.Has]
  have hstores {other : ExprId} {d : Conclusion} : w₁.Stores other d ↔ w₀.Stores other d := by
    rw [Workspace.Stores, hcontext, Workspace.Stores]
  have hwaits {other : ExprId} {d : Conclusion} : w₁.Waits other d ↔ w₀.Waits other d := by
    rw [Workspace.Waits, hcontext, Workspace.Waits]
  rw [hgive]
  refine ⟨?_, fun other => ?_, fun other d => ?_, fun other d => ?_⟩
  · rw [Workspace.size_markModified, Workspace.size_update, Workspace.size_sendAll, hsize]
  · rw [Workspace.has_markModified, Workspace.has_update, Workspace.has_sendAll_retract, hhas]
  · rw [Workspace.stores_markModified, Workspace.stores_erase, Workspace.stores_sendAll, hstores]
  · rw [Workspace.waits_markModified]
    refine Iff.trans (by exact Workspace.waits_update _ fun _ => rfl) ?_
    rw [Workspace.waits_sendAll_retract, hwaits, hhas]

end RuleBase

end ELOntology
