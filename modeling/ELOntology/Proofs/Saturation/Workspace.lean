import ELOntology.Saturation.Run

/-!
# What a workspace stores and has to do

Three predicates say all about a workspace that derivation depends on: which roots have a context (`Has`), what is stored
there (`Stores`) and what waits there to be processed (`Waits`).  Key facts: how each operation on workspaces acts on
them, up to sending many productions (`waits_sendAll_derive`, `waits_sendAll_retract`).
-/

namespace ELOntology

namespace Workspace

/-- The root has a context. -/
def Has (w : Workspace) (root : ExprId) : Prop := ∃ ctx, w.context? root = some ctx

/-- The context of the root stores the conclusion, whatever its polarity. -/
def Stores (w : Workspace) (root : ExprId) (c : Conclusion) : Prop :=
  ∃ ctx, w.context? root = some ctx ∧ ctx.facts.contains c = true

/-- The conclusion waits in the context of the root. -/
def Waits (w : Workspace) (root : ExprId) (c : Conclusion) : Prop :=
  ∃ ctx, w.context? root = some ctx ∧ c ∈ ctx.todo.toList

variable {w : Workspace} {root other : ExprId} {c d : Conclusion}

instance : Decidable (w.Has root) := decidable_of_iff ((w.context? root).isSome = true) Option.isSome_iff_exists

instance : Decidable (w.Stores root c) :=
  decidable_of_iff ((w.context? root).any (·.facts.contains c) = true) (by simp [Stores, Option.any_eq_true])

instance : Decidable (w.Waits root c) :=
  decidable_of_iff ((w.context? root).any (c ∈ ·.todo.toList) = true) (by simp [Waits, Option.any_eq_true])

theorem Stores.has (h : w.Stores root c) : w.Has root := by
  obtain ⟨ctx, hctx, -⟩ := h
  exact ⟨ctx, hctx⟩

theorem Waits.has (h : w.Waits root c) : w.Has root := by
  obtain ⟨ctx, hctx, -⟩ := h
  exact ⟨ctx, hctx⟩

theorem has_or_none (w : Workspace) (root : ExprId) : w.Has root ∨ w.context? root = none := by
  unfold Has
  cases w.context? root <;> simp

theorem not_has_iff : ¬ w.Has root ↔ w.context? root = none := by
  unfold Has
  cases w.context? root <;> simp

theorem stores_unsigned : w.Stores root c.unsigned ↔ w.Stores root c := by
  cases c <;> exact Iff.rfl

theorem Stores.isStorable (h : w.Stores root c) : c.isStorable = true := by
  obtain ⟨ctx, -, hc⟩ := h
  cases c <;> first | rfl | cases hc

theorem stores_of_context? {ctx : Context} (h : w.context? root = some ctx) :
    w.Stores root c ↔ ctx.facts.contains c = true := by
  simp [Stores, h]

theorem Has.lt_size (h : w.Has root) : root.val < w.contexts.size := by
  obtain ⟨ctx, h⟩ := h
  refine Nat.lt_of_not_le fun hle => ?_
  rw [context?, Array.getElem?_eq_none hle] at h
  cases h

/-! ### Replacing one context -/

@[simp] theorem size_put (ctx : Context) : (w.put root ctx).contexts.size = w.contexts.size := by
  simp [put]

theorem context?_put (h : root.val < w.contexts.size) (ctx : Context) (other : ExprId) :
    (w.put root ctx).context? other = if other = root then some ctx else w.context? other := by
  unfold put context?
  by_cases e : other = root
  · subst e
    simp [h]
  · have hne : root.val ≠ other.val := fun hval => e (ExprId.ext hval.symm)
    simp [e, hne]

theorem context?_put_self (h : root.val < w.contexts.size) (ctx : Context) :
    (w.put root ctx).context? root = some ctx := by
  rw [context?_put h, if_pos rfl]

theorem context?_update (f : Context → Context) :
    (w.update root f).context? other = if other = root then (w.context? root).map f else w.context? other := by
  unfold update
  split <;> rename_i h
  · rename_i ctx
    rw [context?_put (Has.lt_size ⟨ctx, h⟩), h]
    rfl
  · by_cases e : other = root
    · subst e
      simp [h]
    · simp [e]

@[simp] theorem size_update (f : Context → Context) : (w.update root f).contexts.size = w.contexts.size := by
  unfold update
  split <;> simp

/-- Only the contexts change. -/
theorem update_eq (w : Workspace) (root : ExprId) (f : Context → Context) :
    w.update root f = { w with contexts := (w.update root f).contexts } := by
  unfold update
  split <;> rfl

@[simp] theorem active_update (f : Context → Context) : (w.update root f).active = w.active := by
  rw [update_eq]

@[simp] theorem modified_update (f : Context → Context) : (w.update root f).modified = w.modified := by
  rw [update_eq]

theorem context?_congr {w' : Workspace} (h : w'.contexts = w.contexts) : w'.context? root = w.context? root := by
  rw [context?, context?, h]

theorem has_update (f : Context → Context) : (w.update root f).Has other ↔ w.Has other := by
  unfold Has
  rw [context?_update]
  split <;> rename_i e
  · rw [e]
    cases w.context? root <;> simp
  · rfl

theorem waits_update (f : Context → Context) (hf : ∀ ctx, (f ctx).todo = ctx.todo) :
    (w.update root f).Waits other d ↔ w.Waits other d := by
  unfold Waits
  rw [context?_update]
  split <;> rename_i e
  · rw [e]
    cases w.context? root <;> simp [hf]
  · rfl

theorem stores_update (f : Context → Context) (hf : ∀ ctx, (f ctx).facts = ctx.facts) :
    (w.update root f).Stores other d ↔ w.Stores other d := by
  unfold Stores
  rw [context?_update]
  split <;> rename_i e
  · rw [e]
    cases w.context? root <;> simp [hf]
  · rfl

theorem stores_erase : (w.update root fun ctx => { ctx with facts := ctx.facts.erase c }).Stores other d ↔
    w.Stores other d ∧ ¬ (other = root ∧ d.unsigned = c.unsigned) := by
  unfold Stores
  rw [context?_update]
  split <;> rename_i e
  · rw [e]
    cases w.context? root <;> simp [and_comm]
  · simp [e]

/-! ### Noting that a context has lost a conclusion -/

/-- The context is flagged, and may join the queue of modified contexts. -/
theorem exists_markModified_eq (w : Workspace) (root : ExprId) : ∃ modified, w.markModified root =
    { w.update root fun ctx => { ctx with saturated := false, modified := true } with modified } := by
  unfold markModified update
  cases w.context? root with
  | none => exact ⟨_, rfl⟩
  | some ctx =>
    dsimp only
    split <;> exact ⟨_, rfl⟩

theorem context?_markModified : (w.markModified root).context? other =
    (w.update root fun ctx => { ctx with saturated := false, modified := true }).context? other := by
  obtain ⟨_, e⟩ := w.exists_markModified_eq root
  rw [e]
  rfl

theorem has_markModified : (w.markModified root).Has other ↔ w.Has other := by
  rw [Has, context?_markModified, ← Has, has_update]

theorem stores_markModified : (w.markModified root).Stores other d ↔ w.Stores other d := by
  rw [Stores, context?_markModified, ← Stores]
  exact stores_update _ fun _ => rfl

theorem waits_markModified : (w.markModified root).Waits other d ↔ w.Waits other d := by
  rw [Waits, context?_markModified, ← Waits]
  exact waits_update _ fun _ => rfl

/-! ### Giving a context something to do -/

/-- The context gets the conclusion and is active, and may join the queue of active contexts. -/
theorem exists_enqueue_eq (w : Workspace) (root : ExprId) (c : Conclusion) : ∃ active, w.enqueue root c =
    { w.update root fun ctx => { ctx with todo := ctx.todo.push c, active := true } with active } := by
  unfold enqueue update
  cases w.context? root with
  | none => exact ⟨_, rfl⟩
  | some ctx =>
    dsimp only
    split <;> exact ⟨_, rfl⟩

theorem context?_enqueue : (w.enqueue root c).context? other =
    if other = root then (w.context? root).map fun ctx => { ctx with todo := ctx.todo.push c, active := true }
    else w.context? other := by
  obtain ⟨_, e⟩ := w.exists_enqueue_eq root c
  rw [e]
  exact context?_update _

@[simp] theorem size_enqueue : (w.enqueue root c).contexts.size = w.contexts.size := by
  obtain ⟨_, e⟩ := w.exists_enqueue_eq root c
  rw [e]
  exact size_update _

@[simp] theorem modified_enqueue : (w.enqueue root c).modified = w.modified := by
  obtain ⟨_, e⟩ := w.exists_enqueue_eq root c
  rw [e]
  exact modified_update _

theorem has_enqueue : (w.enqueue root c).Has other ↔ w.Has other := by
  unfold Has
  rw [context?_enqueue]
  split
  · rename_i e
    subst e
    cases w.context? other <;> simp
  · rfl

theorem stores_enqueue : (w.enqueue root c).Stores other d ↔ w.Stores other d := by
  unfold Stores
  rw [context?_enqueue]
  split
  · rename_i e
    subst e
    cases w.context? other <;> simp
  · rfl

theorem waits_enqueue : (w.enqueue root c).Waits other d ↔
    w.Waits other d ∨ (other = root ∧ d = c ∧ w.Has root) := by
  unfold Waits Has
  rw [context?_enqueue]
  by_cases e : other = root
  · subst e
    cases w.context? other <;> simp
  · simp [e]

/-! ### Creating contexts -/

/-- Nothing happens, or the context is created and told to start. -/
theorem ensure_cases (w : Workspace) (root : ExprId) : w.ensure root = w ∨
    w.context? root = none ∧ root.val < w.contexts.size ∧ w.ensure root =
      { (w.put root .new).enqueue root .init with
        monitor := ((w.put root .new).enqueue root .init).monitor.created } := by
  unfold ensure
  cases w.context? root with
  | some ctx => exact .inl rfl
  | none =>
    dsimp only
    split <;> rename_i hlt
    · exact .inr ⟨rfl, hlt, rfl⟩
    · exact .inl rfl

theorem ensure_of_has (h : w.Has root) : w.ensure root = w := by
  obtain ⟨ctx, h⟩ := h
  simp [ensure, h]

theorem ensure_of_not_lt (h : ¬ root.val < w.contexts.size) : w.ensure root = w := by
  rcases w.has_or_none root with hhas | hnone
  · exact ensure_of_has hhas
  · simp [ensure, hnone, h]

theorem context?_ensure_new (h : ¬ w.Has root) (hlt : root.val < w.contexts.size) :
    (w.ensure root).context? other = ((w.put root .new).enqueue root .init).context? other := by
  unfold ensure
  rw [not_has_iff.1 h]
  dsimp only
  rw [if_pos hlt]
  rfl

@[simp] theorem size_ensure : (w.ensure root).contexts.size = w.contexts.size := by
  obtain e | ⟨-, -, e⟩ := w.ensure_cases root <;> rw [e]
  simp

theorem has_ensure : (w.ensure root).Has other ↔ w.Has other ∨ (other = root ∧ root.val < w.contexts.size) := by
  by_cases hhas : w.Has root
  · rw [ensure_of_has hhas]
    exact ⟨.inl, fun h => h.elim id fun h => h.1 ▸ hhas⟩
  by_cases hlt : root.val < w.contexts.size
  · have e : (w.ensure root).Has other ↔ ((w.put root .new).enqueue root .init).Has other := by
      unfold Has
      rw [context?_ensure_new hhas hlt]
    rw [e, has_enqueue]
    unfold Has
    rw [context?_put hlt]
    by_cases e : other = root <;> simp [e, hlt]
  · rw [ensure_of_not_lt hlt]
    simp [hlt]

theorem stores_ensure : (w.ensure root).Stores other d ↔ w.Stores other d := by
  by_cases hhas : w.Has root
  · rw [ensure_of_has hhas]
  by_cases hlt : root.val < w.contexts.size
  · have e : (w.ensure root).Stores other d ↔ ((w.put root .new).enqueue root .init).Stores other d := by
      unfold Stores
      rw [context?_ensure_new hhas hlt]
    rw [e, stores_enqueue]
    unfold Stores
    rw [context?_put hlt]
    by_cases e : other = root
    · subst e
      simp [not_has_iff.1 hhas, Context.new]
    · simp [e]
  · rw [ensure_of_not_lt hlt]

theorem waits_ensure : (w.ensure root).Waits other d ↔
    w.Waits other d ∨ (other = root ∧ d = .init ∧ ¬ w.Has root ∧ root.val < w.contexts.size) := by
  by_cases hhas : w.Has root
  · rw [ensure_of_has hhas]
    simp [hhas]
  by_cases hlt : root.val < w.contexts.size
  · have e : (w.ensure root).Waits other d ↔ ((w.put root .new).enqueue root .init).Waits other d := by
      unfold Waits
      rw [context?_ensure_new hhas hlt]
    have hput : (w.put root .new).Has root := ⟨_, context?_put_self hlt _⟩
    rw [e, waits_enqueue]
    simp only [hput, hhas, hlt, and_true, not_false_eq_true]
    unfold Waits
    rw [context?_put hlt]
    by_cases e : other = root
    · subst e
      simp [not_has_iff.1 hhas, Context.new]
    · simp [e]
  · rw [ensure_of_not_lt hlt]
    simp [hlt]

/-! ### Sending productions -/

@[simp] theorem size_send (mode : Mode) : (w.send mode root c).contexts.size = w.contexts.size := by
  cases mode <;> simp [send]

@[simp] theorem size_sendAll (mode : Mode) (productions : List Production) :
    (RuleBase.sendAll mode productions w).contexts.size = w.contexts.size := by
  induction productions generalizing w with
  | nil => rfl
  | cons p ps ih =>
    rw [RuleBase.sendAll, List.foldl_cons]
    exact ih.trans (size_send mode)

theorem sendAll_cons (mode : Mode) (p : Production) (ps : List Production) :
    RuleBase.sendAll mode (p :: ps) w = RuleBase.sendAll mode ps (w.send mode p.1 p.2) := rfl

theorem stores_sendAll (mode : Mode) (productions : List Production) :
    (RuleBase.sendAll mode productions w).Stores other d ↔ w.Stores other d := by
  induction productions generalizing w with
  | nil => rfl
  | cons p ps ih =>
    rw [sendAll_cons, ih]
    cases mode with
    | derive => rw [send, stores_enqueue, stores_ensure]
    | retract => rw [send, stores_enqueue]

theorem has_sendAll_retract (productions : List Production) :
    (RuleBase.sendAll .retract productions w).Has other ↔ w.Has other := by
  induction productions generalizing w with
  | nil => rfl
  | cons p ps ih => rw [sendAll_cons, ih, send, has_enqueue]

theorem waits_sendAll_retract (productions : List Production) :
    (RuleBase.sendAll .retract productions w).Waits other d ↔
      w.Waits other d ∨ ((other, d) ∈ productions ∧ w.Has other) := by
  induction productions generalizing w with
  | nil => simp [RuleBase.sendAll]
  | cons p ps ih =>
    rw [sendAll_cons, ih, send, waits_enqueue, has_enqueue, List.mem_cons, Prod.ext_iff]
    constructor
    · rintro ((h | ⟨rfl, rfl, h⟩) | ⟨h, hhas⟩)
      · exact .inl h
      · exact .inr ⟨.inl ⟨rfl, rfl⟩, h⟩
      · exact .inr ⟨.inr h, hhas⟩
    · rintro (h | ⟨⟨rfl, rfl⟩ | h, hhas⟩)
      · exact .inl (.inl h)
      · exact .inl (.inr ⟨rfl, rfl, hhas⟩)
      · exact .inr ⟨h, hhas⟩

theorem has_sendAll_derive (productions : List Production) :
    (RuleBase.sendAll .derive productions w).Has other ↔
      w.Has other ∨ ((∃ d, (other, d) ∈ productions) ∧ other.val < w.contexts.size) := by
  induction productions generalizing w with
  | nil => simp [RuleBase.sendAll]
  | cons p ps ih =>
    rw [sendAll_cons, ih, size_send, send, has_enqueue, has_ensure]
    simp only [List.mem_cons, Prod.ext_iff]
    constructor
    · rintro ((h | ⟨rfl, hlt⟩) | ⟨⟨d, h⟩, hlt⟩)
      · exact .inl h
      · exact .inr ⟨⟨p.2, .inl ⟨rfl, rfl⟩⟩, hlt⟩
      · exact .inr ⟨⟨d, .inr h⟩, hlt⟩
    · rintro (h | ⟨⟨d, ⟨rfl, -⟩ | h⟩, hlt⟩)
      · exact .inl (.inl h)
      · exact .inl (.inr ⟨rfl, hlt⟩)
      · exact .inr ⟨⟨d, h⟩, hlt⟩

/-- Sending leaves the facts of a context alone. -/
theorem exists_context_sendAll_retract {ctx : Context} (h : w.context? root = some ctx)
    (productions : List Production) :
    ∃ ctx', (RuleBase.sendAll .retract productions w).context? root = some ctx' ∧ ctx'.facts = ctx.facts := by
  obtain ⟨ctx', hctx'⟩ := (has_sendAll_retract (w := w) productions).2 ⟨ctx, h⟩
  refine ⟨ctx', hctx', Facts.ext fun d => Bool.eq_iff_iff.2 ?_⟩
  rw [← stores_of_context? hctx', stores_sendAll, stores_of_context? h]

/-- After derivations have been sent there waits what has waited, what was sent within the table, and the start of each
context that was created. -/
theorem waits_sendAll_derive (productions : List Production) :
    (RuleBase.sendAll .derive productions w).Waits other d ↔
      w.Waits other d ∨ ((other, d) ∈ productions ∧ other.val < w.contexts.size) ∨
        (d = .init ∧ ¬ w.Has other ∧ (RuleBase.sendAll .derive productions w).Has other) := by
  induction productions generalizing w with
  | nil =>
    simp only [RuleBase.sendAll, List.foldl_nil, List.not_mem_nil, false_and, false_or]
    exact ⟨.inl, fun h => h.elim id fun h => absurd h.2.2 h.2.1⟩
  | cons p ps ih =>
    simp only [sendAll_cons, ih, has_sendAll_derive, send, waits_enqueue, waits_ensure, has_enqueue, has_ensure,
      size_enqueue, size_ensure, List.mem_cons, Prod.ext_iff]
    have hlt : w.Has p.1 → p.1.val < w.contexts.size := Has.lt_size
    by_cases e : other = p.1
    · subst e
      grind
    · simp [e]

@[simp] theorem size_markModified : (w.markModified root).contexts.size = w.contexts.size := by
  obtain ⟨_, e⟩ := w.exists_markModified_eq root
  rw [e]
  exact size_update _

theorem has_put {ctx : Context} (h : w.Has other) : (w.put root ctx).Has other := by
  obtain ⟨ctx', hctx'⟩ := h
  by_cases hlt : root.val < w.contexts.size
  · unfold Has
    rw [context?_put hlt]
    split
    · exact ⟨_, rfl⟩
    · exact ⟨ctx', hctx'⟩
  · refine ⟨ctx', ?_⟩
    rw [← hctx']
    refine context?_congr ?_
    simp only [put]
    exact Array.setIfInBounds_eq_of_size_le (Nat.le_of_not_lt hlt)

end Workspace

/-! ### Processing a conclusion -/

namespace RuleBase

variable {rb : RuleBase} {mode : Mode} {root : ExprId} {ctx : Context} {c : Conclusion} {w : Workspace}

/-- The context takes the conclusion in and sends on what follows from it. -/
def takeIn (rb : RuleBase) (root : ExprId) (ctx : Context) (c : Conclusion) (w : Workspace) : Workspace :=
  sendAll .derive (rb.productions .derive root (ctx.facts.insert c) c)
    ((w.put root { ctx with facts := ctx.facts.insert c, saturated := false }).observe ⟨root, c, .derive⟩)

/-- The context sends on what rests on the conclusion, gives it up and is noted. -/
def giveUp (rb : RuleBase) (root : ExprId) (ctx : Context) (c : Conclusion) (w : Workspace) : Workspace :=
  ((sendAll .retract (rb.productions .retract root ctx.facts c) (w.observe ⟨root, c, .retract⟩)).update root
    fun ctx => { ctx with facts := ctx.facts.erase c }).markModified root

theorem process_of_none (hctx : w.context? root = none) : rb.process mode root c w = (false, w) := by
  rw [process, hctx]

theorem process_derive (hctx : w.context? root = some ctx) : rb.process .derive root c w =
    if ctx.facts.contains c then (false, w) else (true, rb.takeIn root ctx c w) := by
  rw [process, hctx]
  rfl

theorem process_retract (hctx : w.context? root = some ctx) : rb.process .retract root c w =
    if ctx.facts.contains c then (true, rb.giveUp root ctx c w) else (false, w) := by
  rw [process, hctx]
  rfl

/-- All that processing a conclusion can do: it changes nothing, or the conclusion is taken in where it was missing, or it is
given up where it was stored. -/
theorem process_cases (rb : RuleBase) (mode : Mode) (root : ExprId) (c : Conclusion) (w : Workspace) :
    rb.process mode root c w = (false, w) ∨
      (∃ ctx, mode = .derive ∧ w.context? root = some ctx ∧ ctx.facts.contains c = false ∧
        rb.process mode root c w = (true, rb.takeIn root ctx c w)) ∨
      ∃ ctx, mode = .retract ∧ w.context? root = some ctx ∧ ctx.facts.contains c = true ∧
        rb.process mode root c w = (true, rb.giveUp root ctx c w) := by
  cases hctx : w.context? root with
  | none => exact .inl (process_of_none hctx)
  | some ctx =>
    cases mode with
    | derive =>
      rw [process_derive hctx]
      cases hc : ctx.facts.contains c with
      | true => exact .inl rfl
      | false => exact .inr (.inl ⟨ctx, rfl, rfl, hc, rfl⟩)
    | retract =>
      rw [process_retract hctx]
      cases hc : ctx.facts.contains c with
      | true => exact .inr (.inr ⟨ctx, rfl, rfl, hc, rfl⟩)
      | false => exact .inl rfl

end RuleBase

namespace Workspace

variable {w : Workspace} {root other : ExprId} {c : Conclusion}

@[simp] theorem size_process (rb : RuleBase) (mode : Mode) :
    (rb.process mode root c w).2.contexts.size = w.contexts.size := by
  obtain e | ⟨ctx, -, -, -, e⟩ | ⟨ctx, -, -, -, e⟩ := rb.process_cases mode root c w <;> rw [e]
  · simp [RuleBase.takeIn, observe]
  · simp [RuleBase.giveUp, observe]

theorem has_process {rb : RuleBase} {mode : Mode} (h : w.Has other) : (rb.process mode root c w).2.Has other := by
  obtain e | ⟨ctx, -, -, -, e⟩ | ⟨ctx, -, -, -, e⟩ := rb.process_cases mode root c w <;> rw [e]
  · exact h
  · exact (has_sendAll_derive _).2 (.inl (has_put h))
  · exact has_markModified.2 ((has_update _).2 ((has_sendAll_retract _).2 h))

end Workspace

end ELOntology
