import Mathlib.Logic.Relation
import ELOntology.Proofs.Saturation.Deriving

/-!
# Runs in any order

A step of a run processes one waiting conclusion of one context, whichever of them; in between, the turns and the
monitor may change in any way, since derivation does not depend on them.  A run of any number of workers is a way of taking
such steps.

Key facts: `Deriving.steps` (the invariant of derivation holds after any steps that derive) and `Deriving.start` (it holds
where they start).
-/

namespace ELOntology

namespace Workspace

/-- The same facts, the same conclusions to process and the same notes of lost conclusions. -/
structure SameWork (w w' : Workspace) : Prop where
  size : w'.contexts.size = w.contexts.size
  modified : w'.modified = w.modified
  context? (root : ExprId) : (w'.context? root).map (fun ctx => (ctx.facts, ctx.todo.toList, ctx.modified)) =
    (w.context? root).map fun ctx => (ctx.facts, ctx.todo.toList, ctx.modified)

namespace SameWork

variable {w w' w'' : Workspace} {root : ExprId} {c : Conclusion}

theorem refl (w : Workspace) : w.SameWork w := ⟨rfl, rfl, fun _ => rfl⟩

theorem symm (h : w.SameWork w') : w'.SameWork w := ⟨h.size.symm, h.modified.symm, fun root => (h.context? root).symm⟩

theorem of_contexts (h : w'.contexts = w.contexts) (hmodified : w'.modified = w.modified) : w.SameWork w' :=
  ⟨congrArg Array.size h, hmodified, fun _ => congrArg _ (context?_congr h)⟩

theorem deactivate (root : ExprId) : w.SameWork (w.deactivate root) := by
  refine ⟨size_update _, ?_, fun other => ?_⟩
  · exact modified_update _
  · unfold Workspace.deactivate
    rw [context?_update]
    split <;> rename_i e
    · rw [e, Option.map_map]
      rfl
    · rfl

theorem exists_context (h : w.SameWork w') {ctx : Context} (hctx : w.context? root = some ctx) :
    ∃ ctx', w'.context? root = some ctx' ∧ ctx'.facts = ctx.facts ∧ ctx'.todo.toList = ctx.todo.toList ∧
      ctx'.modified = ctx.modified := by
  have hsame := h.context? root
  rw [hctx] at hsame
  obtain ⟨ctx', hctx', e⟩ := Option.map_eq_some_iff.1 hsame
  obtain ⟨hfacts, e⟩ := Prod.mk.inj e
  obtain ⟨htodo, hmodified⟩ := Prod.mk.inj e
  exact ⟨ctx', hctx', hfacts, htodo, hmodified⟩

private theorem has_of (h : w.SameWork w') (hroot : w.Has root) : w'.Has root := by
  obtain ⟨ctx, hctx⟩ := hroot
  obtain ⟨ctx', hctx', -⟩ := h.exists_context hctx
  exact ⟨ctx', hctx'⟩

private theorem stores_of (h : w.SameWork w') (hc : w.Stores root c) : w'.Stores root c := by
  obtain ⟨ctx, hctx, hc⟩ := hc
  obtain ⟨ctx', hctx', hfacts, -⟩ := h.exists_context hctx
  exact ⟨ctx', hctx', hfacts ▸ hc⟩

private theorem waits_of (h : w.SameWork w') (hc : w.Waits root c) : w'.Waits root c := by
  obtain ⟨ctx, hctx, hc⟩ := hc
  obtain ⟨ctx', hctx', -, htodo, -⟩ := h.exists_context hctx
  exact ⟨ctx', hctx', htodo ▸ hc⟩

theorem has_iff (h : w.SameWork w') : w'.Has root ↔ w.Has root := ⟨h.symm.has_of, h.has_of⟩

theorem stores_iff (h : w.SameWork w') : w'.Stores root c ↔ w.Stores root c := ⟨h.symm.stores_of, h.stores_of⟩

theorem waits_iff (h : w.SameWork w') : w'.Waits root c ↔ w.Waits root c := ⟨h.symm.waits_of, h.waits_of⟩

theorem look {raised : Bool} (h : w.look = (raised, w')) : w.SameWork w' := by
  obtain rfl : w.look.2 = w' := by rw [h]
  exact .of_contexts rfl rfl

theorem poll {root? : Option ExprId} (h : w.poll = (root?, w')) : w.SameWork w' := by
  cases root? with
  | none =>
    obtain ⟨rfl, -⟩ := poll_eq_none h
    exact .refl w'
  | some root =>
    obtain ⟨rest, -, rfl⟩ := poll_eq_some h
    exact .of_contexts rfl rfl

theorem markSaturated : w.SameWork w.markSaturated := by
  refine ⟨by simp [Workspace.markSaturated], rfl, fun root => ?_⟩
  simp only [Workspace.markSaturated, Workspace.context?, Array.getElem?_map]
  cases w.contexts[root.val]? with
  | none => rfl
  | some ctx => cases ctx <;> rfl

end SameWork

end Workspace

/-! ### Steps -/

/-- One step of a run, in any order. -/
inductive Step (rb : RuleBase) (mode : Mode) (w : Workspace) : Workspace → Prop
  /-- Some conclusion that waits in some context is processed. -/
  | process {root : ExprId} {ctx : Context} {c : Conclusion} {before after : List Conclusion} {rest : Queue Conclusion}
      (hctx : w.context? root = some ctx) (htodo : ctx.todo.toList = before ++ c :: after)
      (hrest : rest.toList = before ++ after) :
      Step rb mode w (rb.process mode root c (w.put root { ctx with todo := rest })).2
  /-- Something changes that derivation does not depend on. -/
  | schedule {w' : Workspace} (h : w.SameWork w') : Step rb mode w w'

/-- Any number of steps. -/
abbrev Steps (rb : RuleBase) (mode : Mode) : Workspace → Workspace → Prop := Relation.ReflTransGen (Step rb mode)

/-- What every step preserves holds after any number of them. -/
theorem Steps.preserve {rb : RuleBase} {mode : Mode} {P : Workspace → Prop}
    (hP : ∀ w w', P w → Step rb mode w w' → P w') {w w' : Workspace} (h : Steps rb mode w w') (hw : P w) : P w' := by
  induction h with
  | refl => exact hw
  | tail _ hstep ih => exact hP _ _ ih hstep

/-- Steps drop no context. -/
theorem Steps.has {rb : RuleBase} {mode : Mode} {w w' : Workspace} (h : Steps rb mode w w') {root : ExprId}
    (hroot : w.Has root) : w'.Has root := by
  refine h.preserve (P := fun w' => w'.Has root) ?_ hroot
  rintro w₁ w₂ hw₁ (⟨hctx, htodo, hrest⟩ | hsame)
  · exact Workspace.has_process (((Popped.put hctx htodo hrest).has root).2 hw₁)
  · exact hsame.has_iff.2 hw₁

/-! ### Steps that derive -/

namespace Deriving

variable {rb : RuleBase} {K : Calculus} {w w' : Workspace}

/-- More to start and more rules to look at do no harm. -/
theorem extend (h : Deriving K w) (hsize : w.contexts.size ≤ w'.contexts.size)
    (hstores : ∀ root c, w'.Stores root c ↔ w.Stores root c)
    (hhas : ∀ root, w'.Has root → w.Has root ∨ w'.Waits root .init)
    (hwaits : ∀ root c, w.Waits root c → w'.Waits root c)
    (hnew : ∀ root c, w'.Waits root c → w.Waits root c ∨ c = .init ∨ ∃ premise, c = .rulesChanged premise) :
    Deriving K w' := by
  have hstored : w'.Stores = w.Stores := by
    funext root c
    exact propext (hstores root c)
  have hcovers {root : ExprId} {c : Conclusion} : w.Covers root c → w'.Covers root c :=
    Or.imp (hstores root c).2 fun ⟨d, hd, e⟩ => ⟨d, hwaits root d hd, e⟩
  have hstorable {root : ExprId} {c : Conclusion} (hc : c.isStorable = true) (hw : w'.Waits root c) : w.Waits root c := by
    rcases hnew root c hw with hw | rfl | ⟨premise, rfl⟩
    · exact hw
    · cases hc
    · cases hc
  have hwithin {c : Conclusion} (hc : c.Within w.contexts.size) : c.Within w'.contexts.size := by
    cases c <;> first | trivial | exact Nat.lt_of_lt_of_le hc hsize
  constructor
  · exact fun hc => hwithin (h.within_stores ((hstores _ _).1 hc))
  · intro root c hc
    rcases hnew root c hc with hc | rfl | ⟨premise, rfl⟩
    · exact hwithin (h.within_waits hc)
    · trivial
    · trivial
  · intro root hroot
    rcases hhas root hroot with hroot | hinit
    · exact (h.started hroot).imp (hwaits _ _) (And.imp hcovers hcovers)
    · exact .inl hinit
  · intro root target premises c hp hc
    rw [hstored] at hp
    exact (h.combined hp hc).imp hcovers fun ⟨e, g, hg, hy, hwait⟩ => ⟨e, g, hg, hy, hwaits _ _ hwait⟩
  · intro root expr hexpr
    rw [hstored] at hexpr ⊢
    exact (h.explained hexpr).imp_left fun hu target c hc => hcovers (hu target c hc)
  · intro root expr hexpr
    rw [hstored]
    exact h.assembled (hstorable rfl hexpr)
  · intro root c hc
    rw [hstored] at hc ⊢
    exact h.derived_stores hc
  · intro root c hc hcs
    rw [hstored]
    exact h.derived_waits (hstorable hcs hc) hcs

theorem sameWork (h : Deriving K w) (hw : w.SameWork w') : Deriving K w' :=
  h.extend (Nat.le_of_eq hw.size.symm) (fun _ _ => hw.stores_iff) (fun _ hroot => .inl (hw.has_iff.1 hroot)) (fun _ _ => hw.waits_iff.2)
    fun _ _ hc => .inl (hw.waits_iff.1 hc)

theorem ensure (h : Deriving K w) (root : ExprId) : Deriving K (w.ensure root) := by
  refine h.extend (Nat.le_of_eq Workspace.size_ensure.symm) (fun _ _ => Workspace.stores_ensure) (fun other hother => ?_)
    (fun _ _ hc => Workspace.waits_ensure.2 (.inl hc)) fun _ _ hc => ?_
  · by_cases hhas : w.Has other
    · exact .inl hhas
    · obtain ⟨rfl, hlt⟩ := (Workspace.has_ensure.1 hother).resolve_left hhas
      exact .inr (Workspace.waits_ensure.2 (.inr ⟨rfl, rfl, hhas, hlt⟩))
  · exact (Workspace.waits_ensure.1 hc).imp_right fun hc => .inl hc.2.1

/-- Any steps keep the invariant. -/
theorem steps (hK : rb.calculus.Regular) (hn : rb.calculus.Within w.contexts.size) (h : Deriving rb.calculus w)
    (hs : Steps rb .derive w w') : Deriving rb.calculus w' ∧ w'.contexts.size = w.contexts.size := by
  refine hs.preserve (P := fun w' => Deriving rb.calculus w' ∧ w'.contexts.size = w.contexts.size) ?_ ⟨h, rfl⟩
  rintro w₁ w₂ ⟨hw₁, hsize⟩ (⟨hctx, htodo, hrest⟩ | hsame)
  · refine ⟨hw₁.process hK (hsize ▸ hn) (.put hctx htodo hrest), ?_⟩
    rw [Workspace.size_process, Workspace.size_put, hsize]
  · exact ⟨hw₁.sameWork hsame, hsame.size.trans hsize⟩

/-- Nothing is derived where there are no contexts. -/
theorem of_no_contexts (h : ∀ root, ¬ w.Has root) : Deriving K w where
  within_stores hc := absurd hc.has (h _)
  within_waits hc := absurd hc.has (h _)
  started hroot := absurd hroot (h _)
  combined {root target premises c} hp hc := by
    obtain ⟨p, hp'⟩ := hc.exists_premise
    exact absurd (hp p hp').has (h _)
  explained hc := absurd hc.has (h _)
  assembled hc := absurd hc.has (h _)
  derived_stores hc := absurd hc.has (h _)
  derived_waits hc := absurd hc.has (h _)

/-- Submitting roots keeps the invariant. -/
theorem submitAll (h : Deriving K w) (roots : List ExprId) : Deriving K (w.submitAll roots).2 := by
  induction roots generalizing w with
  | nil => exact h
  | cons root roots ih =>
    rw [Workspace.submitAll, Workspace.submit]
    cases hlook : w.look with
    | mk raised w₁ =>
      have h₁ : Deriving K w₁ := h.sameWork (.look hlook)
      cases raised with
      | true => exact h₁
      | false => exact ih (h₁.ensure root)

end Deriving

namespace Workspace

variable {w : Workspace} {root : ExprId}

theorem not_has_grow_empty (size : Nat) : ¬ (Workspace.empty.grow size).Has root := by
  rintro ⟨ctx, hctx⟩
  unfold grow Workspace.empty Workspace.context? at hctx
  simp only [Array.size_empty, Nat.sub_zero, Array.empty_append, Array.getElem?_replicate] at hctx
  split at hctx <;> cases hctx

theorem size_grow_empty (size : Nat) : (Workspace.empty.grow size).contexts.size = size := by
  simp [grow, Workspace.empty]

@[simp] theorem size_submitAll (roots : List ExprId) : (w.submitAll roots).2.contexts.size = w.contexts.size := by
  induction roots generalizing w with
  | nil => rfl
  | cons root roots ih =>
    rw [submitAll, submit]
    cases hlook : w.look with
    | mk raised w₁ =>
      have hsize : w₁.contexts.size = w.contexts.size := (SameWork.look hlook).size
      cases raised with
      | true => exact hsize
      | false => exact ih.trans (size_ensure.trans hsize)

/-- If no interruption comes in between, every root is submitted. -/
theorem has_submitAll {roots : List ExprId} (h : (w.submitAll roots).1 = false) :
    (w.submitAll roots).2.Has root ↔ w.Has root ∨ root ∈ roots ∧ root.val < w.contexts.size := by
  induction roots generalizing w with
  | nil => simp [submitAll]
  | cons other roots ih =>
    rw [submitAll, submit] at h ⊢
    cases hlook : w.look with
    | mk raised w₁ =>
      have hsame : w.SameWork w₁ := .look hlook
      rw [hlook] at h
      cases raised with
      | true => cases h
      | false =>
        refine (ih h).trans ?_
        rw [has_ensure, size_ensure, hsame.has_iff, hsame.size, List.mem_cons]
        grind

end Workspace

end ELOntology
