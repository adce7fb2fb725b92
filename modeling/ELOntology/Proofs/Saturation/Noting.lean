import ELOntology.Proofs.Saturation.Marks

/-!
# Noting what is lost

What a retraction leaves behind besides the facts: a context that has lost a conclusion is not saturated and is marked as
modified, and it has joined the queue of modified contexts if it was not marked before.  All other flags are as they were.

`Noting start w` says so about a workspace `w` that a retraction leads to from `start`, whatever flags it started with.  Key
facts: `Noting.givenUp` and `Noting.keep` (each step of a retraction keeps it).
-/

namespace ELOntology

namespace Workspace

/-- Whether the context of a root is saturated, and whether it is marked as modified. -/
def flags? (w : Workspace) (root : ExprId) : Option (Bool × Bool) :=
  (w.context? root).map fun ctx => (ctx.saturated, ctx.modified)

variable {w w' : Workspace} {root other : ExprId} {c : Conclusion}

theorem mark?_eq_flags? : w.mark? root = (w.flags? root).map Prod.snd := by
  rw [mark?, flags?, Option.map_map]
  rfl

theorem flags?_update {f : Context → Context} (hsaturated : ∀ ctx, (f ctx).saturated = ctx.saturated)
    (hmodified : ∀ ctx, (f ctx).modified = ctx.modified) : (w.update root f).flags? other = w.flags? other := by
  rw [flags?, context?_update, flags?]
  split <;> rename_i e
  · rw [e, Option.map_map]
    exact congrArg (Option.map · _) (funext fun ctx => by simp [hsaturated, hmodified])
  · rfl

theorem flags?_put {ctx ctx' : Context} (hctx : w.context? root = some ctx)
    (hflags : (ctx'.saturated, ctx'.modified) = (ctx.saturated, ctx.modified)) :
    (w.put root ctx').flags? other = w.flags? other := by
  rw [flags?, context?_put (Has.lt_size ⟨ctx, hctx⟩), flags?]
  split <;> rename_i e
  · rw [e, hctx, Option.map_some, Option.map_some, hflags]
  · rfl

theorem flags?_enqueue : (w.enqueue root c).flags? other = w.flags? other := by
  rw [flags?, context?_enqueue, flags?]
  split <;> rename_i e
  · rw [e, Option.map_map]
    rfl
  · rfl

theorem flags?_sendAll_retract (productions : List Production) :
    (RuleBase.sendAll .retract productions w).flags? other = w.flags? other := by
  induction productions generalizing w with
  | nil => rfl
  | cons p ps ih => rw [sendAll_cons, ih, send, flags?_enqueue]

/-- A context that is noted is not saturated any more. -/
theorem flags?_markModified (h : w.Has root) :
    (w.markModified root).flags? other = if other = root then some (false, true) else w.flags? other := by
  obtain ⟨ctx, hctx⟩ := h
  rw [flags?, context?_markModified, context?_update, flags?]
  split
  · rw [hctx]
    rfl
  · rfl

/-- It joins the queue unless it is marked. -/
theorem toList_modified_markModified (h : w.Has root) : (w.markModified root).modified.toList =
    if w.mark? root = some true then w.modified.toList else w.modified.toList ++ [root] := by
  obtain ⟨ctx, hctx⟩ := h
  have hmark : w.mark? root = some ctx.modified := by rw [mark?, hctx, Option.map_some]
  unfold markModified
  rw [hctx, hmark]
  cases hflag : ctx.modified with
  | true => simp [hflag, put]
  | false => simp [hflag, put]

/-- Giving a stored conclusion up ends with noting the context, and notes nothing before. -/
private theorem exists_markModified_eq_process (rb : RuleBase) (h : w.Stores root c) :
    ∃ w₁ : Workspace, (rb.process .retract root c w).2 = w₁.markModified root ∧ w₁.Has root ∧
      (∀ other, w₁.flags? other = w.flags? other) ∧ w₁.modified = w.modified := by
  obtain ⟨ctx, hctx, hc⟩ := h
  have hgive : (rb.process .retract root c w).2 = rb.giveUp root ctx c w := by
    rw [RuleBase.process_retract hctx, if_pos hc]
  rw [RuleBase.giveUp] at hgive
  generalize rb.productions .retract root ctx.facts c = productions at hgive
  refine ⟨_, hgive, (has_update _).2 ((has_sendAll_retract _).2 ⟨ctx, hctx⟩), fun other => ?_, ?_⟩
  · have herased (w : Workspace) : (w.update root fun ctx => { ctx with facts := ctx.facts.erase c }).flags? other =
        w.flags? other := flags?_update (fun _ => rfl) fun _ => rfl
    exact (herased _).trans (flags?_sendAll_retract productions)
  · exact (modified_update _).trans (modified_sendAll .retract productions)

theorem flags?_process_retract (rb : RuleBase) (h : w.Stores root c) : (rb.process .retract root c w).2.flags? other =
    if other = root then some (false, true) else w.flags? other := by
  obtain ⟨w₁, hprocess, hhas, hflags, -⟩ := exists_markModified_eq_process rb h
  rw [hprocess, flags?_markModified hhas, hflags]

theorem toList_modified_process_retract (rb : RuleBase) (h : w.Stores root c) :
    (rb.process .retract root c w).2.modified.toList =
      if w.mark? root = some true then w.modified.toList else w.modified.toList ++ [root] := by
  obtain ⟨w₁, hprocess, hhas, hflags, hmodified⟩ := exists_markModified_eq_process rb h
  rw [hprocess, toList_modified_markModified hhas, mark?_eq_flags?, hflags, ← mark?_eq_flags?, hmodified]

/-- The context of the root stores less than it did. -/
def Lost (start w : Workspace) (root : ExprId) : Prop := ∃ c, start.Stores root c ∧ ¬ w.Stores root c

/-- When one more conclusion is given up, one more context may have lost something. -/
theorem lost_iff_of_givenUp {start : Workspace} (hstored : start.Stores root c)
    (hstores : ∀ other d, w'.Stores other d ↔ w.Stores other d ∧ ¬ (other = root ∧ d.unsigned = c.unsigned))
    (other : ExprId) : start.Lost w' other ↔ start.Lost w other ∨ other = root := by
  constructor
  · rintro ⟨d, hd, hlost⟩
    by_cases hold : w.Stores other d
    · exact .inr (Classical.byContradiction fun hne => hlost ((hstores other d).2 ⟨hold, fun e => hne e.1⟩))
    · exact .inl ⟨d, hd, hold⟩
  · rintro (⟨d, hd, hlost⟩ | rfl)
    · exact ⟨d, hd, fun hc => hlost ((hstores other d).1 hc).1⟩
    · exact ⟨c, hstored, fun hc => ((hstores other c).1 hc).2 ⟨rfl, rfl⟩⟩

end Workspace

/-- Exactly the contexts that have lost a conclusion since the start are noted. -/
structure Noting (start w : Workspace) : Prop where
  noted {root : ExprId} : start.Lost w root → w.flags? root = some (false, true)
  unchanged {root : ExprId} : ¬ start.Lost w root → w.flags? root = start.flags? root
  queued : ∃ marked, w.modified.toList = start.modified.toList ++ marked ∧ marked.Nodup ∧
    ∀ root, root ∈ marked ↔ start.mark? root = some false ∧ start.Lost w root

namespace Noting

variable {start w w' : Workspace} {root : ExprId} {c : Conclusion}

theorem refl (w : Workspace) : Noting w w where
  noted := fun ⟨_, hc, hlost⟩ => absurd hc hlost
  unchanged _ := rfl
  queued := by
    refine ⟨[], (List.append_nil _).symm, List.nodup_nil, fun root => ?_⟩
    constructor
    · intro h
      cases h
    · rintro ⟨-, c, hc, hlost⟩
      exact absurd hc hlost

/-- Nothing is lost and nothing is noted. -/
theorem keep (h : Noting start w) (hstores : ∀ root c, w'.Stores root c ↔ w.Stores root c)
    (hflags : ∀ root, w'.flags? root = w.flags? root) (hmodified : w'.modified = w.modified) : Noting start w' := by
  have hlost (root : ExprId) : start.Lost w' root ↔ start.Lost w root := by
    simp only [Workspace.Lost, hstores]
  constructor
  · intro root hroot
    rw [hflags]
    exact h.noted ((hlost root).1 hroot)
  · intro root hroot
    rw [hflags]
    exact h.unchanged fun hold => hroot ((hlost root).2 hold)
  · simp only [hlost, hmodified]
    exact h.queued

/-- As long as a context has lost nothing, it is marked just if it was at the start. -/
private theorem mark?_start (h : Noting start w) (hstored : start.Stores root c) (hlost : ¬ start.Lost w root) :
    start.mark? root = some (decide (w.mark? root = some true)) := by
  obtain ⟨ctx, hctx, -⟩ := hstored
  have hmark : w.mark? root = start.mark? root := by
    rw [Workspace.mark?_eq_flags?, h.unchanged hlost, ← Workspace.mark?_eq_flags?]
  rw [hmark, Workspace.mark?, hctx, Option.map_some]
  cases ctx.modified <;> rfl

/-- A context that loses one more conclusion is noted. -/
theorem givenUp (h : Noting start w) (hstored : start.Stores root c)
    (hstores : ∀ other d, w'.Stores other d ↔ w.Stores other d ∧ ¬ (other = root ∧ d.unsigned = c.unsigned))
    (hflags : ∀ other, w'.flags? other = if other = root then some (false, true) else w.flags? other)
    (hmodified : w'.modified.toList =
      if w.mark? root = some true then w.modified.toList else w.modified.toList ++ [root]) : Noting start w' := by
  have hlost (other : ExprId) : start.Lost w' other ↔ start.Lost w other ∨ other = root :=
    Workspace.lost_iff_of_givenUp hstored hstores other
  constructor
  · intro other hother
    rw [hflags]
    split
    · rfl
    · rename_i hne
      exact h.noted (((hlost other).1 hother).resolve_right hne)
  · intro other hother
    have hne : other ≠ root := fun e => hother ((hlost other).2 (.inr e))
    rw [hflags, if_neg hne]
    exact h.unchanged fun hold => hother ((hlost other).2 (.inl hold))
  · obtain ⟨marked, hqueue, hnodup, hmem⟩ := h.queued
    rw [hmodified]
    split <;> rename_i hflag
    · -- it is marked already: it was at the start, or it has lost something before
      have hearlier (hunmarked : start.mark? root = some false) : start.Lost w root := by
        refine Classical.byContradiction fun hold => ?_
        rw [h.mark?_start hstored hold, decide_eq_true hflag] at hunmarked
        cases hunmarked
      refine ⟨marked, hqueue, hnodup, fun other => ?_⟩
      rw [hmem, hlost]
      constructor
      · exact fun ⟨hunmarked, hother⟩ => ⟨hunmarked, .inl hother⟩
      · rintro ⟨hunmarked, hother | rfl⟩
        · exact ⟨hunmarked, hother⟩
        · exact ⟨hunmarked, hearlier hunmarked⟩
    · have hold : ¬ start.Lost w root := fun hold => hflag (by rw [Workspace.mark?_eq_flags?, h.noted hold, Option.map_some])
      have hunmarked : start.mark? root = some false := by rw [h.mark?_start hstored hold, decide_eq_false hflag]
      have hnew : root ∉ marked := fun hroot => hold ((hmem root).1 hroot).2
      refine ⟨marked ++ [root], ?_, ?_, fun other => ?_⟩
      · rw [hqueue, List.append_assoc]
      · refine List.nodup_append.2 ⟨hnodup, List.pairwise_singleton _ root, fun a ha b hb e => hnew ?_⟩
        rwa [← List.mem_singleton.1 hb, ← e]
      · rw [List.mem_append, List.mem_singleton, hmem, hlost]
        constructor
        · rintro (⟨hother, hlost⟩ | rfl)
          · exact ⟨hother, .inl hlost⟩
          · exact ⟨hunmarked, .inr rfl⟩
        · rintro ⟨hother, hlost | rfl⟩
          · exact .inl ⟨hother, hlost⟩
          · exact .inr rfl

end Noting

end ELOntology
