import Mathlib.Tactic.ByContra
import ELOntology.Proofs.Saturation.Marks

/-!
# Retracting

`Retracting K removed base cleaned w` is the invariant of runs that retract.  They start where saturated facts, `base`,
are stored, and take back what some rule concluded with a lost premise or through a removed contribution, and all that
the cleaned contexts store.  A conclusion that is to go is not stored any more, or waits to be given up (`Doomed`).

Key facts: `Retracting.process` (one processed conclusion keeps the invariant), `Retracting.stores_iff` (when nothing
waits and nothing is marked, the cleaned contexts are empty and the others are as they were) and `Retracting.supported`
(what is stored then is derived without the removed contributions from what is stored then).
-/

namespace ELOntology

/-- The conclusion is not stored, or waits to be given up. -/
def Workspace.Doomed (w : Workspace) (root : ExprId) (c : Conclusion) : Prop :=
  w.Stores root c → ∃ d, w.Waits root d ∧ d.unsigned = c.unsigned

theorem Workspace.Quiet.not_stores_of_doomed {w : Workspace} (hw : w.Quiet) {root : ExprId} {c : Conclusion}
    (h : w.Doomed root c) : ¬ w.Stores root c := fun hc => by
  obtain ⟨d, hd, -⟩ := h hc
  exact hw root d hd

namespace Workspace.Doomed

variable {w w₀ w' : Workspace} {root other : ExprId} {c d : Conclusion} {productions : List Production}

/-- A conclusion that is not stored may be dropped. -/
theorem popped (h : w.Doomed other d) (hpop : Popped w root c w₀) (hc : ¬ w₀.Stores root c) : w₀.Doomed other d := by
  intro hs
  obtain ⟨d', hd', e⟩ := h ((hpop.stores other d).1 hs)
  rcases hpop.waits_or hd' with hd' | ⟨rfl, rfl⟩
  · exact ⟨d', hd', e⟩
  · exact absurd (stores_unsigned.1 (e ▸ stores_unsigned.2 hs)) hc

/-- A conclusion that has waited may be given up. -/
theorem givenUp (h : w.Doomed other d) (hpop : Popped w root c w₀) (hup : GivenUp w₀ root c productions w') :
    w'.Doomed other d := by
  intro hs
  obtain ⟨hs, hne⟩ := (hup.stores other d).1 hs
  obtain ⟨d', hd', e⟩ := h ((hpop.stores other d).1 hs)
  rcases hpop.waits_or hd' with hd' | ⟨rfl, rfl⟩
  · exact ⟨d', (hup.waits _ _).2 (.inl hd'), e⟩
  · exact absurd ⟨rfl, e.symm⟩ hne

/-- What is sent on is doomed, since it waits wherever there is a context. -/
theorem of_mem_productions (hup : GivenUp w₀ root c productions w') (hd : (other, d) ∈ productions) :
    w'.Doomed other d := by
  intro hs
  exact ⟨d, (hup.waits other d).2 (.inr ⟨hd, (hup.has other).1 hs.has⟩), rfl⟩

end Workspace.Doomed

namespace GivenUp

variable {w w₀ w' : Workspace} {root other : ExprId} {c d : Conclusion} {productions : List Production}

/-- A conclusion that has waited and is given up is not stored any more, and nothing else is lost. -/
theorem stores_popped (hup : GivenUp w₀ root c productions w') (hpop : Popped w root c w₀) :
    w'.Stores other d ↔ w.Stores other d ∧ ¬ (other = root ∧ d.unsigned = c.unsigned) := by
  rw [hup.stores, hpop.stores]

theorem lost_or_eq (hup : GivenUp w₀ root c productions w') (hpop : Popped w root c w₀) (hd : ¬ w'.Stores other d) :
    ¬ w.Stores other d ∨ other = root ∧ d.unsigned = c.unsigned := by
  by_cases hs : w.Stores other d
  · exact .inr (Classical.byContradiction fun hne => hd ((hup.stores_popped hpop).2 ⟨hs, hne⟩))
  · exact .inl hs

end GivenUp

structure Retracting (K : Calculus) (removed : List Contribution) (base : ExprId → Conclusion → Prop)
    (cleaned : List ExprId) (w : Workspace) : Prop where
  saturated : Saturated K base
  within {root : ExprId} {c : Conclusion} : base root c → c.Within w.contexts.size
  rooted {root : ExprId} : w.Has root → base root (.isA root)
  has {root : ExprId} {c : Conclusion} : base root c → w.Has root
  kept {root : ExprId} {c : Conclusion} : w.Stores root c → base root c
  /-- What a lost expression consists of goes. -/
  unfolded {root expr target : ExprId} {c : Conclusion} : base root (.isA expr) → ¬ w.Stores root (.isA expr) →
    Unfolds K root expr target c → w.Doomed target c
  /-- What was concluded with a lost premise goes. -/
  combined {root target : ExprId} {premises : List Conclusion} {c : Conclusion} : (∀ p ∈ premises, base root p) →
    Combines K root premises target c → (∃ p ∈ premises, ¬ w.Stores root p) → w.Doomed target c
  /-- What a removed contribution has concluded goes. -/
  seeded {root : ExprId} {g : Contribution} {premises : List Conclusion} {c : Conclusion} :
    (∀ p ∈ premises, base root p) → g ∈ removed → g.Yields K.roles premises c → w.Doomed root c
  /-- What a cleaned context stores goes. -/
  emptied {root : ExprId} {c : Conclusion} : root ∈ cleaned → w.Doomed root c
  /-- A context that has lost a conclusion is cleaned, or is marked and will be. -/
  noted {root : ExprId} {c : Conclusion} : base root c → ¬ w.Stores root c →
    root ∈ w.modified.toList ∨ root ∈ cleaned
  marked : w.Marked

namespace Retracting

variable {rb : RuleBase} {K : Calculus} {removed : List Contribution} {base : ExprId → Conclusion → Prop}
  {cleaned : List ExprId} {w w' : Workspace} {root : ExprId} {c : Conclusion}

/-- Contexts may be given more to take back. -/
theorem extend (h : Retracting K removed base cleaned w) (hsize : w.contexts.size ≤ w'.contexts.size)
    (hhas : ∀ root, w'.Has root ↔ w.Has root) (hstores : ∀ root c, w'.Stores root c ↔ w.Stores root c)
    (hwaits : ∀ root c, w.Waits root c → w'.Waits root c)
    (hnotes : ∀ root, root ∈ w.modified.toList → root ∈ w'.modified.toList) (hmarked : w'.Marked) :
    Retracting K removed base cleaned w' := by
  have hdoomed {root : ExprId} {c : Conclusion} (hc : w.Doomed root c) : w'.Doomed root c := fun hs => by
    obtain ⟨d, hd, e⟩ := hc ((hstores root c).1 hs)
    exact ⟨d, hwaits root d hd, e⟩
  constructor
  · exact h.saturated
  · intro root c hc
    have hwithin := h.within hc
    cases c <;> first | trivial | exact Nat.lt_of_lt_of_le hwithin hsize
  · exact fun hroot => h.rooted ((hhas _).1 hroot)
  · exact fun hc => (hhas _).2 (h.has hc)
  · exact fun hc => h.kept ((hstores _ _).1 hc)
  · intro root expr target c hexpr hlost hu
    exact hdoomed (h.unfolded hexpr (fun hs => hlost ((hstores _ _).2 hs)) hu)
  · rintro root target premises c hp hc ⟨p, hmem, hlost⟩
    exact hdoomed (h.combined hp hc ⟨p, hmem, fun hs => hlost ((hstores _ _).2 hs)⟩)
  · exact fun hp hg hy => hdoomed (h.seeded hp hg hy)
  · exact fun hroot => hdoomed (h.emptied hroot)
  · intro root c hc hlost
    exact (h.noted hc fun hs => hlost ((hstores _ _).2 hs)).imp_left (hnotes root)
  · exact hmarked

theorem sameWork (h : Retracting K removed base cleaned w) (hw : w.SameWork w') : Retracting K removed base cleaned w' :=
  h.extend (Nat.le_of_eq hw.size.symm) (fun _ => hw.has_iff) (fun _ _ => hw.stores_iff) (fun _ _ => hw.waits_iff.2)
    (fun _ hroot => hw.modified ▸ hroot) (h.marked.sameWork hw)

/-! ### Processing a conclusion -/

/-- A conclusion that is not stored may be dropped. -/
private theorem of_popped (h : Retracting K removed base cleaned w) {w₀ : Workspace} (hpop : Popped w root c w₀)
    (hmodified : w₀.modified = w.modified) (hmarked : w₀.Marked) (hc : ¬ w₀.Stores root c) :
    Retracting K removed base cleaned w₀ := by
  have hdoomed {other : ExprId} {d : Conclusion} (hd : w.Doomed other d) : w₀.Doomed other d := hd.popped hpop hc
  constructor
  · exact h.saturated
  · exact fun hd => hpop.size ▸ h.within hd
  · exact fun hother => h.rooted ((hpop.has _).1 hother)
  · exact fun hd => (hpop.has _).2 (h.has hd)
  · exact fun hd => h.kept ((hpop.stores _ _).1 hd)
  · intro other expr target d hexpr hlost hu
    exact hdoomed (h.unfolded hexpr (fun hs => hlost ((hpop.stores _ _).2 hs)) hu)
  · rintro other target premises d hp hd ⟨p, hmem, hlost⟩
    exact hdoomed (h.combined hp hd ⟨p, hmem, fun hs => hlost ((hpop.stores _ _).2 hs)⟩)
  · exact fun hp hg hy => hdoomed (h.seeded hp hg hy)
  · exact fun hother => hdoomed (h.emptied hother)
  · intro other d hd hlost
    rw [hmodified]
    exact h.noted hd fun hs => hlost ((hpop.stores _ _).2 hs)
  · exact hmarked

/-- Processing any conclusion that waits keeps the invariant. -/
theorem process (hK : rb.calculus.Regular) (h : Retracting rb.calculus removed base cleaned w) {w₀ : Workspace}
    (hpop : Popped w root c w₀) (hmodified : w₀.modified = w.modified) (hmarked : w₀.Marked) :
    Retracting rb.calculus removed base cleaned (rb.process .retract root c w₀).2 := by
  by_cases hstored : w₀.Stores root c
  case neg =>
    rw [RuleBase.process_retract_of_not_stores hstored]
    exact h.of_popped hpop hmodified hmarked hstored
  have hnotes {other : ExprId} (hother : other ∈ w.modified.toList ∨ other = root) :
      other ∈ (rb.process .retract root c w₀).2.modified.toList :=
    Workspace.mem_modified_process hmarked (hother.imp (fun hmem => hmodified ▸ hmem) fun e => ⟨e, hstored⟩)
  have hmarked' := hmarked.process rb .retract root c
  obtain ⟨ctx, hctx, hc⟩ := hstored
  have hup := RuleBase.givenUp_process rb hctx hc
  have hfacts (d : Conclusion) : ctx.facts.contains d = true ↔ w.Stores root d := by
    rw [← hpop.stores, Workspace.stores_of_context? hctx]
  generalize ctx.facts = facts at hup hc hfacts
  generalize (rb.process .retract root c w₀).2 = w' at hup hnotes hmarked'
  have hdoomed {other : ExprId} {d : Conclusion} (hd : w.Doomed other d) : w'.Doomed other d := hd.givenUp hpop hup
  have hsent {target : ExprId} {d : Conclusion} (hd : (target, d) ∈ rb.productions .retract root facts c) :
      w'.Doomed target d := .of_mem_productions hup hd
  constructor
  · exact h.saturated
  · exact fun hd => (hup.size.trans hpop.size) ▸ h.within hd
  · exact fun hother => h.rooted ((hpop.has _).1 ((hup.has _).1 hother))
  · exact fun hd => (hup.has _).2 ((hpop.has _).2 (h.has hd))
  · exact fun hd => h.kept ((hup.stores_popped hpop).1 hd).1
  · intro other expr target d hexpr hgone hu
    rcases hup.lost_or_eq hpop hgone with hgone | ⟨rfl, e⟩
    · exact hdoomed (h.unfolded hexpr hgone hu)
    · exact hsent (RuleBase.mem_productions_retract_of_unfolds e.symm hu)
  · rintro other target premises d hp hd ⟨p, hmem, hgone⟩
    by_cases hold : ∃ p ∈ premises, ¬ w.Stores other p
    · exact hdoomed (h.combined hp hd hold)
    · -- all premises were stored, so the one that is given up sends the conclusion on
      have hold : ∀ p ∈ premises, w.Stores other p := by simpa using hold
      obtain ⟨rfl, e⟩ := (hup.lost_or_eq hpop hgone).resolve_left (not_not_intro (hold p hmem))
      rw [hd.premise_unsigned hmem] at e
      exact hsent (RuleBase.mem_productions_of_combines (fun _ => hK.isSymmetric) hd (fun p hmem => (hfacts p).2 (hold p hmem)) (e ▸ hmem))
  · exact fun hp hg hy => hdoomed (h.seeded hp hg hy)
  · exact fun hother => hdoomed (h.emptied hother)
  · intro other d hd hgone
    rcases hup.lost_or_eq hpop hgone with hgone | ⟨rfl, -⟩
    · exact (h.noted hd hgone).imp_left fun hmem => hnotes (.inl hmem)
    · exact .inl (hnotes (.inr rfl))
  · exact hmarked'

/-- Any steps keep the invariant. -/
theorem steps (hK : rb.calculus.Regular) (h : Retracting rb.calculus removed base cleaned w)
    (hs : Steps rb .retract w w') : Retracting rb.calculus removed base cleaned w' := by
  refine hs.preserve (P := Retracting rb.calculus removed base cleaned) ?_ h
  rintro w₁ w₂ hw₁ (⟨hctx, htodo, hrest⟩ | hsame)
  · exact hw₁.process hK (.put hctx htodo hrest) rfl (hw₁.marked.popped hctx)
  · exact hw₁.sameWork hsame

/-! ### The end of a retraction -/

/-- When nothing waits and nothing is marked, the cleaned contexts are empty and the others are as they were. -/
theorem stores_iff (h : Retracting K removed base cleaned w) (hw : w.Quiet) (hmodified : w.modified.toList = []) :
    w.Stores root c ↔ base root c ∧ root ∉ cleaned := by
  constructor
  · exact fun hc => ⟨h.kept hc, fun hroot => hw.not_stores_of_doomed (h.emptied hroot) hc⟩
  · rintro ⟨hc, hroot⟩
    by_contra hgone
    rcases h.noted hc hgone with hmem | hmem
    · rw [hmodified] at hmem
      cases hmem
    · exact hroot hmem

/-- When nothing waits, the premises of what is still stored are stored too, and it rests on no removed contribution. -/
theorem stored_premises (h : Retracting K removed base cleaned w) (hw : w.Quiet) {target : ExprId}
    {premises : List Conclusion} (hp : ∀ p ∈ premises, base root p) (hc : Combines K root premises target c)
    (hstored : w.Stores target c) : (∀ p ∈ premises, w.Stores root p) ∧
      ∀ g, g.Yields K.roles premises c → target = root → g ∉ removed := by
  refine ⟨fun p hmem => ?_, fun g hy e hg => ?_⟩
  · by_contra hgone
    exact hw.not_stores_of_doomed (h.combined hp hc ⟨p, hmem, hgone⟩) hstored
  · subst e
    exact hw.not_stores_of_doomed (h.seeded hp hg hy) hstored

/-- What is still stored when nothing waits is derived, from what is stored then, in every calculus that has lost no more
than the removed contributions.  By induction on the derivation from the base. -/
theorem supported (h : Retracting K removed base cleaned w) (hw : w.Quiet) {K' : Calculus}
    (hunfolds : ∀ {root expr target c}, Unfolds K root expr target c → Unfolds K' root expr target c)
    (hcombines : ∀ {root premises target c}, Combines K root premises target c →
      (∀ g, g.Yields K.roles premises c → target = root → g ∉ removed) → Combines K' root premises target c)
    (hc : w.Stores root c) : Derives K' w.Stores root c.unsigned := by
  have hd := h.saturated.derived (h.kept hc)
  have hstored := Workspace.stores_unsigned.2 hc
  clear hc
  generalize c.unsigned = d at hd hstored
  induction hd with
  | self root => exact .self root
  | thing root => exact .thing root
  | @unfold root expr target d hheld _ hu ih =>
    have hexpr : w.Stores root (.isA expr) := by
      by_contra hgone
      exact hw.not_stores_of_doomed (h.unfolded hheld hgone hu) hstored
    exact .unfold hexpr (ih hexpr) (hunfolds hu)
  | @combine root target premises d hheld _ hcomb ih =>
    obtain ⟨hp, hg⟩ := h.stored_premises hw hheld hcomb (Workspace.stores_unsigned.1 hstored)
    exact .combine hp (fun p hmem => ih p hmem (hp p hmem)) (hcombines hcomb hg)

end Retracting

end ELOntology
