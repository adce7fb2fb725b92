import ELOntology.Proofs.Calculus.Derivation
import ELOntology.Proofs.Saturation.Process

/-!
# Deriving

`Deriving K w` is the invariant of runs that derive: everything that follows from what the workspace stores is stored or
waits, and whatever is stored or waits is derived from what is stored.  It speaks of no order, so it holds whichever
context and whichever of its conclusions is processed next.

`Absorbed` says once what taking in a conclusion does to the workspace; each part of the invariant is derived from it.

Key facts: `Deriving.process` (one processed conclusion keeps the invariant) and `Deriving.saturated` (when nothing waits,
the facts are saturated).
-/

namespace ELOntology

theorem Assembled.mono {K : Calculus} {stored stored' : ExprId → Conclusion → Prop} {root expr : ExprId}
    (hs : ∀ root c, stored' root c → stored root c) (h : Assembled K stored' root expr) : Assembled K stored root expr := by
  obtain ⟨source, premises, hp, hc⟩ := h
  exact ⟨source, premises, fun p hmem => hs _ _ (hp p hmem), hc⟩

/-! ### The invariant -/

/-- The conclusion is stored, or waits with some polarity. -/
def Workspace.Covers (w : Workspace) (root : ExprId) (c : Conclusion) : Prop :=
  w.Stores root c ∨ ∃ d, w.Waits root d ∧ d.unsigned = c.unsigned

structure Deriving (K : Calculus) (w : Workspace) : Prop where
  within_stores {root : ExprId} {c : Conclusion} : w.Stores root c → c.Within w.contexts.size
  within_waits {root : ExprId} {c : Conclusion} : w.Waits root c → c.Within w.contexts.size
  started {root : ExprId} : w.Has root → w.Waits root .init ∨ w.Covers root (.isA root) ∧ w.Covers root (.isA .thing)
  /-- What follows is stored or waits, or the rules that conclude it will be looked at again. -/
  combined {root target : ExprId} {premises : List Conclusion} {c : Conclusion} :
    (∀ p ∈ premises, w.Stores root p) → Combines K root premises target c →
      w.Covers target c ∨ target = root ∧
        ∃ g, K.contributes g ∧ g.Yields K.roles premises c ∧ w.Waits root (.rulesChanged g.premise)
  explained {root expr : ExprId} : w.Stores root (.isA expr) →
    (∀ target c, Unfolds K root expr target c → w.Covers target c) ∨ Assembled K w.Stores root expr
  assembled {root expr : ExprId} : w.Waits root (.subsumer expr .negative) → Assembled K w.Stores root expr
  derived_stores {root : ExprId} {c : Conclusion} : w.Stores root c → Derives K w.Stores root c.unsigned
  derived_waits {root : ExprId} {c : Conclusion} : w.Waits root c → c.isStorable = true → Derives K w.Stores root c.unsigned

/-- Nothing waits in any context. -/
def Workspace.Quiet (w : Workspace) : Prop := ∀ root c, ¬ w.Waits root c

theorem Workspace.Quiet.stores_of_covers {w : Workspace} (hw : w.Quiet) {root : ExprId} {c : Conclusion}
    (h : w.Covers root c) : w.Stores root c := by
  rcases h with h | ⟨d, h, -⟩
  · exact h
  · exact absurd h (hw root d)

/-- When nothing waits, the facts are saturated. -/
theorem Deriving.saturated {K : Calculus} {w : Workspace} (h : Deriving K w) (hw : w.Quiet) : Saturated K w.Stores where
  self hc := by
    rcases h.started hc.has with hinit | ⟨hself, -⟩
    · exact absurd hinit (hw _ _)
    · exact hw.stores_of_covers hself
  thing hc := by
    rcases h.started hc.has with hinit | ⟨-, hthing⟩
    · exact absurd hinit (hw _ _)
    · exact hw.stores_of_covers hthing
  combined hp hc := by
    rcases h.combined hp hc with hcover | ⟨-, g, -, -, hwait⟩
    · exact Workspace.stores_unsigned.2 (hw.stores_of_covers hcover)
    · exact absurd hwait (hw _ _)
  explained hexpr := (h.explained hexpr).imp_left fun hu target c hc => hw.stores_of_covers (hu target c hc)
  derived := h.derived_stores

/-- After a run that derives, the context of every root has it and the top class as subsumers. -/
theorem Deriving.stores_self {K : Calculus} {w : Workspace} (h : Deriving K w) (hw : w.Quiet) {root : ExprId}
    (hroot : w.Has root) : w.Stores root (.isA root) ∧ w.Stores root (.isA .thing) := by
  rcases h.started hroot with hinit | ⟨hself, hthing⟩
  · exact absurd hinit (hw _ _)
  · exact ⟨hw.stores_of_covers hself, hw.stores_of_covers hthing⟩

/-! ### Processing a conclusion -/

variable {rb : RuleBase} {K : Calculus} {w w₀ : Workspace} {root : ExprId} {c : Conclusion}

/-- A conclusion that is stored already may be dropped. -/
theorem Deriving.of_popped (h : Deriving K w) (hpop : Popped w root c w₀) (hc : w₀.Stores root c) : Deriving K w₀ := by
  have hstores {other : ExprId} {d : Conclusion} : w₀.Stores other d ↔ w.Stores other d := hpop.stores other d
  have hstored : w₀.Stores = w.Stores := by
    funext other d
    exact propext hstores
  have hwaits {other : ExprId} {d : Conclusion} (hd : d.isStorable = false) (hw : w.Waits other d) :
      w₀.Waits other d := by
    refine (hpop.waits_or hw).resolve_right fun e => ?_
    rw [e.2, hc.isStorable] at hd
    cases hd
  have hcovers {other : ExprId} {d : Conclusion} : w.Covers other d → w₀.Covers other d := by
    rintro (hd | ⟨d', hd, e⟩)
    · exact .inl (hstores.2 hd)
    · rcases hpop.waits_or hd with hd | ⟨rfl, rfl⟩
      · exact .inr ⟨d', hd, e⟩
      · exact .inl (Workspace.stores_unsigned.1 (e ▸ Workspace.stores_unsigned.2 hc))
  constructor
  · exact fun hd => hpop.size ▸ h.within_stores (hstores.1 hd)
  · exact fun hd => hpop.size ▸ h.within_waits (hpop.waits_of hd)
  · intro other hother
    exact (h.started ((hpop.has other).1 hother)).imp (hwaits rfl) (And.imp hcovers hcovers)
  · intro other target premises d hp hd
    rcases h.combined (fun p hmem => hstores.1 (hp p hmem)) hd with hcover | ⟨rfl, g, hg, hy, hwait⟩
    · exact .inl (hcovers hcover)
    · exact .inr ⟨rfl, g, hg, hy, hwaits rfl hwait⟩
  · intro other expr hexpr
    rw [hstored]
    exact (h.explained (hstores.1 hexpr)).imp_left fun hu target d hd => hcovers (hu target d hd)
  · intro other expr hexpr
    rw [hstored]
    exact h.assembled (hpop.waits_of hexpr)
  · intro other d hd
    rw [hstored]
    exact h.derived_stores (hstores.1 hd)
  · intro other d hd hstorable
    rw [hstored]
    exact h.derived_waits (hpop.waits_of hd) hstorable

/-- `w'` is `w` after a conclusion that waited at `root` was taken in, with `facts` what the context then has, and what
it yields was sent. -/
structure Absorbed (rb : RuleBase) (w : Workspace) (root : ExprId) (c : Conclusion) (facts : Facts) (w' : Workspace) :
    Prop where
  waited : w.Waits root c
  size : w'.contexts.size = w.contexts.size
  stores {other : ExprId} {d : Conclusion} :
    w'.Stores other d ↔ w.Stores other d ∨ (other = root ∧ c.isStorable = true ∧ d.unsigned = c.unsigned)
  contains {d : Conclusion} : facts.contains d = true ↔ w'.Stores root d
  has {other : ExprId} : w'.Has other → w.Has other ∨ w'.Waits other .init
  waits_or {other : ExprId} {d : Conclusion} : w.Waits other d → w'.Waits other d ∨ other = root ∧ d = c
  waits_of {other : ExprId} {d : Conclusion} :
    w'.Waits other d → w.Waits other d ∨ (other, d) ∈ rb.productions .derive root facts c ∨ d = .init
  sent {target : ExprId} {d : Conclusion} :
    (target, d) ∈ rb.productions .derive root facts c → target.val < w.contexts.size → w'.Waits target d

/-- A conclusion that is not stored yet is taken in. -/
theorem Popped.absorbed (hpop : Popped w root c w₀) (hc : ¬ w₀.Stores root c) :
    ∃ facts, Absorbed rb w root c facts (rb.process .derive root c w₀).2 := by
  obtain ⟨ctx, hctx⟩ := (hpop.has root).2 hpop.waits.has
  have hin := RuleBase.takenIn_process rb hctx (by simpa [Workspace.stores_of_context? hctx] using hc)
  refine ⟨ctx.facts.insert c, hpop.waits, hin.size.trans hpop.size, ?_, fun {d} => ?_, fun {other} hother => ?_, fun hd => ?_,
    fun hd => ?_, fun hd hlt => (hin.waits _ _).2 (.inr (.inl ⟨hd, hpop.size ▸ hlt⟩))⟩
  · intro other d
    rw [hin.stores, hpop.stores]
  · rw [hin.stores, Workspace.stores_of_context? hctx]
    simp [or_comm]
  · by_cases hold : w₀.Has other
    · exact .inl ((hpop.has other).1 hold)
    · exact .inr ((hin.waits _ _).2 (.inr (.inr ⟨rfl, hold, hother⟩)))
  · exact (hpop.waits_or hd).imp_left fun hd => (hin.waits _ _).2 (.inl hd)
  · rcases (hin.waits _ _).1 hd with hd | ⟨hd, -⟩ | ⟨rfl, -, -⟩
    · exact .inl (hpop.waits_of hd)
    · exact .inr (.inl hd)
    · exact .inr (.inr rfl)

namespace Absorbed

variable {facts : Facts} {w' : Workspace}

theorem stores_of (ha : Absorbed rb w root c facts w') {other : ExprId} {d : Conclusion} (hd : w.Stores other d) :
    w'.Stores other d := ha.stores.2 (.inl hd)

theorem stores_self (ha : Absorbed rb w root c facts w') (hstorable : c.isStorable = true) : w'.Stores root c :=
  ha.stores.2 (.inr ⟨rfl, hstorable, rfl⟩)

/-- What is sent is produced by the rules. -/
theorem produced (ha : Absorbed rb w root c facts w') {target : ExprId} {d : Conclusion}
    (hd : (target, d) ∈ rb.productions .derive root facts c) : RuleBase.Produced rb.calculus .derive root facts c target d :=
  RuleBase.produced_of_mem_productions (fun hstorable => ha.contains.2 (ha.stores_self hstorable)) hd

/-- What was stored or has waited is stored or waits. -/
theorem covers (ha : Absorbed rb w root c facts w') {other : ExprId} {d : Conclusion} (hstorable : d.isStorable = true)
    (hd : w.Covers other d) : w'.Covers other d := by
  rcases hd with hd | ⟨d', hd, e⟩
  · exact .inl (ha.stores_of hd)
  · rcases ha.waits_or hd with hd | ⟨rfl, rfl⟩
    · exact .inr ⟨d', hd, e⟩
    · refine .inl (ha.stores.2 (.inr ⟨rfl, ?_, e.symm⟩))
      rw [← Conclusion.isStorable_unsigned, e, Conclusion.isStorable_unsigned, hstorable]

section Invariant

variable (h : Deriving rb.calculus w) (ha : Absorbed rb w root c facts w')

include h ha

theorem within_stores {other : ExprId} {d : Conclusion} (hd : w'.Stores other d) : d.Within w.contexts.size := by
  rcases ha.stores.1 hd with hd | ⟨rfl, -, e⟩
  · exact h.within_stores hd
  · rw [← Conclusion.within_unsigned, e, Conclusion.within_unsigned]
    exact h.within_waits ha.waited

theorem within_sent (hn : rb.calculus.Within w.contexts.size) {target : ExprId} {d : Conclusion}
    (hd : (target, d) ∈ rb.productions .derive root facts c) :
    target.val < w.contexts.size ∧ d.Within w.contexts.size := by
  have hroot : root.val < w.contexts.size := ha.waited.has.lt_size
  cases ha.produced hd with
  | self => exact ⟨hroot, hroot⟩
  | thing => exact ⟨hroot, hn.thing⟩
  | unfold _ hu => exact hu.within hn hroot
  | combine hp hcomb => exact hcomb.within hn hroot fun p hmem => ha.within_stores h (ha.contains.1 (hp p hmem))

theorem covers_sent (hn : rb.calculus.Within w.contexts.size) {target : ExprId} {d : Conclusion}
    (hd : (target, d) ∈ rb.productions .derive root facts c) : w'.Covers target d :=
  .inr ⟨d, ha.sent hd (ha.within_sent h hn hd).1, rfl⟩

theorem derives_stored {other : ExprId} {d : Conclusion} (hd : w'.Stores other d) :
    Derives rb.calculus w'.Stores other d.unsigned := by
  refine Derives.mono (.refl _) (fun _ _ => ha.stores_of) ?_
  rcases ha.stores.1 hd with hd | ⟨rfl, hstorable, e⟩
  · exact h.derived_stores hd
  · rw [e]
    exact h.derived_waits ha.waited hstorable

/-- What is sent is derived from what is stored. -/
theorem derives_sent {target : ExprId} {d : Conclusion} (hd : (target, d) ∈ rb.productions .derive root facts c) :
    Derives rb.calculus w'.Stores target d.unsigned := by
  cases ha.produced hd with
  | self => exact .self _
  | thing => exact .thing _
  | @unfold expr _ polarity _ _ hu =>
    have hexpr : w'.Stores root (.subsumer expr polarity) := ha.stores_self rfl
    rw [hu.unsigned_eq]
    exact .unfold hexpr (ha.derives_stored h hexpr) hu
  | combine hp hcomb =>
    have hp' := fun p hmem => ha.contains.1 (hp p hmem)
    exact .combine hp' (fun p hmem => hcomb.premise_unsigned hmem ▸ ha.derives_stored h (hp' p hmem)) hcomb

theorem started (hn : rb.calculus.Within w.contexts.size) {other : ExprId} (hother : w'.Has other) :
    w'.Waits other .init ∨ w'.Covers other (.isA other) ∧ w'.Covers other (.isA .thing) := by
  rcases ha.has hother with hold | hinit
  · rcases h.started hold with hinit | ⟨hself, hthing⟩
    · rcases ha.waits_or hinit with hinit | ⟨rfl, rfl⟩
      · exact .inl hinit
      · exact .inr ⟨ha.covers_sent h hn (by simp [RuleBase.productions]),
          ha.covers_sent h hn (by simp [RuleBase.productions])⟩
    · exact .inr ⟨ha.covers rfl hself, ha.covers rfl hthing⟩
  · exact .inl hinit

/-- An instance of a rule has been looked at, unless the conclusion taken in is one of its premises: then what it
concludes has been sent. -/
theorem combined (hK : rb.calculus.Regular) (hn : rb.calculus.Within w.contexts.size) {other target : ExprId}
    {premises : List Conclusion} {d : Conclusion} (hp : ∀ p ∈ premises, w'.Stores other p)
    (hcomb : Combines rb.calculus other premises target d) : w'.Covers target d ∨ target = other ∧
      ∃ g, rb.calculus.contributes g ∧ g.Yields rb.calculus.roles premises d ∧ w'.Waits other (.rulesChanged g.premise) := by
  by_cases hold : ∀ p ∈ premises, w.Stores other p
  · rcases h.combined hold hcomb with hcover | ⟨rfl, g, hg, hy, hwait⟩
    · exact .inl (ha.covers hcomb.isStorable hcover)
    · rcases ha.waits_or hwait with hwait | ⟨rfl, rfl⟩
      · exact .inr ⟨rfl, g, hg, hy, hwait⟩
      · exact .inl (ha.covers_sent h hn
          (RuleBase.mem_productions_rulesChanged hg hy fun p hmem => ha.contains.2 (hp p hmem)))
  · obtain ⟨p, hmem, hnew⟩ : ∃ p, p ∈ premises ∧ ¬ w.Stores other p := by simpa using hold
    obtain ⟨rfl, -, e⟩ := (ha.stores.1 (hp p hmem)).resolve_left hnew
    rw [hcomb.premise_unsigned hmem] at e
    exact .inl (ha.covers_sent h hn
      (RuleBase.mem_productions_of_combines (fun _ => hK.isSymmetric) hcomb (fun p hmem => ha.contains.2 (hp p hmem)) (e ▸ hmem)))

theorem explained (hn : rb.calculus.Within w.contexts.size) {other expr : ExprId} (hexpr : w'.Stores other (.isA expr)) :
    (∀ target d, Unfolds rb.calculus other expr target d → w'.Covers target d) ∨
      Assembled rb.calculus w'.Stores other expr := by
  rcases ha.stores.1 hexpr with hexpr | ⟨rfl, -, e⟩
  · exact (h.explained hexpr).imp (fun hu target d hd => ha.covers hd.isStorable (hu target d hd))
      (Assembled.mono fun _ _ => ha.stores_of)
  · cases c with
    | subsumer expr' polarity =>
      cases e
      cases polarity with
      | positive => exact .inl fun target d hd => ha.covers_sent h hn (RuleBase.mem_productions_of_unfolds (.inl rfl) hd)
      | negative => exact .inr ((h.assembled ha.waited).mono fun _ _ => ha.stores_of)
    | _ => cases e

theorem assembled {other expr : ExprId} (hexpr : w'.Waits other (.subsumer expr .negative)) :
    Assembled rb.calculus w'.Stores other expr := by
  rcases ha.waits_of hexpr with hexpr | hexpr | e
  · exact (h.assembled hexpr).mono fun _ _ => ha.stores_of
  · generalize e : Conclusion.subsumer expr .negative = d at hexpr
    cases ha.produced hexpr with
    | self | thing => cases e
    | unfold _ hu => cases hu <;> cases e
    | combine hp hcomb => exact ⟨root, _, fun p hmem => ha.contains.1 (hp p hmem), e ▸ hcomb⟩
  · cases e

/-- Taking in any conclusion that waits keeps the invariant. -/
theorem preserves (hK : rb.calculus.Regular) (hn : rb.calculus.Within w.contexts.size) : Deriving rb.calculus w' where
  within_stores hd := ha.size ▸ ha.within_stores h hd
  within_waits hd := by
    rw [ha.size]
    rcases ha.waits_of hd with hd | hd | rfl
    · exact h.within_waits hd
    · exact (ha.within_sent h hn hd).2
    · trivial
  started := ha.started h hn
  combined := ha.combined h hK hn
  explained := ha.explained h hn
  assembled := ha.assembled h
  derived_stores := ha.derives_stored h
  derived_waits hd hstorable := by
    rcases ha.waits_of hd with hd | hd | rfl
    · exact Derives.mono (.refl _) (fun _ _ => ha.stores_of) (h.derived_waits hd hstorable)
    · exact ha.derives_sent h hd
    · cases hstorable

end Invariant

end Absorbed

/-- Processing any conclusion that waits keeps the invariant. -/
theorem Deriving.process (hK : rb.calculus.Regular) (hn : rb.calculus.Within w.contexts.size) (h : Deriving rb.calculus w)
    (hpop : Popped w root c w₀) : Deriving rb.calculus (rb.process .derive root c w₀).2 := by
  by_cases hstored : w₀.Stores root c
  · rw [RuleBase.process_derive_of_stores hstored]
    exact h.of_popped hpop hstored
  · obtain ⟨facts, ha⟩ := hpop.absorbed hstored
    exact ha.preserves h hK hn

end ELOntology
