import ELOntology.Proofs.Saturation.Calm
import ELOntology.Proofs.Saturation.Confluence
import ELOntology.Proofs.Saturation.Noting
import ELOntology.Proofs.Saturation.Retracting

/-!
# What a retraction removes

A run that retracts starts from any workspace, saturated or not, and takes back what waits there.  In which order it
processes conclusions makes no difference: it removes the stored conclusions that wait and all that depend on them, the
`Cone`, and nothing else.

Both halves are one invariant, `Receding`: a conclusion that is to go is not stored or waits (`Workspace.Doomed`), and what
is lost or waits to be given up is in the cone.  Key facts: `Receding.process` (each step keeps the invariant),
`Receding.stores_iff` (what is left at the end) and `retraction_removes_cone`.
-/

namespace ELOntology

/-- The stored conclusions that depend on those that wait: what waits and is stored, the parts of an expression of the cone
that are stored, and what is stored and concluded by a rule from stored premises, one of which is in the cone. -/
inductive Cone (K : Calculus) (start : Workspace) : ExprId → Conclusion → Prop
  | seed {root : ExprId} {c : Conclusion} (hc : start.Waits root c) (hstored : start.Stores root c) :
      Cone K start root c.unsigned
  | unfold {root expr target : ExprId} {c : Conclusion} (hexpr : Cone K start root (.isA expr))
      (h : Unfolds K root expr target c) (hstored : start.Stores target c) : Cone K start target c.unsigned
  | combine {root target : ExprId} {premises : List Conclusion} {p c : Conclusion}
      (hpremises : ∀ q ∈ premises, start.Stores root q) (hmem : p ∈ premises) (hp : Cone K start root p)
      (h : Combines K root premises target c) (hstored : start.Stores target c) : Cone K start target c.unsigned

/-- One step of a run that retracts: some conclusion that waits in some context is processed, or a change of turns. -/
inductive RetractStep (rb : RuleBase) (w : Workspace) : Workspace → Prop
  | process {root : ExprId} {ctx : Context} {c : Conclusion} {before after : List Conclusion} {rest : Queue Conclusion}
      (hctx : w.context? root = some ctx) (htodo : ctx.todo.toList = before ++ c :: after)
      (hrest : rest.toList = before ++ after) :
      RetractStep rb w (rb.process .retract root c (w.put root { ctx with todo := rest })).2
  | schedule {w' : Workspace} (h : w.SameWork w') (hflags : ∀ root, w'.flags? root = w.flags? root) : RetractStep rb w w'

/-- A run that retracts, in any order, until nothing is left to do. -/
structure RetractsTo (rb : RuleBase) (w w' : Workspace) : Prop where
  steps : Relation.ReflTransGen (RetractStep rb) w w'
  quiet : w'.Quiet

/-- The same contexts with the same facts and flags, and the same queue of modified contexts up to order. -/
structure Workspace.SameOutcome (w w' : Workspace) : Prop where
  size : w'.contexts.size = w.contexts.size
  context? (root : ExprId) : (w'.context? root).map (fun ctx => (ctx.facts, ctx.saturated, ctx.modified)) =
    (w.context? root).map fun ctx => (ctx.facts, ctx.saturated, ctx.modified)
  modified : w'.modified.toList.Perm w.modified.toList

namespace Workspace.SameOutcome

variable {w w' w'' : Workspace}

theorem trans (h : w.SameOutcome w') (h' : w'.SameOutcome w'') : w.SameOutcome w'' :=
  ⟨h'.size.trans h.size, fun root => (h'.context? root).trans (h.context? root), h'.modified.trans h.modified⟩

theorem of_stores (hsize : w'.contexts.size = w.contexts.size) (hhas : ∀ root, w'.Has root ↔ w.Has root)
    (hstores : ∀ root c, w'.Stores root c ↔ w.Stores root c) (hflags : ∀ root, w'.flags? root = w.flags? root)
    (hmodified : w'.modified.toList.Perm w.modified.toList) : w.SameOutcome w' := by
  refine ⟨hsize, fun root => ?_, hmodified⟩
  rcases w.has_or_none root with ⟨ctx, hctx⟩ | hnone
  · obtain ⟨ctx', hctx'⟩ := (hhas root).2 ⟨ctx, hctx⟩
    have hfacts : ctx'.facts = ctx.facts := Facts.ext fun c => Bool.eq_iff_iff.2 (by
      rw [← stores_of_context? hctx', hstores, stores_of_context? hctx])
    have hflags := hflags root
    rw [flags?, flags?, hctx', hctx] at hflags
    obtain ⟨hsaturated, hmarked⟩ := Prod.mk.inj (Option.some.inj hflags)
    rw [hctx', hctx, Option.map_some, Option.map_some, hfacts, hsaturated, hmarked]
  · have hnone' : w'.context? root = none := not_has_iff.1 fun h => not_has_iff.2 hnone ((hhas root).1 h)
    rw [hnone', hnone]

end Workspace.SameOutcome

namespace Cone

variable {K : Calculus} {start : Workspace} {root target : ExprId} {c d : Conclusion}

theorem stores (h : Cone K start root c) : start.Stores root c := by
  cases h <;> exact Workspace.stores_unsigned.2 ‹_›

theorem unsigned_eq (h : Cone K start root c) : c.unsigned = c := by
  cases h <;> exact Conclusion.unsigned_unsigned _

/-- What a conclusion of the cone leads to is in the cone. -/
theorem of_leads (hc : Cone K start root c.unsigned) (h : RuleBase.Leads K .retract root (start.Stores root) c target d)
    (hstored : start.Stores target d) : Cone K start target d.unsigned := by
  cases h with
  | unfold _ hu => exact .unfold hc hu hstored
  | combine hpremises hmem hcomb => exact .combine hpremises hmem hc hcomb hstored

end Cone

/-! ### The invariant -/

/-- What holds on the way from `start` while it retracts. -/
structure Receding (K : Calculus) (start w : Workspace) : Prop where
  size : w.contexts.size = start.contexts.size
  has (root : ExprId) : w.Has root ↔ start.Has root
  kept {root : ExprId} {c : Conclusion} : w.Stores root c → start.Stores root c
  /-- What waited goes. -/
  seeded {root : ExprId} {c : Conclusion} : start.Waits root c → w.Doomed root c
  /-- What a lost conclusion leads to goes. -/
  followed {root target : ExprId} {p c : Conclusion} : start.Stores root p → ¬ w.Stores root p →
    RuleBase.Leads K .retract root (start.Stores root) p target c → w.Doomed target c
  /-- Only conclusions of the cone are lost. -/
  lost {root : ExprId} {c : Conclusion} : start.Stores root c → ¬ w.Stores root c → Cone K start root c.unsigned
  /-- Only conclusions of the cone wait to be given up. -/
  pending {root : ExprId} {c : Conclusion} : w.Waits root c → start.Stores root c → Cone K start root c.unsigned
  noting : Noting start w

namespace Receding

variable {rb : RuleBase} {K : Calculus} {start w w' : Workspace} {root : ExprId} {c : Conclusion}

theorem refl (K : Calculus) (w : Workspace) : Receding K w w where
  size := rfl
  has _ := Iff.rfl
  kept h := h
  seeded hc _ := ⟨_, hc, rfl⟩
  followed hp hlost _ := absurd hp hlost
  lost hc hlost := absurd hc hlost
  pending hc hstored := .seed hc hstored
  noting := .refl w

/-- A conclusion that is not stored is dropped. -/
private theorem popped (h : Receding K start w) {w₀ : Workspace} (hpop : Popped w root c w₀)
    (hflags : ∀ other, w₀.flags? other = w.flags? other) (hmodified : w₀.modified = w.modified)
    (hc : ¬ w₀.Stores root c) : Receding K start w₀ := by
  constructor
  · exact hpop.size.trans h.size
  · exact fun other => (hpop.has other).trans (h.has other)
  · exact fun hd => h.kept ((hpop.stores _ _).1 hd)
  · exact fun hd => (h.seeded hd).popped hpop hc
  · intro other target p d hp hlost hleads
    exact (h.followed hp (fun hs => hlost ((hpop.stores _ _).2 hs)) hleads).popped hpop hc
  · exact fun hd hlost => h.lost hd fun hs => hlost ((hpop.stores _ _).2 hs)
  · exact fun hd => h.pending (hpop.waits_of hd)
  · exact h.noting.keep hpop.stores hflags hmodified

/-- What a lost conclusion leads to goes, also if it is lost just now. -/
private theorem followed_givenUp (hK : rb.calculus.Symmetric) (h : Receding rb.calculus start w) {w₀ : Workspace}
    {facts : Facts} (hpop : Popped w root c w₀) (hup : GivenUp w₀ root c (rb.productions .retract root facts c) w')
    (hfacts : ∀ d, facts.contains d = true ↔ w.Stores root d) {other target : ExprId} {p d : Conclusion}
    (hp : start.Stores other p) (hlost : ¬ w'.Stores other p)
    (hleads : RuleBase.Leads rb.calculus .retract other (start.Stores other) p target d) : w'.Doomed target d := by
  rcases hup.lost_or_eq hpop hlost with hlost | ⟨rfl, e⟩
  · exact (h.followed hp hlost hleads).givenUp hpop hup
  cases hleads with
  | unfold _ hu => exact .of_mem_productions hup (RuleBase.mem_productions_retract_of_unfolds e.symm hu)
  | @combine _ _ _ premises hpremises hmem hcomb =>
    by_cases hearlier : ∃ q ∈ premises, ¬ w.Stores other q
    · -- another premise was lost before, and the conclusion is doomed since then
      obtain ⟨q, hq, hlost⟩ := hearlier
      have hmem : q.unsigned ∈ premises := by rwa [hcomb.premise_unsigned hq]
      have hleads : RuleBase.Leads rb.calculus .retract other (start.Stores other) q target d :=
        .combine hpremises hmem hcomb
      exact (h.followed (hpremises q hq) hlost hleads).givenUp hpop hup
    · have hearlier : ∀ q ∈ premises, facts.contains q = true := fun q hq => (hfacts q).2 (by
        simpa using fun hq' => hearlier ⟨q, hq, hq'⟩)
      exact .of_mem_productions hup (RuleBase.mem_productions_of_combines (fun _ => hK) hcomb hearlier (e ▸ hmem))

/-- Processing any conclusion that waits keeps the invariant. -/
theorem process (hK : rb.calculus.Symmetric) (h : Receding rb.calculus start w) {w₀ : Workspace}
    (hpop : Popped w root c w₀) (hflags : ∀ other, w₀.flags? other = w.flags? other) (hmodified : w₀.modified = w.modified) :
    Receding rb.calculus start (rb.process .retract root c w₀).2 := by
  by_cases hstored : w₀.Stores root c
  case neg =>
    rw [RuleBase.process_retract_of_not_stores hstored]
    exact h.popped hpop hflags hmodified hstored
  have hold : w.Stores root c := (hpop.stores root c).1 hstored
  have hcone : Cone rb.calculus start root c.unsigned := h.pending hpop.waits (h.kept hold)
  have hflags' (other : ExprId) : (rb.process .retract root c w₀).2.flags? other =
      if other = root then some (false, true) else w.flags? other := by
    rw [Workspace.flags?_process_retract rb hstored, hflags]
  have hmodified' : (rb.process .retract root c w₀).2.modified.toList =
      if w.mark? root = some true then w.modified.toList else w.modified.toList ++ [root] := by
    rw [Workspace.toList_modified_process_retract rb hstored, hmodified, Workspace.mark?_eq_flags?, hflags,
      ← Workspace.mark?_eq_flags?]
  obtain ⟨ctx, hctx, hc⟩ := hstored
  have hup := RuleBase.givenUp_process rb hctx hc
  have hfacts (d : Conclusion) : ctx.facts.contains d = true ↔ w.Stores root d := by
    rw [← hpop.stores, Workspace.stores_of_context? hctx]
  generalize ctx.facts = facts at hup hc hfacts
  generalize (rb.process .retract root c w₀).2 = w' at hup hflags' hmodified'
  constructor
  · exact (hup.size.trans hpop.size).trans h.size
  · exact fun other => ((hup.has other).trans (hpop.has other)).trans (h.has other)
  · exact fun hd => h.kept ((hup.stores_popped hpop).1 hd).1
  · exact fun hd => (h.seeded hd).givenUp hpop hup
  · exact fun hp hlost hleads => h.followed_givenUp hK hpop hup hfacts hp hlost hleads
  · intro other d hd hlost
    rcases hup.lost_or_eq hpop hlost with hlost | ⟨rfl, e⟩
    · exact h.lost hd hlost
    · exact e ▸ hcone
  · intro other d hd hs
    rcases (hup.waits other d).1 hd with hd | ⟨hd, -⟩
    · exact h.pending (hpop.waits_of hd) hs
    · -- a production of a conclusion of the cone
      refine hcone.of_leads ?_ hs
      cases RuleBase.leads_of_mem_productions hc hd with
      | unfold hmode hu => exact .unfold hmode hu
      | combine hpremises hmem hcomb => exact .combine (fun q hq => h.kept ((hfacts q).1 (hpremises q hq))) hmem hcomb
  · exact h.noting.givenUp (h.kept hold) (fun other d => hup.stores_popped hpop) hflags' hmodified'

/-- Any steps keep the invariant. -/
theorem steps (hK : rb.calculus.Symmetric) (h : Relation.ReflTransGen (RetractStep rb) start w) :
    Receding rb.calculus start w := by
  induction h with
  | refl => exact refl rb.calculus start
  | tail _ hstep ih =>
    cases hstep with
    | process hctx htodo hrest =>
      exact ih.process hK (.put hctx htodo hrest) (fun other => Workspace.flags?_put hctx rfl) rfl
    | schedule hsame hflags =>
      constructor
      · exact hsame.size.trans ih.size
      · exact fun other => hsame.has_iff.trans (ih.has other)
      · exact fun hd => ih.kept (hsame.stores_iff.1 hd)
      · exact fun hd hs => by
          obtain ⟨d', hd', e⟩ := ih.seeded hd (hsame.stores_iff.1 hs)
          exact ⟨d', hsame.waits_iff.2 hd', e⟩
      · intro other target p d hp hlost hleads hs
        obtain ⟨d', hd', e⟩ := ih.followed hp (fun hs => hlost (hsame.stores_iff.2 hs)) hleads (hsame.stores_iff.1 hs)
        exact ⟨d', hsame.waits_iff.2 hd', e⟩
      · exact fun hd hlost => ih.lost hd fun hs => hlost (hsame.stores_iff.2 hs)
      · exact fun hd => ih.pending (hsame.waits_iff.1 hd)
      · exact ih.noting.keep (fun _ _ => hsame.stores_iff) hflags hsame.modified

/-- When nothing is left to do, what has been stored is still stored unless it is in the cone.  That the cone is gone is by
induction on it. -/
theorem stores_iff (h : Receding K start w) (hw : w.Quiet) :
    w.Stores root c ↔ start.Stores root c ∧ ¬ Cone K start root c.unsigned := by
  have hgone {root : ExprId} {c : Conclusion} (hc : Cone K start root c) : ¬ w.Stores root c := by
    induction hc with
    | seed hc => exact fun hs => hw.not_stores_of_doomed (h.seeded hc) (Workspace.stores_unsigned.1 hs)
    | unfold hexpr hu _ ih =>
      have hdoomed := h.followed hexpr.stores ih (.unfold (.inr rfl) hu)
      exact fun hs => hw.not_stores_of_doomed hdoomed (Workspace.stores_unsigned.1 hs)
    | combine hpremises hmem hp hcomb _ ih =>
      have hdoomed := h.followed hp.stores ih (.combine hpremises (hp.unsigned_eq.symm ▸ hmem) hcomb)
      exact fun hs => hw.not_stores_of_doomed hdoomed (Workspace.stores_unsigned.1 hs)
  constructor
  · exact fun hc => ⟨h.kept hc, fun hcone => hgone hcone (Workspace.stores_unsigned.2 hc)⟩
  · rintro ⟨hc, hcone⟩
    exact Classical.byContradiction fun hlost => hcone (h.lost hc hlost)

end Receding

/-! ### Complete runs -/

namespace RetractsTo

variable {rb : RuleBase} {w w₁ w₂ : Workspace}

/-- A run that was not interrupted is complete. -/
theorem of_course {workers : Nat} {result : Option Statistics × Workspace} (h : Course workers rb .retract w result)
    (hs : Scheduled [] w) (hsome : result.1.isSome = true) : RetractsTo rb w result.2 := by
  refine ⟨h.chain ⟨fun hpick => ?_, fun root w => ?_, fun hcontexts hmodified => ?_, fun w e => ?_⟩, h.quiet hs hsome⟩
  · cases hpick with
    | pick hctx htodo hrest => exact .process hctx htodo hrest
  · exact .schedule (.deactivate root) fun other => Workspace.flags?_update (fun _ => rfl) fun _ => rfl
  · exact .schedule (.of_contexts hcontexts hmodified) fun other => by
      rw [Workspace.flags?, Workspace.context?_congr hcontexts, Workspace.flags?]
  · cases e

/-- Two complete runs that lose the same conclusions come to the same. -/
theorem sameOutcome (h₁ : Receding rb.calculus w w₁) (h₂ : Receding rb.calculus w w₂)
    (hstores : ∀ root c, w₂.Stores root c ↔ w₁.Stores root c) : w₁.SameOutcome w₂ := by
  have hlost (root : ExprId) : w.Lost w₂ root ↔ w.Lost w₁ root := by
    simp only [Workspace.Lost, hstores]
  refine .of_stores (h₂.size.trans h₁.size.symm) (fun root => (h₂.has root).trans (h₁.has root).symm) hstores
    (fun root => ?_) ?_
  · by_cases h : w.Lost w₁ root
    · rw [h₁.noting.noted h, h₂.noting.noted ((hlost root).2 h)]
    · rw [h₁.noting.unchanged h, h₂.noting.unchanged fun h' => h ((hlost root).1 h')]
  · obtain ⟨marked₁, hqueue₁, hnodup₁, hmem₁⟩ := h₁.noting.queued
    obtain ⟨marked₂, hqueue₂, hnodup₂, hmem₂⟩ := h₂.noting.queued
    rw [hqueue₁, hqueue₂]
    refine List.Perm.append_left _ ((List.perm_ext_iff_of_nodup hnodup₂ hnodup₁).2 fun root => ?_)
    rw [hmem₁, hmem₂, hlost]

/-- Where no stored conclusion waits, a run loses nothing. -/
theorem sameOutcome_of_not_stores (hK : rb.calculus.Symmetric) (h : RetractsTo rb w w₁)
    (hw : ∀ root c, w.Waits root c → ¬ w.Stores root c) : w.SameOutcome w₁ := by
  have hcone {root : ExprId} {c : Conclusion} (hc : Cone rb.calculus w root c) : False := by
    induction hc with
    | seed hc hstored => exact hw _ _ hc hstored
    | unfold _ _ _ ih => exact ih
    | combine _ _ _ _ _ ih => exact ih
  refine sameOutcome (.refl rb.calculus w) (.steps hK h.steps) fun root c => ?_
  rw [(Receding.steps hK h.steps).stores_iff h.quiet]
  exact ⟨And.left, fun hc => ⟨hc, hcone⟩⟩

end RetractsTo

/-- A retraction run removes exactly the cone.  Take any index that histories lead to, any role hierarchy and any workspace,
and process what waits there in any order until nothing is left to do.  No context is created.  What is still stored is what
was stored and is not in the cone.  The contexts that have lost a conclusion are marked, and those of them that were not
marked before have joined the queue, each once.  Any other order, the order of `RuleBase.run` among them, comes to the
same, and when conclusions that have waited are retracted once more, nothing changes. -/
theorem retraction_removes_cone (calls : List Index.Call) (roles : RoleHierarchy) {w w' : Workspace}
    (h : RetractsTo ⟨Index.after calls, roles⟩ w w') :
    (w'.contexts.size = w.contexts.size ∧ ∀ root, w'.Has root ↔ w.Has root) ∧
    (∀ root c, w'.Stores root c ↔
      w.Stores root c ∧ ¬ Cone (RuleBase.calculus ⟨Index.after calls, roles⟩) w root c.unsigned) ∧
    (∀ root, w'.mark? root = some true ↔ w.mark? root = some true ∨ w.Lost w' root) ∧
    (∃ marked, w'.modified.toList = w.modified.toList ++ marked ∧ marked.Nodup ∧
      ∀ root, root ∈ marked ↔ w.mark? root = some false ∧ w.Lost w' root) ∧
    (∀ other, RetractsTo ⟨Index.after calls, roles⟩ w other → w'.SameOutcome other) ∧
    (Scheduled [] w → (RuleBase.run ⟨Index.after calls, roles⟩ .retract w).1.isSome = true →
      w'.SameOutcome (RuleBase.run ⟨Index.after calls, roles⟩ .retract w).2) ∧
    ∀ again other, (∀ p ∈ again, w.Waits p.1 p.2) →
      RetractsTo ⟨Index.after calls, roles⟩ (RuleBase.sendAll .retract again w') other → w'.SameOutcome other := by
  have hK : (RuleBase.calculus ⟨Index.after calls, roles⟩).Symmetric := (Index.accounts_after calls).regular.isSymmetric
  have hreceding := Receding.steps hK h.steps
  have hstores (root : ExprId) (c : Conclusion) : w'.Stores root c ↔
      w.Stores root c ∧ ¬ Cone (RuleBase.calculus ⟨Index.after calls, roles⟩) w root c.unsigned := hreceding.stores_iff h.quiet
  have hother (other : Workspace) (hother : RetractsTo ⟨Index.after calls, roles⟩ w other) : w'.SameOutcome other := by
    refine RetractsTo.sameOutcome hreceding (.steps hK hother.steps) fun root c => ?_
    rw [(Receding.steps hK hother.steps).stores_iff hother.quiet, hstores]
  refine ⟨⟨hreceding.size, hreceding.has⟩, hstores, fun root => ?_, hreceding.noting.queued, hother,
    fun hs hrun => hother _ (.of_course (RuleBase.course_run 1 _ _ _) hs hrun), fun again other hagain hsecond => ?_⟩
  · rw [Workspace.mark?_eq_flags?]
    by_cases hlost : w.Lost w' root
    · simp [hreceding.noting.noted hlost, hlost]
    · simp [hreceding.noting.unchanged hlost, hlost, Workspace.mark?_eq_flags?]
  · -- what has waited is not stored any more
    have hsent : w'.SameOutcome (RuleBase.sendAll .retract again w') := by
      refine .of_stores (Workspace.size_sendAll .retract again) (fun root => Workspace.has_sendAll_retract again)
        (fun root c => Workspace.stores_sendAll .retract again) (fun root => Workspace.flags?_sendAll_retract again) ?_
      rw [Workspace.modified_sendAll]
    refine hsent.trans (RetractsTo.sameOutcome_of_not_stores hK hsecond fun root c hc hstored => ?_)
    have hstored : w'.Stores root c := (Workspace.stores_sendAll .retract again).1 hstored
    rcases (Workspace.waits_sendAll_retract again).1 hc with hc | ⟨hc, -⟩
    · exact h.quiet root c hc
    · obtain ⟨hbefore, hcone⟩ := (hstores root c).1 hstored
      exact hcone (.seed (hagain _ hc) hbefore)

/-- The case of two linked contexts: all of `A` is linked to some `B`, and all of `B` is a `C`.  When the latter is
retracted in the context of `B`, the context of `A` loses what it has concluded from it and keeps the existential, and the
link stays. -/
theorem retraction_removes_cone_linked :
    let calls := [.assert (.subClassOf (.named "A") (.someValues "r" (.named "B"))),
      .assert (.subClassOf (.named "B") (.named "C")), .assert (.subClassOf (.someValues "r" (.named "C")) (.named "D")), .commit]
    let ix := Index.after calls
    ∃ a b c d e r w w', ix.classId? "A" = some a ∧ ix.classId? "B" = some b ∧ ix.classId? "C" = some c ∧
      ix.classId? "D" = some d ∧ ix.shape? e = some (.existential r b) ∧ RetractsTo ix.ruleBase w w' ∧ w.Waits b (.isA c) ∧
      (w.Stores a (.isA d) ∧ Cone ix.ruleBase.calculus w a (.isA d) ∧ ¬ w'.Stores a (.isA d)) ∧
      (w.Stores a (.isA e) ∧ ¬ Cone ix.ruleBase.calculus w a (.isA e) ∧ w'.Stores a (.isA e)) ∧
      w'.Stores b (.backwardLink a r) ∧ w'.mark? a = some true ∧ w'.mark? b = some true := by
  intro calls ix
  obtain ⟨-, hcalm⟩ := Workspace.submitAll_of_calm (w := ix.blank .idle) Monitor.calm_idle [⟨2⟩]
  have hscheduled := Completes.scheduled_start ix .idle [⟨2⟩]
  have hderived := RuleBase.course_run 1 ix.ruleBase .derive ((ix.blank .idle).submitAll [⟨2⟩]).2
  let w := RuleBase.sendAll .retract [(⟨3⟩, .isA ⟨5⟩)]
    (ix.ruleBase.run .derive ((ix.blank .idle).submitAll [⟨2⟩]).2).2
  have hretracted := RuleBase.course_run 1 ix.ruleBase .retract w
  have hsome := hretracted.isSome_of_calm (Workspace.calm_sendAll (hderived.calm hcalm) .retract _)
  have hrun : RetractsTo ix.ruleBase w (ix.ruleBase.run .retract w).2 :=
    .of_course hretracted ((hderived.scheduled hscheduled).sendAll .retract _) hsome
  obtain ⟨-, hstores, hmarks, -⟩ := retraction_removes_cone calls ix.ruleBase.roles hrun
  have hwaits : w.Waits ⟨3⟩ (.isA ⟨5⟩) := by decide +kernel
  have hbefore : w.Stores ⟨2⟩ (.isA ⟨7⟩) ∧ w.Stores ⟨2⟩ (.isA ⟨4⟩) ∧ w.Stores ⟨3⟩ (.isA ⟨5⟩) := by decide +kernel
  have hafter : ¬ (ix.ruleBase.run .retract w).2.Stores ⟨2⟩ (.isA ⟨7⟩) ∧
      (ix.ruleBase.run .retract w).2.Stores ⟨2⟩ (.isA ⟨4⟩) ∧ ¬ (ix.ruleBase.run .retract w).2.Stores ⟨3⟩ (.isA ⟨5⟩) ∧
      (ix.ruleBase.run .retract w).2.Stores ⟨3⟩ (.backwardLink ⟨2⟩ ⟨0⟩) := by decide +kernel
  have hcone := (not_congr (hstores ⟨2⟩ (.isA ⟨7⟩))).1 hafter.1
  exact ⟨⟨2⟩, ⟨3⟩, ⟨5⟩, ⟨7⟩, ⟨4⟩, ⟨0⟩, w, _, by decide +kernel, by decide +kernel, by decide +kernel, by decide +kernel,
    by decide +kernel, hrun, hwaits, ⟨hbefore.1, not_not.1 fun h => hcone ⟨hbefore.1, h⟩, hafter.1⟩,
    ⟨hbefore.2.1, ((hstores ⟨2⟩ (.isA ⟨4⟩)).1 hafter.2.1).2, hafter.2.1⟩, hafter.2.2.2,
    (hmarks ⟨2⟩).2 (.inr ⟨_, hbefore.1, hafter.1⟩), (hmarks ⟨3⟩).2 (.inr ⟨_, hbefore.2.2, hafter.2.2.1⟩)⟩

end ELOntology
