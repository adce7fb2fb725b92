import ELOntology.Proofs.Reasoner.Stages
import ELOntology.Proofs.Saturation.Settling

/-!
# Requests that are taken up again

What a request comes to when nothing interrupts it is compared by the still reasoner that it leaves (`Request.calmly`).  A
request resumes, from the states of an invariant, if an interruption leaves a state of the invariant from which the request
still comes to the same (`Request.Resumes`).  Requests that resume can be put one after the other if the first has nothing
left to do where the second is interrupted (`Resumes.bind`), or if the second is never interrupted (`Resumes.andThen`).
-/

namespace ELOntology

namespace Reasoner

variable {r r' r'' : Reasoner}

/-- The reasoner without anything that could ask for an interruption, without marks of saturated contexts and without
statistics. -/
def still (r : Reasoner) : Reasoner := { r with workspace := r.workspace.still, statistics := [] }

@[simp] theorem still_still : r.still.still = r.still := by
  simp only [still, Workspace.still_still]

theorem calm_still (r : Reasoner) : r.still.workspace.monitor.Calm := r.workspace.calm_still

@[simp] theorem still_clearInterrupt : r.clearInterrupt.still = r.still := rfl

/-- Every context is marked as saturated. -/
def AllMarked (r : Reasoner) : Prop := ∀ root ctx, r.workspace.context? root = some ctx → ctx.saturated = true

/-- How a request that is answered goes on from a reasoner: what is saturated already is left alone, and what gets saturated
is marked so. -/
structure Continues (r r' : Reasoner) : Prop where
  config : r'.config = r.config
  calm : r.workspace.monitor.Calm → r'.workspace.monitor.Calm
  saturated : r.stages.isDone .saturation = true →
    r'.stages.isDone .saturation = true ∧ r'.workspace.contexts = r.workspace.contexts
  marked : r.stages.isDone .saturation = false → r'.stages.isDone .saturation = true → r'.AllMarked

namespace Continues

/-- Nothing is done to the contexts. -/
theorem of_workspace (hconfig : r'.config = r.config) (hworkspace : r'.workspace = r.workspace)
    (hstages : r'.stages.isDone .saturation = r.stages.isDone .saturation) : r.Continues r' where
  config := hconfig
  calm hcalm := hworkspace ▸ hcalm
  saturated hdone := ⟨hstages.trans hdone, congrArg _ hworkspace⟩
  marked hnot hdone := by
    rw [← hstages, hdone] at hnot
    cases hnot

theorem refl (r : Reasoner) : r.Continues r := .of_workspace rfl rfl rfl

/-- Nothing gets saturated. -/
theorem of_unsaturated (hconfig : r'.config = r.config) (hcalm : r.workspace.monitor.Calm → r'.workspace.monitor.Calm)
    (hnot : r.stages.isDone .saturation = false) (hnot' : r'.stages.isDone .saturation = false) : r.Continues r' where
  config := hconfig
  calm := hcalm
  saturated hdone := by
    rw [hnot] at hdone
    cases hdone
  marked _ hdone := by
    rw [hnot'] at hdone
    cases hdone

theorem trans (h : r.Continues r') (h' : r'.Continues r'') : r.Continues r'' where
  config := h'.config.trans h.config
  calm hcalm := h'.calm (h.calm hcalm)
  saturated hdone := by
    obtain ⟨hdone', hsame⟩ := h.saturated hdone
    exact ⟨(h'.saturated hdone').1, (h'.saturated hdone').2.trans hsame⟩
  marked hnot hdone := by
    cases hdone' : r'.stages.isDone .saturation with
    | false => exact h'.marked hdone' hdone
    | true =>
      intro root ctx hctx
      rw [Workspace.context?_congr (h'.saturated hdone').2] at hctx
      exact h.marked hnot hdone' root ctx hctx

end Continues

/-- How an interruption stops a request: it does not come from nothing, and only before the contexts are saturated. -/
structure Stops (r r' : Reasoner) : Prop where
  config : r'.config = r.config
  not_calm : ¬ r.workspace.monitor.Calm
  unsaturated : r.stages.isDone .saturation = false
  unsaturated' : r'.stages.isDone .saturation = false

theorem Stops.of_continues (h : r.Continues r') (h' : r'.Stops r'') : r.Stops r'' where
  config := h'.config.trans h.config
  not_calm hcalm := h'.not_calm (h.calm hcalm)
  unsaturated := Bool.eq_false_iff.2 fun hdone => by
    have hdone' := (h.saturated hdone).1
    rw [h'.unsaturated] at hdone'
    cases hdone'
  unsaturated' := h'.unsaturated'

end Reasoner

open Reasoner

namespace Request

variable {α β γ : Type} {m m' : Request α} {f : α → Request β} {I I' : Reasoner → Prop} {J : α → Reasoner → Prop}
  {L : β → Reasoner → Prop} {r r' : Reasoner}

/-- What a request comes to when nothing interrupts it: its answer and the still reasoner that it leaves. -/
def calmly (m : Request α) (r : Reasoner) : Except ReasonerError α × Reasoner := ((m r.still).1, (m r.still).2.still)

theorem calmly_congr (h : r.still = r'.still) : calmly m r = calmly m r' := by rw [calmly, h, calmly]

@[simp] theorem calmly_still : calmly m r.still = calmly m r := calmly_congr still_still

/-- An invariant that holds of the still reasoner as well. -/
structure Steady (I : Reasoner → Prop) : Prop where
  still {r : Reasoner} : I r → I r.still

theorem Steady.and (h : Steady I) (h' : Steady I') : Steady fun r => I r ∧ I' r :=
  ⟨fun hr => ⟨h.still hr.1, h'.still hr.2⟩⟩

/-- From the states of `I` the request leads to states of `J`, and when an interruption stops it, it can be taken up again
where it was stopped and comes to the same as without the interruption. -/
structure Resumes (I : Reasoner → Prop) (m : Request α) (J : α → Reasoner → Prop) : Prop where
  answered {r r' : Reasoner} {a : α} : I r → m r = (.ok a, r') →
    J a r' ∧ r.Continues r' ∧ calmly m r = (.ok a, r'.still)
  interrupted {r r' : Reasoner} {e : ReasonerError} : I r → m r = (.error e, r') → e.isInterrupted = true →
    I r' ∧ r.Stops r' ∧ calmly m r' = calmly m r
  failed {r r' : Reasoner} {e : ReasonerError} : I r → m r = (.error e, r') → e.isInterrupted = false →
    I r' ∧ r'.config = r.config ∧ calmly m r = (.error e, r'.still)

namespace Resumes

/-- Without an interruption a request comes to what it does. -/
theorem calmly_eq (h : Resumes I m J) (hr : I r) (hcalm : r.workspace.monitor.Calm) :
    calmly m r = ((m r).1, (m r).2.still) := by
  rcases hm : m r with ⟨e | a, r'⟩
  · cases he : e.isInterrupted with
    | true => exact absurd hcalm (h.interrupted hr hm he).2.1.not_calm
    | false => exact (h.failed hr hm he).2.2
  · exact (h.answered hr hm).2.2

theorem imp (h : Resumes I m J) {J' : α → Reasoner → Prop} (hJ : ∀ a r, J a r → J' a r) : Resumes I m J' where
  answered hr hm := (h.answered hr hm).imp_left (hJ _ _)
  interrupted := h.interrupted
  failed := h.failed

/-- A request that does the same as another, but skips it where that has nothing to do. -/
theorem skip (hI : Steady I) (h : Resumes I m J)
    (hskip : ∀ r, I r → m' r = m r ∨ ∃ a, m' r = (.ok a, r) ∧ calmly m r = (.ok a, r.still) ∧ J a r) : Resumes I m' J := by
  have hcalmly {r : Reasoner} (hr : I r) : calmly m' r = calmly m r := by
    rcases hskip _ (hI.still hr) with hsame | ⟨a, heq, hcalmly, -⟩
    · rw [calmly, hsame, calmly]
    · rw [calmly_still] at hcalmly
      rw [calmly, heq, hcalmly, still_still]
  constructor
  · intro r r' a hr hm
    rw [hcalmly hr]
    rcases hskip r hr with hsame | ⟨a', heq, hnothing, ha⟩
    · exact h.answered hr (hsame ▸ hm)
    · rw [heq] at hm
      cases hm
      exact ⟨ha, .refl r, hnothing⟩
  · intro r r' e hr hm he
    rcases hskip r hr with hsame | ⟨a, heq, -⟩
    · have hstopped := h.interrupted hr (hsame ▸ hm) he
      rw [hcalmly hr, hcalmly hstopped.1]
      exact hstopped
    · rw [heq] at hm
      cases hm
  · intro r r' e hr hm he
    rcases hskip r hr with hsame | ⟨a, heq, -⟩
    · rw [hcalmly hr]
      exact h.failed hr (hsame ▸ hm) he
    · rw [heq] at hm
      cases hm

/-- Requests that do the same in the states of the invariant. -/
theorem congr (hI : Steady I) (h : Resumes I m J) (hsame : ∀ r, I r → m' r = m r) : Resumes I m' J :=
  h.skip hI fun r hr => .inl (hsame r hr)

/-- Something that an interruption leaves as it is may be fixed. -/
theorem fibre {κ : Type} (g : Reasoner → κ) (h : ∀ k, Resumes (fun r => I r ∧ g r = k) m J) : Resumes I m J where
  answered hr := (h _).answered ⟨hr, rfl⟩
  interrupted hr hm he := ((h _).interrupted ⟨hr, rfl⟩ hm he).imp_left And.left
  failed hr hm he := ((h _).failed ⟨hr, rfl⟩ hm he).imp_left And.left

/-- Requests leave the configuration as it is. -/
theorem config (h : Resumes I m J) (config : Config) :
    Resumes (fun r => I r ∧ r.config = config) m fun a r => J a r ∧ r.config = config where
  answered hr hm := by
    obtain ⟨ha, hcontinues, hcalmly⟩ := h.answered hr.1 hm
    exact ⟨⟨ha, hcontinues.config.trans hr.2⟩, hcontinues, hcalmly⟩
  interrupted hr hm he := by
    obtain ⟨hr', hstops, hcalmly⟩ := h.interrupted hr.1 hm he
    exact ⟨⟨hr', hstops.config.trans hr.2⟩, hstops, hcalmly⟩
  failed hr hm he := by
    obtain ⟨hr', hconfig, hcalmly⟩ := h.failed hr.1 hm he
    exact ⟨⟨hr', hconfig.trans hr.2⟩, hconfig, hcalmly⟩

/-- A request that is answered or interrupted. -/
theorem of_outcome (h : ∀ r, I r → Outcome (fun a r' => J a r' ∧ r.Continues r' ∧ calmly m r = (.ok a, r'.still))
    (fun e r' => e.isInterrupted = true ∧ I r' ∧ r.Stops r' ∧ calmly m r' = calmly m r) (m r)) : Resumes I m J := by
  constructor
  · intro r r' a hr hm
    have hanswered := h r hr
    rw [hm] at hanswered
    cases hanswered with
    | ok hanswered => exact hanswered
  · intro r r' e hr hm _
    have hstopped := h r hr
    rw [hm] at hstopped
    cases hstopped with
    | error hstopped => exact hstopped.2
  · intro r r' e hr hm he
    have hstopped := h r hr
    rw [hm] at hstopped
    cases hstopped with
    | error hstopped =>
      rw [hstopped.1] at he
      cases he

/-- A request that is never interrupted, and does the same in a still reasoner. -/
theorem of_calmly (h : ∀ r, I r → calmly m r = ((m r).1, (m r).2.still) ∧
    match m r with
    | (.ok a, r') => J a r' ∧ r.Continues r'
    | (.error e, r') => e.isInterrupted = false ∧ I r' ∧ r'.config = r.config) : Resumes I m J := by
  constructor
  · intro r r' a hr hm
    obtain ⟨hcalmly, hanswered⟩ := h r hr
    rw [hm] at hcalmly hanswered
    exact ⟨hanswered.1, hanswered.2, hcalmly⟩
  · intro r r' e hr hm he
    have hfailed := (h r hr).2
    rw [hm] at hfailed
    have hnot : e.isInterrupted = false := hfailed.1
    rw [he] at hnot
    cases hnot
  · intro r r' e hr hm _
    obtain ⟨hcalmly, hfailed⟩ := h r hr
    rw [hm] at hcalmly hfailed
    exact ⟨hfailed.2.1, hfailed.2.2, hcalmly⟩

/-- A request that has nothing to do. -/
theorem of_eq_ok (hI : Steady I) (a : α) (h : ∀ r, I r → m r = (.ok a, r) ∧ J a r) : Resumes I m J := by
  refine .of_calmly fun r hr => ?_
  rw [calmly, (h r hr).1, (h _ (hI.still hr)).1]
  exact ⟨Prod.ext rfl still_still, (h r hr).2, .refl r⟩

/-- A request that only computes. -/
theorem compute {g : Reasoner → α} {k : Reasoner → Reasoner} (hg : ∀ r, g r.still = g r) (hk : ∀ r, (k r.still).still = (k r).still)
    (h : ∀ r, I r → J (g r) (k r) ∧ r.Continues (k r)) : Resumes I (fun r => (.ok (g r), k r)) J :=
  .of_calmly fun r hr => ⟨Prod.ext (congrArg Except.ok (hg r)) (hk r), h r hr⟩

/-! ### One request after the other -/

/-- One request after the other, without interruptions. -/
theorem calmly_bind (hm : Resumes I m J) (hf : ∀ a, Resumes (J a) (f a) L) (hr : I r.still) :
    calmly (m >>= f) r =
      match calmly m r with
      | (.ok a, r') => calmly (f a) r'
      | (.error e, r') => (.error e, r') := by
  unfold calmly
  rw [bind_apply]
  rcases hrun : m r.still with ⟨e | a, t⟩
  · rfl
  · obtain ⟨ha, hcontinues, -⟩ := hm.answered hr hrun
    have hcalmly := (hf a).calmly_eq ha (hcontinues.calm r.calm_still)
    dsimp only
    rw [← hcalmly, calmly, still_still]

/-- One request goes on after the other.  Where the second is interrupted, both have to go on from there as the second
does. -/
theorem bind_of_calmly (hI : Steady I) (hm : Resumes I m J) (hf : ∀ a, Resumes (J a) (f a) L)
    (hback : ∀ {a r e r'}, J a r → f a r = (.error e, r') → J a r' → I r')
    (hagain : ∀ {a r e r'}, J a r → f a r = (.error e, r') → e.isInterrupted = true → J a r' →
      calmly (m >>= f) r' = calmly (f a) r') : Resumes I (m >>= f) L := by
  have hbind {r : Reasoner} (hr : I r) := calmly_bind hm hf (hI.still hr)
  constructor
  · intro r r' b hr hrun
    rw [bind_apply] at hrun
    rcases hfirst : m r with ⟨e | a, r₁⟩ <;> rw [hfirst] at hrun
    · cases hrun
    · obtain ⟨ha, hcontinues, hcalmly⟩ := hm.answered hr hfirst
      obtain ⟨hb, hcontinues', hcalmly'⟩ := (hf a).answered ha hrun
      refine ⟨hb, hcontinues.trans hcontinues', ?_⟩
      rw [hbind hr, hcalmly]
      exact calmly_still.trans hcalmly'
  · intro r r' e hr hrun he
    rw [bind_apply] at hrun
    rcases hfirst : m r with ⟨e₁ | a, r₁⟩ <;> rw [hfirst] at hrun
    · -- the first request is interrupted
      cases hrun
      obtain ⟨hr', hstops, hcalmly⟩ := hm.interrupted hr hfirst he
      exact ⟨hr', hstops, by rw [hbind hr', hbind hr, hcalmly]⟩
    · -- the second one is
      obtain ⟨ha, hcontinues, hcalmly⟩ := hm.answered hr hfirst
      obtain ⟨ha', hstops, hcalmly'⟩ := (hf a).interrupted ha hrun he
      refine ⟨hback ha hrun ha', .of_continues hcontinues hstops, ?_⟩
      rw [hagain ha hrun he ha', hcalmly', hbind hr, hcalmly]
      exact calmly_still.symm
  · intro r r' e hr hrun he
    rw [bind_apply] at hrun
    rcases hfirst : m r with ⟨e₁ | a, r₁⟩ <;> rw [hfirst] at hrun
    · cases hrun
      obtain ⟨hr', hconfig, hcalmly⟩ := hm.failed hr hfirst he
      exact ⟨hr', hconfig, by rw [hbind hr, hcalmly]⟩
    · obtain ⟨ha, hcontinues, hcalmly⟩ := hm.answered hr hfirst
      obtain ⟨ha', hconfig, hcalmly'⟩ := (hf a).failed ha hrun he
      refine ⟨hback ha hrun ha', hconfig.trans hcontinues.config, ?_⟩
      rw [hbind hr, hcalmly]
      exact calmly_still.trans hcalmly'

/-- One request goes on after the other, if the first has nothing left to do where it has led. -/
theorem bind (hI : Steady I) (hm : Resumes I m J) (hf : ∀ a, Resumes (J a) (f a) L)
    (hagain : ∀ a r, J a r → I r ∧ calmly m r = (.ok a, r.still)) : Resumes I (m >>= f) L := by
  refine .bind_of_calmly hI hm hf (fun _ _ h => (hagain _ _ h).1) fun _ _ _ h => ?_
  obtain ⟨hr, hcalmly⟩ := hagain _ _ h
  rw [calmly_bind hm hf (hI.still hr), hcalmly]
  exact calmly_still

/-- One request goes on after the other, if the contexts are saturated by then, so that the second is never interrupted. -/
theorem andThen (hI : Steady I) (hm : Resumes I m J) (hf : ∀ a, Resumes (J a) (f a) L)
    (hJ : ∀ a r, J a r → I r ∧ r.stages.isDone .saturation = true) : Resumes I (m >>= f) L := by
  refine .bind_of_calmly hI hm hf (fun _ _ h => (hJ _ _ h).1) fun ha hrun he _ => ?_
  have hstops := ((hf _).interrupted ha hrun he).2.1.unsaturated
  rw [(hJ _ _ ha).2] at hstops
  cases hstops

/-- Something is computed from what a request has answered. -/
theorem andCompute (hI : Steady I) (hm : Resumes I m J) {g : α → Reasoner → β} {k : α → Reasoner → Reasoner}
    (hg : ∀ a r, g a r.still = g a r) (hk : ∀ a r, (k a r.still).still = (k a r).still)
    (h : ∀ a r, J a r → L (g a r) (k a r) ∧ r.Continues (k a r)) :
    Resumes I (m >>= fun a r => (.ok (g a r), k a r)) L :=
  .bind_of_calmly hI hm (fun a => .compute (hg a) (hk a) (h a)) (fun _ h => by cases h) fun _ h => by cases h

/-- Something is read off what a request has answered. -/
theorem map {K : Reasoner → Prop} (hI : Steady I) (hm : Resumes I m fun _ => K) (g : α → β) :
    Resumes I (m >>= fun a => pure (g a)) fun _ => K :=
  hm.andCompute (k := fun _ r => r) hI (fun _ _ => rfl) (fun _ _ => still_still) fun _ r hr => ⟨hr, .refl r⟩

end Resumes

end Request

end ELOntology
