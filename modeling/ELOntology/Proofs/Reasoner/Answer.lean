import ELOntology.Proofs.Reasoner.Meaning
import ELOntology.Reasoner.Query

/-!
# Queries and their answers

A query completes the stage it rests on (`Query.stage`) and reads its answer off the reasoner (`Query.answer`), and does
nothing else (`Request.Plain`).  It fails only when an interruption is asked for.

Key fact: `Sound.ask`.
-/

namespace ELOntology

open Reasoner

/-- What a reasoner can be asked. -/
inductive Query where
  | classify
  | realize
  | inconsistent
  | satisfiable (name : String)
  | superClasses (name : String) (direct : Bool)
  | subClasses (name : String) (direct : Bool)
  | equivalentClasses (name : String)
  | types (individual : String) (direct : Bool)
  | subsumed (sub sup : String)

inductive Answer where
  | taxonomy (t : Taxonomy)
  | realization (i : Realization)
  | truth (b : Bool)
  | names (l : List String)

namespace Query

def run : Query → Request Answer
  | classify => do return .taxonomy (← Reasoner.classify)
  | realize => do return .realization (← Reasoner.realize)
  | inconsistent => do return .truth (← isInconsistent)
  | satisfiable name => do return .truth (← isSatisfiable name)
  | superClasses name direct => do return .names (← Reasoner.superClasses name direct)
  | subClasses name direct => do return .names (← Reasoner.subClasses name direct)
  | equivalentClasses name => do return .names (← Reasoner.equivalentClasses name)
  | types individual direct => do return .names (← Reasoner.types individual direct)
  | subsumed sub sup => do return .truth (← isSubsumed sub sup)

/-- The stage that the answer rests on. -/
def stage : Query → Stage
  | inconsistent | satisfiable _ | subsumed .. => .consistency
  | classify | superClasses .. | subClasses .. | equivalentClasses _ => .classTaxonomy
  | realize | types .. => .instanceTaxonomy

/-- Every answer rests on saturated contexts. -/
theorem depth_lt (q : Query) : Stage.saturation.depth < q.stage.depth := by
  cases q <;> exact of_decide_eq_true rfl

/-- The answer of a reasoner in which the stage is done. -/
def answer (r : Reasoner) : Query → Answer
  | classify => .taxonomy (Request.withTaxonomy r).1
  | realize => .realization (Request.withRealization r).1
  | inconsistent => .truth r.inconsistent
  | satisfiable name => .truth <| !r.inconsistent &&
      match r.index.classId? name with
      | some id => !r.workspace.isUnsatisfiable id
      | none => true
  | superClasses name direct =>
    let t := (Request.withTaxonomy r).1
    .names ((if direct then t.directSupers? name else t.supers? name).getD [])
  | subClasses name direct =>
    let t := (Request.withTaxonomy r).1
    .names ((if direct then t.directSubs? name else t.subs? name).getD [])
  | equivalentClasses name => .names (((Request.withTaxonomy r).1.equivalents? name).getD [])
  | types individual direct =>
    let t := (Request.withTaxonomy r).1
    let i := (Request.withRealization r).1
    .names ((if direct then i.directTypes? individual else i.types? t individual).getD [])
  | subsumed sub sup => .truth <| r.inconsistent ||
      match r.index.classId? sub, r.index.classId? sup with
      | some subId, some supId => r.workspace.isUnsatisfiable subId || r.workspace.hasSubsumer subId supId
      | _, _ => sub = sup || sup = owlThing || sub = owlNothing

end Query

namespace Request

variable {α β : Type}

/-! ### Plain requests -/

/-- What is read off a reasoner does not hang on its monitor. -/
def Unmonitored (g : Reasoner → α) : Prop := ∀ φ r, g (r.onMonitor φ) = g r

/-- Requests that complete stages and read answers off what these leave. -/
inductive Plain : {α : Type} → Request α → Prop
  | complete (stage : Stage) : Plain (complete stage)
  | read {α : Type} {g : Reasoner → α} (hg : Unmonitored g) : Plain (ask g)
  | taxonomy : Plain fun r => (.ok (withTaxonomy r).1, (withTaxonomy r).2)
  | realization : Plain fun r => (.ok (withRealization r).1, (withRealization r).2)
  | bind {α β : Type} {m : Request α} {f : α → Request β} (hm : Plain m) (hf : ∀ a, Plain (f a)) : Plain (m >>= f)

namespace Plain

theorem map {m : Request α} (hm : Plain m) (g : α → β) : Plain (m >>= fun a => pure (g a)) :=
  hm.bind fun a => .read (g := fun _ => g a) fun _ _ => rfl

theorem classify : Plain classify := by
  have hread : Plain (ask (·.config.validateTaxonomy) >>= fun validated =>
      if validated then Request.complete .validation >>= fun _ r => (.ok (withTaxonomy r).1, (withTaxonomy r).2)
      else fun r => (.ok (withTaxonomy r).1, (withTaxonomy r).2)) := by
    refine .bind (.read fun _ _ => rfl) fun validated => ?_
    cases validated with
    | true => exact .bind (.complete .validation) fun _ => .taxonomy
    | false => exact .taxonomy
  exact .bind (.complete .classTaxonomy) fun _ => hread

theorem realize : Plain realize := classify.bind fun _ => .bind (.complete .instanceTaxonomy) fun _ => .realization

theorem isInconsistent : Plain isInconsistent := .bind (.complete .consistency) fun _ => .read fun _ _ => rfl

/-- Every query is plain. -/
theorem query (q : Query) : Plain q.run := by
  cases q with
  | classify => exact classify.map _
  | realize => exact realize.map _
  | inconsistent => exact isInconsistent.map _
  | satisfiable name => exact .map (.bind (.complete .consistency) fun _ => .read fun _ _ => rfl) _
  | superClasses name direct => exact (classify.map _).map _
  | subClasses name direct => exact (classify.map _).map _
  | equivalentClasses name => exact (classify.map _).map _
  | types individual direct => exact (realize.bind fun _ => .map .taxonomy _).map _
  | subsumed sub sup =>
    refine .map (isInconsistent.bind fun inconsistent => ?_) _
    cases inconsistent with
    | true => exact .read (g := fun _ => true) fun _ _ => rfl
    | false => exact .read fun _ _ => rfl

end Plain

end Request

namespace Reasoner

variable {r r' : Reasoner}

open Request

/-- How a query that rests on a stage leaves the reasoner. -/
structure Reached (stage : Stage) (r r' : Reasoner) : Prop where
  served : r.Served r'
  done : r'.stages.isDone stage = true

namespace Reached

variable {stage other : Stage}

/-- Another stage is completed afterwards. -/
theorem andThen (h : Reached stage r r') {r'' : Reasoner} (h' : Reached other r' r'') : Reached other r r'' :=
  ⟨h.served.trans h'.served, h'.done⟩

theorem of_depth_lt (h : Reached stage r r') (other : Stage) (hlt : other.depth < stage.depth) : Reached other r r' :=
  ⟨h.served, h.served.sound.closed.of_depth_lt h.done hlt⟩

theorem exists_taxonomy (h : Reached .classTaxonomy r r') : ∃ t, r'.taxonomy = some t :=
  ⟨_, h.served.sound.taxonomy h.done⟩

theorem exists_realization (h : Reached .instanceTaxonomy r r') : ∃ i, r'.realization = some i := by
  obtain ⟨t, ht⟩ := (h.of_depth_lt .classTaxonomy (by decide)).exists_taxonomy
  exact ⟨_, h.served.sound.realization h.done t ht⟩

end Reached

theorem withTaxonomy_eq {t : Taxonomy} (ht : r.taxonomy = some t) : withTaxonomy r = (t, r) := by
  unfold withTaxonomy
  rw [ht]

theorem withRealization_eq {t : Taxonomy} {i : Realization} (ht : r.taxonomy = some t) (hi : r.realization = some i) :
    withRealization r = (i, r) := by
  unfold withRealization
  rw [withTaxonomy_eq ht]
  dsimp only
  rw [hi]

namespace Sound

/-- Results may be made anew as long as those of the stages that are done are right. -/
private theorem withResults (h : r.Sound) {taxonomy : Option Taxonomy} {realization : Option Realization}
    (htaxonomy : r.stages.isDone .classTaxonomy = true → taxonomy = some (.build r.index r.workspace r.inconsistent))
    (hrealization : r.stages.isDone .instanceTaxonomy = true → ∀ t, taxonomy = some t →
      realization = some (.build r.index r.workspace t r.inconsistent)) : Sound { r with taxonomy, realization } := by
  refine ⟨h.engine, h.accounts, h.taken, h.sized, h.orderly, h.closed, ?_, ?_, fun hdone => ?_, h.consistency, htaxonomy, hrealization⟩
  · exact ⟨h.hierarchical.fits, h.hierarchical.idle, h.hierarchical.pending⟩
  · cases h.phase with
    | idle hprogress hderiving hdeletion hpending => exact .idle hprogress hderiving hdeletion hpending
    | retracting base hseeded hrenewed hretracting hnodup hhas hroles haddition hcleaning =>
      exact .retracting base hseeded hrenewed hretracting hnodup hhas hroles haddition hcleaning
    | renewing hrenewed hderiving hpending hcleaning haddition =>
      exact .renewing hrenewed hderiving hpending hcleaning haddition
  · exact ⟨(h.settled hdone).saturated, (h.settled hdone).rooted⟩

theorem of_withTaxonomy (h : r.Sound) : (withTaxonomy r).2.Sound := by
  unfold Request.withTaxonomy
  cases htaxonomy : r.taxonomy with
  | some t => exact h
  | none =>
    -- the stage cannot be done, since no taxonomy is there
    refine h.withResults (fun _ => rfl) fun hdone => ?_
    rw [h.taxonomy (h.closed.of_depth_lt hdone (by decide))] at htaxonomy
    cases htaxonomy

theorem of_withRealization (h : r.Sound) : (withRealization r).2.Sound := by
  have hmade := h.of_withTaxonomy
  have htaxonomy : (withTaxonomy r).2.taxonomy = some (withTaxonomy r).1 := by
    unfold withTaxonomy
    cases ht : r.taxonomy with
    | some t => exact ht
    | none => rfl
  unfold withRealization
  generalize withTaxonomy r = made at hmade htaxonomy
  obtain ⟨t, r'⟩ := made
  dsimp only at htaxonomy ⊢
  cases hrealization : r'.realization with
  | some i => exact hmade
  | none =>
    refine hmade.withResults hmade.taxonomy fun _ t' ht' => ?_
    obtain rfl : t = t' := by rwa [htaxonomy, Option.some_inj] at ht'
    rfl

theorem reach (h : r.Sound) (stage : Stage) :
    Outcome (fun _ r' => Reached stage r r') r.Interrupted (Request.complete stage r) :=
  (h.complete stage).imp (fun _ _ hr => ⟨hr.1, hr.2⟩) fun _ _ hstopped => hstopped

theorem classify (h : r.Sound) : Outcome (fun t r' => Reached .classTaxonomy r r' ∧ r'.taxonomy = some t) r.Interrupted
    (Reasoner.classify r) := by
  have hread {r' : Reasoner} (hr : Reached .classTaxonomy r r') :
      Outcome (fun t r' => Reached .classTaxonomy r r' ∧ r'.taxonomy = some t) r.Interrupted
        ((.ok (withTaxonomy r').1, (withTaxonomy r').2) : Except ReasonerError Taxonomy × Reasoner) := by
    obtain ⟨t, ht⟩ := hr.exists_taxonomy
    rw [withTaxonomy_eq ht]
    exact .ok ⟨hr, ht⟩
  unfold Reasoner.classify
  refine outcome_bind ((h.reach .classTaxonomy).imp (fun _ r₁ hr₁ => ?_) fun _ _ hstopped => hstopped)
  refine outcome_get ?_
  dsimp only
  split
  · refine outcome_bind ((hr₁.served.sound.reach .validation).imp (fun _ r₂ hr₂ => ?_)
      fun _ _ hstopped => .of_serves hr₁.served.serves hstopped)
    exact hread ((hr₁.andThen hr₂).of_depth_lt _ (by decide))
  · exact hread hr₁

theorem realize (h : r.Sound) : Outcome (fun i r' => Reached .instanceTaxonomy r r' ∧ r'.realization = some i)
    r.Interrupted (Reasoner.realize r) := by
  unfold Reasoner.realize
  refine outcome_bind (h.classify.imp (fun _ r₁ hr₁ => ?_) fun _ _ hstopped => hstopped)
  refine outcome_bind ((hr₁.1.served.sound.reach .instanceTaxonomy).imp (fun _ r₂ hr₂ => ?_)
    fun _ _ hstopped => .of_serves hr₁.1.served.serves hstopped)
  have hr := hr₁.1.andThen hr₂
  obtain ⟨t, ht⟩ := (hr.of_depth_lt .classTaxonomy (by decide)).exists_taxonomy
  obtain ⟨i, hi⟩ := hr.exists_realization
  rw [withRealization_eq ht hi]
  exact .ok ⟨hr, hi⟩

theorem isInconsistent (h : r.Sound) : Outcome (fun b r' => Reached .consistency r r' ∧ r'.inconsistent = b) r.Interrupted
    (Reasoner.isInconsistent r) := by
  unfold Reasoner.isInconsistent
  exact outcome_bind ((h.reach .consistency).imp (fun _ _ hr => .ok ⟨hr, rfl⟩) fun _ _ hstopped => hstopped)

/-- A query keeps the invariant and is answered from a reasoner in which the stage is done, or is interrupted. -/
theorem ask (h : r.Sound) (q : Query) :
    Outcome (fun a r' => Reached q.stage r r' ∧ a = q.answer r') r.Interrupted (q.run r) := by
  cases q with
  | classify =>
    refine outcome_bind (h.classify.imp (fun t r' hr => .ok ⟨hr.1, ?_⟩) fun _ _ hstopped => hstopped)
    rw [Query.answer, withTaxonomy_eq hr.2]
  | realize =>
    refine outcome_bind (h.realize.imp (fun i r' hr => .ok ⟨hr.1, ?_⟩) fun _ _ hstopped => hstopped)
    obtain ⟨t, ht⟩ := (hr.1.of_depth_lt .classTaxonomy (by decide)).exists_taxonomy
    rw [Query.answer, withRealization_eq ht hr.2]
  | inconsistent =>
    refine outcome_bind (h.isInconsistent.imp (fun b r' hr => .ok ⟨hr.1, ?_⟩) fun _ _ hstopped => hstopped)
    rw [Query.answer, hr.2]
  | satisfiable name =>
    refine outcome_bind (outcome_bind ((h.reach .consistency).imp (fun _ r' hr => .ok (.ok ⟨hr, rfl⟩))
      fun _ _ hstopped => hstopped))
  | superClasses name direct =>
    refine outcome_bind (outcome_bind (h.classify.imp (fun t r' hr => .ok (.ok ⟨hr.1, ?_⟩)) fun _ _ hstopped => hstopped))
    rw [Query.answer, withTaxonomy_eq hr.2]
  | subClasses name direct =>
    refine outcome_bind (outcome_bind (h.classify.imp (fun t r' hr => .ok (.ok ⟨hr.1, ?_⟩)) fun _ _ hstopped => hstopped))
    rw [Query.answer, withTaxonomy_eq hr.2]
  | equivalentClasses name =>
    refine outcome_bind (outcome_bind (h.classify.imp (fun t r' hr => .ok (.ok ⟨hr.1, ?_⟩)) fun _ _ hstopped => hstopped))
    rw [Query.answer, withTaxonomy_eq hr.2]
  | types individual direct =>
    refine outcome_bind (outcome_bind (h.realize.imp (fun i r' hr => ?_) fun _ _ hstopped => hstopped))
    -- the realization refers to the class taxonomy, which is there as well
    obtain ⟨t, ht⟩ := (hr.1.of_depth_lt .classTaxonomy (by decide)).exists_taxonomy
    refine outcome_bind ?_
    rw [withTaxonomy_eq ht]
    refine .ok (.ok (.ok ⟨hr.1, ?_⟩))
    rw [Query.answer, withTaxonomy_eq ht, withRealization_eq ht hr.2]
  | subsumed sub sup =>
    refine outcome_bind (outcome_bind (h.isInconsistent.imp (fun b r' hr => ?_) fun _ _ hstopped => hstopped))
    cases b with
    | true =>
      refine .ok (.ok ⟨hr.1, ?_⟩)
      rw [Query.answer, hr.2, Bool.true_or]
    | false =>
      refine .ok (.ok ⟨hr.1, ?_⟩)
      rw [Query.answer, hr.2]
      rfl

/-- A query is answered if nothing interrupts it, and whenever the contexts are saturated already. -/
theorem exists_answer (h : r.Sound) (q : Query)
    (hcalm : r.workspace.monitor.Calm ∨ r.stages.isDone .saturation = true) :
    ∃ r', q.run r = (.ok (q.answer r'), r') ∧ Reached q.stage r r' := by
  have hask := h.ask q
  generalize q.run r = result at hask
  cases hask with
  | @ok a r' hr => exact ⟨r', by rw [hr.2], hr.1⟩
  -- what is saturated already is never interrupted, calm or not
  | error hstopped =>
    exact (hcalm.elim hstopped.not_calm fun hdone => hstopped.unsaturated (hstopped.serves.saturated hdone)).elim

end Sound

end Reasoner

end ELOntology
