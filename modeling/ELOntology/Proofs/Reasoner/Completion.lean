import ELOntology.Stage

/-!
# Completing a stage

`StageRunner.complete` first completes what a stage needs, and so on down the pipeline.  The recursion is over fuel, but
it never runs out: a stage lies deeper in the pipeline than every stage it needs (`Stage.depth_lt`), and the fuel exceeds
all depths.

Key facts: `StageRunner.complete_spec` (what each stage that is run preserves, given that what it needs is done, is
preserved by completing any stage), `StageRunner.complete_eq` (completing without fuel) and `StageRunner.Runs.spec` (where
a stage is run on the way).
-/

namespace ELOntology

namespace Stage

/-- The length of the longest chain of stages that a stage needs. -/
def depth : Stage → Nat
  | roleHierarchy => 0
  | deletion => 1
  | cleaning => 2
  | addition => 3
  | saturation => 4
  | consistency => 5
  | classTaxonomy => 6
  | instanceTaxonomy | validation => 7

theorem depth_lt {stage needed : Stage} (h : needed ∈ stage.dependencies) : needed.depth < stage.depth := by
  cases stage <;> simp only [dependencies, List.mem_singleton, List.not_mem_nil] at h <;> subst h <;> decide

/-- A stage that is not the first one needs one that lies just less deep. -/
theorem exists_dependency {stage : Stage} (h : 0 < stage.depth) :
    ∃ needed ∈ stage.dependencies, needed.depth + 1 = stage.depth := by
  cases stage <;> simp [dependencies, depth] at h ⊢

/-- Only the deepest stages share their depth. -/
theorem eq_of_depth_eq {stage other : Stage} (h : stage.depth = other.depth) (hlt : stage.depth < 7) : stage = other := by
  cases stage <;> cases other <;> simp [depth] at h hlt ⊢

theorem depth_le (stage : Stage) : stage.depth ≤ 7 := by
  cases stage <;> decide

theorem depth_lt_length_all (stage : Stage) : stage.depth < all.length := by
  cases stage <;> decide

end Stage

namespace StageStatus

variable {status : StageStatus} {stage other : Stage}

theorem isDone_markDone :
    (status.markDone stage).isDone other = true ↔ other = stage ∨ status.isDone other = true := by
  simp only [isDone, markDone, decide_eq_true_eq, List.mem_insert_iff]

theorem isDone_invalidate :
    (status.invalidate stage).isDone other = true ↔ status.isDone other = true ∧ other ∉ stage.affected := by
  simp only [isDone, invalidate, decide_eq_true_eq, List.mem_filter]

/-- An invalidated stage takes along all stages that lie deeper. -/
theorem isDone_invalidate_deletion : (status.invalidate .deletion).isDone other = true ↔
    status.isDone other = true ∧ other = .roleHierarchy := by
  have haffected (d : Stage) : d ∉ Stage.deletion.affected ↔ d = .roleHierarchy := by
    cases d <;> decide
  rw [isDone_invalidate, haffected]

theorem isDone_invalidate_roleHierarchy : (status.invalidate .roleHierarchy).isDone other = false := by
  refine Bool.eq_false_iff.2 fun h => (isDone_invalidate.1 h).2 ?_
  cases other <;> decide

end StageStatus

/-- What holds where a computation on states has ended, well or with an error. -/
inductive Outcome {α σ ε : Type} (P : α → σ → Prop) (E : ε → σ → Prop) : Except ε α × σ → Prop
  | ok {a : α} {s : σ} (h : P a s) : Outcome P E (.ok a, s)
  | error {e : ε} {s : σ} (h : E e s) : Outcome P E (.error e, s)

theorem Outcome.imp {α σ ε : Type} {P Q : α → σ → Prop} {E F : ε → σ → Prop} {result : Except ε α × σ}
    (hPQ : ∀ a s, P a s → Q a s) (hEF : ∀ e s, E e s → F e s) (h : Outcome P E result) : Outcome Q F result := by
  cases h with
  | ok h => exact .ok (hPQ _ _ h)
  | error h => exact .error (hEF _ _ h)

namespace StageRunner

variable {σ ε : Type} {runner : StageRunner σ ε} {I : σ → Prop} {E : ε → σ → Prop}

/-- Between the two states nothing was undone, and only stages of at most the given depth got done. -/
structure Advances (runner : StageRunner σ ε) (depth : Nat) (s s' : σ) : Prop where
  kept {d : Stage} : (runner.status s).isDone d = true → (runner.status s').isDone d = true
  fresh {d : Stage} : (runner.status s').isDone d = true → (runner.status s).isDone d = true ∨ d.depth ≤ depth

namespace Advances

variable {depth depth' : Nat} {s s' s'' : σ}

theorem refl (runner : StageRunner σ ε) (depth : Nat) (s : σ) : runner.Advances depth s s := ⟨id, .inl⟩

theorem trans (h : runner.Advances depth s s') (h' : runner.Advances depth s' s'') : runner.Advances depth s s'' where
  kept hd := h'.kept (h.kept hd)
  fresh hd := (h'.fresh hd).elim h.fresh .inr

theorem mono (h : runner.Advances depth s s') (hle : depth ≤ depth') : runner.Advances depth' s s' where
  kept := h.kept
  fresh hd := (h.fresh hd).imp_right fun hdepth => Nat.le_trans hdepth hle

end Advances

/-- Stages that each preserve the invariant and get done do so one after the other. -/
private theorem inOrder_spec {depth : Nat} {complete : Stage → σ → Except ε Unit × σ} {stages : List Stage}
    (hcomplete : ∀ stage ∈ stages, ∀ s, I s → Outcome (fun _ s' => I s' ∧ (runner.status s').isDone stage = true ∧
      runner.Advances depth s s') E (complete stage s)) (s : σ) (hs : I s) :
    Outcome (fun _ s' => I s' ∧ (∀ stage ∈ stages, (runner.status s').isDone stage = true) ∧
      runner.Advances depth s s') E (inOrder complete stages s) := by
  induction stages generalizing s with
  | nil => exact .ok ⟨hs, fun _ h => absurd h List.not_mem_nil, .refl runner depth s⟩
  | cons stage stages ih =>
    have hfirst := hcomplete stage (List.mem_cons_self ..) s hs
    unfold inOrder
    generalize complete stage s = result at hfirst
    cases hfirst with
    | error hstopped => exact .error hstopped
    | @ok _ s' hfirst =>
      obtain ⟨hs', hdone, hadvance⟩ := hfirst
      refine (ih (fun d hd => hcomplete d (List.mem_cons_of_mem _ hd)) s' hs').imp (fun _ s'' h => ?_) fun _ _ h => h
      obtain ⟨hs'', hall, hadvance'⟩ := h
      refine ⟨hs'', fun d hd => ?_, hadvance.trans hadvance'⟩
      rcases List.mem_cons.1 hd with rfl | hd
      · exact hadvance'.kept hdone
      · exact hall d hd

/-- What a stage needs lies less deep, so the stage itself is still to be run when that is done. -/
private theorem Advances.isDone_eq_false {complete : Stage → σ → Except ε Unit × σ} {stage : Stage} {s s' : σ}
    (h : runner.Advances (stage.depth - 1) s s') (hnot : (runner.status s).isDone stage = false)
    (horder : inOrder complete stage.dependencies s = (.ok (), s')) : (runner.status s').isDone stage = false := by
  rw [← hnot]
  refine Bool.eq_iff_iff.2 ⟨fun hdone => ?_, h.kept⟩
  refine (h.fresh hdone).resolve_right fun hle => ?_
  have hneeds : stage.dependencies = [] := by cases stage <;> first | rfl | (simp [Stage.depth] at hle)
  rw [hneeds] at horder
  cases horder
  rw [hnot] at hdone
  cases hdone

/-- An invariant that every stage preserves when it is run where the stages it needs are done, and it is not, holds after
any stage is completed.  Then the stage is done. -/
theorem complete_spec (hstatus : ∀ status s, runner.status (runner.setStatus status s) = status)
    (hrun : ∀ stage s, I s → (runner.status s).isDone stage = false →
      (∀ d ∈ stage.dependencies, (runner.status s).isDone d = true) →
      Outcome (fun _ s' => runner.status s' = runner.status s ∧
        I (runner.setStatus ((runner.status s).markDone stage) s')) E (runner.run stage s))
    (stage : Stage) (s : σ) (hs : I s) :
    Outcome (fun _ s' => I s' ∧ (runner.status s').isDone stage = true ∧ runner.Advances stage.depth s s') E
      (runner.complete stage s) := by
  suffices hfuel : ∀ fuel stage, stage.depth < fuel → ∀ s, I s →
      Outcome (fun _ s' => I s' ∧ (runner.status s').isDone stage = true ∧ runner.Advances stage.depth s s') E
        (runner.completeWithin fuel stage s) from
    hfuel _ stage stage.depth_lt_length_all s hs
  intro fuel
  induction fuel with
  | zero => exact fun stage hdepth => absurd hdepth (Nat.not_lt_zero _)
  | succ fuel ih =>
    intro stage hdepth s hs
    unfold completeWithin
    split
    · rename_i hdone
      exact .ok ⟨hs, hdone, .refl runner _ s⟩
    · rename_i hnot
      have hneeded : Outcome (fun _ s' => I s' ∧ (∀ d ∈ stage.dependencies, (runner.status s').isDone d = true) ∧
          runner.Advances (stage.depth - 1) s s') E (inOrder (runner.completeWithin fuel) stage.dependencies s) := by
        refine inOrder_spec (fun d hd s hs => ?_) s hs
        have hlt := Stage.depth_lt hd
        refine (ih d (by omega) s hs).imp (fun _ s' h => ⟨h.1, h.2.1, h.2.2.mono (by omega)⟩) fun _ _ h => h
      generalize horder : inOrder (runner.completeWithin fuel) stage.dependencies s = result at hneeded
      cases hneeded with
      | error hstopped => exact .error hstopped
      | @ok _ s' hneeded =>
        obtain ⟨hs', hall, hadvance⟩ := hneeded
        have hstage := hrun stage s' hs' (hadvance.isDone_eq_false (Bool.eq_false_iff.2 hnot) horder) hall
        dsimp only
        generalize runner.run stage s' = result at hstage
        cases hstage with
        | error hstopped => exact .error hstopped
        | @ok _ s'' hstage =>
          obtain ⟨hsame, hs''⟩ := hstage
          rw [← hsame] at hs''
          refine .ok ⟨hs'', ?_, ?_, ?_⟩
          · rw [hstatus]
            exact StageStatus.isDone_markDone.2 (.inl rfl)
          · intro d hd
            rw [hstatus]
            exact StageStatus.isDone_markDone.2 (.inr (hsame ▸ hadvance.kept hd))
          · intro d hd
            rw [hstatus, hsame] at hd
            rcases StageStatus.isDone_markDone.1 hd with rfl | hd
            · exact .inr (Nat.le_refl _)
            · exact (hadvance.fresh hd).imp_right fun hle => by omega

/-! ### Running a stage on the way -/

private theorem inOrder_congr {complete complete' : Stage → σ → Except ε Unit × σ} {stages : List Stage}
    (h : ∀ stage ∈ stages, complete stage = complete' stage) (s : σ) :
    inOrder complete stages s = inOrder complete' stages s := by
  induction stages generalizing s with
  | nil => rfl
  | cons stage stages ih =>
    rw [inOrder, inOrder, h stage (List.mem_cons_self ..)]
    cases complete' stage s with
    | mk result s' =>
      cases result with
      | error => rfl
      | ok => exact ih (fun d hd => h d (List.mem_cons_of_mem _ hd)) s'

/-- More fuel than the depth of the stage makes no difference. -/
private theorem completeWithin_eq {fuel fuel' : Nat} {stage : Stage} (h : stage.depth < fuel) (h' : stage.depth < fuel') :
    runner.completeWithin fuel stage = runner.completeWithin fuel' stage := by
  induction fuel generalizing fuel' stage with
  | zero => exact absurd h (Nat.not_lt_zero _)
  | succ fuel ih =>
    cases fuel' with
    | zero => exact absurd h' (Nat.not_lt_zero _)
    | succ fuel' =>
      funext s
      have hneeded : ∀ d ∈ stage.dependencies, runner.completeWithin fuel d = runner.completeWithin fuel' d := by
        intro d hd
        have hlt := Stage.depth_lt hd
        exact ih (by omega) (by omega)
      rw [completeWithin, completeWithin, inOrder_congr hneeded s]

/-- A stage that is not done is completed by completing what it needs, and then running it. -/
theorem complete_eq (stage : Stage) (s : σ) : runner.complete stage s =
    if (runner.status s).isDone stage then (.ok (), s)
    else
      match inOrder runner.complete stage.dependencies s with
      | (.error e, s) => (.error e, s)
      | (.ok (), s) =>
        match runner.run stage s with
        | (.error e, s) => (.error e, s)
        | (.ok (), s) => (.ok (), runner.setStatus ((runner.status s).markDone stage) s) := by
  have hdepth := stage.depth_lt_length_all
  have hneeded : ∀ d ∈ stage.dependencies,
      runner.completeWithin (Stage.all.length - 1) d = runner.complete d := fun d hd =>
    completeWithin_eq (Nat.lt_of_lt_of_le (Stage.depth_lt hd) (Nat.le_sub_one_of_lt hdepth)) d.depth_lt_length_all
  rw [← inOrder_congr hneeded s]
  rfl

/-- While `target` is completed from `s`, `stage` is run in the state `before` and ends well in the state `after`. -/
inductive Runs (runner : StageRunner σ ε) : (target : Stage) → (s : σ) → (stage : Stage) → (before after : σ) → Prop
  | last {target : Stage} {s before after : σ} (hnot : (runner.status s).isDone target = false)
      (hneeded : inOrder runner.complete target.dependencies s = (.ok (), before))
      (hrun : runner.run target before = (.ok (), after)) : Runs runner target s target before after
  | needed {target needed stage : Stage} {earlier later : List Stage} {s s' before after : σ}
      (hnot : (runner.status s).isDone target = false) (hneeded : target.dependencies = earlier ++ needed :: later)
      (hearlier : inOrder runner.complete earlier s = (.ok (), s')) (hruns : Runs runner needed s' stage before after) :
      Runs runner target s stage before after

/-- Where a stage is run, the invariant holds, what the stage needs is done, and the stage itself is not. -/
theorem Runs.spec (hstatus : ∀ status s, runner.status (runner.setStatus status s) = status)
    (hrun : ∀ stage s, I s → (runner.status s).isDone stage = false →
      (∀ d ∈ stage.dependencies, (runner.status s).isDone d = true) →
      Outcome (fun _ s' => runner.status s' = runner.status s ∧
        I (runner.setStatus ((runner.status s).markDone stage) s')) E (runner.run stage s))
    {target stage : Stage} {s before after : σ} (h : runner.Runs target s stage before after) (hs : I s) :
    I before ∧ (runner.status before).isDone stage = false ∧
      (∀ d ∈ stage.dependencies, (runner.status before).isDone d = true) ∧ runner.run stage before = (.ok (), after) := by
  have horder (depth : Nat) {stages : List Stage} (hle : ∀ d ∈ stages, d.depth ≤ depth) {s s' : σ} (hs : I s)
      (h : inOrder runner.complete stages s = (.ok (), s')) :
      I s' ∧ (∀ d ∈ stages, (runner.status s').isDone d = true) ∧ runner.Advances depth s s' := by
    have hcomplete (d : Stage) (hd : d ∈ stages) (s : σ) (hs : I s) :
        Outcome (fun _ s' => I s' ∧ (runner.status s').isDone d = true ∧ runner.Advances depth s s') E
          (runner.complete d s) :=
      (complete_spec hstatus hrun d s hs).imp (fun _ _ h => ⟨h.1, h.2.1, h.2.2.mono (hle d hd)⟩) fun _ _ h => h
    have hspec := inOrder_spec hcomplete s hs
    rw [h] at hspec
    cases hspec with
    | ok hspec => exact hspec
  induction h with
  | @last target s before after hnot hneeded hran =>
    obtain ⟨hbefore, hall, hadvance⟩ :=
      horder (target.depth - 1) (fun d hd => Nat.le_sub_one_of_lt (Stage.depth_lt hd)) hs hneeded
    exact ⟨hbefore, hadvance.isDone_eq_false hnot hneeded, hall, hran⟩
  | needed _ hneeded hearlier _ ih => exact ih (horder 7 (fun d _ => d.depth_le) hs hearlier).1

end StageRunner

end ELOntology
