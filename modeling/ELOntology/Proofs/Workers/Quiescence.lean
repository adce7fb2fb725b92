import ELOntology.Proofs.Workers.Ownership

/-!
# Workers lose no work

Whatever the order in which the workers of a run make their moves, no context is drained by two of them at a time, and when
they all have left for want of work, there is none: no context is active or has anything to process, and each conclusion
that was there or was pushed has been polled once (`workers_lose_nothing`).  A worker that has not left can always make a
move (`Move.exists_of_stays`).
-/

namespace ELOntology

open Event

/-- A worker that has not left is never held up. -/
theorem Move.exists_of_stays (s : Shared) {p : Phase} (hleft : p ≠ .left) (hstopped : p ≠ .stopped) :
    ∃ events s' p', Move s p events s' p' := by
  cases p with
  | entering => exact ⟨_, _, _, .enter⟩
  | checking => exact ⟨_, _, _, .proceed⟩
  | polling =>
    cases hwaiting : s.waiting with
    | nil => exact ⟨_, _, _, .findNone hwaiting⟩
    | cons root rest => exact ⟨_, _, _, .take hwaiting⟩
  | draining root unsent =>
    cases unsent with
    | cons production unsent => exact ⟨_, _, _, .push⟩
    | nil =>
      cases htodo : s.todo root with
      | nil => exact ⟨_, _, _, .finish htodo⟩
      | cons c rest => exact ⟨_, _, _, .poll htodo []⟩
  | activating root target unsent =>
    cases hactive : s.active target with
    | false => exact ⟨_, _, _, .activate hactive⟩
    | true => exact ⟨_, _, _, .findActive hactive⟩
  | queueing => exact ⟨_, _, _, .queue⟩
  | closing => exact ⟨_, _, _, .deactivate⟩
  | rechecking root =>
    by_cases htodo : s.todo root = []
    · exact ⟨_, _, _, .findNothing htodo⟩
    · exact ⟨_, _, _, .findPending htodo⟩
  | reopening root =>
    cases hactive : s.active root with
    | false => exact ⟨_, _, _, .reopen hactive⟩
    | true => exact ⟨_, _, _, .findTaken hactive⟩
  | leaving => exact ⟨_, _, _, .leave⟩
  | waiting => exact ⟨_, _, _, .stay⟩
  | peeking =>
    by_cases hwaiting : s.waiting = []
    · exact ⟨_, _, _, .seeNone hwaiting⟩
    · exact ⟨_, _, _, .seeWork hwaiting⟩
  | counting =>
    by_cases hbusy : s.busy = 0
    · exact ⟨_, _, _, .countNone hbusy⟩
    · exact ⟨_, _, _, .countSome hbusy⟩
  | confirming =>
    by_cases hwaiting : s.waiting = []
    · exact ⟨_, _, _, .confirmNone hwaiting⟩
    · exact ⟨_, _, _, .confirmSome hwaiting⟩
  | quitting => exact ⟨_, _, _, .quit⟩
  | left => exact absurd rfl hleft
  | stopped => exact absurd rfl hstopped

/-- Activation and quiescence lose no work.  Start any number of workers where the active contexts are those in the queue,
each once, and every context with something to process is active.  At no point of a run, whatever the order of the moves,
is a context drained by two workers.  When all workers have left, none of them for an interruption, no context is active,
the queues are empty, and from each context there was polled, in order, what it had to process at first and what was pushed
to it. -/
theorem workers_lose_nothing {threads : Nat} {s : Shared} {events : List Event} {crew : Crew} (hs : s.Ready)
    (h : Crew.Run (.start threads s) events crew) :
    (∀ root, crew.phases.countP (·.drained? = some root) ≤ 1) ∧
      ((∀ p ∈ crew.phases, p = .left) → crew.shared.busy = 0 ∧ crew.shared.waiting = [] ∧
        ∀ root, crew.shared.active root = false ∧ crew.shared.todo root = [] ∧
          polls root events = s.todo root ++ pushes root events) := by
  have horderly : crew.Orderly := (Crew.Orderly.start hs threads).run h
  refine ⟨horderly.countP_drained_le_one, fun hleft => ?_⟩
  obtain ⟨hbusy, hwaiting, hsettled⟩ := horderly.settled hleft
  refine ⟨hbusy, hwaiting, fun root => ?_⟩
  obtain ⟨hidle, htodo⟩ := hsettled root
  have hhistory := h.todo_append_pushes root
  rw [htodo, List.append_nil] at hhistory
  exact ⟨hidle, htodo, hhistory.symm⟩

namespace Crew.Run

variable {crew : Crew} {events events' : List Event} {s s' : Shared} {p p' q q' : Phase}

private theorem first (h : Run crew events ⟨s, [p, q]⟩) (hmove : Move s p events' s' p') :
    Run crew (events ++ events') ⟨s', [p', q]⟩ :=
  h.tail (@Step.move s s' [] [q] p p' events' hmove)

private theorem second (h : Run crew events ⟨s, [p, q]⟩) (hmove : Move s q events' s' q') :
    Run crew (events ++ events') ⟨s', [p, q']⟩ :=
  h.tail (@Step.move s s' [p] [] q q' events' hmove)

end Crew.Run

/-- One context is active and has its start to process. -/
def Shared.single (root : ExprId) : Shared :=
  ⟨fun other => if other = root then [.init] else [], fun other => decide (other = root), [root], 0⟩

/-- The case of two workers, the second of which pushes a conclusion to the context of the first after the first has polled
it for the last time and before it deactivates it: the first finds the conclusion when it looks again. -/
theorem workers_lose_nothing_reopened : ∃ events crew, (Shared.single .thing).Ready ∧
    Crew.Run (.start 2 (.single .thing)) events crew ∧ (∀ p ∈ crew.phases, p = .left) ∧
    (∀ root, crew.phases.countP (·.drained? = some root) ≤ 1) ∧ crew.shared.busy = 0 ∧ crew.shared.waiting = [] ∧
    ∀ root, crew.shared.active root = false ∧ crew.shared.todo root = [] ∧
      polls root events = (Shared.single .thing).todo root ++ pushes root events := by
  have hready : (Shared.single .thing).Ready := by
    constructor
    · intro root
      by_cases h : root = .thing <;> simp [Shared.single, h, Ne.symm]
    · intro root
      by_cases h : root = .thing <;> simp [Shared.single, h]
  -- the first worker drains its context, whose start leads to a conclusion for another one
  have hrun := (((@Crew.Run.refl (.start 2 (.single .thing))).first .enter).first .proceed).first (.take rfl)
  have hrun := ((hrun.first (.poll rfl [(.nothing, .contradiction)])).first .push).first (.activate rfl)
  have hrun := (hrun.first .queue).first (.finish rfl)
  -- the second worker drains that one and pushes a conclusion back
  have hrun := ((hrun.second .enter).second .proceed).second (.take rfl)
  have hrun := ((hrun.second (.poll rfl [(.thing, .contradiction)])).second .push).second (.findActive rfl)
  -- the first worker finds it only when it looks again
  have hrun := ((hrun.first .deactivate).first (.findPending (List.cons_ne_nil _ _))).first (.reopen rfl)
  have hrun := (((hrun.first (.poll rfl [])).first (.finish rfl)).first .deactivate).first (.findNothing rfl)
  have hrun := ((hrun.first .proceed).first (.findNone rfl)).first .leave
  have hrun := ((hrun.second (.finish rfl)).second .deactivate).second (.findNothing rfl)
  have hrun := ((hrun.second .proceed).second (.findNone rfl)).second .leave
  -- both see that no worker is busy and no context waits
  have hrun := (((hrun.first .stay).first (.seeNone rfl)).first (.countNone rfl)).first (.confirmNone rfl)
  have hrun := (((hrun.second .stay).second (.seeNone rfl)).second (.countNone rfl)).second (.confirmNone rfl)
  have hleft : ∀ p ∈ [Phase.left, Phase.left], p = .left := by decide
  exact ⟨_, _, hready, hrun, hleft, (workers_lose_nothing hready hrun).1, (workers_lose_nothing hready hrun).2 hleft⟩

end ELOntology
