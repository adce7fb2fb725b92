import ELOntology.Proofs.Workers.Protocol

/-!
# Who owns an active context

The flag of a context stands for one token.  While the flag is up, the token lies in the queue of active contexts, with the
worker that drains the context, or with the one that has activated it and is about to queue it (`Crew.Orderly.owned`).  A
context with something to process is active, or some worker is still going to look after it (`Crew.Orderly.minded`).

Key facts: each move passes tokens on without losing or copying one (`Move.owned`), so `Crew.Orderly` holds throughout a
run (`Crew.Orderly.run`), and what was pushed to a context is polled in that order or is still to be processed
(`Crew.Run.todo_append_pushes`).
-/

namespace ELOntology

open Event

namespace Shared

/-- The active contexts are those in the queue, each of which is there once, and a context with something to process is
active. -/
structure Ready (s : Shared) : Prop where
  queued (root : ExprId) : s.waiting.count root = (s.active root).toNat
  active {root : ExprId} : s.todo root ≠ [] → s.active root = true

end Shared

private theorem toNat_decide (P : Prop) [Decidable P] : (decide P).toNat = if P then 1 else 0 := by
  by_cases h : P <;> simp [h]

namespace Move

variable {s s' : Shared} {p p' : Phase} {events : List Event} {root : ExprId}

private theorem toNat_update (f : ExprId → Bool) (target : ExprId) (b : Bool) (root : ExprId) :
    (Function.update f target b root).toNat = if target = root then b.toNat else (f root).toNat := by
  by_cases h : target = root
  · rw [if_pos h, h, Function.update_self]
  · rw [if_neg h, Function.update_of_ne (Ne.symm h)]

/-- The count goes along with the phases. -/
theorem counted (h : Move s p events s' p') (hp : p.isBusy = true → 0 < s.busy) :
    s'.busy + p.isBusy.toNat = s.busy + p'.isBusy.toNat := by
  cases h with
  | quit | leave =>
    have hpos := hp rfl
    show s.busy - 1 + 1 = s.busy + 0
    omega
  | _ => rfl

/-- Tokens are passed on: the queue and the worker have one more of them only if the flag goes up, and one less only if it
goes down. -/
theorem owned (h : Move s p events s' p') (hp : ∀ root, p.drained? = some root → s.active root = true) (root : ExprId) :
    s'.waiting.count root + ((decide (p'.drained? = some root)).toNat + (decide (p'.queued? = some root)).toNat) +
        (s.active root).toNat =
      s.waiting.count root + ((decide (p.drained? = some root)).toNat + (decide (p.queued? = some root)).toNat) +
        (s'.active root).toNat := by
  have hupdate := toNat_update s.active
  cases h with
  | @take first rest hwaiting =>
    rw [hwaiting, List.count_cons]
    by_cases e : first = root <;> simp [Phase.drained?, Phase.queued?, e]
  | @activate _ target _ hidle =>
    rw [hupdate]
    by_cases e : target = root
    · subst e
      simp [Phase.drained?, Phase.queued?, hidle]
      omega
    · simp [Phase.drained?, Phase.queued?, e]
  | @queue _ target =>
    rw [List.count_append, List.count_singleton]
    by_cases e : target = root <;> simp [Phase.drained?, Phase.queued?, e]
    omega
  | @deactivate own =>
    rw [hupdate]
    by_cases e : own = root
    · subst e
      simp [Phase.drained?, Phase.queued?, hp own rfl]
    · simp [Phase.drained?, Phase.queued?, e]
  | @reopen own hidle =>
    rw [hupdate]
    by_cases e : own = root
    · subst e
      simp [Phase.drained?, Phase.queued?, hidle]
    · simp [Phase.drained?, Phase.queued?, e]
  | _ => rfl

/-- A context with something to process that is idle after a move is minded by the worker, or it was idle before, with
something to process, and the worker did not mind it. -/
theorem minded (h : Move s p events s' p') (htodo : s'.todo root ≠ []) : s'.active root = true ∨ p'.minded? = some root ∨
    s.todo root ≠ [] ∧ s.active root = false ∧ p.minded? ≠ some root := by
  cases hactive : s'.active root
  case true => exact .inl rfl
  refine .inr ?_
  cases h with
  | @poll own c rest hown =>
    -- what is left was there before
    refine .inr ⟨fun e => ?_, hactive, nofun⟩
    by_cases hroot : root = own
    · rw [← hroot, e] at hown
      cases hown
    · exact htodo ((Function.update_of_ne hroot rest s.todo).trans e)
  | @push own target c =>
    by_cases hroot : target = root
    · exact .inl (congrArg some hroot)
    · refine .inr ⟨fun e => ?_, hactive, nofun⟩
      exact htodo ((Function.update_of_ne (Ne.symm hroot) _ s.todo).trans e)
  | @activate _ target =>
    have hne : root ≠ target := by
      rintro rfl
      exact Bool.false_ne_true (hactive.symm.trans (Function.update_self root true s.active))
    rw [show s.active root = false from (Function.update_of_ne hne true s.active).symm.trans hactive]
    exact .inr ⟨htodo, rfl, fun e => hne (Option.some.inj e).symm⟩
  | @findActive _ target _ htarget =>
    refine .inr ⟨htodo, hactive, fun e => ?_⟩
    rw [Option.some.inj e, hactive] at htarget
    cases htarget
  | @deactivate own =>
    by_cases hroot : own = root
    · exact .inl (congrArg some hroot)
    · refine .inr ⟨htodo, ?_, nofun⟩
      exact (Function.update_of_ne (Ne.symm hroot) false s.active).symm.trans hactive
  | @findPending own =>
    by_cases hroot : own = root
    · exact .inl (congrArg some hroot)
    · exact .inr ⟨htodo, hactive, fun e => hroot (Option.some.inj e)⟩
  | @findNothing own hown =>
    refine .inr ⟨htodo, hactive, fun e => ?_⟩
    exact htodo (Option.some.inj e ▸ hown)
  | @reopen own =>
    have hne : root ≠ own := by
      rintro rfl
      exact Bool.false_ne_true (hactive.symm.trans (Function.update_self root true s.active))
    refine .inr ⟨htodo, ?_, fun e => hne (Option.some.inj e).symm⟩
    exact (Function.update_of_ne hne true s.active).symm.trans hactive
  | @findTaken own hown =>
    refine .inr ⟨htodo, hactive, fun e => ?_⟩
    rw [Option.some.inj e, hactive] at hown
    cases hown
  | _ => exact .inr ⟨htodo, hactive, nofun⟩

/-- Who leaves for want of work has seen no context in the queue. -/
theorem waiting_eq_nil (h : Move s p events s' p') (hleft : p' = .left) : s'.waiting = [] := by
  cases h with
  | confirmNone hnone => exact hnone
  | _ => cases hleft

/-- What a context has to process changes by what is pushed and polled. -/
theorem todo_append_pushes (h : Move s p events s' p') (root : ExprId) :
    s.todo root ++ pushes root events = polls root events ++ s'.todo root := by
  cases h with
  | @poll own c rest hown =>
    by_cases e : own = root
    · subst e
      simp [pushes, polls, hown]
    · simp [pushes, polls, e, Function.update_of_ne (Ne.symm e)]
  | @push own target c =>
    by_cases e : target = root
    · subst e
      simp [pushes, polls]
    · simp [pushes, polls, e, Function.update_of_ne (Ne.symm e)]
  | _ => exact List.append_nil _

end Move

namespace Crew

/-- What holds throughout a run. -/
structure Orderly (crew : Crew) : Prop where
  counted : crew.shared.busy = crew.phases.countP Phase.isBusy
  /-- The flag of a context is up if and only if there is a token, and there is never more than one. -/
  owned (root : ExprId) : crew.shared.waiting.count root + (crew.phases.countP (·.drained? = some root) +
    crew.phases.countP (·.queued? = some root)) = (crew.shared.active root).toNat
  minded {root : ExprId} : crew.shared.todo root ≠ [] →
    crew.shared.active root = true ∨ ∃ p ∈ crew.phases, p.minded? = some root
  attended : crew.shared.waiting ≠ [] → ∃ p ∈ crew.phases, p ≠ .left

namespace Orderly

variable {crew crew' : Crew} {events : List Event}

theorem start {s : Shared} (hs : s.Ready) (threads : Nat) : Orderly (Crew.start threads s) where
  counted := by
    show 0 = (List.replicate (max threads 1) Phase.entering).countP Phase.isBusy
    rw [List.countP_replicate, if_neg (by decide)]
  owned root := by
    show s.waiting.count root + ((List.replicate (max threads 1) Phase.entering).countP _ +
      (List.replicate (max threads 1) Phase.entering).countP _) = (s.active root).toNat
    rw [List.countP_replicate, List.countP_replicate, if_neg (by simp [Phase.drained?]), if_neg (by simp [Phase.queued?])]
    exact hs.queued root
  minded htodo := .inl (hs.active htodo)
  attended _ := ⟨.entering, List.mem_replicate.2 ⟨by omega, rfl⟩, nofun⟩

/-- One move of a worker leaves the order intact, whatever the phases of the others are. -/
theorem step (h : Orderly crew) (hstep : Step crew events crew') : Orderly crew' := by
  obtain @⟨s, s', before, after, p, p', events, hmove⟩ := hstep
  have hcounted := h.counted
  simp only [List.countP_append, List.countP_cons] at hcounted
  -- the worker that moves holds the only token of the context that it drains
  have hdrained : ∀ root, p.drained? = some root → s.active root = true := by
    intro root hroot
    have howned := h.owned root
    simp only [List.countP_append, List.countP_cons, hroot] at howned
    cases hactive : s.active root
    · rw [hactive] at howned
      simp at howned
    · rfl
  constructor
  · have hbusy := hmove.counted fun hp => by simp [hp] at hcounted; omega
    simp only [List.countP_append, List.countP_cons]
    cases hp : p.isBusy <;> cases hp' : p'.isBusy <;> simp [hp, hp'] at hcounted hbusy ⊢ <;> omega
  · intro root
    have howned := h.owned root
    have hpassed := hmove.owned hdrained root
    simp only [List.countP_append, List.countP_cons] at howned ⊢
    simp only [toNat_decide, decide_eq_true_eq] at howned hpassed ⊢
    omega
  · intro root htodo
    rcases hmove.minded htodo with hactive | hminded | ⟨htodo, hidle, hunminded⟩
    · exact .inl hactive
    · exact .inr ⟨p', by simp, hminded⟩
    · obtain ⟨q, hq, hminded⟩ := (h.minded htodo).resolve_left (by simp [hidle])
      refine .inr ⟨q, ?_, hminded⟩
      have hne : q ≠ p := fun e => hunminded (e ▸ hminded)
      simp only [List.mem_append, List.mem_cons, hne, false_or] at hq ⊢
      exact hq.imp_right .inr
  · intro hwaiting
    refine ⟨p', by simp, fun hleft => hwaiting (hmove.waiting_eq_nil hleft)⟩

theorem run (h : Orderly crew) (hrun : Run crew events crew') : Orderly crew' := by
  induction hrun with
  | refl => exact h
  | tail _ hstep ih => exact ih.step hstep

/-- A context is drained by one worker at most. -/
theorem countP_drained_le_one (h : Orderly crew) (root : ExprId) : crew.phases.countP (·.drained? = some root) ≤ 1 := by
  have howned := h.owned root
  have hle := Bool.toNat_le (crew.shared.active root)
  omega

/-- Once all workers have left, as there was nothing left to do, nothing is left to do. -/
theorem settled (h : Orderly crew) (hleft : ∀ p ∈ crew.phases, p = .left) :
    crew.shared.busy = 0 ∧ crew.shared.waiting = [] ∧ ∀ root, crew.shared.active root = false ∧ crew.shared.todo root = [] := by
  have hnone {q : Phase → Bool} (hq : q .left = false) : crew.phases.countP q = 0 :=
    List.countP_eq_zero.2 fun p hp => by simp [hleft p hp, hq]
  have hwaiting : crew.shared.waiting = [] := by
    by_contra hne
    obtain ⟨p, hp, hstays⟩ := h.attended hne
    exact hstays (hleft p hp)
  refine ⟨h.counted.trans (hnone rfl), hwaiting, fun root => ?_⟩
  have hidle : crew.shared.active root = false := by
    have howned := h.owned root
    rw [hwaiting, hnone (by rfl), hnone (by rfl)] at howned
    cases hactive : crew.shared.active root
    · rfl
    · rw [hactive] at howned
      cases howned
  refine ⟨hidle, ?_⟩
  by_contra htodo
  rcases h.minded htodo with hactive | ⟨p, hp, hminded⟩
  · rw [hidle] at hactive
    cases hactive
  · rw [hleft p hp] at hminded
    cases hminded

end Orderly

/-- What a context has to process at first and what is pushed to it is polled in this order, or is still to be processed. -/
theorem Run.todo_append_pushes {crew crew' : Crew} {events : List Event} (h : Run crew events crew') (root : ExprId) :
    crew.shared.todo root ++ pushes root events = polls root events ++ crew'.shared.todo root := by
  induction h with
  | refl => exact List.append_nil _
  | @tail events events' crew' crew'' _ hstep ih =>
    have hmove : crew'.shared.todo root ++ pushes root events' = polls root events' ++ crew''.shared.todo root := by
      cases hstep with
      | move hmove => exact hmove.todo_append_pushes root
    calc crew.shared.todo root ++ pushes root (events ++ events')
        = crew.shared.todo root ++ pushes root events ++ pushes root events' := by simp [pushes]
      _ = polls root events ++ (crew'.shared.todo root ++ pushes root events') := by rw [ih, List.append_assoc]
      _ = polls root (events ++ events') ++ crew''.shared.todo root := by rw [hmove]; simp [polls]

end Crew

end ELOntology
