import ELOntology.Proofs.Saturation.Potential
import ELOntology.Proofs.Saturation.Ticks

/-!
# Runs end

Every conclusion that is processed lowers a potential, and so does every turn, so the fuel of a run suffices.

Key facts: `RuleBase.course_run` (the run of one worker is a course, so the engine of one worker is lawful) and
`RuleBase.ticks_run` (a run, interrupted or not, is a number of ticks).
-/

namespace ELOntology

namespace Workspace

variable {w w' : Workspace}

/-- Whoever has seen the request to stop sees it again. -/
theorem look_again (h : w.look = (true, w')) : w'.look.1 = true := by
  unfold look Monitor.look Interrupt.look at h ⊢
  cases hraised : w.monitor.interrupt.raised with
  | true =>
    rw [hraised] at h
    cases h
    simp [hraised]
  | false =>
    rw [hraised] at h
    cases harrival : w.monitor.interrupt.arrival with
    | none => rw [harrival] at h; cases h
    | some n =>
      rw [harrival] at h
      cases n with
      | zero => cases h; rfl
      | succ n => cases h

end Workspace

/-- Every conclusion that is processed lowers the potential, as long as an invariant holds, which stays. -/
structure Measured (rb : RuleBase) (mode : Mode) (rate : Rate) (I : Workspace → Prop) : Prop where
  sameWork {w w' : Workspace} : w.SameWork w' → I w → I w'
  process {w w₀ : Workspace} {root : ExprId} {c : Conclusion} : I w → Popped w root c w₀ →
    I (rb.process mode root c w₀).2 ∧
      (rb.process mode root c w₀).2.potential rate < w₀.potential rate + rate.weight c

namespace Measured

variable {rb : RuleBase} {mode : Mode} {rate : Rate} {I : Workspace → Prop} {w : Workspace}

private theorem potential_deactivate (root : ExprId) (w : Workspace) :
    (w.deactivate root).potential rate = w.potential rate :=
  Workspace.potential_update rate (f := fun ctx => { ctx with active := false }) (fun _ => rfl) (fun _ => rfl) root

/-- A context whose turn it is gets everything done. -/
private theorem drain (hm : Measured rb mode rate I) (workers : Nat) {root : ExprId} {fuel : Nat} (statistics : Statistics)
    (hw : I w) (hfuel : w.potential rate < fuel) :
    I (rb.drain mode root fuel (w, statistics)).1 ∧
      (rb.drain mode root fuel (w, statistics)).1.potential rate ≤ w.potential rate ∧
      Pool.Moves workers rb mode ⟨w, [root], []⟩ (.idle (rb.drain mode root fuel (w, statistics)).1) ∧
      rb.Ticks mode (some root, w) (none, (rb.drain mode root fuel (w, statistics)).1) := by
  have hfree (w : Workspace) : Pool.Free ⟨w, [root], []⟩ root := ⟨List.mem_singleton_self root, nofun⟩
  induction fuel generalizing w statistics with
  | zero => exact absurd hfuel (Nat.not_lt_zero _)
  | succ fuel ih =>
    rw [RuleBase.drain]
    cases hnext : w.next root with
    | mk c? w₀ =>
      cases c? with
      | none =>
        obtain ⟨rfl, htodo⟩ := Workspace.next_eq_none hnext
        have hnone (c : Conclusion) : ¬ w₀.Waits root c := by
          rintro ⟨ctx, hctx, hc⟩
          rw [htodo ctx hctx] at hc
          cases hc
        have hmove : Pool.Move workers rb mode ⟨w₀, [root], []⟩ ⟨w₀.deactivate root, [root].erase root, []⟩ :=
          .finish (hfree w₀) hnone
        have htick : rb.tick mode (some root, w₀) = some (none, w₀.deactivate root) := by simp [RuleBase.tick, hnext]
        rw [List.erase_cons_head] at hmove
        exact ⟨hm.sameWork (.deactivate root) hw, Nat.le_of_eq (potential_deactivate root w₀), .single hmove, .single htick⟩
      | some c =>
        obtain ⟨hw', hlt⟩ := hm.process hw (.next hnext)
        rw [Workspace.potential_next hnext] at hlt
        have hmove : Pool.Move workers rb mode ⟨w, [root], []⟩ ⟨(rb.process mode root c w₀).2, [root], []⟩ :=
          .process (hfree w) (.next hnext)
        have htick : rb.tick mode (some root, w) = some (some root, (rb.process mode root c w₀).2) := by
          simp [RuleBase.tick, hnext]
        obtain ⟨hI, hle, hmoves, hticks⟩ := ih (statistics.record c.kind (rb.process mode root c w₀).1) hw' (by omega)
        exact ⟨hI, Nat.le_trans hle (Nat.le_of_lt hlt), .head hmove hmoves, .head htick hticks⟩

/-- Contexts take their turns until none is left or an interruption is asked for. -/
private theorem work (hm : Measured rb mode rate I) (workers : Nat) {limit fuel : Nat} (statistics : Statistics) (hw : I w)
    (hlimit : w.potential rate < limit) (hfuel : w.potential rate < fuel) :
    ((rb.work mode limit fuel (w, statistics)).1.active.toList = [] ∨
        (rb.work mode limit fuel (w, statistics)).1.look.1 = true) ∧
      Pool.Moves workers rb mode (.idle w) (.idle (rb.work mode limit fuel (w, statistics)).1) ∧
      rb.Ticks mode (none, w.still) (none, (rb.work mode limit fuel (w, statistics)).1.still) := by
  induction fuel generalizing w statistics with
  | zero => exact absurd hfuel (Nat.not_lt_zero _)
  | succ fuel ih =>
    rw [RuleBase.work]
    cases hlook : w.look with
    | mk raised w₁ =>
      have hw₁ : I w₁ := hm.sameWork (.look hlook) hw
      obtain ⟨hcontexts, hactive, hstill, hlooked⟩ : w₁.contexts = w.contexts ∧ w₁.active = w.active ∧
          w₁.still = w.still ∧ Pool.Move workers rb mode (.idle w) (.idle w₁) := by
        obtain rfl : w.look.2 = w₁ := by rw [hlook]
        exact ⟨rfl, rfl, rfl, .look⟩
      have hpotential : w₁.potential rate = w.potential rate := Workspace.potential_congr hcontexts hactive
      rw [← hstill]
      cases raised with
      | true => exact ⟨.inr (Workspace.look_again hlook), .single hlooked, .refl⟩
      | false =>
        dsimp only
        cases hpoll : w₁.poll with
        | mk root? w₂ =>
          have hw₂ : I w₂ := hm.sameWork (.poll hpoll) hw₁
          cases root? with
          | none =>
            obtain ⟨rfl, hnobody⟩ := Workspace.poll_eq_none hpoll
            exact ⟨.inl hnobody, .single hlooked, .refl⟩
          | some root =>
            obtain ⟨rest, hwaiting, e⟩ := Workspace.poll_eq_some hpoll
            -- a turn itself costs one, so the fuel is spent even by a context with nothing to do
            have hpolled : w₂.potential rate + 1 = w₁.potential rate := by
              rw [e]
              simp [Workspace.potential, hwaiting, Nat.add_assoc]
            have hlimit₂ : w₂.potential rate < limit := by omega
            have hqueue : w₁.active.toList = [] ++ root :: rest.toList := hwaiting
            have htake : Pool.Move workers rb mode (.idle w₁) ⟨w₂, [root], []⟩ :=
              e ▸ .take (Nat.lt_of_lt_of_le Nat.zero_lt_one (Nat.le_max_right ..)) hqueue rfl List.not_mem_nil
            have htick : rb.tick mode (none, w₁) = some (some root, w₂) := by simp [RuleBase.tick, hpoll]
            obtain ⟨hI, hle, hmoves, hticks⟩ := hm.drain workers statistics hw₂ hlimit₂
            obtain ⟨hend, hmoves', hticks'⟩ := ih _ hI (by omega) (by omega)
            exact ⟨hend, .head hlooked (.head htake (hmoves.trans hmoves')),
              (RuleBase.Ticks.still (.head htick hticks)).trans hticks'⟩

/-- The run of one worker with enough fuel is a course, whatever the number of workers.  Looks and marks apart, it is a
number of ticks. -/
theorem run (hm : Measured rb mode rate I) (workers : Nat) (hw : I w) (hfuel : w.potential rate < rb.workBound w) :
    Course workers rb mode w (rb.run mode w) ∧ rb.Ticks mode (none, w.still) (none, (rb.run mode w).2.still) := by
  -- the loop ends on an empty queue or on a raised monitor, and the last look tells which
  obtain ⟨hend, hmoves, hticks⟩ := hm.work workers [] hw hfuel hfuel
  unfold RuleBase.run
  dsimp only
  generalize rb.work mode (rb.workBound w) (rb.workBound w) (w, []) = state at hend hmoves hticks ⊢
  cases hlook : state.1.look with
  | mk raised w₁ =>
    have hstill : w₁.still = state.1.still := by
      obtain rfl : state.1.look.2 = w₁ := by rw [hlook]
      rfl
    rw [← hstill] at hticks
    cases raised with
    | true => exact ⟨.interrupted hmoves hlook, hticks⟩
    | false =>
      have hidle : state.1.active.toList = [] := hend.resolve_right fun h => by rw [hlook] at h; cases h
      have hcourse := Course.finished state.2 hmoves hidle hlook
      cases mode with
      | retract => exact ⟨hcourse, hticks⟩
      | derive => exact ⟨hcourse, Workspace.still_markSaturated (w := w₁) ▸ hticks⟩

end Measured

/-! ### The two modes -/

namespace RuleBase

variable {rb : RuleBase} {v : Vocabulary} {n : Nat}

/-- What derivation over a vocabulary may still have to do. -/
def derivingRate (rb : RuleBase) (v : Vocabulary) (n : Nat) : Rate :=
  ⟨rb.widthBound n, v.factCount, fun facts => v.factCount - facts.stored.length⟩

/-- What retraction may still have to do. -/
def retractingRate (rb : RuleBase) (n : Nat) : Rate := ⟨rb.widthBound n, n, fun facts => facts.stored.length⟩

theorem measured_derive (hK : rb.calculus.Over v) (hn : v.factCount ≤ n) :
    Measured rb .derive (rb.derivingRate v n) fun w => w.Over v where
  sameWork hsame hw := hw.sameWork hsame
  process {w w₀ root c} hw hpop := by
    have hw₀ : w₀.Over v := hw.popped hpop
    have hc : c.Over v := hw.waits hpop.waits
    have hroot : root ∈ v.exprs := hw.roots hpop.waits.has.lt_size
    have hfacts {ctx : Context} (hctx : w₀.context? root = some ctx) (d : Conclusion)
        (hd : (ctx.facts.insert c).contains d = true) : d.Over v :=
      Facts.over_insert (fun d hd => hw₀.stores ⟨ctx, hctx, hd⟩) hc d hd
    have hproduced {ctx : Context} (hctx : w₀.context? root = some ctx) {target : ExprId} {d : Conclusion}
        (hd : (target, d) ∈ rb.productions .derive root (ctx.facts.insert c) c) : d.isStorable = true :=
      (over_of_mem_productions hK hroot (hfacts hctx) (fun hcs => by simp [hcs]) hd).2.2
    constructor
    -- everything stays over the vocabulary
    · exact hw₀.process hK .derive hc
    · -- and the potential falls, as what is new fills up the room that is left
      refine Workspace.potential_process_derive (Nat.sub_le ..) ?_ ?_ ?_
      · exact fun ctx hctx _ p hp => hproduced hctx hp
      · exact fun ctx hctx _ => length_productions_le .derive root c
          (Nat.le_trans (Vocabulary.length_stored_le (hfacts hctx)) hn)
      · intro ctx hctx hnew hcs
        have hle := Vocabulary.length_stored_le (hfacts hctx)
        have hlength := Facts.length_stored_insert hcs hnew
        simp only [derivingRate]
        omega

theorem measured_retract : Measured rb .retract (rb.retractingRate n) fun w =>
    ∀ root ctx, w.context? root = some ctx → ctx.facts.stored.length ≤ n where
  sameWork {w w'} hsame hw := by
    intro root ctx' hctx'
    have h := hsame.context? root
    rw [hctx'] at h
    obtain ⟨ctx, hctx, e⟩ := Option.map_eq_some_iff.1 h.symm
    rw [← (Prod.mk.inj e).1]
    exact hw root ctx hctx
  process {w w₀ root c} hw hpop := by
    -- retraction never stores anything
    have shrinks {w w' : Workspace} (hstores : ∀ other d, w'.Stores other d → w.Stores other d)
        (hhas : ∀ other, w'.Has other → w.Has other)
        (hw : ∀ root ctx, w.context? root = some ctx → ctx.facts.stored.length ≤ n) :
        ∀ root ctx, w'.context? root = some ctx → ctx.facts.stored.length ≤ n := by
      intro other ctx' hctx'
      obtain ⟨ctx, hctx⟩ := hhas other ⟨ctx', hctx'⟩
      refine Nat.le_trans (Facts.length_le_stored ctx'.facts.nodup_stored fun d hd => ?_) (hw other ctx hctx)
      obtain ⟨hunsigned, hd⟩ := Facts.mem_stored.1 hd
      exact Facts.mem_stored.2 ⟨hunsigned, (Workspace.stores_of_context? hctx).1 (hstores other d ⟨ctx', hctx', hd⟩)⟩
    have hw₀ := shrinks (fun other d => (hpop.stores other d).1) (fun other => (hpop.has other).1) hw
    constructor
    · by_cases hstored : w₀.Stores root c
      · obtain ⟨ctx, hctx, hc⟩ := hstored
        have hup := givenUp_process rb hctx hc
        exact shrinks (fun other d hd => ((hup.stores other d).1 hd).1) (fun other => (hup.has other).1) hw₀
      · rw [process_retract_of_not_stores hstored]
        exact hw₀
    · refine Workspace.potential_process_retract (Nat.zero_le n) ?_ ?_ ?_
      · rintro ctx hctx hc ⟨target, d⟩ hp
        cases produced_of_mem_productions (fun _ => hc) hp with
        | self | thing => rfl
        | unfold _ hu => exact hu.isStorable
        | combine _ hcomb => exact hcomb.isStorable
      · exact fun ctx hctx => length_productions_le .retract root c (hw₀ root ctx hctx)
      · exact fun ctx hctx hc => Facts.length_stored_erase hc

/-! ### Enough fuel -/

private theorem sum_ofPlace_le {rate : Rate} (places : List (Option Context)) (hwidth : 4 ≤ rate.width)
    (hcapacity : rate.capacity ≤ n) (hroom : ∀ ctx, some ctx ∈ places → rate.room ctx.facts ≤ n) :
    (places.map rate.ofPlace).sum ≤ 2 * rate.width * (places.length * (n + 1) + (places.flatMap Workspace.conclusionsOf).length) +
      (places.flatMap Workspace.conclusionsOf).length := by
  have hweight (c : Conclusion) : rate.weight c ≤ 2 * rate.width + 1 := by
    cases c <;> simp only [Rate.weight] <;> omega
  have hweights (todo : List Conclusion) : (todo.map rate.weight).sum ≤ (2 * rate.width + 1) * todo.length := by
    induction todo with
    | nil => exact Nat.zero_le _
    | cons c todo ih =>
      rw [List.map_cons, List.sum_cons, List.length_cons, Nat.mul_succ, Nat.add_comm]
      exact Nat.add_le_add ih (hweight c)
  have hone (place : Option Context) (hplace : ∀ ctx, place = some ctx → rate.room ctx.facts ≤ n) :
      rate.ofPlace place ≤ 2 * rate.width * (n + 1) + (2 * rate.width + 1) * (Workspace.conclusionsOf place).length := by
    cases place with
    | none =>
      have hle : 2 * rate.width * rate.capacity ≤ 2 * rate.width * n := Nat.mul_le_mul_left _ hcapacity
      rw [Rate.ofPlace, Nat.mul_succ]
      omega
    | some ctx =>
      have hle : 2 * rate.width * rate.room ctx.facts ≤ 2 * rate.width * n := Nat.mul_le_mul_left _ (hplace ctx rfl)
      have htodo := hweights ctx.todo.toList
      have hmore : (2 * rate.width + 1) * ctx.todo.toList.length ≤
          (2 * rate.width + 1) * (ctx.todo.toList.length + ctx.facts.stored.length) :=
        Nat.mul_le_mul_left _ (Nat.le_add_right ..)
      rw [Rate.ofPlace, Rate.ofContext, Workspace.conclusionsOf, List.length_append, Nat.mul_succ]
      omega
  induction places with
  | nil => exact Nat.zero_le _
  | cons place places ih =>
    have hrest := ih fun ctx hctx => hroom ctx (List.mem_cons_of_mem _ hctx)
    have hfirst := hone place fun ctx hctx => hroom ctx (hctx ▸ List.mem_cons_self ..)
    rw [List.map_cons, List.sum_cons, List.length_cons, List.flatMap_cons, List.length_append]
    obtain ⟨k, hk⟩ : ∃ k, 2 * rate.width = k := ⟨_, rfl⟩
    rw [hk] at hrest hfirst ⊢
    simp only [Nat.mul_add, Nat.add_mul, Nat.one_mul, Nat.mul_one] at hrest hfirst ⊢
    omega

/-- The fuel of a run exceeds what it may have to do. -/
private theorem potential_lt_workBound {rate : Rate} {w : Workspace}
    (hn : n = w.conclusions.length + (rb.vocabulary.append w.vocabulary).factCount) (hrate : rate.width = rb.widthBound n)
    (hcapacity : rate.capacity ≤ n) (hroom : ∀ root ctx, w.context? root = some ctx → rate.room ctx.facts ≤ n) :
    w.potential rate < rb.workBound w := by
  have hwidth : 4 ≤ rate.width := by
    rw [hrate, widthBound]
    omega
  have hsum := sum_ofPlace_le w.contexts.toList hwidth hcapacity fun ctx hctx => by
    obtain ⟨i, hi, e⟩ := List.getElem_of_mem hctx
    refine hroom ⟨i⟩ ctx (Option.join_eq_some_iff.2 ?_)
    rw [← e]
    simp at hi
    simp [hi]
  unfold Workspace.potential workBound
  dsimp only
  rw [← hn, ← hrate]
  have hlength : w.contexts.toList.length = w.contexts.size := Array.length_toList
  rw [hlength] at hsum
  have hcomm : 2 * (w.contexts.size * (n + 1) + w.conclusions.length) * rate.width =
      2 * rate.width * (w.contexts.size * (n + 1) + w.conclusions.length) := by
    rw [Nat.mul_right_comm]
  have hflat : w.contexts.toList.flatMap Workspace.conclusionsOf = w.conclusions := rfl
  rw [hflat] at hsum
  omega

/-- In either mode the potential of a workspace is less than the fuel of its run. -/
theorem exists_measured (rb : RuleBase) (mode : Mode) (w : Workspace) :
    ∃ rate I, Measured rb mode rate I ∧ I w ∧ w.potential rate < rb.workBound w := by
  generalize hn : w.conclusions.length + (rb.vocabulary.append w.vocabulary).factCount = n
  have hstored {root : ExprId} {ctx : Context} (hctx : w.context? root = some ctx) : ctx.facts.stored.length ≤ n := by
    have hmem : some ctx ∈ w.contexts.toList :=
      Array.mem_toList_iff.2 (Array.mem_of_getElem? (i := root.val) (Option.join_eq_some_iff.1 hctx))
    have hle : (Workspace.conclusionsOf (some ctx)).length ≤ w.conclusions.length := by
      rw [Workspace.conclusions, List.flatMap_def]
      exact (List.sublist_flatten_of_mem (List.mem_map_of_mem hmem)).length_le
    rw [Workspace.conclusionsOf, List.length_append] at hle
    omega
  cases mode with
  | derive =>
    have hv : Vocabulary.Le (rb.vocabulary.append w.vocabulary) (rb.vocabulary.append w.vocabulary) := ⟨id, id, id⟩
    have hw : w.Over (rb.vocabulary.append w.vocabulary) :=
      Workspace.over_vocabulary ((Vocabulary.le_append_right ..).trans hv)
    have hK : rb.calculus.Over (rb.vocabulary.append w.vocabulary) :=
      over_vocabulary (Vocabulary.le_append_left ..) (List.mem_append_right _ (List.mem_cons_self ..))
    refine ⟨_, _, measured_derive hK (n := n) (by omega), hw, potential_lt_workBound hn.symm rfl ?_ fun root ctx hctx => ?_⟩
    · simp only [derivingRate]
      omega
    · simp only [derivingRate]
      omega
  | retract =>
    exact ⟨_, _, measured_retract, fun root ctx hctx => hstored hctx,
      potential_lt_workBound hn.symm rfl (Nat.le_refl n) fun root ctx hctx => hstored hctx⟩

/-- The run of one worker is a course, whatever the number of workers. -/
theorem course_run (workers : Nat) (rb : RuleBase) (mode : Mode) (w : Workspace) :
    Course workers rb mode w (rb.run mode w) := by
  obtain ⟨rate, I, hm, hw, hlt⟩ := exists_measured rb mode w
  exact (hm.run workers hw hlt).1

/-- Looks and marks apart, a run is a number of ticks, whether it was interrupted or not. -/
theorem ticks_run (rb : RuleBase) (mode : Mode) (w : Workspace) :
    rb.Ticks mode (none, w.still) (none, (rb.run mode w).2.still) := by
  obtain ⟨rate, I, hm, hw, hlt⟩ := exists_measured rb mode w
  exact (hm.run 1 hw hlt).2

/-- A run of one worker that was not interrupted leaves no context active. -/
theorem active_run {rb : RuleBase} {mode : Mode} {w : Workspace} (h : (rb.run mode w).1.isSome = true) :
    (rb.run mode w).2.active.toList = [] := (course_run 1 rb mode w).active_eq_nil h

end RuleBase

/-- The engine with one worker is lawful. -/
theorem Engine.lawful_single : Engine.single.Lawful := RuleBase.course_run

/-- Each course is that of some lawful engine. -/
theorem Course.exists_engine {workers : Nat} {rb : RuleBase} {mode : Mode} {w : Workspace}
    {result : Option Statistics × Workspace} (h : Course workers rb mode w result) :
    ∃ e : Engine, e.Lawful ∧ e.run workers rb mode w = result := by
  classical
  refine ⟨⟨fun workers' rb' mode' w' =>
    if (workers', rb', mode', w') = (workers, rb, mode, w) then result else rb'.run mode' w'⟩, ?_, by simp⟩
  intro workers' rb' mode' w'
  dsimp only
  split <;> rename_i e
  · cases e
    exact h
  · exact RuleBase.course_run ..

end ELOntology
