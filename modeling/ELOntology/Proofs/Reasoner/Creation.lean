import ELOntology.Proofs.Reasoner.Incremental

/-!
# Contexts that callers create

A caller may create contexts between any two calls.  A new context waits for its first conclusion, which only a run that
derives takes in; a run that retracts drops it.  So a context must not be created while a retraction is in flight, that is
after an interruption of maintenance before the changes are committed.  In histories in which none is, saturation leaves no
context without its root, and everything is answered as from scratch.

Key fact: `contexts_started`.
-/

namespace ELOntology

namespace Reasoner

variable {r : Reasoner}

/-- What can happen to a reasoner whose contexts callers can reach. -/
inductive Event where
  | call (call : Call)
  | create (root : ExprId)

def Event.apply (r : Reasoner) : Event → Reasoner
  | call c => c.apply r
  | create root => r.createContext root

/-- The reasoner after more events. -/
def afterEvents (r : Reasoner) (events : List Event) : Reasoner := events.foldl Event.apply r

/-- No retraction is in flight, or nothing is created since the root has a context or the table does not cover it. -/
def Admits (r : Reasoner) (root : ExprId) : Prop :=
  r.progress.deletionsSeeded = true → r.progress.additionsSeeded = false →
    r.workspace.Has root ∨ r.workspace.contexts.size ≤ root.val

/-- No context is created while a retraction is in flight. -/
def Careful : Reasoner → List Event → Prop
  | _, [] => True
  | r, .call c :: events => Careful (c.apply r) events
  | r, .create root :: events => r.Admits root ∧ Careful (r.createContext root) events

theorem Sound.call (h : r.Sound) (c : Call) : (c.apply r).Sound := by
  cases c with
  | add a => exact h.add a
  | remove a => exact h.remove a
  | ask q =>
    have hask := h.ask q
    rw [Call.apply]
    generalize q.run r = result at hask
    cases hask with
    | ok hreached => exact hreached.1.served.sound
    | error hstopped => exact hstopped.sound
  | monitor f => exact h.onMonitor f
  | engine e he => exact h.setEngine he

theorem Sound.afterEvents (h : r.Sound) {events : List Event} (hcareful : r.Careful events) : (r.afterEvents events).Sound := by
  induction events generalizing r with
  | nil => exact h
  | cons event events ih =>
    cases event with
    | call c => exact ih (h.call c) hcareful
    | create root => exact ih (h.createContext hcareful.1) hcareful.2

/-- However contexts were created while no retraction was in flight, the next query that saturates the contexts leaves each
one with its root and the top class among its subsumers, and what is then asked is answered as by a new reasoner with the
same axioms, whichever lawful engine that has. -/
theorem contexts_started {config config' : Config} {r₀ s₀ : Reasoner} (hr : Reasoner.new config = .ok r₀)
    (hs : Reasoner.new config' = .ok s₀) {e : Engine} (he : e.Lawful) (events : List Event) (hcareful : r₀.Careful events)
    (hnot : (r₀.afterEvents events).stages.isDone .saturation = false) {q₀ : Query} {a : Answer}
    (hrun : q₀.run (r₀.afterEvents events) = (.ok a, r)) {axioms : List Axiom}
    (haxioms : ∀ b, b ∈ axioms ↔ (r₀.afterEvents events).index.containsAxiom b = true) :
    (∀ root, (r.workspace.context? root).isSome = true →
      r.workspace.hasSubsumer root root = true ∧ r.workspace.hasSubsumer root .thing = true) ∧
    ∃ n s, ({ s₀ with engine := e } : Reasoner).addAll axioms = (.ok n, s) ∧ ∀ q : Query, (∀ name ∈ q.compared, Lists r.index.said name) →
      ∃ b r' c s', q.run r = (.ok b, r') ∧ q.run s = (.ok c, s') ∧ b.Alike c := by
  have hsound := (Sound.new hr).afterEvents hcareful
  have hask := hsound.ask q₀
  rw [hrun] at hask
  cases hask with
  | ok hreached =>
  obtain ⟨hreached, rfl⟩ := hreached
  have hdone : r.stages.isDone .saturation = true := hreached.served.sound.closed.of_depth_lt hreached.done q₀.depth_lt
  have hquiet : r.workspace.Quiet := (hreached.served.rested hdone).resolve_left fun hbefore => by
    rw [hnot] at hbefore
    cases hbefore.1
  have h : r.Undisturbed := ⟨hreached.served.sound, fun _ => hquiet⟩
  have haxioms' (b : Axiom) : b ∈ axioms ↔ r.index.containsAxiom b = true := by
    rw [haxioms, Index.containsAxiom, Index.containsAxiom, hreached.served.serves.axioms]
  obtain ⟨n, s, hall, hs', hcalm, hagrees⟩ := h.sound.addAll_new hs he haxioms'
  refine ⟨fun root hroot => ?_, n, s, hall, h.exists_alike hdone hs' hcalm hagrees⟩
  obtain ⟨hself, hthing⟩ := h.stores_self hdone (Option.isSome_iff_exists.1 hroot)
  exact ⟨Workspace.hasSubsumer_iff.2 hself, Workspace.hasSubsumer_iff.2 hthing⟩

/-- The context of a class is created between the axiom that introduces the class and the next query. -/
theorem contexts_started_after_change : ∃ r₀ a r n s, Reasoner.new (.standard 1) = .ok r₀ ∧
    Query.classify.run (r₀.afterEvents [.call (.add (.subClassOf (.named "A") (.named "B"))), .call (.ask .classify),
      .call (.add (.subClassOf (.named "B") (.named "C"))), .create ⟨4⟩]) = (.ok a, r) ∧
    r.workspace.hasSubsumer ⟨4⟩ ⟨4⟩ = true ∧ r.workspace.hasSubsumer ⟨4⟩ .thing = true ∧
    r₀.addAll [.subClassOf (.named "B") (.named "C"), .subClassOf (.named "A") (.named "B")] = (.ok n, s) ∧
    ∃ b r' c s', Query.classify.run r = (.ok b, r') ∧ Query.classify.run s = (.ok c, s') ∧ b.Alike c := by
  obtain ⟨r₀, hr⟩ : ∃ r₀, Reasoner.new (.standard 1) = .ok r₀ := ⟨_, rfl⟩
  generalize hevents : [Event.call (.add (.subClassOf (.named "A") (.named "B"))), .call (.ask .classify),
    .call (.add (.subClassOf (.named "B") (.named "C"))), .create ⟨4⟩] = events
  have hcareful : r₀.Careful events := by
    subst hevents
    cases hr
    exact ⟨fun hseeded => absurd hseeded (by decide +kernel), trivial⟩
  have hstate : (r₀.afterEvents events).stages.isDone .saturation = false ∧
      (r₀.afterEvents events).workspace.monitor = .idle ∧ (r₀.afterEvents events).index.axioms =
        [(.subClassOf (.named "A") (.named "B"), 1), (.subClassOf (.named "B") (.named "C"), 1)] ∧
      ((Query.classify.run (r₀.afterEvents events)).2.workspace.context? ⟨4⟩).isSome = true := by
    subst hevents
    cases hr
    decide +kernel
  obtain ⟨hnot, hmonitor, hasserted, hcontext⟩ := hstate
  obtain ⟨r, hrun, -⟩ := ((Sound.new hr).afterEvents hcareful).exists_answer .classify (.inl (hmonitor ▸ Monitor.calm_idle))
  rw [hrun] at hcontext
  have haxioms (b : Axiom) : b ∈ [Axiom.subClassOf (.named "B") (.named "C"), .subClassOf (.named "A") (.named "B")] ↔
      (r₀.afterEvents events).index.containsAxiom b = true := by
    rw [Index.containsAxiom, hasserted]
    simp only [List.mem_cons, List.not_mem_nil, or_false, List.any_cons, List.any_nil, Bool.or_false, Bool.or_eq_true,
      decide_eq_true_eq]
    exact ⟨fun h => h.symm.imp Eq.symm Eq.symm, fun h => h.symm.imp Eq.symm Eq.symm⟩
  obtain ⟨hstarted, n, s, hall, halike⟩ := contexts_started hr hr Engine.lawful_single events hcareful hnot hrun haxioms
  rw [setEngine_single_of_new hr] at hall
  exact ⟨r₀, _, r, n, s, hr, hrun, (hstarted ⟨4⟩ hcontext).1, (hstarted ⟨4⟩ hcontext).2, hall,
    halike .classify fun _ hname => absurd hname List.not_mem_nil⟩

/-- A context that is created while a retraction is in flight never gets its root, and answers go wrong. -/
theorem context_lost_in_retraction : ∃ r₀, Reasoner.new (.standard 1) = .ok r₀ ∧
    let r := r₀.afterEvents [.call (.add (.subClassOf (.named "A") (.named "B"))), .call (.monitor (·.raise)),
      .call (.ask (.subsumed "A" "B")), .create ⟨2⟩]
    (r₀.afterEvents [.call (.add (.subClassOf (.named "A") (.named "B")))]).index.classId? "A" = some ⟨2⟩ ∧
    (isSubsumed "A" "B" r).1 = .ok false ∧ (isSubsumed "A" "B" r).2.stages.isDone .saturation = true ∧
    (isSubsumed "A" "B" r).2.workspace.hasSubsumer ⟨2⟩ ⟨2⟩ = false :=
  ⟨_, rfl, by decide +kernel⟩

end Reasoner

end ELOntology
