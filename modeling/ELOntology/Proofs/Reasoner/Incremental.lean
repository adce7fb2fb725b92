import ELOntology.Proofs.Reasoner.Standing

/-!
# Maintenance and classification from scratch

Whatever a reasoner has been through, and whether it maintains its contexts or starts anew, once it has classified the
ontology it answers like a new reasoner to which the asserted axioms are given, in any order.  The workers of both may take
turns in any order.
-/

namespace ELOntology

namespace Reasoner

variable {r s : Reasoner}

/-- A new reasoner, with any lawful engine, accepts the axioms that another one has, and then has the same. -/
theorem Sound.addAll_new (h : r.Sound) {config : Config} (hs : Reasoner.new config = .ok s) {e : Engine} (he : e.Lawful)
    {axioms : List Axiom} (haxioms : ∀ a, a ∈ axioms ↔ r.index.containsAxiom a = true) :
    ∃ n s', ({ s with engine := e } : Reasoner).addAll axioms = (.ok n, s') ∧ s'.Undisturbed ∧
      s'.workspace.monitor.Calm ∧ r.Agrees s' := by
  have hcontains (a : Axiom) : a ∈ axioms ↔ 0 < r.index.assertions a := by
    rw [haxioms, h.accounts.containsAxiom_iff]
  obtain ⟨n, s', hall, hs', hmonitor, hcount⟩ := ((Undisturbed.new hs).setEngine he).addAll_spec
    fun a (ha : a ∈ axioms) => h.exists_entries ((hcontains a).1 ha)
  refine ⟨n, s', hall, hs', ?_, h.agrees hs'.sound fun a => ?_⟩
  · rw [hmonitor]
    obtain rfl := eq_of_new hs
    exact Monitor.calm_idle
  · rw [hcount]
    show 0 < s.index.assertions a ∨ _ ↔ _
    rw [assertions_new hs, hcontains]
    simp

/-- The names of the classes of a taxonomy are listed. -/
theorem Sound.lists_of_place (h : r.Sound) (hdone : r.stages.isDone .classTaxonomy = true) {t : Taxonomy}
    (ht : r.taxonomy = some t) {name : String} {p : Nat} (hp : t.place? name = some p) : Lists r.index.said name := by
  refine h.accounts.exists_class_iff.1 ?_
  cases hinconsistent : r.inconsistent with
  | false => exact ((h.draws hdone hinconsistent ht).1.named hp).2
  | true =>
    rw [h.collapsed hdone hinconsistent ht] at hp
    exact ((Taxonomy.place?_collapsed_iff h.accounts.tidy).1 hp).2

/-- Once the contexts are saturated, all questions are answered as by a reasoner that has the same axioms and is not
interrupted, where names of the axioms are compared. -/
theorem Undisturbed.exists_alike (h : r.Undisturbed) (hdone : r.stages.isDone .saturation = true) (h' : s.Undisturbed)
    (hcalm : s.workspace.monitor.Calm) (hagrees : r.Agrees s) (q : Query) (hnames : ∀ name ∈ q.compared, Lists r.index.said name) :
    ∃ a r' b s', q.run r = (.ok a, r') ∧ q.run s = (.ok b, s') ∧ a.Alike b := by
  obtain ⟨r', hrun, hreached⟩ := h.sound.exists_answer q (.inr hdone)
  obtain ⟨s', hrun', hreached'⟩ := h'.sound.exists_answer q (.inl hcalm)
  refine ⟨_, r', _, s', hrun, hrun', (h.served hreached.served).answer_alike (h'.served hreached'.served)
    (hreached.served.serves.agrees.symm.trans (hagrees.trans hreached'.served.serves.agrees)) q hreached.done hreached'.done
    fun name hname => ?_⟩
  rw [hreached.live_of_lists q.depth_lt (hnames name hname),
    hreached'.live_of_lists q.depth_lt (hagrees.lists_iff.2 (hnames name hname))]

/-- Maintenance is as good as starting anew.  After any history of calls that ends with a successful classification or
realization, a new reasoner, with any configuration and any lawful engine, accepts the asserted axioms in any order and gives
the same answers: the same taxonomy up to the places of its nodes, the same realization, and the same answers to all
questions, where the classes of the taxonomy are compared. -/
theorem answers_of_new {config config' : Config} {r₀ s₀ : Reasoner} (hr : Reasoner.new config = .ok r₀)
    (hs : Reasoner.new config' = .ok s₀) {e : Engine} (he : e.Lawful) (calls : List Call) {q₀ : Query}
    (hq₀ : q₀ = .classify ∨ q₀ = .realize) {a : Answer} (hrun : q₀.run (r₀.after calls) = (.ok a, r)) {axioms : List Axiom}
    (haxioms : ∀ b, b ∈ axioms ↔ (r₀.after calls).index.containsAxiom b = true) :
    ∃ n s, ({ s₀ with engine := e } : Reasoner).addAll axioms = (.ok n, s) ∧ (∃ b s', q₀.run s = (.ok b, s') ∧ a.Alike b) ∧
      ∀ q : Query, (∀ name ∈ q.compared, ∃ t p, r.taxonomy = some t ∧ t.place? name = some p) →
        ∃ b r' c s', q.run r = (.ok b, r') ∧ q.run s = (.ok c, s') ∧ b.Alike c := by
  have hundisturbed := undisturbed_after hr calls
  have hask := hundisturbed.sound.ask q₀
  rw [hrun] at hask
  cases hask with
  | ok hreached =>
  obtain ⟨hreached, rfl⟩ := hreached
  have hr' := hundisturbed.served hreached.served
  have hdone : r.stages.isDone .classTaxonomy = true := by
    rcases hq₀ with rfl | rfl
    · exact hreached.done
    · exact hr'.sound.closed.of_depth_lt hreached.done (by decide)
  have haxioms' (b : Axiom) : b ∈ axioms ↔ r.index.containsAxiom b = true := by
    rw [haxioms, Index.containsAxiom, Index.containsAxiom, hreached.served.serves.axioms]
  obtain ⟨n, s, hall, hs', hcalm, hagrees⟩ := hr'.sound.addAll_new hs he haxioms'
  refine ⟨n, s, hall, ?_, fun q hnames => ?_⟩
  · obtain ⟨s', hrun', hreached'⟩ := hs'.sound.exists_answer q₀ (.inl hcalm)
    refine ⟨_, s', hrun', hr'.answer_alike (hs'.served hreached'.served) (hagrees.trans hreached'.served.serves.agrees) q₀
      hreached.done hreached'.done fun name hname => ?_⟩
    rcases hq₀ with rfl | rfl <;> exact absurd hname List.not_mem_nil
  · refine hr'.exists_alike (hr'.sound.closed.of_depth_lt hdone (by decide)) hs' hcalm hagrees q fun name hname => ?_
    obtain ⟨t, p, ht, hp⟩ := hnames name hname
    exact hr'.sound.lists_of_place hdone ht hp

/-- A classification that was interrupted while the retraction of an axiom was worked off, and is then resumed. -/
theorem answers_of_new_resumed :
    ∃ r₀ a r n s b s', Reasoner.new (.standard 1) = .ok r₀ ∧
      Query.classify.run (r₀.after [.add (.subClassOf (.named "A") (.named "B")), .add (.subClassOf (.named "B") (.named "C")),
        .ask .classify, .remove (.subClassOf (.named "A") (.named "B")), .monitor (·.raise), .ask .classify]) = (.ok a, r) ∧
      r₀.addAll [.subClassOf (.named "B") (.named "C")] = (.ok n, s) ∧ Query.classify.run s = (.ok b, s') ∧ a.Alike b := by
  obtain ⟨r₀, hr⟩ : ∃ r₀, Reasoner.new (.standard 1) = .ok r₀ := ⟨_, rfl⟩
  generalize hcalls : [Call.add (.subClassOf (.named "A") (.named "B")), .add (.subClassOf (.named "B") (.named "C")),
    .ask .classify, .remove (.subClassOf (.named "A") (.named "B")), .monitor (·.raise), .ask .classify] = calls
  have hmonitor : (r₀.after calls).workspace.monitor = .idle := by
    subst hcalls
    cases hr
    decide +kernel
  have haxioms (b : Axiom) : b ∈ [Axiom.subClassOf (.named "B") (.named "C")] ↔
      (r₀.after calls).index.containsAxiom b = true := by
    rw [containsAxiom_after hr, ← hcalls, List.mem_singleton]
    by_cases hB : b = .subClassOf (.named "B") (.named "C")
    · subst hB
      decide +kernel
    · by_cases hA : b = .subClassOf (.named "A") (.named "B")
      · subst hA
        decide +kernel
      · simp [Call.tally, Ne.symm hA, Ne.symm hB, hB]
  obtain ⟨r, hrun, -⟩ := (undisturbed_after hr calls).sound.exists_answer .classify (.inl (hmonitor ▸ Monitor.calm_idle))
  obtain ⟨n, s, hall, ⟨b, s', hrun', halike⟩, -⟩ := answers_of_new hr hr Engine.lawful_single calls (.inl rfl) hrun haxioms
  rw [setEngine_single_of_new hr] at hall
  exact ⟨r₀, _, r, n, s, b, s', hr, hrun, hall, hrun', halike⟩

end Reasoner

end ELOntology
