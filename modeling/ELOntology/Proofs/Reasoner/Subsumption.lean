import ELOntology.Proofs.Reasoner.Standing

/-!
# Inclusion as a relation between names

`isSubsumed` can be asked for any two names.  In an inconsistent ontology the answer is always yes.  In a consistent one the
answers make up a preorder on the names that have contexts, with the top and the bottom class at its ends; but a dormant
name is not even included in itself, and unknown names only take part by their spelling.

Key fact: `isSubsumed_laws`.
-/

namespace ELOntology

namespace Reasoner

variable {r r' : Reasoner} {a b c : String}

/-! ### The relation -/

theorem subsumes_refl (ha : r.standing a ≠ .dormant) : r.Subsumes a a := by
  cases hstanding : r.standing a with
  | unknown => exact (subsumes_of_unknown (.inl hstanding)).2 (.inl rfl)
  | dormant => exact absurd hstanding ha
  | live => exact (subsumes_of_known (by simp [hstanding]) (by simp [hstanding])).2 ⟨hstanding, fun I _ x hx => hx⟩

/-- A dormant name is included in no name that is known. -/
theorem not_subsumes_of_dormant (ha : r.standing a = .dormant) (hb : r.standing b ≠ .unknown) : ¬ r.Subsumes a b := by
  rw [subsumes_of_known (by simp [ha]) hb, ha]
  exact fun hlive => nomatch hlive.1

namespace Undisturbed

variable (h : r.Undisturbed) (hdone : r.stages.isDone .consistency = true)

include h hdone

theorem subsumes_nothing (b : String) : r.Subsumes owlNothing b := by
  have hlive := h.sound.standing_nothing (h.sound.closed.of_depth_lt hdone (by decide))
  by_cases hb : r.standing b = .unknown
  · exact (subsumes_of_unknown (.inr hb)).2 (.inr (.inr rfl))
  · exact (subsumes_of_known (by simp [hlive]) hb).2 ⟨hlive, fun I _ x hx => (I.nothing x hx).elim⟩

theorem subsumes_thing (ha : r.standing a ≠ .dormant) : r.Subsumes a owlThing := by
  have hlive := h.sound.standing_thing (h.sound.closed.of_depth_lt hdone (by decide))
  cases hstanding : r.standing a with
  | unknown => exact (subsumes_of_unknown (.inl hstanding)).2 (.inr (.inl rfl))
  | dormant => exact absurd hstanding ha
  | live => exact (subsumes_of_known (by simp [hstanding]) (by simp [hlive])).2 ⟨hstanding, fun I _ x _ => I.thing x⟩

/-- Inclusion is transitive, unless an unknown name is included in the top class only for its name, or the bottom class in
an unknown name. -/
theorem subsumes_trans (hab : r.Subsumes a b) (hbc : r.Subsumes b c) : r.Subsumes a c ∨
    (r.standing a = .unknown ∧ b = owlThing) ∨ (r.standing c = .unknown ∧ b = owlNothing) := by
  have hthing := h.sound.standing_thing (h.sound.closed.of_depth_lt hdone (by decide))
  have hnothing := h.sound.standing_nothing (h.sound.closed.of_depth_lt hdone (by decide))
  have hknown {name : String} (hlive : r.standing name = .live) (hname : r.standing name = .unknown) : False := by
    rw [hlive] at hname
    cases hname
  -- as long as a name is unknown only the spelling counts
  by_cases ha : r.standing a = .unknown
  · rcases (subsumes_of_unknown (.inl ha)).1 hab with rfl | hb | rfl
    · exact .inl hbc
    · exact .inr (.inl ⟨ha, hb⟩)
    · exact (hknown hnothing ha).elim
  by_cases hb : r.standing b = .unknown
  · rcases (subsumes_of_unknown (.inr hb)).1 hab with rfl | rfl | rfl
    · exact .inl hbc
    · exact (hknown hthing hb).elim
    · exact .inl (h.subsumes_nothing hdone c)
  by_cases hc : r.standing c = .unknown
  · rcases (subsumes_of_unknown (.inr hc)).1 hbc with rfl | rfl | hb
    · exact .inl hab
    · exact (hknown hthing hc).elim
    · exact .inr (.inr ⟨hc, hb⟩)
  obtain ⟨hlive, hab⟩ := (subsumes_of_known ha hb).1 hab
  obtain ⟨-, hbc⟩ := (subsumes_of_known hb hc).1 hbc
  exact .inl ((subsumes_of_known ha hc).2 ⟨hlive, fun I hI x hx => hbc I hI x (hab I hI x hx)⟩)

end Undisturbed

/-! ### The answers -/

/-- All questions about inclusion are answered from the state in which the question of consistency has been answered. -/
theorem Undisturbed.isSubsumed_eq (h : r.Undisturbed) {inconsistent : Bool}
    (hrun : isInconsistent r = (.ok inconsistent, r')) (a b : String) :
    ∃ answer, isSubsumed a b r = (.ok answer, r') ∧ (answer = true ↔ inconsistent = true ∨ r'.Subsumes a b) := by
  have hinconsistent := h.sound.isInconsistent
  rw [hrun] at hinconsistent
  cases hinconsistent with
  | ok hreached =>
  obtain ⟨hreached, rfl⟩ := hreached
  have h' := h.served hreached.served
  have hanswer : (Query.subsumed a b).answer r' = .truth true ↔ _ := h'.subsumed_iff hreached.done
  rw [← h'.sound.inconsistent_iff hreached.done] at hanswer
  unfold isSubsumed
  rw [Request.bind_apply, hrun]
  cases hflag : r'.inconsistent with
  | true => exact ⟨true, rfl, by simp⟩
  | false =>
    rw [hflag] at hanswer
    refine ⟨_, rfl, Iff.trans ?_ hanswer⟩
    rw [Query.answer, hflag, Answer.truth.injEq]
    rfl

/-- The answers in every state that calls lead to, once the question of consistency is answered there.  In an inconsistent
ontology all are yes.  Otherwise the bottom class is included in every name; every name but the dormant ones is included
in itself and in the top class, and a dormant one in no known name; names of the axioms are never dormant; and the relation
is transitive but for unknown names, which are not seen to be below a class that is equivalent to the top class, or above
one that is empty. -/
theorem isSubsumed_laws {config : Config} {r₀ : Reasoner} (hr : Reasoner.new config = .ok r₀) (calls : List Call)
    {inconsistent : Bool} (hrun : isInconsistent (r₀.after calls) = (.ok inconsistent, r)) :
    let subsumed (a b : String) : Prop := isSubsumed a b (r₀.after calls) = (.ok true, r)
    (∀ a b, subsumed a b ∨ isSubsumed a b (r₀.after calls) = (.ok false, r)) ∧
    (inconsistent = true → ∀ a b, subsumed a b) ∧
    (∀ b, subsumed owlNothing b) ∧
    (∀ a, r.standing a ≠ .dormant → subsumed a a ∧ subsumed a owlThing) ∧
    (inconsistent = false → ∀ a b, r.standing a = .dormant → r.standing b ≠ .unknown → ¬ subsumed a b) ∧
    (∀ a, Lists r.index.said a → r.standing a = .live) ∧
    (∀ a b c, subsumed a b → subsumed b c → subsumed a c ∨
      (r.standing a = .unknown ∧ b = owlThing) ∨ (r.standing c = .unknown ∧ b = owlNothing)) := by
  intro subsumed
  have h := undisturbed_after hr calls
  have hinconsistent := h.sound.isInconsistent
  rw [hrun] at hinconsistent
  cases hinconsistent with
  | ok hreached =>
  have h' := h.served hreached.1.served
  have hdone := hreached.1.done
  -- every question is answered in the same state `r`, so the laws are those of one relation
  have hiff (a b : String) : subsumed a b ↔ inconsistent = true ∨ r.Subsumes a b := by
    obtain ⟨answer, he, hanswer⟩ := h.isSubsumed_eq hrun a b
    rw [← hanswer]
    refine ⟨fun hab => Except.ok.inj (congrArg Prod.fst (he.symm.trans hab)), fun hab => ?_⟩
    subst hab
    exact he
  refine ⟨fun a b => ?_, fun hflag a b => (hiff a b).2 (.inl hflag), fun b => (hiff _ b).2 (.inr (h'.subsumes_nothing hdone b)),
    fun a ha => ⟨(hiff a a).2 (.inr (subsumes_refl ha)), (hiff a _).2 (.inr (h'.subsumes_thing hdone ha))⟩,
    fun hflag a b ha hb hab => ?_, fun a ha => h'.sound.live_of_lists (h'.sound.closed.of_depth_lt hdone (by decide)) ha,
    fun a b c hab hbc => ?_⟩
  · obtain ⟨answer, he, -⟩ := h.isSubsumed_eq hrun a b
    cases answer with
    | true => exact .inl he
    | false => exact .inr he
  · rcases (hiff a b).1 hab with e | hab
    · rw [hflag] at e
      cases e
    · exact not_subsumes_of_dormant ha hb hab
  · rcases (hiff a b).1 hab with e | hab
    · exact .inl ((hiff a c).2 (.inl e))
    rcases (hiff b c).1 hbc with e | hbc
    · exact .inl ((hiff a c).2 (.inl e))
    exact (h'.subsumes_trans hdone hab hbc).imp_left fun hac => (hiff a c).2 (.inr hac)

/-- A name that only a failed assertion has numbered is not included in itself. -/
theorem isSubsumed_laws_dormant : ∃ r₀, Reasoner.new (.standard 1) = .ok r₀ ∧
    let r₁ := r₀.after [.add (.subClassOf (.named "X") (.intersection []))]
    let r := (isInconsistent r₁).2
    isInconsistent r₁ = (.ok false, r) ∧ r.standing "X" = .dormant ∧ isSubsumed "X" "X" r₁ = (.ok false, r) ∧
      isSubsumed "X" owlThing r₁ = (.ok false, r) := by
  obtain ⟨r₀, hr⟩ : ∃ r₀, Reasoner.new (.standard 1) = .ok r₀ := ⟨_, rfl⟩
  generalize hcalls : [Call.add (.subClassOf (.named "X") (.intersection []))] = calls
  have hstate : (isInconsistent (r₀.after calls)).1 = .ok false ∧
      (isInconsistent (r₀.after calls)).2.standing "X" = .dormant ∧
      (isInconsistent (r₀.after calls)).2.standing owlThing ≠ .unknown := by
    subst hcalls
    cases hr
    decide +kernel
  obtain ⟨hanswer, hdormant, hthing⟩ := hstate
  have hrun : isInconsistent (r₀.after calls) = (.ok false, (isInconsistent (r₀.after calls)).2) := Prod.ext hanswer rfl
  obtain ⟨htotal, -, -, -, hnot, -⟩ := isSubsumed_laws hr calls hrun
  refine ⟨r₀, hr, hrun, hdormant, (htotal "X" "X").resolve_left (hnot rfl "X" "X" hdormant ?_),
    (htotal "X" owlThing).resolve_left (hnot rfl "X" owlThing hdormant hthing)⟩
  rw [hdormant]
  exact nofun

end Reasoner

end ELOntology
