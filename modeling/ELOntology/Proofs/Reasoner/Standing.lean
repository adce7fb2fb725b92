import ELOntology.Proofs.Reasoner.History

/-!
# Names and answers

What a reasoner knows of a name is whether the index has numbered its class, and whether that class has a context.  A name
that is numbered without a context, as after an assertion that has failed, is dormant: it stands in no axiom, and no
context has been made for it.

An answer is what the asserted axioms say (`Undisturbed.satisfiable_iff`, `Undisturbed.subsumed_iff`).  Only the question
whether one class is included in another sees the standing of names, so reasoners with the same axioms answer alike
(`Undisturbed.answer_alike`).
-/

namespace ELOntology

/-- What is known of a name. -/
inductive Standing where
  /-- No class of the name has been numbered. -/
  | unknown
  /-- The class has been numbered, and has no context. -/
  | dormant
  /-- The class has a context. -/
  | live
deriving DecidableEq

namespace Reasoner

variable {r s : Reasoner} {name : String}

def standing (r : Reasoner) (name : String) : Standing :=
  match r.index.classId? name with
  | none => .unknown
  | some id => if (r.workspace.context? id).isSome then .live else .dormant

theorem standing_eq_unknown : r.standing name = .unknown ↔ r.index.classId? name = none := by
  unfold standing
  cases r.index.classId? name with
  | none => simp
  | some id => by_cases h : (r.workspace.context? id).isSome <;> simp [h]

theorem standing_eq_dormant : r.standing name = .dormant ↔ ∃ id, r.index.classId? name = some id ∧ ¬ r.workspace.Has id := by
  unfold standing Workspace.Has
  cases r.index.classId? name with
  | none => simp
  | some id => cases h : r.workspace.context? id <;> simp [h]

theorem standing_eq_live : r.standing name = .live ↔ ∃ id, r.index.classId? name = some id ∧ r.workspace.Has id := by
  unfold standing Workspace.Has
  cases r.index.classId? name with
  | none => simp
  | some id => cases h : r.workspace.context? id <;> simp [h]

namespace Sound

/-- Once the contexts are saturated, the names that stand in axioms have one. -/
theorem live_of_lists (h : r.Sound) (hdone : r.stages.isDone .saturation = true) (hname : Lists r.index.said name) :
    r.standing name = .live := by
  obtain ⟨⟨id, hid⟩, hiri⟩ := h.accounts.exists_class_iff.2 hname
  obtain ⟨iri, hshape, hiri'⟩ := Index.exists_shape_of_mem_classes hid
  obtain rfl : iri = name := hiri'.symm.trans hiri
  have hself := (h.settled hdone).rooted (List.mem_append_left _ hid)
  exact standing_eq_live.2 ⟨id, h.accounts.tidy.find?_iff.2 hshape, hself.has⟩

theorem standing_thing (h : r.Sound) (hdone : r.stages.isDone .saturation = true) : r.standing owlThing = .live :=
  h.live_of_lists hdone (.inl rfl)

theorem standing_nothing (h : r.Sound) (hdone : r.stages.isDone .saturation = true) : r.standing owlNothing = .live :=
  h.live_of_lists hdone (.inr (.inl rfl))

/-- In a consistent ontology a name that stands in no axiom is satisfiable. -/
theorem not_void_of_not_lists (h : r.Sound) (hdone : r.stages.isDone .consistency = true)
    (hconsistent : r.inconsistent = false) (hname : ¬ Lists r.index.said name) : ¬ Void r.index.said (.named name) := by
  have hcontradictory : ¬ Contradictory r.index.said := fun hc => by
    rw [(h.inconsistent_iff hdone).2 hc] at hconsistent
    cases hconsistent
  exact not_void_of_not_mentions r.index.grounded_said (fun hvoid => hcontradictory (.inl hvoid))
    (fun e => hname (.inr (.inl e))) fun hm => hname (.inr (.inr hm))

end Sound

/-- After a query that rests on saturated contexts, the names that stand in axioms have one. -/
theorem Reached.live_of_lists {stage : Stage} {r' : Reasoner} (h : Reached stage r r')
    (hdepth : Stage.saturation.depth < stage.depth) (hname : Lists r.index.said name) : r'.standing name = .live :=
  h.served.sound.live_of_lists (h.served.sound.closed.of_depth_lt h.done hdepth) (h.served.serves.agrees.lists_iff.2 hname)

namespace Undisturbed

/-- A name is found satisfiable if the ontology is consistent and the name has instances in some model. -/
theorem satisfiable_iff (h : r.Undisturbed) (hdone : r.stages.isDone .consistency = true) :
    (Query.satisfiable name).answer r = .truth true ↔
      ¬ Contradictory r.index.said ∧ ¬ Void r.index.said (.named name) := by
  have hsaturation : r.stages.isDone .saturation = true := h.sound.closed.of_depth_lt hdone (by decide)
  rw [← h.sound.inconsistent_iff hdone, Query.answer, Answer.truth.injEq, Bool.and_eq_true, Bool.not_eq_true',
    Bool.not_eq_true]
  refine and_congr_right fun hconsistent => ?_
  have hempty (hname : ¬ Lists r.index.said name) : ¬ Void r.index.said (.named name) :=
    h.sound.not_void_of_not_lists hdone hconsistent hname
  cases hid : r.index.classId? name with
  | none =>
    refine iff_of_true rfl (hempty fun hlists => ?_)
    have hlive := h.sound.live_of_lists hsaturation hlists
    rw [standing_eq_unknown.2 hid] at hlive
    cases hlive
  | some id =>
    dsimp only
    rw [Bool.not_eq_true', ← Bool.not_eq_true]
    by_cases hhas : r.workspace.Has id
    · exact not_congr (h.sound.isUnsatisfiable_iff_void hsaturation (h.stores_self hsaturation hhas).1
        (.named (h.sound.accounts.tidy.find?_iff.1 hid)))
    · refine iff_of_true (fun hunsat => hhas (Workspace.isUnsatisfiable_iff.1 hunsat).has) (hempty fun hlists => ?_)
      have hlive := h.sound.live_of_lists hsaturation hlists
      rw [standing_eq_dormant.2 ⟨id, hid, hhas⟩] at hlive
      cases hlive

end Undisturbed

/-- What holds between names in a consistent ontology, as far as the reasoner knows them.  Between names of which one is
unknown it is only the order of names as such, and a dormant name is included in nothing. -/
def Subsumes (r : Reasoner) (sub sup : String) : Prop :=
  match r.standing sub, r.standing sup with
  | .unknown, _ | _, .unknown => sub = sup ∨ sup = owlThing ∨ sub = owlNothing
  | .dormant, _ => False
  | .live, _ => Entails r.index.said (.named sub) (.named sup)

theorem subsumes_of_unknown {sub sup : String} (h : r.standing sub = .unknown ∨ r.standing sup = .unknown) :
    r.Subsumes sub sup ↔ sub = sup ∨ sup = owlThing ∨ sub = owlNothing := by
  unfold Subsumes
  rcases h with h | h
  · rw [h]
  · rw [h]
    cases r.standing sub <;> rfl

theorem subsumes_of_known {sub sup : String} (hsub : r.standing sub ≠ .unknown) (hsup : r.standing sup ≠ .unknown) :
    r.Subsumes sub sup ↔ r.standing sub = .live ∧ Entails r.index.said (.named sub) (.named sup) := by
  unfold Subsumes
  generalize r.standing sub = standing, r.standing sup = standing' at hsub hsup ⊢
  cases standing <;> cases standing' <;> simp at hsub hsup ⊢

/-- An inclusion is found if the ontology is contradictory or the one class is included in the other. -/
theorem Undisturbed.subsumed_iff (h : r.Undisturbed) (hdone : r.stages.isDone .consistency = true) {sub sup : String} :
    (Query.subsumed sub sup).answer r = .truth true ↔ Contradictory r.index.said ∨ r.Subsumes sub sup := by
  have hsaturation : r.stages.isDone .saturation = true := h.sound.closed.of_depth_lt hdone (by decide)
  rw [← h.sound.inconsistent_iff hdone, Query.answer, Answer.truth.injEq, Bool.or_eq_true]
  refine or_congr_right ?_
  have hunknown {name : String} (hname : r.index.classId? name = none) : r.standing name = .unknown :=
    standing_eq_unknown.2 hname
  have hknown {name : String} {id : ExprId} (hname : r.index.classId? name = some id) : r.standing name ≠ .unknown := fun e => by
    rw [standing_eq_unknown.1 e] at hname
    cases hname
  cases hsub : r.index.classId? sub with
  | none =>
    rw [subsumes_of_unknown (.inl (hunknown hsub))]
    simp [or_assoc]
  | some id =>
    cases hsup : r.index.classId? sup with
    | none =>
      rw [subsumes_of_unknown (.inr (hunknown hsup))]
      simp [or_assoc]
    | some supId =>
      rw [subsumes_of_known (hknown hsub) (hknown hsup)]
      dsimp only
      rw [Bool.or_eq_true]
      by_cases hhas : r.workspace.Has id
      · rw [standing_eq_live.2 ⟨id, hsub, hhas⟩]
        exact (h.sound.includes_iff_entails hsaturation (h.stores_self hsaturation hhas).1
          (.named (h.sound.accounts.tidy.find?_iff.1 hsub)) (h.sound.accounts.tidy.find?_iff.1 hsup)).trans (and_iff_right rfl).symm
      · rw [standing_eq_dormant.2 ⟨id, hsub, hhas⟩]
        refine iff_of_false (fun hincludes => hhas ?_) fun hlive => by cases hlive.1
        rcases hincludes with hempty | hsubsumer
        · exact (Workspace.isUnsatisfiable_iff.1 hempty).has
        · exact (Workspace.hasSubsumer_iff.1 hsubsumer).has

end Reasoner

/-! ### Answers of reasoners with the same axioms -/

namespace Answer

/-- The answers are equal up to the places of the nodes of a taxonomy. -/
inductive Alike : Answer → Answer → Prop
  | taxonomy {t t' : Taxonomy} (h : t.Alike t') : Alike (.taxonomy t) (.taxonomy t')
  | same (a : Answer) : Alike a a

theorem Alike.truth {b b' : Bool} (h : Answer.truth b' = .truth true ↔ Answer.truth b = .truth true) :
    Alike (.truth b) (.truth b') := by
  rw [truth.injEq, truth.injEq] at h
  rw [Bool.eq_iff_iff.2 h]
  exact .same _

end Answer

/-- The names whose standing the answer depends on. -/
def Query.compared : Query → List String
  | subsumed sub sup => [sub, sup]
  | _ => []

namespace Reasoner

variable {r s : Reasoner}

/-- Names that stand alike in both reasoners are included in each other alike. -/
theorem Agrees.subsumes_iff (hsame : r.Agrees s) {sub sup : String} (hsub : s.standing sub = r.standing sub)
    (hsup : s.standing sup = r.standing sup) : s.Subsumes sub sup ↔ r.Subsumes sub sup := by
  unfold Subsumes
  rw [hsub, hsup]
  cases r.standing sub <;> cases r.standing sup <;> first | exact Iff.rfl | exact hsame.entails_iff

/-- Reasoners with the same axioms answer alike, unless they are asked to compare names that they know differently. -/
theorem Undisturbed.answer_alike (h : r.Undisturbed) (h' : s.Undisturbed) (hsame : r.Agrees s) (q : Query)
    (hdone : r.stages.isDone q.stage = true) (hdone' : s.stages.isDone q.stage = true)
    (hstanding : ∀ name ∈ q.compared, s.standing name = r.standing name) : (q.answer r).Alike (q.answer s) := by
  -- answers are read off the taxonomies, which are alike, or off the realizations, which are equal
  have htaxonomies (hdone : r.stages.isDone .classTaxonomy = true) (hdone' : s.stages.isDone .classTaxonomy = true) :
      ∃ t t', r.taxonomy = some t ∧ s.taxonomy = some t' ∧ t.Alike t' ∧ t.Linked :=
    ⟨_, _, h.sound.taxonomy hdone, h'.sound.taxonomy hdone', h.sound.alike_taxonomy h'.sound hsame hdone hdone'
      (h.sound.taxonomy hdone) (h'.sound.taxonomy hdone'), h.sound.linked hdone (h.sound.taxonomy hdone)⟩
  have hrealizations (hdone : r.stages.isDone .instanceTaxonomy = true) (hdone' : s.stages.isDone .instanceTaxonomy = true)
      {t t' : Taxonomy} (ht : r.taxonomy = some t) (ht' : s.taxonomy = some t') :
      ∃ i, r.realization = some i ∧ s.realization = some i := by
    have hi := h.sound.realization hdone t ht
    have hi' := h'.sound.realization hdone' t' ht'
    exact ⟨_, hi, h.sound.realization_eq h'.sound hsame hdone hdone' hi hi' ▸ hi'⟩
  have hbefore {u : Reasoner} (hu : u.Undisturbed) (hdone : u.stages.isDone .instanceTaxonomy = true) :
      u.stages.isDone .classTaxonomy = true := hu.sound.closed.of_depth_lt hdone (by decide)
  cases q with
  | classify =>
    obtain ⟨t, t', ht, ht', halike, -⟩ := htaxonomies hdone hdone'
    rw [Query.answer, Query.answer, withTaxonomy_eq ht, withTaxonomy_eq ht']
    exact .taxonomy halike
  | realize =>
    obtain ⟨t, t', ht, ht', -⟩ := htaxonomies (hbefore h hdone) (hbefore h' hdone')
    obtain ⟨i, hi, hi'⟩ := hrealizations hdone hdone' ht ht'
    rw [Query.answer, Query.answer, withRealization_eq ht hi, withRealization_eq ht' hi']
    exact .same _
  | inconsistent =>
    rw [Query.answer, Query.answer, h.sound.inconsistent_eq h'.sound hsame hdone hdone']
    exact .same _
  | satisfiable name =>
    refine .truth ((h'.satisfiable_iff hdone').trans (.trans ?_ (h.satisfiable_iff hdone).symm))
    rw [hsame.contradictory_iff, hsame.void_iff]
  | superClasses name direct =>
    obtain ⟨t, t', ht, ht', ⟨σ, hσ⟩, hlinked⟩ := htaxonomies hdone hdone'
    rw [Query.answer, Query.answer, withTaxonomy_eq ht, withTaxonomy_eq ht', hσ.directSupers?_eq hlinked,
      hσ.supers?_eq hlinked]
    exact .same _
  | subClasses name direct =>
    obtain ⟨t, t', ht, ht', ⟨σ, hσ⟩, hlinked⟩ := htaxonomies hdone hdone'
    rw [Query.answer, Query.answer, withTaxonomy_eq ht, withTaxonomy_eq ht', hσ.directSubs?_eq hlinked,
      hσ.subs?_eq hlinked]
    exact .same _
  | equivalentClasses name =>
    obtain ⟨t, t', ht, ht', ⟨σ, hσ⟩, hlinked⟩ := htaxonomies hdone hdone'
    rw [Query.answer, Query.answer, withTaxonomy_eq ht, withTaxonomy_eq ht', hσ.equivalents?_eq hlinked]
    exact .same _
  | types individual direct =>
    obtain ⟨t, t', ht, ht', ⟨σ, hσ⟩, hlinked⟩ := htaxonomies (hbefore h hdone) (hbefore h' hdone')
    obtain ⟨i, hi, hi'⟩ := hrealizations hdone hdone' ht ht'
    rw [Query.answer, Query.answer, withTaxonomy_eq ht, withTaxonomy_eq ht', withRealization_eq ht hi,
      withRealization_eq ht' hi', hσ.types?_eq hlinked]
    exact .same _
  | subsumed sub sup =>
    refine .truth ((h'.subsumed_iff hdone').trans (.trans ?_ (h.subsumed_iff hdone).symm))
    rw [hsame.contradictory_iff, hsame.subsumes_iff (hstanding sub (List.mem_cons_self ..))
      (hstanding sup (List.mem_cons_of_mem _ (List.mem_cons_self ..)))]

end Reasoner

end ELOntology
