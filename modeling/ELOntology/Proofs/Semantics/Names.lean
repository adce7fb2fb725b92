import ELOntology.Proofs.Semantics.Ontology

/-!
# The names that are listed

An index counts the occurrences of terms.  Which classes and individuals occur in the term of an expression can be read
off the expression as it is written, however it is nested, and so can what an axiom counts.  There is one exception: an
equivalence with a single member counts nothing.

Key facts: `ClassExpression.mem_entities_of_term?` (a term has the names of its expression) and `Index.names_listed` (an
index lists the names that are written in its other axioms).
-/

namespace ELOntology

/-! ### What is written -/

namespace ClassExpression

mutual

/-- The classes and the individuals that are written in the expression. -/
def entities : ClassExpression → List Entity
  | named iri => [.namedClass iri]
  | thing => [.namedClass owlThing]
  | nothing => [.namedClass owlNothing]
  | intersection operands => entitiesAll operands
  | someValues _ filler => filler.entities
  | hasValue _ individual | oneOf individual => [.individual individual]
  | dataHasValue .. | dataSomeValues .. => []

def entitiesAll : List ClassExpression → List Entity
  | [] => []
  | e :: es => e.entities ++ entitiesAll es

end

end ClassExpression

namespace Axiom

/-- The classes and the individuals that are written in the axiom. -/
def entities : Axiom → List Entity
  | declaration (.objectProperty _) => []
  | declaration entity => [entity]
  | subClassOf sub sup => sub.entities ++ sup.entities
  | equivalentClasses members | disjointClasses members => ClassExpression.entitiesAll members
  | classAssertion type individual => .individual individual :: type.entities
  | roleAssertion _ subject object => [.individual subject, .individual object]
  | subRoleOf .. | equivalentRoles _ | transitiveRole _ => []

/-- Whether the axiom is an equivalence with a single member. -/
def isLoneEquivalence : Axiom → Bool
  | equivalentClasses [_] => true
  | _ => false

end Axiom

/-! ### What is counted -/

/-- The class or individual of which the entry is an occurrence. -/
def TermEntry.entity? : TermEntry → Option Entity
  | .occurrence _ (.named iri) => some (.namedClass iri)
  | .occurrence _ (.nominal individual) => some (.individual individual)
  | _ => none

/-- The classes and the individuals that occur in what is said. -/
def occurring (said : List TermEntry) : List Entity := said.filterMap TermEntry.entity?

theorem mem_occurring_class_iff {said : List TermEntry} {name : String} :
    .namedClass name ∈ occurring said ↔ Mentions said (.named name) := by
  rw [occurring, List.mem_filterMap]
  constructor
  · rintro ⟨entry, hentry, e⟩
    unfold TermEntry.entity? at e
    split at e
    · cases e
      exact ⟨_, hentry⟩
    · cases e
    · cases e
  · rintro ⟨polarity, hentry⟩
    exact ⟨_, hentry, rfl⟩

theorem mem_occurring_individual_iff {said : List TermEntry} {name : String} :
    .individual name ∈ occurring said ↔ Mentions said (.nominal name) := by
  rw [occurring, List.mem_filterMap]
  constructor
  · rintro ⟨entry, hentry, e⟩
    unfold TermEntry.entity? at e
    split at e
    · cases e
    · cases e
      exact ⟨_, hentry⟩
    · cases e
  · rintro ⟨polarity, hentry⟩
    exact ⟨_, hentry, rfl⟩

theorem occurring_append (said said' : List TermEntry) : occurring (said ++ said') = occurring said ++ occurring said' :=
  List.filterMap_append

namespace Term

/-- The classes and the individuals of a term. -/
def entities : Term → List Entity
  | named iri => [.namedClass iri]
  | conjunction first second => first.entities ++ second.entities
  | existential _ filler => filler.entities
  | data .. => []
  | nominal individual => [.individual individual]

theorem occurring_occurrences (polarity : Polarity) (t : Term) : occurring (t.occurrences polarity) = t.entities := by
  induction t with
  | named | data | nominal => rfl
  | conjunction first second ih₁ ih₂ =>
    rw [occurrences, occurring, List.filterMap_cons_none rfl, ← occurring, occurring_append, ih₁, ih₂, entities]
  | existential role filler ih => rw [occurrences, occurring, List.filterMap_cons_none rfl, ← occurring, ih, entities]

theorem occurring_inclusionEntries (sub sup : Term) :
    occurring (sub.inclusionEntries sup) = sub.entities ++ sup.entities := by
  rw [inclusionEntries, occurring_append, occurring_append, occurring_occurrences, occurring_occurrences]
  exact List.append_nil _

theorem occurring_disjointnessEntries (ts : List Term) :
    occurring (disjointnessEntries ts) = ts.flatMap entities := by
  have hmembers : occurring (ts.flatMap (occurrences .negative)) = ts.flatMap entities := by
    induction ts with
    | nil => rfl
    | cons t ts ih => rw [List.flatMap_cons, occurring_append, occurring_occurrences, ih, List.flatMap_cons]
  rw [disjointnessEntries, occurring_append, hmembers]
  exact List.append_nil _

/-- A term that is said to be equivalent to no other one does not occur. -/
theorem mem_occurring_equivalenceEntries {first : Term} {rest : List Term} {x : Entity} :
    x ∈ occurring (first.equivalenceEntries rest) ↔ rest ≠ [] ∧ x ∈ (first :: rest).flatMap entities := by
  induction rest with
  | nil => simp [equivalenceEntries, occurring]
  | cons other rest ih =>
    simp only [equivalenceEntries, occurring_append, occurring_inclusionEntries, List.mem_append, ih, List.flatMap_cons]
    cases rest with
    | nil => simp [or_comm]
    | cons => simp; tauto

/-- An intersection has the names of its conjuncts. -/
theorem mem_entities_of_intersection? {ts : List Term} {t : Term} (h : intersection? ts = some t) {x : Entity} :
    x ∈ t.entities ↔ x ∈ ts.flatMap entities := by
  have hfold (first : Term) (rest : List Term) :
      (rest.foldl conjunction first).entities = (first :: rest).flatMap entities := by
    induction rest generalizing first with
    | nil => simp
    | cons next rest ih => simp [ih, entities]
  unfold intersection? at h
  split at h
  · split at h
    · cases h
    · rename_i first rest hsorted
      cases h
      rw [hfold, ← hsorted, List.mem_flatMap, List.mem_flatMap]
      simp only [mem_sortBy]
  · cases h

end Term

/-! ### From what is written to what is counted -/

namespace ClassExpression

variable {x : Entity}

mutual

/-- A term has the names of its expression. -/
theorem mem_entities_of_term? : (e : ClassExpression) → {t : Term} → e.term? = some t →
    (x ∈ t.entities ↔ x ∈ e.entities)
  | named _, _, h | thing, _, h | nothing, _, h | hasValue .., _, h | oneOf _, _, h | dataHasValue .., _, h
  | dataSomeValues .., _, h => by cases h; exact Iff.rfl
  | someValues _ filler, _, h => by
    simp only [term?, Option.bind_eq_bind, Option.bind_eq_some_iff, Option.pure_def, Option.some.injEq] at h
    obtain ⟨t, ht, rfl⟩ := h
    rw [Term.entities, entities, mem_entities_of_term? filler ht]
  | intersection operands, _, h => by
    simp only [term?, Option.bind_eq_bind, Option.bind_eq_some_iff] at h
    obtain ⟨ts, hts, h⟩ := h
    rw [Term.mem_entities_of_intersection? h, mem_entities_of_conjunctTerms? operands hts, entities]

theorem mem_entities_of_conjunctTerms? : (es : List ClassExpression) → {ts : List Term} → conjunctTerms? es = some ts →
    (x ∈ ts.flatMap Term.entities ↔ x ∈ entitiesAll es)
  | [], _, h => by cases h; exact Iff.rfl
  | e :: es, _, h => by
    rw [entitiesAll, List.mem_append]
    cases e with
    | intersection operands =>
      simp only [conjunctTerms?, Option.bind_eq_bind, Option.bind_eq_some_iff, Option.pure_def, Option.some.injEq] at h
      obtain ⟨inner, hinner, outer, houter, rfl⟩ := h
      rw [List.flatMap_append, List.mem_append, mem_entities_of_conjunctTerms? operands hinner,
        mem_entities_of_conjunctTerms? es houter, entities]
    | _ =>
      simp only [conjunctTerms?, Option.bind_eq_bind, Option.bind_eq_some_iff, Option.pure_def, Option.some.injEq] at h
      obtain ⟨t, ht, ts, hts, rfl⟩ := h
      rw [List.flatMap_cons, List.mem_append, mem_entities_of_term? _ ht, mem_entities_of_conjunctTerms? es hts]

end

theorem mem_entities_of_terms? {es : List ClassExpression} {ts : List Term} (h : terms? es = some ts) :
    x ∈ ts.flatMap Term.entities ↔ x ∈ entitiesAll es := by
  induction es generalizing ts with
  | nil => cases h; exact Iff.rfl
  | cons e es ih =>
    simp only [terms?, Option.bind_eq_bind, Option.bind_eq_some_iff, Option.pure_def, Option.some.injEq] at h
    obtain ⟨t, ht, ts, hts, rfl⟩ := h
    rw [List.flatMap_cons, List.mem_append, e.mem_entities_of_term? ht, ih hts, entitiesAll, List.mem_append]

theorem length_terms? {es : List ClassExpression} {ts : List Term} (h : terms? es = some ts) : ts.length = es.length := by
  induction es generalizing ts with
  | nil => cases h; rfl
  | cons e es ih =>
    simp only [terms?, Option.bind_eq_bind, Option.bind_eq_some_iff, Option.pure_def, Option.some.injEq] at h
    obtain ⟨t, -, ts, hts, rfl⟩ := h
    rw [List.length_cons, ih hts, List.length_cons]

end ClassExpression

namespace Axiom

theorem isLoneEquivalence_iff (members : List ClassExpression) :
    (equivalentClasses members).isLoneEquivalence = true ↔ members.length = 1 := by
  match members with
  | [] | [_] | _ :: _ :: _ => simp [isLoneEquivalence]

/-- An axiom counts the names that are written in it, unless it is an equivalence with a single member. -/
theorem mem_occurring_entries {a : Axiom} {said : List TermEntry} (h : a.entries? = some said) {x : Entity} :
    x ∈ occurring said ↔ a.isLoneEquivalence = false ∧ x ∈ a.entities := by
  cases hrole : a.isRoleAxiom with
  | true =>
    have hnone : x ∉ occurring said := by
      rw [occurring, List.mem_filterMap]
      rintro ⟨entry, hentry, e⟩
      rcases role_of_mem_entries hrole h entry hentry with ⟨n, m, rfl⟩ | ⟨l, r, s, rfl⟩ <;> cases e
    refine iff_of_false hnone fun hx => ?_
    cases a with
    | subRoleOf | equivalentRoles | transitiveRole => exact absurd hx.2 List.not_mem_nil
    | declaration | subClassOf | equivalentClasses | disjointClasses | classAssertion | roleAssertion => cases hrole
  | false =>
    cases a with
    | subRoleOf | equivalentRoles | transitiveRole => cases hrole
    | declaration entity => cases entity <;> cases h <;> simp [occurring, TermEntry.entity?, isLoneEquivalence, entities]
    | roleAssertion role subject object =>
      cases h
      rw [Term.occurring_inclusionEntries]
      simp [Term.entities, isLoneEquivalence, entities]
    | subClassOf sub sup =>
      simp only [entries?, Option.bind_eq_bind, Option.bind_eq_some_iff, Option.pure_def, Option.some.injEq] at h
      obtain ⟨t, ht, u, hu, rfl⟩ := h
      rw [Term.occurring_inclusionEntries, List.mem_append, sub.mem_entities_of_term? ht, sup.mem_entities_of_term? hu]
      simp [isLoneEquivalence, entities]
    | classAssertion type individual =>
      simp only [entries?, Option.bind_eq_bind, Option.bind_eq_some_iff, Option.pure_def, Option.some.injEq] at h
      obtain ⟨t, ht, rfl⟩ := h
      rw [Term.occurring_inclusionEntries, List.mem_append, type.mem_entities_of_term? ht]
      simp [Term.entities, isLoneEquivalence, entities]
    | disjointClasses members =>
      simp only [entries?, Option.bind_eq_bind, Option.bind_eq_some_iff, Option.pure_def, Option.some.injEq] at h
      obtain ⟨ts, hts, rfl⟩ := h
      rw [Term.occurring_disjointnessEntries, ClassExpression.mem_entities_of_terms? hts]
      simp [isLoneEquivalence, entities]
    | equivalentClasses members =>
      simp only [entries?, Option.bind_eq_bind, Option.bind_eq_some_iff] at h
      obtain ⟨ts, hts, h⟩ := h
      have hnames := ClassExpression.mem_entities_of_terms? (x := x) hts
      have hlone := isLoneEquivalence_iff members
      rw [← ClassExpression.length_terms? hts] at hlone
      rw [entities, ← hnames, ← Bool.not_eq_true, hlone]
      cases ts with
      | nil => cases h; simp [occurring]
      | cons first rest =>
        cases h
        rw [Term.mem_occurring_equivalenceEntries]
        simp

end Axiom

namespace Index

variable {ix : Index} {x : Entity}

/-- What occurs in an index are the names that are written in its asserted axioms, equivalences with a single member apart. -/
theorem Accounts.mem_occurring_said (h : ix.Accounts) : x ∈ occurring ix.said ↔
    ∃ a, ix.containsAxiom a = true ∧ a.isLoneEquivalence = false ∧ x ∈ a.entities := by
  rw [occurring, List.mem_filterMap]
  constructor
  · rintro ⟨entry, hentry, e⟩
    obtain ⟨a, ha, said, hsaid, hentry⟩ := h.mem_said_iff.1 hentry
    exact ⟨a, ha, (Axiom.mem_occurring_entries hsaid).1 (List.mem_filterMap.2 ⟨entry, hentry, e⟩)⟩
  · rintro ⟨a, ha, hx⟩
    obtain ⟨said, hsaid⟩ := h.exists_entries_of_contains ha
    obtain ⟨entry, hentry, e⟩ := List.mem_filterMap.1 ((Axiom.mem_occurring_entries hsaid).2 hx)
    exact ⟨entry, h.mem_said_iff.2 ⟨a, ha, said, hsaid, hentry⟩, e⟩

/-- After every history an index lists, each of them once, the top and the bottom class and the classes that are written
in the asserted axioms, and the individuals that are written there, where equivalences with a single member do not count. -/
theorem names_listed (calls : List Call) :
    (∀ id ∈ (after calls).classes, (after calls).shape? id = some (.named ((after calls).iriOf id))) ∧
      ((after calls).classes.map (after calls).iriOf).Nodup ∧
      (∀ name, name ∈ (after calls).classes.map (after calls).iriOf ↔ name = owlThing ∨ name = owlNothing ∨
        ∃ a, (after calls).containsAxiom a = true ∧ a.isLoneEquivalence = false ∧ .namedClass name ∈ a.entities) ∧
      (∀ id ∈ (after calls).individuals, (after calls).shape? id = some (.nominal ((after calls).iriOf id))) ∧
      ((after calls).individuals.map (after calls).iriOf).Nodup ∧
      ∀ name, name ∈ (after calls).individuals.map (after calls).iriOf ↔
        ∃ a, (after calls).containsAxiom a = true ∧ a.isLoneEquivalence = false ∧ .individual name ∈ a.entities := by
  have h := accounts_after calls
  refine ⟨fun id hid => ?_, h.tidy.nodup_classes, fun name => ?_, fun id hid => ?_, h.tidy.nodup_individuals, fun name => ?_⟩
  · obtain ⟨name, hshape, rfl⟩ := exists_shape_of_mem_classes hid
    exact hshape
  · rw [← h.mem_occurring_said, mem_occurring_class_iff, ← Lists, ← h.exists_class_iff, List.mem_map]
    constructor
    · rintro ⟨id, hid, e⟩
      exact ⟨⟨id, hid⟩, e⟩
    · rintro ⟨a, e⟩
      exact ⟨a, a.2, e⟩
  · obtain ⟨name, hshape, rfl⟩ := exists_shape_of_mem_individuals hid
    exact hshape
  · rw [← h.mem_occurring_said, mem_occurring_individual_iff, ← h.exists_individual_iff, List.mem_map]

/-- The names of an equivalence with a single member are not listed, while a disjointness with a single member has its
name listed. -/
example : ((after [.assert (.equivalentClasses [.named "A"])]).classes.map
      (after [.assert (.equivalentClasses [.named "A"])]).iriOf = [owlThing, owlNothing]) ∧
    (after [.assert (.disjointClasses [.named "A"])]).classes.map
      (after [.assert (.disjointClasses [.named "A"])]).iriOf = [owlThing, owlNothing, "A"] := by
  decide +kernel

end Index

end ELOntology
