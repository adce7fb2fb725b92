import ELOntology.Proofs.Index.History
import ELOntology.Proofs.Semantics.Interpretation

/-!
# Models of an index

An interpretation is a model of an index if it satisfies the asserted axioms about classes and individuals and what the
index is told of roles.  That is a matter of the asserted axioms alone (`Index.Accounts.models_iff`): numbers and the
history of the index have no part in it.
-/

namespace ELOntology

/-! ### What entries come with -/

/-- What occurs on the left occurs there with its parts, and what is included or disjoint occurs on the left. -/
inductive Requires : TermEntry → TermEntry → Prop
  | first {t u : Term} : Requires (.occurrence .negative (.conjunction t u)) (.occurrence .negative t)
  | second {t u : Term} : Requires (.occurrence .negative (.conjunction t u)) (.occurrence .negative u)
  | filler {role : String} {t : Term} : Requires (.occurrence .negative (.existential role t)) (.occurrence .negative t)
  | inclusion {t u : Term} : Requires (.inclusion t u) (.occurrence .negative t)
  | member {ts : List Term} {t : Term} (h : t ∈ ts) : Requires (.disjointness ts) (.occurrence .negative t)

/-- Whatever the entries require is among them. -/
def Complete (said : List TermEntry) : Prop := ∀ entry ∈ said, ∀ required, Requires entry required → required ∈ said

namespace Complete

variable {said said' : List TermEntry}

theorem append (h : Complete said) (h' : Complete said') : Complete (said ++ said') := by
  intro entry hentry required hr
  rcases List.mem_append.1 hentry with hentry | hentry
  · exact List.mem_append_left _ (h entry hentry required hr)
  · exact List.mem_append_right _ (h' entry hentry required hr)

theorem flatMap {α : Type} {f : α → List TermEntry} {xs : List α} (hf : ∀ x ∈ xs, Complete (f x)) :
    Complete (xs.flatMap f) := by
  intro entry hentry required hr
  obtain ⟨x, hx, hentry⟩ := List.mem_flatMap.1 hentry
  exact List.mem_flatMap.2 ⟨x, hx, hf x hx entry hentry required hr⟩

/-- One more entry is complete if what it requires is there. -/
theorem append_single {entry : TermEntry} (h : Complete said) (hentry : ∀ required, Requires entry required → required ∈ said) :
    Complete (said ++ [entry]) := by
  intro other hother required hr
  refine List.mem_append_left _ ?_
  rcases List.mem_append.1 hother with hother | hother
  · exact h other hother required hr
  · obtain rfl := List.mem_singleton.1 hother
    exact hentry required hr

end Complete

namespace Term

theorem occurrence_mem_occurrences (polarity : Polarity) (t : Term) : .occurrence polarity t ∈ t.occurrences polarity := by
  cases t <;> simp [occurrences]

theorem complete_occurrences (polarity : Polarity) (t : Term) : Complete (t.occurrences polarity) := by
  induction t with
  | conjunction first second ih₁ ih₂ =>
    intro entry hentry required hr
    rw [occurrences] at hentry ⊢
    rcases List.mem_cons.1 hentry with rfl | hentry
    · cases hr with
      | first => exact List.mem_cons_of_mem _ (List.mem_append_left _ (occurrence_mem_occurrences ..))
      | second => exact List.mem_cons_of_mem _ (List.mem_append_right _ (occurrence_mem_occurrences ..))
    · exact List.mem_cons_of_mem _ ((ih₁.append ih₂) entry hentry required hr)
  | existential role filler ih =>
    intro entry hentry required hr
    rw [occurrences] at hentry ⊢
    rcases List.mem_cons.1 hentry with rfl | hentry
    · cases hr
      exact List.mem_cons_of_mem _ (occurrence_mem_occurrences ..)
    · exact List.mem_cons_of_mem _ (ih entry hentry required hr)
  | named | data | nominal =>
    intro entry hentry required hr
    obtain rfl := List.mem_singleton.1 hentry
    cases hr

theorem complete_inclusionEntries (sub sup : Term) : Complete (sub.inclusionEntries sup) := by
  refine ((complete_occurrences .negative sub).append (complete_occurrences .positive sup)).append_single fun required hr => ?_
  cases hr
  exact List.mem_append_left _ (occurrence_mem_occurrences ..)

theorem complete_equivalenceEntries (first : Term) (rest : List Term) : Complete (first.equivalenceEntries rest) := by
  induction rest with
  | nil => exact fun _ h => absurd h List.not_mem_nil
  | cons t rest ih =>
    exact ((complete_inclusionEntries first t).append (complete_inclusionEntries t first)).append ih

theorem complete_disjointnessEntries (ts : List Term) : Complete (disjointnessEntries ts) := by
  refine (Complete.flatMap fun t _ => complete_occurrences .negative t).append_single fun required hr => ?_
  cases hr with
  | member h => exact List.mem_flatMap.2 ⟨_, h, occurrence_mem_occurrences ..⟩

end Term

namespace RoleExpression

theorem isRole_suffixEntries (names : List String) : ∀ entry ∈ suffixEntries names, ∃ l r s, entry = .composition l r s := by
  induction names with
  | nil => exact fun _ h => absurd h List.not_mem_nil
  | cons name rest ih =>
    cases rest with
    | nil => exact fun _ h => absurd h List.not_mem_nil
    | cons next rest =>
      intro entry hentry
      rw [suffixEntries] at hentry
      · rcases List.mem_append.1 hentry with hentry | hentry
        · exact ih entry hentry
        · exact ⟨_, _, _, List.mem_singleton.1 hentry⟩
      · simp

end RoleExpression

/-- An axiom about roles says nothing else. -/
theorem Axiom.role_of_mem_entries {a : Axiom} {said : List TermEntry} (hrole : a.isRoleAxiom = true)
    (h : a.entries? = some said) : ∀ entry ∈ said, (∃ n m, entry = .roleInclusion n m) ∨ ∃ l r s, entry = .composition l r s := by
  cases a with
  | subRoleOf sub sup =>
    cases sub with
    | role sub =>
      cases h
      exact List.forall_mem_singleton.2 (.inl ⟨_, _, rfl⟩)
    | chain roles =>
      cases roles with
      | nil => cases h
      | cons first rest =>
        cases rest with
        | nil =>
          cases h
          exact List.forall_mem_singleton.2 (.inl ⟨_, _, rfl⟩)
        | cons next rest =>
          cases h
          intro entry hentry
          rcases List.mem_append.1 hentry with hentry | hentry
          · exact .inr (RoleExpression.isRole_suffixEntries _ entry hentry)
          · exact .inr ⟨_, _, _, List.mem_singleton.1 hentry⟩
  | equivalentRoles roles =>
    cases roles with
    | nil => cases h; exact fun _ h => absurd h List.not_mem_nil
    | cons first rest =>
      cases h
      induction rest with
      | nil => exact fun _ h => absurd h List.not_mem_nil
      | cons other rest ih =>
        intro entry hentry
        simp only [RoleExpression.equivalenceEntries, List.mem_cons] at hentry
        rcases hentry with rfl | rfl | hentry
        · exact .inl ⟨_, _, rfl⟩
        · exact .inl ⟨_, _, rfl⟩
        · exact ih hrole entry hentry
  | transitiveRole role =>
    cases h
    exact List.forall_mem_singleton.2 (.inr ⟨_, _, _, rfl⟩)
  | declaration | subClassOf | equivalentClasses | disjointClasses | classAssertion | roleAssertion => cases hrole

/-- The forms of what axioms about classes and individuals say. -/
inductive Axiom.Form : List TermEntry → Prop
  | nothing : Form []
  | occurrence (t : Term) : Form (t.occurrences .positive)
  | inclusion (sub sup : Term) : Form (sub.inclusionEntries sup)
  | equivalence (first : Term) (rest : List Term) : Form (first.equivalenceEntries rest)
  | disjointness (ts : List Term) : Form (Term.disjointnessEntries ts)

theorem Axiom.form_entries {a : Axiom} {said : List TermEntry} (hrole : a.isRoleAxiom = false)
    (h : a.entries? = some said) : Form said := by
  cases a with
  | declaration entity =>
    cases entity with
    | namedClass iri => cases h; exact .occurrence (.named iri)
    | individual iri => cases h; exact .occurrence (.nominal iri)
    | objectProperty iri => cases h; exact .nothing
  | subClassOf sub sup =>
    simp only [entries?, Option.bind_eq_bind, Option.bind_eq_some_iff, Option.pure_def, Option.some.injEq] at h
    obtain ⟨t, -, u, -, rfl⟩ := h
    exact .inclusion t u
  | equivalentClasses members =>
    simp only [entries?, Option.bind_eq_bind, Option.bind_eq_some_iff] at h
    obtain ⟨ts, -, h⟩ := h
    cases ts with
    | nil => cases h; exact .nothing
    | cons first rest => cases h; exact .equivalence first rest
  | disjointClasses members =>
    simp only [entries?, Option.bind_eq_bind, Option.bind_eq_some_iff, Option.pure_def, Option.some.injEq] at h
    obtain ⟨ts, -, rfl⟩ := h
    exact .disjointness ts
  | classAssertion type individual =>
    simp only [entries?, Option.bind_eq_bind, Option.bind_eq_some_iff, Option.pure_def, Option.some.injEq] at h
    obtain ⟨t, -, rfl⟩ := h
    exact .inclusion _ t
  | roleAssertion role subject object => cases h; exact .inclusion _ _
  | subRoleOf | equivalentRoles | transitiveRole => cases hrole

/-- What an axiom says is complete. -/
theorem Axiom.complete_entries {a : Axiom} {said : List TermEntry} (h : a.entries? = some said) : Complete said := by
  cases hrole : a.isRoleAxiom with
  | true =>
    intro entry hentry required hr
    rcases role_of_mem_entries hrole h entry hentry with ⟨n, m, rfl⟩ | ⟨l, r, s, rfl⟩ <;> cases hr
  | false =>
    cases form_entries hrole h with
    | nothing => exact fun _ h => absurd h List.not_mem_nil
    | occurrence t => exact Term.complete_occurrences .positive t
    | inclusion sub sup => exact Term.complete_inclusionEntries sub sup
    | equivalence first rest => exact Term.complete_equivalenceEntries first rest
    | disjointness ts => exact Term.complete_disjointnessEntries ts

/-! ### What is said by all axioms -/

namespace Index

variable {ix : Index}

/-- All that the asserted axioms say. -/
def said (ix : Index) : List TermEntry := ix.axioms.flatMap fun asserted => asserted.1.entries?.getD []

theorem complete_said (ix : Index) : Complete ix.said := Complete.flatMap fun asserted _ => by
  cases h : asserted.1.entries? with
  | none => exact fun _ h => absurd h List.not_mem_nil
  | some said => exact Axiom.complete_entries h

/-- The index counts what is said, in its own numbers. -/
theorem Accounts.exists_entries (h : ix.Accounts) : ∃ entries, ix.Ledger entries ∧ ix.ReadsAll entries ix.said := by
  obtain ⟨readings, hrecords, hledger⟩ := h.readings
  refine ⟨readings.flatten, hledger, ?_⟩
  rw [said]
  clear hledger
  generalize ix.axioms = axioms at hrecords
  induction hrecords with
  | nil => exact .nil
  | @cons asserted moved axioms readings hfirst _ ih =>
    obtain ⟨-, said, hsaid, hreads⟩ := hfirst
    rw [List.flatten_cons, List.flatMap_cons, hsaid]
    exact List.rel_append hreads ih

end Index

/-! ### Models -/

/-- The interpretation satisfies the asserted axioms about classes and individuals, and what the index is told of
roles. -/
structure Interpretation.Models (I : Interpretation) (ix : Index) : Prop where
  asserted {a : Axiom} : a ∈ ix.axioms.map Prod.fst → a.isRoleAxiom = false → a.Satisfied I
  inclusions {sub sup : RoleId} : (sub, sup) ∈ ix.toldInclusions → I.RoleIncluded (ix.roleName sub) (ix.roleName sup)
  compositions {left right sup : RoleId} : (left, right, sup) ∈ ix.toldCompositions →
    I.Composes (ix.roleName left) (ix.roleName right) (ix.roleName sup)

namespace Index

variable {ix : Index} {entries : List IndexEntry}

theorem Ledger.mem_toldInclusions_iff (h : ix.Ledger entries) {sub sup : RoleId} :
    (sub, sup) ∈ ix.toldInclusions ↔ .roleInclusion sub sup ∈ entries := by
  rw [← List.count_pos_iff, h.roles.inclusions, List.count_pos_iff]

theorem Ledger.mem_toldCompositions_iff (h : ix.Ledger entries) {left right sup : RoleId} :
    (left, right, sup) ∈ ix.toldCompositions ↔ .composition left right sup ∈ entries := by
  rw [← List.count_pos_iff, h.roles.compositions, List.count_pos_iff]

/-- To be a model of an index is to satisfy what its axioms say. -/
theorem Accounts.models_iff (h : ix.Accounts) {I : Interpretation} : I.Models ix ↔ SatisfiedAll I ix.said := by
  obtain ⟨entries, hledger, hreads⟩ := h.exists_entries
  constructor
  · intro hI entry hentry
    obtain ⟨reading, hreading, hread⟩ := exists_left_of_mem hreads hentry
    obtain ⟨asserted, hasserted, hsaid⟩ := List.mem_flatMap.1 hentry
    have hmem : asserted.1 ∈ ix.axioms.map Prod.fst := List.mem_map_of_mem hasserted
    cases hentries : asserted.1.entries? with
    | none => rw [hentries] at hsaid; cases hsaid
    | some said =>
      rw [hentries] at hsaid
      cases hrole : asserted.1.isRoleAxiom with
      | false => exact (Axiom.satisfied_iff_entries hrole hentries).1 (hI.asserted hmem hrole) entry hsaid
      | true =>
        rcases Axiom.role_of_mem_entries hrole hentries entry hsaid with ⟨n, m, rfl⟩ | ⟨l, r, s, rfl⟩
        · cases hread with
          | roleInclusion hsub hsup =>
            have htold := hI.inclusions (hledger.mem_toldInclusions_iff.2 hreading)
            rwa [roleName_of_role? hsub, roleName_of_role? hsup] at htold
        · cases hread with
          | composition hleft hright hsup =>
            have htold := hI.compositions (hledger.mem_toldCompositions_iff.2 hreading)
            rwa [roleName_of_role? hleft, roleName_of_role? hright, roleName_of_role? hsup] at htold
  · intro hI
    refine ⟨fun {a} ha hrole => ?_, fun {sub sup} htold => ?_, fun {left right sup} htold => ?_⟩
    · obtain ⟨⟨a, n⟩, hasserted, rfl⟩ := List.mem_map.1 ha
      obtain ⟨-, said, hsaid⟩ := h.exists_reading hasserted
      refine (Axiom.satisfied_iff_entries hrole hsaid).2 fun entry hentry => hI entry ?_
      exact List.mem_flatMap.2 ⟨(a, n), hasserted, by rw [hsaid]; exact hentry⟩
    · obtain ⟨said, hsaid, hread⟩ := exists_right_of_mem hreads (hledger.mem_toldInclusions_iff.1 htold)
      cases hread with
      | roleInclusion hsub hsup =>
        rw [roleName_of_role? hsub, roleName_of_role? hsup]
        exact hI _ hsaid
    · obtain ⟨said, hsaid, hread⟩ := exists_right_of_mem hreads (hledger.mem_toldCompositions_iff.1 htold)
      cases hread with
      | composition hleft hright hsup =>
        rw [roleName_of_role? hleft, roleName_of_role? hright, roleName_of_role? hsup]
        exact hI _ hsaid

end Index

end ELOntology
