import ELOntology.Proofs.Index.Enter

/-!
# What axioms mean

An interpretation says to which things of a domain each class applies and which of them each role relates.  Individuals
and data restrictions are read as classes.  A class expression means the same as its term (`ClassExpression.holds_term?`),
and an axiom about classes or individuals is satisfied just where its entries are
(`Axiom.satisfied_iff_entries`).
-/

namespace ELOntology

structure Interpretation where
  Domain : Type
  nonempty : Nonempty Domain
  named : String → Domain → Prop
  nominal : String → Domain → Prop
  data : String → ValueSpace → Domain → Prop
  role : String → Domain → Domain → Prop
  thing (x : Domain) : named owlThing x
  nothing (x : Domain) : ¬ named owlNothing x

namespace ClassExpression

mutual

/-- The thing is an instance of the class expression. -/
def Holds (I : Interpretation) : ClassExpression → I.Domain → Prop
  | named iri, x => I.named iri x
  | thing, _ => True
  | nothing, _ => False
  | intersection operands, x => HoldsAll I operands x
  | someValues role filler, x => ∃ y, I.role role x y ∧ Holds I filler y
  | hasValue role individual, x => ∃ y, I.role role x y ∧ I.nominal individual y
  | oneOf individual, x => I.nominal individual x
  | dataHasValue property literal, x => I.data property (.value literal.datatype literal.lexical) x
  | dataSomeValues property range, x => I.data property range.valueSpace x

/-- The thing is an instance of all the class expressions. -/
def HoldsAll (I : Interpretation) : List ClassExpression → I.Domain → Prop
  | [], _ => True
  | e :: es, x => Holds I e x ∧ HoldsAll I es x

end

end ClassExpression

/-- The thing is an instance of the term. -/
def Term.Holds (I : Interpretation) : Term → I.Domain → Prop
  | named iri, x => I.named iri x
  | conjunction first second, x => Holds I first x ∧ Holds I second x
  | existential role filler, x => ∃ y, I.role role x y ∧ Holds I filler y
  | data property space, x => I.data property space x
  | nominal individual, x => I.nominal individual x

namespace Interpretation

/-- A path of roles leads from one thing to another. -/
def Leads (I : Interpretation) : List String → I.Domain → I.Domain → Prop
  | [], x, y => x = y
  | role :: roles, x, y => ∃ z, I.role role x z ∧ Leads I roles z y

/-- One role is included in another. -/
def RoleIncluded (I : Interpretation) (sub sup : String) : Prop := ∀ x y, I.role sub x y → I.role sup x y

/-- The composition of two roles is included in a role. -/
def Composes (I : Interpretation) (left right sup : String) : Prop :=
  ∀ x y z, I.role left x y → I.role right y z → I.role sup x z

end Interpretation

open ClassExpression in
/-- The interpretation satisfies the axiom. -/
def Axiom.Satisfied (I : Interpretation) : Axiom → Prop
  | .declaration _ => True
  | .subClassOf sub sup => ∀ x, sub.Holds I x → sup.Holds I x
  | .equivalentClasses members => ∀ a ∈ members, ∀ b ∈ members, ∀ x, a.Holds I x → b.Holds I x
  | .disjointClasses members => members.Pairwise fun a b => ∀ x, ¬ (a.Holds I x ∧ b.Holds I x)
  | .classAssertion type individual => ∀ x, I.nominal individual x → type.Holds I x
  | .roleAssertion role subject object => ∀ x, I.nominal subject x → ∃ y, I.role role x y ∧ I.nominal object y
  | .subRoleOf (.role sub) sup => I.RoleIncluded sub sup
  | .subRoleOf (.chain roles) sup => ∀ x y, I.Leads roles x y → I.role sup x y
  | .equivalentRoles roles => ∀ a ∈ roles, ∀ b ∈ roles, I.RoleIncluded a b
  | .transitiveRole role => I.Composes role role role

/-- The interpretation satisfies what an axiom says. -/
def TermEntry.Satisfied (I : Interpretation) : TermEntry → Prop
  | .occurrence .. => True
  | .inclusion sub sup => ∀ x, sub.Holds I x → sup.Holds I x
  | .disjointness members => members.Pairwise fun t u => ∀ x, ¬ (t.Holds I x ∧ u.Holds I x)
  | .roleInclusion sub sup => I.RoleIncluded sub sup
  | .composition left right sup => I.Composes left right sup

variable {I : Interpretation}

/-! ### Terms of class expressions -/

namespace Term

@[simp] theorem holds_thing (x : I.Domain) : Term.thing.Holds I x := I.thing x

@[simp] theorem not_holds_nothing (x : I.Domain) : ¬ Term.nothing.Holds I x := I.nothing x

theorem holds_foldl_conjunction {first : Term} {rest : List Term} {x : I.Domain} :
    (rest.foldl .conjunction first).Holds I x ↔ first.Holds I x ∧ ∀ t ∈ rest, t.Holds I x := by
  induction rest generalizing first with
  | nil => simp
  | cons t rest ih =>
    rw [List.foldl_cons, ih, Holds, List.forall_mem_cons]
    exact and_assoc

/-- An intersection holds where all its conjuncts hold, in whatever order they are paired. -/
theorem holds_intersection? {ts : List Term} {t : Term} (h : intersection? ts = some t) {x : I.Domain} :
    t.Holds I x ↔ ∀ u ∈ ts, u.Holds I x := by
  unfold intersection? at h
  split at h
  · have hmem (u : Term) : u ∈ sortBy (fun t u => decide (t.hash ≤ u.hash)) ts ↔ u ∈ ts := mem_sortBy
    simp only [← hmem]
    split at h <;> rename_i hsorted
    · cases h
    · cases h
      rw [hsorted, holds_foldl_conjunction, List.forall_mem_cons]
  · cases h

end Term

namespace ClassExpression

mutual

/-- A class expression and its term hold of the same things. -/
theorem holds_term? : (e : ClassExpression) → {t : Term} → e.term? = some t → (x : I.Domain) →
    (t.Holds I x ↔ e.Holds I x)
  | named iri, _, h, x => by cases h; rfl
  | thing, _, h, x => by cases h; simp [Holds]
  | nothing, _, h, x => by cases h; simp [Holds]
  | intersection operands, t, h, x => by
    rw [term?, Option.bind_eq_bind, Option.bind_eq_some_iff] at h
    obtain ⟨ts, hts, ht⟩ := h
    rw [Term.holds_intersection? ht, Holds]
    exact holds_conjunctTerms? operands hts x
  | someValues role filler, t, h, x => by
    rw [term?, Option.bind_eq_bind, Option.bind_eq_some_iff] at h
    obtain ⟨u, hu, ht⟩ := h
    cases ht
    simp only [Term.Holds, Holds, holds_term? filler hu]
  | hasValue role individual, _, h, x => by cases h; rfl
  | oneOf individual, _, h, x => by cases h; rfl
  | dataHasValue property literal, _, h, x => by cases h; rfl
  | dataSomeValues property range, _, h, x => by cases h; rfl

theorem holds_conjunctTerms? : (es : List ClassExpression) → {ts : List Term} → conjunctTerms? es = some ts →
    (x : I.Domain) → ((∀ t ∈ ts, t.Holds I x) ↔ HoldsAll I es x)
  | [], _, h, x => by cases h; simp [HoldsAll]
  | e :: es, ts, h, x => by
    have operand (h : (do
          let t ← e.term?
          let ts ← conjunctTerms? es
          return t :: ts) = some ts) : (∀ t ∈ ts, t.Holds I x) ↔ HoldsAll I (e :: es) x := by
      simp only [Option.bind_eq_bind, Option.bind_eq_some_iff, Option.pure_def, Option.some.injEq] at h
      obtain ⟨t, ht, us, hus, rfl⟩ := h
      rw [List.forall_mem_cons, HoldsAll, holds_term? e ht, holds_conjunctTerms? es hus]
    cases e with
    | intersection operands =>
      simp only [conjunctTerms?, Option.bind_eq_bind, Option.bind_eq_some_iff, Option.pure_def, Option.some.injEq] at h
      obtain ⟨inner, hinner, outer, houter, rfl⟩ := h
      rw [List.forall_mem_append, HoldsAll, Holds, holds_conjunctTerms? operands hinner, holds_conjunctTerms? es houter]
    | _ => exact operand (by rw [← h, conjunctTerms?]; simp)

end

theorem forall₂_terms? {es : List ClassExpression} {ts : List Term} (h : terms? es = some ts) :
    List.Forall₂ (fun t e => ∀ x : I.Domain, t.Holds I x ↔ e.Holds I x) ts es := by
  induction es generalizing ts with
  | nil =>
    cases h
    exact .nil
  | cons e es ih =>
    simp only [terms?, Option.bind_eq_bind, Option.bind_eq_some_iff, Option.pure_def, Option.some.injEq] at h
    obtain ⟨t, ht, us, hus, rfl⟩ := h
    exact .cons (holds_term? e ht) (ih hus)

end ClassExpression

/-! ### Entries of axioms -/

/-- The interpretation satisfies all the entries. -/
def SatisfiedAll (I : Interpretation) (said : List TermEntry) : Prop := ∀ entry ∈ said, TermEntry.Satisfied I entry

@[simp] theorem satisfiedAll_nil : SatisfiedAll I [] := fun _ h => absurd h List.not_mem_nil

@[simp] theorem satisfiedAll_cons {entry : TermEntry} {said : List TermEntry} :
    SatisfiedAll I (entry :: said) ↔ entry.Satisfied I ∧ SatisfiedAll I said := List.forall_mem_cons

@[simp] theorem satisfiedAll_append {said said' : List TermEntry} :
    SatisfiedAll I (said ++ said') ↔ SatisfiedAll I said ∧ SatisfiedAll I said' := List.forall_mem_append

namespace Term

/-- Occurrences say nothing that could be false. -/
@[simp] theorem satisfiedAll_occurrences (polarity : Polarity) (t : Term) : SatisfiedAll I (t.occurrences polarity) := by
  induction t with
  | conjunction first second ih₁ ih₂ =>
    rw [occurrences, satisfiedAll_cons, satisfiedAll_append]
    exact ⟨trivial, ih₁, ih₂⟩
  | existential role filler ih =>
    rw [occurrences, satisfiedAll_cons]
    exact ⟨trivial, ih⟩
  | _ => exact satisfiedAll_cons.2 ⟨trivial, satisfiedAll_nil⟩

theorem satisfiedAll_inclusionEntries {sub sup : Term} :
    SatisfiedAll I (sub.inclusionEntries sup) ↔ ∀ x, sub.Holds I x → sup.Holds I x := by
  simp [inclusionEntries, TermEntry.Satisfied]

theorem satisfiedAll_equivalenceEntries {first : Term} {rest : List Term} :
    SatisfiedAll I (first.equivalenceEntries rest) ↔ ∀ t ∈ rest, ∀ x, first.Holds I x ↔ t.Holds I x := by
  induction rest with
  | nil => simp [equivalenceEntries]
  | cons t rest ih =>
    simp only [equivalenceEntries, satisfiedAll_append, satisfiedAll_inclusionEntries, ih, List.forall_mem_cons]
    refine and_congr_left' ?_
    exact ⟨fun h x => ⟨h.1 x, h.2 x⟩, fun h => ⟨fun x => (h x).1, fun x => (h x).2⟩⟩

theorem satisfiedAll_disjointnessEntries {ts : List Term} : SatisfiedAll I (disjointnessEntries ts) ↔
    ts.Pairwise fun t u => ∀ x, ¬ (t.Holds I x ∧ u.Holds I x) := by
  have hflat : SatisfiedAll I (ts.flatMap (occurrences .negative)) := by
    intro entry hentry
    obtain ⟨t, -, ht⟩ := List.mem_flatMap.1 hentry
    exact satisfiedAll_occurrences .negative t entry ht
  simp [disjointnessEntries, hflat, TermEntry.Satisfied]

end Term

/-- An axiom about classes or individuals is satisfied just where its entries are. -/
theorem Axiom.satisfied_iff_entries {a : Axiom} {said : List TermEntry} (hrole : a.isRoleAxiom = false)
    (h : a.entries? = some said) : a.Satisfied I ↔ SatisfiedAll I said := by
  cases a with
  | declaration entity =>
    cases entity <;> cases h <;> simp [Satisfied, TermEntry.Satisfied]
  | subClassOf sub sup =>
    simp only [entries?, Option.bind_eq_bind, Option.bind_eq_some_iff, Option.pure_def, Option.some.injEq] at h
    obtain ⟨t, ht, u, hu, rfl⟩ := h
    simp only [Satisfied, Term.satisfiedAll_inclusionEntries, ClassExpression.holds_term? sub ht,
      ClassExpression.holds_term? sup hu]
  | equivalentClasses members =>
    simp only [entries?, Option.bind_eq_bind, Option.bind_eq_some_iff] at h
    obtain ⟨ts, hts, h⟩ := h
    have hmatch := ClassExpression.forall₂_terms? (I := I) hts
    cases hmatch with
    | nil =>
      cases h
      simp [Satisfied]
    | @cons first e rest es hfirst hrest =>
      cases h
      rw [Term.satisfiedAll_equivalenceEntries, Satisfied]
      constructor
      · intro hall t ht x
        obtain ⟨e', he', hholds⟩ := exists_right_of_mem hrest ht
        rw [hfirst x, hholds x]
        exact ⟨hall e (List.mem_cons_self ..) e' (List.mem_cons_of_mem _ he') x,
          hall e' (List.mem_cons_of_mem _ he') e (List.mem_cons_self ..) x⟩
      · intro hall
        -- every member is compared with the first one only, which is enough by transitivity
        have hsame (b : ClassExpression) (hb : b ∈ e :: es) (x : I.Domain) : b.Holds I x ↔ first.Holds I x := by
          rcases List.mem_cons.1 hb with rfl | hb
          · exact (hfirst x).symm
          · obtain ⟨t, ht, hholds⟩ := exists_left_of_mem hrest hb
            exact (hholds x).symm.trans (hall t ht x).symm
        exact fun b hb b' hb' x hx => (hsame b' hb' x).2 ((hsame b hb x).1 hx)
  | disjointClasses members =>
    simp only [entries?, Option.bind_eq_bind, Option.bind_eq_some_iff, Option.pure_def, Option.some.injEq] at h
    obtain ⟨ts, hts, rfl⟩ := h
    rw [Term.satisfiedAll_disjointnessEntries, Satisfied]
    have hmatch := ClassExpression.forall₂_terms? (I := I) hts
    -- the induction is on the matching of members with terms
    clear hts hrole
    induction hmatch with
    | nil => simp
    | @cons t e rest es hfirst hrest ih =>
      rw [List.pairwise_cons, List.pairwise_cons]
      refine and_congr ⟨fun hall u hu x hx => ?_, fun hall b hb x hx => ?_⟩ ih
      · obtain ⟨b, hb, hholds⟩ := exists_right_of_mem hrest hu
        exact hall b hb x ⟨(hfirst x).1 hx.1, (hholds x).1 hx.2⟩
      · obtain ⟨u, hu, hholds⟩ := exists_left_of_mem hrest hb
        exact hall u hu x ⟨(hfirst x).2 hx.1, (hholds x).2 hx.2⟩
  | classAssertion type individual =>
    simp only [entries?, Option.bind_eq_bind, Option.bind_eq_some_iff, Option.pure_def, Option.some.injEq] at h
    obtain ⟨t, ht, rfl⟩ := h
    simp only [Satisfied, Term.satisfiedAll_inclusionEntries, ClassExpression.holds_term? type ht, Term.Holds]
  | roleAssertion role subject object =>
    cases h
    simp only [Satisfied, Term.satisfiedAll_inclusionEntries, Term.Holds]
  | subRoleOf | equivalentRoles | transitiveRole => cases hrole

end ELOntology
