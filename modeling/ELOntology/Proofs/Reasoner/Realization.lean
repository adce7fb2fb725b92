import ELOntology.Proofs.Reasoner.History
import ELOntology.Proofs.Taxonomy.Instances

/-!
# The realization is exact

The types of an individual are read off its own context, while their order is that of the class taxonomy.  The two agree
because both are what holds in all models: with a class, an individual belongs to all classes above it.

Key facts: `Sound.upward_typePlaces` (what is above a type of an individual is a type of it) and `realization_exact`.
-/

namespace ELOntology

namespace Reasoner

/-- The node holds a class that the context of the individual has as a subsumer. -/
def TypeNode (r : Reasoner) (t : Taxonomy) (individual : ExprId) (p : Nat) : Prop :=
  ∃ cls, r.index.isClass cls = true ∧ r.workspace.hasSubsumer individual cls = true ∧ r.index.iriOf cls ∈ (t.node p).members

variable {r : Reasoner} {t : Taxonomy} {id : ExprId}

namespace Sound

theorem mem_typePlaces_iff_typeNode (h : r.Sound) (hdone : r.stages.isDone .classTaxonomy = true)
    (hconsistent : r.inconsistent = false) (ht : r.taxonomy = some t) (hid : id ∈ r.index.individuals) {p : Nat} :
    p ∈ Realization.typePlaces r.index r.workspace t id ↔ r.TypeNode t id p := by
  have hhas := ((h.settled (h.closed.of_depth_lt hdone (by decide))).rooted (List.mem_append_right _ hid)).has
  have hdraws := (h.draws hdone hconsistent ht).1
  rw [Realization.mem_typePlaces_iff hhas]
  refine exists_congr fun cls => and_congr_right fun _ => and_congr_right fun _ => ?_
  constructor
  · exact fun hp => (hdraws.mem_members (hdraws.named hp).1).2 hp
  · exact fun hmem => (hdraws.mem_members (Taxonomy.lt_size_of_mem_members hmem)).1 hmem

/-- What is above a node that types an individual types it as well. -/
theorem upward_typePlaces (h : r.Sound) (hdone : r.stages.isDone .classTaxonomy = true) (hconsistent : r.inconsistent = false)
    (ht : r.taxonomy = some t) (hid : id ∈ r.index.individuals) :
    t.Upward (Realization.typePlaces r.index r.workspace t id) := by
  have hdraws := (h.draws hdone hconsistent ht).1
  obtain ⟨name, hname, -⟩ := Index.exists_shape_of_mem_individuals hid
  have htypes {p : Nat} := h.mem_typePlaces_iff hdone hconsistent ht hid hname (p := p)
  intro p hp
  obtain ⟨s, hs, hentails⟩ := htypes.1 hp
  obtain ⟨hlt, a, rfl⟩ := hdraws.named hs
  refine ⟨hlt, fun q hq => ?_⟩
  obtain ⟨b, hb⟩ := hdraws.exists_thing (hdraws.linked.ancestors_lt hlt hq)
  have hab := ((hdraws.mem_ancestors_iff hs hb).1 hq).1
  rw [h.below_iff_entails (h.closed.of_depth_lt hdone (by decide))] at hab
  exact htypes.2 ⟨_, hb, fun I hI x hx => hab I hI x (hentails I hI x hx)⟩

end Sound

section Collapsed

variable {ix : Index}

/-- Nothing is above the single node of an inconsistent ontology. -/
private theorem upward_collapsed (hix : ix.Tidy) : (Taxonomy.collapsed ix).Upward [0] := by
  refine List.forall_mem_singleton.2 ⟨Nat.one_pos, fun q hq => ?_⟩
  have hlt := (Taxonomy.draws_collapsed hix).linked.ancestors_lt Nat.one_pos hq
  exact List.mem_singleton.2 (Nat.lt_one_iff.1 hlt)

private theorem mem_directTypes_collapsed_iff (w : Workspace) {s : String} :
    s ∈ Realization.directTypes ix w (.collapsed ix) true id ↔
      ∃ p ∈ Realization.lowest (.collapsed ix) [0], ((Taxonomy.collapsed ix).node p).canonical = s := by
  have hlowest {p : Nat} : p ∈ Realization.lowest (.collapsed ix) [0] ↔ p = 0 := by
    rw [Realization.mem_lowest_iff, List.mem_singleton]
    refine and_iff_left_of_imp ?_
    rintro rfl
    exact List.forall_mem_singleton.2 fun hne => absurd rfl hne
  simp only [hlowest, exists_eq_left]
  exact List.mem_singleton.trans eq_comm

end Collapsed

/-- In every state that calls lead to and in which the instance taxonomy is done, each individual has direct types and
types.  Where the ontology is consistent, these are the names that stand for the lowest of the nodes that hold a subsumer of
its context, and for all these nodes; where it is not, the bottom class alone.  An individual is an instance of a class if
the name that stands for the node of the class is among its types, and a direct instance if among its direct types. -/
theorem realization_exact {config : Config} {r₀ : Reasoner} (hr : Reasoner.new config = .ok r₀) (calls : List Call)
    (hdone : (r₀.after calls).stages.isDone .instanceTaxonomy = true) :
    let r := r₀.after calls
    ∃ t i, r.taxonomy = some t ∧ r.realization = some i ∧ (r.inconsistent = true ↔ Contradictory r.index.said) ∧
      ∀ id ∈ r.index.individuals, ∃ direct all,
        i.directTypes? (r.index.iriOf id) = some direct ∧ i.types? t (r.index.iriOf id) = some all ∧
        (r.inconsistent = false →
          (∀ s, s ∈ direct ↔ ∃ p, r.TypeNode t id p ∧ (∀ q, r.TypeNode t id q → p ∉ t.ancestors q) ∧
            (t.node p).canonical = s) ∧
          ∀ s, s ∈ all ↔ ∃ p, r.TypeNode t id p ∧ (t.node p).canonical = s) ∧
        (r.inconsistent = true → direct = [owlNothing] ∧ all = [owlNothing]) ∧
        ∀ p iri, iri ∈ (t.node p).members →
          (r.index.iriOf id ∈ i.instancesOf t iri ↔ (t.node p).canonical ∈ all) ∧
          ((∃ names, i.directInstances? (t.node p).canonical = some names ∧ r.index.iriOf id ∈ names) ↔
            (t.node p).canonical ∈ direct) := by
  intro r
  have h : r.Sound := (undisturbed_after hr calls).sound
  have hbefore : r.stages.isDone .classTaxonomy = true := h.closed.of_depth_lt hdone (by decide)
  have ht := h.taxonomy hbefore
  refine ⟨_, _, ht, h.realization hdone _ ht, h.inconsistent_iff (h.closed.of_depth_lt hbefore (by decide)), fun id hid => ?_⟩
  have hnodup := h.accounts.tidy.nodup_individuals
  cases hinconsistent : r.inconsistent with
  | false =>
    rw [hinconsistent] at ht
    have hlowest (s : String) : s ∈ Realization.directTypes r.index r.workspace (.build r.index r.workspace false) false id ↔ _ :=
      Taxonomy.mem_canonicals_iff
    have hup := h.upward_typePlaces hbefore hinconsistent ht hid
    obtain ⟨all, htypes, -, hall, hinstances⟩ :=
      Realization.exists_types_build (h.draws hbefore hinconsistent ht).1 hup hnodup hid hlowest
    have hplaces {p : Nat} := h.mem_typePlaces_iff_typeNode hbefore hinconsistent ht hid (p := p)
    refine ⟨_, all, Realization.directTypes?_build hnodup hid, htypes, fun _ => ⟨fun s => ?_, fun s => ?_⟩, nofun,
      fun p iri hmem => ⟨hinstances p iri hmem, Realization.mem_directInstances_build_iff hnodup hid⟩⟩
    · simp only [hlowest, (h.draws hbefore hinconsistent ht).1.mem_lowest_iff fun p hp => (hup p hp).1, hplaces, and_assoc]
    · simp only [hall, hplaces]
  | true =>
    have hdraws := Taxonomy.draws_collapsed h.accounts.tidy
    obtain ⟨all, htypes, hascending, hall, hinstances⟩ := Realization.exists_types_build hdraws
      (upward_collapsed h.accounts.tidy) hnodup hid fun s => mem_directTypes_collapsed_iff r.workspace
    refine ⟨_, all, Realization.directTypes?_build hnodup hid, htypes, nofun, fun _ => ⟨rfl, ?_⟩,
      fun p iri hmem => ⟨hinstances p iri hmem, Realization.mem_directInstances_build_iff hnodup hid⟩⟩
    refine ascending_ext hascending (List.pairwise_singleton _ _) fun s => ?_
    simp only [hall, List.mem_singleton, exists_eq_left]
    exact eq_comm

/-- An individual with a direct type, an equivalent of it and a class above them. -/
theorem realization_exact_inherited : ∃ r₀, Reasoner.new (.standard 1) = .ok r₀ ∧
    let r := r₀.after [.add (.classAssertion (.named "Dog") "rex"), .add (.equivalentClasses [.named "Dog", .named "Hound"]),
      .add (.subClassOf (.named "Hound") (.named "Mammal")), .ask .realize]
    r.inconsistent = false ∧ r.index.individuals.map r.index.iriOf = ["rex"] ∧
      ∃ t i, r.taxonomy = some t ∧ r.realization = some i ∧ ∀ id ∈ r.index.individuals, ∃ direct all,
        i.directTypes? (r.index.iriOf id) = some direct ∧ i.types? t (r.index.iriOf id) = some all ∧
        (∀ s, s ∈ direct ↔ ∃ p, r.TypeNode t id p ∧ (∀ q, r.TypeNode t id q → p ∉ t.ancestors q) ∧
          (t.node p).canonical = s) ∧
        ∀ s, s ∈ all ↔ ∃ p, r.TypeNode t id p ∧ (t.node p).canonical = s := by
  refine ⟨_, rfl, ?_⟩
  intro r
  have hconsistent : r.inconsistent = false := by decide +kernel
  have hindividuals : r.index.individuals.map r.index.iriOf = ["rex"] := by decide +kernel
  obtain ⟨t, i, ht, hi, -, hexact⟩ := realization_exact (show Reasoner.new (.standard 1) = _ from rfl)
    [.add (.classAssertion (.named "Dog") "rex"), .add (.equivalentClasses [.named "Dog", .named "Hound"]),
      .add (.subClassOf (.named "Hound") (.named "Mammal")), .ask .realize]
    (show r.stages.isDone .instanceTaxonomy = true by decide +kernel)
  refine ⟨hconsistent, hindividuals, t, i, ht, hi, fun id hid => ?_⟩
  obtain ⟨direct, all, hdirect, hall, htypes, -⟩ := hexact id hid
  exact ⟨direct, all, hdirect, hall, htypes hconsistent⟩

end Reasoner

end ELOntology
