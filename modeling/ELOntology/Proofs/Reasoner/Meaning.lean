import ELOntology.Proofs.Reasoner.Pipeline
import ELOntology.Proofs.Semantics.Ontology
import ELOntology.Proofs.Taxonomy.Renumbering
import ELOntology.Proofs.Taxonomy.Types

/-!
# What a saturated reasoner knows

Once a sound reasoner has saturated its contexts, its answers are what the asserted axioms say: its taxonomy draws the
inclusions that hold in all models, and its realization has the individuals that occur with the classes that they belong to
in all models.  So reasoners with the same asserted axioms agree, whatever they have been through (`Sound.alike_taxonomy`,
`Sound.realization_eq`).
-/

namespace ELOntology

namespace Reasoner

variable {r : Reasoner}

/-! ### Contexts -/

namespace Sound

/-- What is stored is saturated over the rules of the index, whichever hierarchy the reasoner has. -/
theorem saturated (h : r.Sound) (hdone : r.stages.isDone .saturation = true) :
    Saturated r.index.ruleBase.calculus r.workspace.Stores := by
  have haddition : r.stages.isDone .addition = true := h.closed.of_depth_lt hdone (by decide)
  have hfits := h.fits (h.closed.of_depth_lt hdone (by decide))
  refine (h.settled hdone).saturated.agree (h.accounts.agree_of_fits hfits r.index.nodes.size).symm fun root expr hc => ?_
  exact Nat.lt_of_lt_of_le ((h.idle_of_addition haddition).2.1.within_stores hc) h.size_le

variable {root id : ExprId} {t : Term} {name : String}

/-- A context has found its root to be empty if and only if the root is empty in all models. -/
theorem isUnsatisfiable_iff_void (h : r.Sound) (hdone : r.stages.isDone .saturation = true)
    (hself : r.workspace.Stores root (.isA root)) (hroot : r.index.Denotes root t) :
    r.workspace.isUnsatisfiable root = true ↔ Void r.index.said t := by
  have hpending := (h.idle_of_addition (h.closed.of_depth_lt hdone (by decide))).2.2
  rw [Workspace.isUnsatisfiable_iff, (h.saturated hdone).stored_contradiction_iff h.accounts.regular hself]
  refine (h.accounts.derivable_contradiction_iff hpending hroot.lt_size).trans ?_
  refine forall_congr' fun I => imp_congr h.accounts.models_iff (forall_congr' fun x => not_congr hroot.instanceOf_iff)

/-- A context says that its root is included in a class if and only if this holds in all models. -/
theorem includes_iff_entails (h : r.Sound) (hdone : r.stages.isDone .saturation = true)
    (hself : r.workspace.Stores root (.isA root)) (hroot : r.index.Denotes root t)
    (hid : r.index.shape? id = some (.named name)) :
    r.workspace.Includes root id ↔ Entails r.index.said t (.named name) := by
  have hpending := (h.idle_of_addition (h.closed.of_depth_lt hdone (by decide))).2.2
  have hsaturated := h.saturated hdone
  rw [Workspace.Includes, Workspace.isUnsatisfiable_iff, Workspace.hasSubsumer_iff,
    hsaturated.stored_contradiction_iff h.accounts.regular hself, hsaturated.stored_isA_iff h.accounts.regular hself]
  refine (h.accounts.derivable_isA_iff hpending hroot.lt_size (Index.isClass_iff.2 ⟨name, hid⟩)).trans ?_
  refine forall_congr' fun I => imp_congr h.accounts.models_iff (forall_congr' fun x => ?_)
  rw [hroot.instanceOf_iff, (Index.Denotes.named hid).instanceOf_iff]

/-! ### Classes -/

/-- Between classes, inclusion is what holds in all models. -/
theorem below_iff_entails (h : r.Sound) (hdone : r.stages.isDone .saturation = true) (a b : r.index.Class) :
    Taxonomy.Below r.index r.workspace a b ↔ Entails r.index.said (.named a.iri) (.named b.iri) := by
  obtain ⟨n, ha, hn⟩ := Index.exists_shape_of_mem_classes a.2
  obtain ⟨m, hb, hm⟩ := Index.exists_shape_of_mem_classes b.2
  rw [show a.iri = n from hn, show b.iri = m from hm]
  exact h.includes_iff_entails hdone ((h.settled hdone).rooted (List.mem_append_left _ a.2)) (.named ha) hb

/-- The ontology is found inconsistent if and only if it is contradictory. -/
theorem inconsistent_iff (h : r.Sound) (hdone : r.stages.isDone .consistency = true) :
    r.inconsistent = true ↔ Contradictory r.index.said := by
  have hsaturation : r.stages.isDone .saturation = true := h.closed.of_depth_lt hdone (by decide)
  have hempty {root : ExprId} {t : Term} (hroot : root ∈ r.index.roots) (ht : r.index.Denotes root t) :=
    h.isUnsatisfiable_iff_void hsaturation ((h.settled hsaturation).rooted hroot) ht
  rw [h.consistency hdone, Request.isContradictory, Bool.or_eq_true, List.any_eq_true,
    hempty (List.mem_append_left _ h.accounts.tidy.thing_mem_classes) h.accounts.tidy.denotes_thing]
  refine or_congr_right ⟨?_, ?_⟩
  · rintro ⟨id, hid, hvoid⟩
    obtain ⟨name, hshape, hname⟩ := h.accounts.mem_individuals_iff.1 hid
    exact ⟨name, hname, (hempty (List.mem_append_right _ hid) (.nominal hshape)).1 hvoid⟩
  · rintro ⟨name, hname, hvoid⟩
    obtain ⟨id, hid⟩ := h.accounts.exists_denotes_of_mentions hname
    cases hid with
    | nominal hshape =>
      have hmem := h.accounts.mem_individuals_iff.2 ⟨name, hshape, hname⟩
      exact ⟨id, hmem, (hempty (List.mem_append_right _ hmem) (.nominal hshape)).2 hvoid⟩

/-- In a consistent ontology neither the top class nor an individual is found to be empty. -/
theorem satisfiable_of_consistent (h : r.Sound) (hdone : r.stages.isDone .consistency = true)
    (hconsistent : r.inconsistent = false) : r.workspace.isUnsatisfiable .thing = false ∧
      ∀ id ∈ r.index.individuals, r.workspace.isUnsatisfiable id = false := by
  have hcontradictory := (h.consistency hdone).symm.trans hconsistent
  rw [Request.isContradictory, Bool.or_eq_false_iff, List.any_eq_false] at hcontradictory
  exact ⟨hcontradictory.1, fun id hid => Bool.eq_false_iff.2 (hcontradictory.2 id hid)⟩

/-! ### The taxonomy -/

/-- The taxonomy of a consistent ontology draws the inclusions between its classes, with their names in order. -/
theorem draws (h : r.Sound) (hdone : r.stages.isDone .classTaxonomy = true) (hconsistent : r.inconsistent = false)
    {t : Taxonomy} (ht : r.taxonomy = some t) : t.Draws Index.Class.iri (Taxonomy.Below r.index r.workspace) ∧
      ∀ {p}, p < t.size → Taxonomy.Arranged (t.node p).members := by
  have hanswers := h.answers (h.closed.of_depth_lt hdone (by decide))
  have hsat := (h.satisfiable_of_consistent (h.closed.of_depth_lt hdone (by decide)) hconsistent).1
  obtain rfl : Taxonomy.assemble r.index r.workspace = t := by
    have hbuilt := (h.taxonomy hdone).symm.trans ht
    rw [hconsistent] at hbuilt
    exact Option.some.inj hbuilt
  exact ⟨Taxonomy.draws_assemble h.accounts.tidy hanswers hsat,
    fun hp => Taxonomy.arranged_assemble h.accounts.tidy hanswers hsat hp⟩

/-- The taxonomy of an inconsistent ontology is a single node. -/
theorem collapsed (h : r.Sound) (hdone : r.stages.isDone .classTaxonomy = true) (hinconsistent : r.inconsistent = true)
    {t : Taxonomy} (ht : r.taxonomy = some t) : t = Taxonomy.collapsed r.index := by
  have hbuilt := (h.taxonomy hdone).symm.trans ht
  rw [hinconsistent] at hbuilt
  exact (Option.some.inj hbuilt).symm

theorem linked (h : r.Sound) (hdone : r.stages.isDone .classTaxonomy = true) {t : Taxonomy} (ht : r.taxonomy = some t) :
    t.Linked := by
  cases hinconsistent : r.inconsistent with
  | false => exact (h.draws hdone hinconsistent ht).1.linked
  | true =>
    rw [h.collapsed hdone hinconsistent ht]
    exact (Taxonomy.draws_collapsed h.accounts.tidy).linked

/-- An individual of a consistent ontology is typed by the nodes of the classes that it belongs to in all models. -/
theorem mem_typePlaces_iff (h : r.Sound) (hdone : r.stages.isDone .classTaxonomy = true)
    (hconsistent : r.inconsistent = false) {t : Taxonomy} (ht : r.taxonomy = some t) {id : ExprId} {name : String}
    (hid : id ∈ r.index.individuals) (hname : r.index.shape? id = some (.nominal name)) {p : Nat} :
    p ∈ Realization.typePlaces r.index r.workspace t id ↔
      ∃ s, t.place? s = some p ∧ Entails r.index.said (.nominal name) (.named s) := by
  have hsaturation : r.stages.isDone .saturation = true := h.closed.of_depth_lt hdone (by decide)
  have hself := (h.settled hsaturation).rooted (List.mem_append_right _ hid)
  have hsat := (h.satisfiable_of_consistent (h.closed.of_depth_lt hdone (by decide)) hconsistent).2 id hid
  have hentails {cls : ExprId} {s : String} (hcls : r.index.shape? cls = some (.named s)) :
      r.workspace.hasSubsumer id cls = true ↔ Entails r.index.said (.nominal name) (.named s) := by
    rw [← h.includes_iff_entails hsaturation hself (.nominal hname) hcls, Workspace.Includes, hsat]
    exact (or_iff_right Bool.false_ne_true).symm
  rw [Realization.mem_typePlaces_iff hself.has]
  constructor
  · rintro ⟨cls, hcls, hsubsumer, hp⟩
    obtain ⟨s, hs⟩ := Index.isClass_iff.1 hcls
    rw [Index.iriOf_class hs] at hp
    exact ⟨s, hp, (hentails hs).1 hsubsumer⟩
  · rintro ⟨s, hp, hs⟩
    obtain ⟨-, a, rfl⟩ := (h.draws hdone hconsistent ht).1.named hp
    obtain ⟨s, hshape, hiri⟩ := Index.exists_shape_of_mem_classes a.2
    refine ⟨a, Index.isClass_iff.2 ⟨s, hshape⟩, (hentails hshape).2 ?_, hp⟩
    rwa [show a.iri = s from hiri] at hs

end Sound

/-! ### Reasoners with the same axioms -/

/-- The same is said in both reasoners. -/
abbrev Agrees (r s : Reasoner) : Prop := SameEntries r.index.said s.index.said

namespace Sound

variable {r s : Reasoner}

theorem inconsistent_eq (h : r.Sound) (h' : s.Sound) (hsame : r.Agrees s) (hdone : r.stages.isDone .consistency = true)
    (hdone' : s.stages.isDone .consistency = true) : s.inconsistent = r.inconsistent :=
  Bool.eq_iff_iff.2 ((h'.inconsistent_iff hdone').trans (hsame.contradictory_iff.trans (h.inconsistent_iff hdone).symm))

theorem exists_class_iff (h : r.Sound) (h' : s.Sound) (hsame : r.Agrees s) (name : String) :
    (∃ b : s.index.Class, b.iri = name) ↔ ∃ a : r.index.Class, a.iri = name :=
  h'.accounts.exists_class_iff.trans (hsame.lists_iff.trans h.accounts.exists_class_iff.symm)

/-- The taxonomies of reasoners with the same axioms are the same up to numbers. -/
theorem alike_taxonomy (h : r.Sound) (h' : s.Sound) (hsame : r.Agrees s) (hdone : r.stages.isDone .classTaxonomy = true)
    (hdone' : s.stages.isDone .classTaxonomy = true) {t t' : Taxonomy} (ht : r.taxonomy = some t)
    (ht' : s.taxonomy = some t') : t.Alike t' := by
  have hinconsistent := h.inconsistent_eq h' hsame (h.closed.of_depth_lt hdone (by decide))
    (h'.closed.of_depth_lt hdone' (by decide))
  have hsaturation : r.stages.isDone .saturation = true := h.closed.of_depth_lt hdone (by decide)
  have hsaturation' : s.stages.isDone .saturation = true := h'.closed.of_depth_lt hdone' (by decide)
  cases hr : r.inconsistent with
  | true =>
    rw [h.collapsed hdone hr ht, h'.collapsed hdone' (hinconsistent.trans hr) ht']
    rw [Taxonomy.collapsed_congr h.accounts.tidy h'.accounts.tidy fun name => h.exists_class_iff h' hsame name]
    exact .refl _
  | false =>
    obtain ⟨hdraws, harranged⟩ := h.draws hdone hr ht
    obtain ⟨hdraws', harranged'⟩ := h'.draws hdone' (hinconsistent.trans hr) ht'
    refine hdraws.alike hdraws' ⟨fun a => ?_, fun b => ?_, fun {a c b d} hb hd => ?_⟩ harranged harranged'
    · exact (h.exists_class_iff h' hsame a.iri).2 ⟨a, rfl⟩
    · exact (h.exists_class_iff h' hsame b.iri).1 ⟨b, rfl⟩
    · rw [h'.below_iff_entails hsaturation', h.below_iff_entails hsaturation, hb, hd]
      exact hsame.entails_iff

open Classical in
/-- The names of the lowest nodes that an individual belongs to in all models. -/
private noncomputable def typeNames (t : Taxonomy) (said : List TermEntry) (individual : String) : List String :=
  t.canonicals (Realization.lowest t ((List.range t.size).filter fun p =>
    ∃ s, t.place? s = some p ∧ Entails said (.nominal individual) (.named s)))

/-- The direct types of an individual have the same names under the numbers of another reasoner. -/
private theorem directTypes_eq (h' : s.Sound) (hsame : r.Agrees s) (hdone' : s.stages.isDone .classTaxonomy = true)
    (hconsistent : s.inconsistent = false) {t t' : Taxonomy} (hlinked : t.Linked) (halike : t.Alike t')
    (ht' : s.taxonomy = some t') : ∀ id ∈ s.index.individuals,
      Realization.directTypes s.index s.workspace t' false id = typeNames t r.index.said (s.index.iriOf id) := by
  classical
  intro id hid
  obtain ⟨σ, hσ⟩ := halike
  obtain ⟨name, hname, -⟩ := h'.accounts.mem_individuals_iff.1 hid
  rw [Index.iriOf_individual hname]
  refine hσ.canonicals_lowest_eq hlinked (P := fun s => Entails r.index.said (.nominal name) (.named s)) (fun p => ?_)
    fun p => ?_
  · rw [List.mem_filter, List.mem_range, decide_eq_true_eq]
    exact and_iff_right_of_imp fun ⟨s, hp, _⟩ => hlinked.place_lt hp
  · rw [h'.mem_typePlaces_iff hdone' hconsistent ht' hid hname]
    exact exists_congr fun s => and_congr_right fun _ => hsame.entails_iff

/-- The realizations of reasoners with the same axioms are the same. -/
theorem realization_eq (h : r.Sound) (h' : s.Sound) (hsame : r.Agrees s) (hdone : r.stages.isDone .instanceTaxonomy = true)
    (hdone' : s.stages.isDone .instanceTaxonomy = true) {i i' : Realization} (hi : r.realization = some i)
    (hi' : s.realization = some i') : i' = i := by
  have hbefore : r.stages.isDone .classTaxonomy = true := h.closed.of_depth_lt hdone (by decide)
  have hbefore' : s.stages.isDone .classTaxonomy = true := h'.closed.of_depth_lt hdone' (by decide)
  have ht := h.taxonomy hbefore
  have ht' := h'.taxonomy hbefore'
  obtain rfl := Option.some.inj ((h.realization hdone _ ht).symm.trans hi)
  obtain rfl := Option.some.inj ((h'.realization hdone' _ ht').symm.trans hi')
  have halike := h.alike_taxonomy h' hsame hbefore hbefore' ht ht'
  have hinconsistent := h.inconsistent_eq h' hsame (h.closed.of_depth_lt hbefore (by decide))
    (h'.closed.of_depth_lt hbefore' (by decide))
  have hlinked := h.linked hbefore ht
  have hnames : sortTexts (s.index.individuals.map s.index.iriOf) = sortTexts (r.index.individuals.map r.index.iriOf) := by
    refine ascending_ext (pairwise_sortTexts h'.accounts.tidy.nodup_individuals)
      (pairwise_sortTexts h.accounts.tidy.nodup_individuals) fun name => ?_
    rw [mem_sortTexts, mem_sortTexts, List.mem_map, List.mem_map]
    exact h'.accounts.exists_individual_iff.trans (hsame.mentions_iff.trans h.accounts.exists_individual_iff.symm)
  suffices htypes : ∃ types : String → List String,
      (∀ id ∈ r.index.individuals, Realization.directTypes r.index r.workspace (.build r.index r.workspace r.inconsistent)
        r.inconsistent id = types (r.index.iriOf id)) ∧
      ∀ id ∈ s.index.individuals, Realization.directTypes s.index s.workspace (.build s.index s.workspace s.inconsistent)
        s.inconsistent id = types (s.index.iriOf id) by
    obtain ⟨types, htypes, htypes'⟩ := htypes
    rw [Realization.build_eq htypes, Realization.build_eq htypes', hnames]
  cases hr : r.inconsistent with
  | true =>
    -- every individual belongs to the single node
    obtain ⟨σ, hσ⟩ := halike
    have hbottom : (Taxonomy.build r.index r.workspace r.inconsistent).bottom <
        (Taxonomy.build r.index r.workspace r.inconsistent).size := by
      rw [h.collapsed hbefore hr ht]
      exact Nat.one_pos
    refine ⟨fun _ => [((Taxonomy.build r.index r.workspace true).node
      (Taxonomy.build r.index r.workspace true).bottom).canonical], fun id _ => rfl, fun id _ => ?_⟩
    have hcanonical := hσ.canonical_eq hbottom
    rw [← hσ.bottom, hinconsistent, hr] at hcanonical
    rw [hinconsistent, hr]
    exact congrArg (fun name => [name]) hcanonical
  | false =>
    refine ⟨typeNames (.build r.index r.workspace r.inconsistent) r.index.said, ?_, ?_⟩
    · rw [← hr]
      have htypes := directTypes_eq (r := r) h (.refl _) hbefore hr hlinked (.refl _) ht
      rwa [← hr] at htypes
    · have hs := hinconsistent.trans hr
      have htypes := directTypes_eq h' hsame hbefore' hs hlinked halike ht'
      rwa [← hs] at htypes

end Sound

end Reasoner

end ELOntology
