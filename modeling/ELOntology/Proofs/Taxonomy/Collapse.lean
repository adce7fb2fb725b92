import ELOntology.Proofs.Taxonomy.Assemble

/-!
# The taxonomy of an inconsistent ontology

In an inconsistent ontology every class is included in every other one, and the taxonomy is a single node.

Key facts: `draws_collapsed`, and `audit_build` (every taxonomy that is built passes the audit).
-/

namespace ELOntology

namespace Taxonomy

variable {ix : Index} {p : Nat}

/-- All classes are members of the one node. -/
theorem mem_collapsed (hix : ix.Tidy) {s : String} : s ∈ bottomMembers ix ix.classes ↔ ∃ a : ix.Class, a.iri = s := by
  rw [mem_bottomMembers hix hix.nothing_mem_classes]
  exact ⟨fun ⟨id, hid, hname⟩ => ⟨⟨id, hid⟩, hname⟩, fun ⟨a, hname⟩ => ⟨a.1, a.2, hname⟩⟩

/-- The bottom class comes first, and the others ascend. -/
theorem collapsed_members (hix : ix.Tidy) : ∃ names : List String, bottomMembers ix ix.classes = owlNothing :: names ∧
    names.Pairwise (· < ·) ∧ owlNothing ∉ names := by
  have hclasses : ∀ id ∈ ix.classes.filter (· ≠ .nothing), id ∈ ix.classes := fun _ hid => List.mem_of_mem_filter hid
  have hnames : ((ix.classes.filter (· ≠ .nothing)).map ix.iriOf).Nodup :=
    ((ix.nodup_ids.filter _).filter _).map_on fun a ha b hb e => hix.iriOf_inj (hclasses a ha) (hclasses b hb) e
  refine ⟨_, rfl, pairwise_sortTexts hnames, fun hin => ?_⟩
  obtain ⟨id, hid, e⟩ := List.mem_map.1 (mem_sortTexts.1 hin)
  have hne := of_decide_eq_true (List.mem_filter.1 hid).2
  exact hne (hix.iriOf_inj (hclasses id hid) hix.nothing_mem_classes (e.trans hix.iriOf_nothing.symm))

/-- The single node depends on the names of the classes alone. -/
theorem collapsed_congr {ix' : Index} (hix : ix.Tidy) (hix' : ix'.Tidy)
    (h : ∀ s, (∃ b : ix'.Class, b.iri = s) ↔ ∃ a : ix.Class, a.iri = s) : collapsed ix' = collapsed ix := by
  obtain ⟨names, hmembers, hascending, hnot⟩ := collapsed_members hix
  obtain ⟨names', hmembers', hascending', hnot'⟩ := collapsed_members hix'
  have hnames : names' = names := by
    refine ascending_ext hascending' hascending fun s => ?_
    have hmem : s ∈ owlNothing :: names' ↔ s ∈ owlNothing :: names := by
      rw [← hmembers, ← hmembers', mem_collapsed hix, mem_collapsed hix', h]
    simp only [List.mem_cons] at hmem
    by_cases e : s = owlNothing
    · exact ⟨fun hs => absurd (e ▸ hs) hnot', fun hs => absurd (e ▸ hs) hnot⟩
    · rwa [or_iff_right e, or_iff_right e] at hmem
  unfold collapsed
  rw [hmembers, hmembers', hnames]

theorem place?_collapsed_iff (hix : ix.Tidy) {s : String} :
    (collapsed ix).place? s = some p ↔ p = 0 ∧ ∃ a : ix.Class, a.iri = s := by
  have hentry {s : String} {p : Nat} : (s, p) ∈ (collapsed ix).places ↔ p = 0 ∧ ∃ a : ix.Class, a.iri = s := by
    refine mem_placesOf.trans ?_
    rw [← mem_collapsed hix]
    constructor
    · rintro ⟨node, hget, hs⟩
      cases p with
      | zero => cases hget; exact ⟨rfl, hs⟩
      | succ p => cases hget
    · rintro ⟨rfl, hs⟩
      exact ⟨_, rfl, hs⟩
  exact (place?_eq_some_iff_mem fun hp hq => (hentry.1 hp).1.trans (hentry.1 hq).1.symm).trans hentry

/-- The taxonomy of an inconsistent ontology draws the relation that holds between all classes. -/
theorem draws_collapsed (hix : ix.Tidy) : (collapsed ix).Draws (fun a : ix.Class => a.iri) fun _ _ => True := by
  have hzero {p : Nat} (hp : p < (collapsed ix).size) : p = 0 := Nat.lt_one_iff.1 hp
  have hcover (a b : ix.Class) : ¬ Covers (fun _ _ => True) a b := fun hc => hc.1.2 trivial
  obtain ⟨names, hmembers, hascending, hnot⟩ := collapsed_members hix
  refine ⟨fun _ => trivial, fun _ _ _ _ _ => trivial, fun a => ⟨0, (place?_collapsed_iff hix).2 ⟨rfl, a, rfl⟩⟩,
    fun hplace => ?_, fun hp => ?_, fun hp => ?_, fun hp => ?_, fun {a b p} ha => ?_, fun hp hq => ?_, fun hp hq => ?_,
    fun hp => ?_, fun hp => ?_, fun {a b p q} hp _ => ?_, fun {a b p q} _ hq => ?_, ?_, ?_⟩
  · obtain ⟨rfl, ha⟩ := (place?_collapsed_iff hix).1 hplace
    exact ⟨Nat.one_pos, ha⟩
  · obtain rfl := hzero hp
    rw [place?_collapsed_iff hix, ← mem_collapsed hix]
    exact ⟨fun hs => ⟨rfl, hs⟩, fun hs => hs.2⟩
  · obtain rfl := hzero hp
    exact List.cons_ne_nil _ _
  · obtain rfl := hzero hp
    show (bottomMembers ix ix.classes).Nodup
    rw [hmembers]
    exact List.nodup_cons.2 ⟨hnot, hascending.imp String.ne_of_lt⟩
  · obtain ⟨rfl, -⟩ := (place?_collapsed_iff hix).1 ha
    exact ⟨fun _ => ⟨trivial, trivial⟩, fun _ => (place?_collapsed_iff hix).2 ⟨rfl, b, rfl⟩⟩
  · obtain rfl := hzero hp
    cases hq
  · obtain rfl := hzero hp
    cases hq
  · obtain rfl := hzero hp
    exact List.nodup_nil
  · obtain rfl := hzero hp
    exact List.nodup_nil
  · obtain ⟨rfl, -⟩ := (place?_collapsed_iff hix).1 hp
    exact ⟨fun hmem => absurd hmem List.not_mem_nil, fun hc => absurd hc (hcover a b)⟩
  · obtain ⟨rfl, -⟩ := (place?_collapsed_iff hix).1 hq
    exact ⟨fun hmem => absurd hmem List.not_mem_nil, fun hc => absurd hc (hcover a b)⟩
  · exact (place?_collapsed_iff hix).2 ⟨rfl, ⟨.thing, hix.thing_mem_classes⟩, hix.iriOf_thing⟩
  · exact (place?_collapsed_iff hix).2 ⟨rfl, ⟨.nothing, hix.nothing_mem_classes⟩, hix.iriOf_nothing⟩

/-- Every taxonomy that is built passes the audit. -/
theorem audit_build {w : Workspace} {inconsistent : Bool} (hix : ix.Tidy) (h : Answers ix w)
    (hsat : inconsistent = false → w.isUnsatisfiable .thing = false) : (build ix w inconsistent).audit ix = .ok () := by
  have hnames : ∀ id ∈ ix.classes, ∃ a : ix.Class, a.iri = ix.iriOf id := fun id hid => ⟨⟨id, hid⟩, rfl⟩
  cases inconsistent with
  | true => exact (draws_collapsed hix).audit_eq hnames
  | false => exact (draws_assemble hix h (hsat rfl)).audit_eq hnames

end Taxonomy

end ELOntology
