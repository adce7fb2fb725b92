import Mathlib.Data.Set.Function
import ELOntology.Proofs.Taxonomy.Renumbering

/-!
# Types and instances

A realization keeps the direct types of each individual and, turned round, the direct instances of each class.  The other
types are found upward from the direct ones, and the other instances downward from the class.  Both ways agree where the
nodes of an individual, with each node, contain all nodes above it: then they are its lowest nodes and what is above these.

Key facts: `Draws.exists_lowest` (below each of some nodes there is a lowest one), `directTypes?_build` and
`mem_directInstances_build_iff` (the two tables), `exists_types` and `mem_instancesOf_iff_mem` (the types of an individual
and the classes that it is an instance of).
-/

namespace ELOntology

namespace Taxonomy

/-- Places of nodes, with all nodes that are above one of them. -/
def Upward (t : Taxonomy) (places : List Nat) : Prop := ∀ p ∈ places, p < t.size ∧ ∀ q ∈ t.ancestors p, q ∈ places

theorem mem_canonicals_iff {t : Taxonomy} {places : List Nat} {s : String} :
    s ∈ t.canonicals places ↔ ∃ p ∈ places, (t.node p).canonical = s := by
  rw [canonicals, mem_textSet, List.mem_map]

namespace Draws

variable {α : Type} {t : Taxonomy} {name : α → String} {le : α → α → Prop} {places : List Nat} {p q : Nat}

/-- The first members of different nodes are different. -/
theorem canonical_inj (h : t.Draws name le) (hp : p < t.size) (hq : q < t.size)
    (e : (t.node p).canonical = (t.node q).canonical) : p = q := by
  have hplace := h.place?_canonical hp
  rw [e, h.place?_canonical hq] at hplace
  exact (Option.some.inj hplace).symm

variable [Finite α]

/-- The lowest of some nodes are those that are above none of them. -/
theorem mem_lowest_iff (h : t.Draws name le) (hplaces : ∀ p ∈ places, p < t.size) :
    p ∈ Realization.lowest t places ↔ p ∈ places ∧ ∀ q ∈ places, p ∉ t.ancestors q := by
  refine Realization.mem_lowest_iff.trans (and_congr_right fun hp => forall₂_congr fun q hq => ?_)
  refine ⟨fun hmin habove => ?_, fun hmin _ => hmin⟩
  by_cases e : q = p
  · obtain ⟨a, ha⟩ := h.exists_thing (hplaces p hp)
    exact Strict.irrefl a ((h.mem_ancestors_iff ha ha).1 (e ▸ habove))
  · exact hmin e habove

/-- Below each of some nodes there is a lowest one of them, by descent in the preorder that is drawn. -/
theorem exists_lowest (h : t.Draws name le) (hplaces : ∀ p ∈ places, p < t.size) (hp : p ∈ places) :
    ∃ q ∈ Realization.lowest t places, p = q ∨ p ∈ t.ancestors q := by
  obtain ⟨b, hb⟩ := h.exists_thing (hplaces p hp)
  obtain ⟨a, ⟨hab, q, hq, ha⟩, hmin⟩ := (wellFounded_strict h.trans).has_min
    {a | le a b ∧ ∃ q ∈ places, t.place? (name a) = some q} ⟨b, h.refl b, p, hp, hb⟩
  refine ⟨q, (h.mem_lowest_iff hplaces).2 ⟨hq, fun m hm habove => ?_⟩, ?_⟩
  · obtain ⟨c, hc⟩ := h.exists_thing (hplaces m hm)
    have hca := (h.mem_ancestors_iff hc ha).1 habove
    exact hmin c ⟨h.trans c a b hca.1 hab, m, hm, hc⟩ hca
  · by_cases hba : le b a
    · exact .inl (Option.some.inj (hb.symm.trans ((h.same ha).2 ⟨hab, hba⟩)))
    · exact .inr ((h.mem_ancestors_iff ha hb).2 ⟨hab, hba⟩)

theorem mem_iff_exists_lowest (h : t.Draws name le) (hup : t.Upward places) :
    p ∈ places ↔ ∃ q ∈ Realization.lowest t places, p = q ∨ p ∈ t.ancestors q := by
  refine ⟨h.exists_lowest fun p hp => (hup p hp).1, ?_⟩
  rintro ⟨q, hq, hp⟩
  have hq := (Realization.mem_lowest_iff.1 hq).1
  rcases hp with rfl | hp
  · exact hq
  · exact (hup q hq).2 p hp

end Draws

end Taxonomy

namespace Realization

/-! ### The two tables -/

variable {ix : Index} {w : Workspace} {t : Taxonomy} {inconsistent : Bool}

private theorem find?_pairs {β : Type} (keys : List String) (f : String → β) (key : String) :
    ((keys.map fun k => (k, f k)).find? fun entry => entry.1 = key).map (·.2) = if key ∈ keys then some (f key) else none := by
  induction keys with
  | nil => rfl
  | cons k keys ih =>
    rw [List.map_cons, List.find?_cons]
    by_cases e : k = key
    · simp [e]
    · have hne : ¬ key = k := fun e' => e e'.symm
      simp only [e, decide_false, ih, List.mem_cons, hne, false_or]

/-- In a table turned round, keys and values have changed places. -/
theorem mem_invert_iff {types : List (String × List String)} {name individual : String} :
    (∃ names, ((invert types).find? fun entry => entry.1 = name).map (·.2) = some names ∧ individual ∈ names) ↔
      ∃ direct, (individual, direct) ∈ types ∧ name ∈ direct := by
  rw [invert, find?_pairs]
  constructor
  · rintro ⟨names, h, hindividual⟩
    split at h
    · cases h
      obtain ⟨⟨_, direct⟩, hentry, rfl⟩ := List.mem_map.1 (mem_textSet.1 hindividual)
      obtain ⟨hentry, hname⟩ := List.mem_filter.1 hentry
      exact ⟨direct, hentry, of_decide_eq_true hname⟩
    · cases h
  · rintro ⟨direct, hentry, hname⟩
    refine ⟨_, if_pos (mem_textSet.2 (List.mem_flatMap.2 ⟨_, hentry, hname⟩)), mem_textSet.2 ?_⟩
    exact List.mem_map.2 ⟨_, List.mem_filter.2 ⟨hentry, decide_eq_true hname⟩, rfl⟩

/-- Since individuals have different names, their direct types are a function of the name. -/
private theorem exists_typesByName (w : Workspace) (t : Taxonomy) (inconsistent : Bool)
    (hnodup : (ix.individuals.map ix.iriOf).Nodup) : ∃ types : String → List String,
      ∀ id ∈ ix.individuals, directTypes ix w t inconsistent id = types (ix.iriOf id) := by
  have hinj : Set.InjOn ix.iriOf {id | id ∈ ix.individuals} := fun _ ha _ hb e => List.inj_on_of_nodup_map hnodup ha hb e
  refine ⟨fun name => directTypes ix w t inconsistent (Function.invFunOn ix.iriOf {id | id ∈ ix.individuals} name),
    fun id hid => ?_⟩
  exact congrArg _ (hinj.leftInvOn_invFunOn hid).symm

theorem directTypes?_build (hnodup : (ix.individuals.map ix.iriOf).Nodup) {id : ExprId} (hid : id ∈ ix.individuals) :
    (build ix w t inconsistent).directTypes? (ix.iriOf id) = some (directTypes ix w t inconsistent id) := by
  obtain ⟨types, htypes⟩ := exists_typesByName w t inconsistent hnodup
  rw [build_eq htypes, directTypes?, find?_pairs, htypes id hid, if_pos]
  exact mem_sortTexts.2 (List.mem_map_of_mem hid)

theorem mem_directInstances_build_iff (hnodup : (ix.individuals.map ix.iriOf).Nodup) {id : ExprId}
    (hid : id ∈ ix.individuals) {name : String} :
    (∃ names, (build ix w t inconsistent).directInstances? name = some names ∧ ix.iriOf id ∈ names) ↔
      name ∈ directTypes ix w t inconsistent id := by
  obtain ⟨types, htypes⟩ := exists_typesByName w t inconsistent hnodup
  rw [build_eq htypes, htypes id hid]
  refine mem_invert_iff.trans ?_
  constructor
  · rintro ⟨direct, hentry, hname⟩
    obtain ⟨_, -, e⟩ := List.mem_map.1 hentry
    obtain ⟨rfl, rfl⟩ := Prod.mk.inj e
    exact hname
  · exact fun hname => ⟨_, List.mem_map.2 ⟨_, mem_sortTexts.2 (List.mem_map_of_mem hid), rfl⟩, hname⟩

/-! ### Along the links of the taxonomy -/

/-- The instances of a class are the direct instances of its node and of those below. -/
theorem mem_instancesOf_iff {i : Realization} {individual iri : String} {p : Nat} (hp : t.place? iri = some p) :
    individual ∈ i.instancesOf t iri ↔ ∃ q, (q = p ∨ q ∈ t.descendants p) ∧
      ∃ names, i.directInstances? (t.node q).canonical = some names ∧ individual ∈ names := by
  have hgetD (found : Option (List String)) : individual ∈ found.getD [] ↔ ∃ names, found = some names ∧ individual ∈ names := by
    cases found <;> simp
  rw [instancesOf, hp]
  simp only [mem_textSet, List.mem_flatMap, List.mem_cons, hgetD]

section Lowest

/- An individual whose direct types are the lowest ones of certain nodes, which hold all that is above them. -/
variable {α : Type} {name : α → String} {le : α → α → Prop} {places : List Nat} {i : Realization}
  {individual : String} {direct : List String}

/-- The types of the individual are all these nodes. -/
theorem exists_types [Finite α] (h : t.Draws name le) (hup : t.Upward places) (hdirect : i.directTypes? individual = some direct)
    (hlowest : ∀ s, s ∈ direct ↔ ∃ p ∈ lowest t places, (t.node p).canonical = s) :
    ∃ all, i.types? t individual = some all ∧ all.Pairwise (· < ·) ∧ ∀ s, s ∈ all ↔ ∃ p ∈ places, (t.node p).canonical = s := by
  have hlt {p : Nat} (hp : p ∈ lowest t places) : p < t.size := (hup p (mem_lowest_iff.1 hp).1).1
  refine ⟨_, by rw [types?, hdirect]; rfl, pairwise_sortTexts (nodup_distinct _), fun s => mem_textSet.trans ?_⟩
  rw [List.mem_append, List.mem_flatMap]
  constructor
  · rintro (hs | ⟨s', hs', hs⟩)
    · obtain ⟨p, hp, rfl⟩ := (hlowest s).1 hs
      exact ⟨p, (mem_lowest_iff.1 hp).1, rfl⟩
    · obtain ⟨q, hq, rfl⟩ := (hlowest s').1 hs'
      rw [h.place?_canonical (hlt hq)] at hs
      obtain ⟨p, hp, rfl⟩ := List.mem_map.1 hs
      exact ⟨p, (h.mem_iff_exists_lowest hup).2 ⟨q, hq, .inr hp⟩, rfl⟩
  · rintro ⟨p, hp, rfl⟩
    obtain ⟨q, hq, rfl | hp⟩ := (h.mem_iff_exists_lowest hup).1 hp
    · exact .inl ((hlowest _).2 ⟨p, hq, rfl⟩)
    · refine .inr ⟨(t.node q).canonical, (hlowest _).2 ⟨q, hq, rfl⟩, ?_⟩
      rw [h.place?_canonical (hlt hq)]
      exact List.mem_map.2 ⟨p, hp, rfl⟩

/-- The individual is an instance of the classes of just these nodes: down from a class to a direct type is up from the
direct type to the node of the class. -/
theorem mem_instancesOf_iff_mem [Finite α] (h : t.Draws name le) (hup : t.Upward places)
    (hlowest : ∀ s, s ∈ direct ↔ ∃ p ∈ lowest t places, (t.node p).canonical = s)
    (hinstances : ∀ s, (∃ names, i.directInstances? s = some names ∧ individual ∈ names) ↔ s ∈ direct) {iri : String}
    {p : Nat} (hp : t.place? iri = some p) : individual ∈ i.instancesOf t iri ↔ p ∈ places := by
  have hlt {p : Nat} (hp : p ∈ lowest t places) : p < t.size := (hup p (mem_lowest_iff.1 hp).1).1
  have hplace := (h.named hp).1
  rw [mem_instancesOf_iff hp, h.mem_iff_exists_lowest hup]
  constructor
  · rintro ⟨q, hq, htypes⟩
    obtain ⟨q', hq', e⟩ := (hlowest _).1 ((hinstances _).1 htypes)
    have hqlt : q < t.size := hq.elim (fun e => e ▸ hplace) fun hq => h.linked.descendants_lt hplace hq
    obtain rfl := h.canonical_inj (hlt hq') hqlt e
    exact ⟨q', hq', hq.imp Eq.symm (h.mem_descendants_iff hplace hqlt).1⟩
  · rintro ⟨q, hq, habove⟩
    refine ⟨q, habove.imp Eq.symm (h.mem_descendants_iff hplace (hlt hq)).2, ?_⟩
    exact (hinstances _).2 ((hlowest _).2 ⟨q, hq, rfl⟩)

/-- What a built realization answers for an individual. -/
theorem exists_types_build [Finite α] (h : t.Draws name le) (hup : t.Upward places)
    (hnodup : (ix.individuals.map ix.iriOf).Nodup) {id : ExprId} (hid : id ∈ ix.individuals)
    (hlowest : ∀ s, s ∈ directTypes ix w t inconsistent id ↔ ∃ p ∈ lowest t places, (t.node p).canonical = s) :
    ∃ all, (build ix w t inconsistent).types? t (ix.iriOf id) = some all ∧ all.Pairwise (· < ·) ∧
      (∀ s, s ∈ all ↔ ∃ p ∈ places, (t.node p).canonical = s) ∧ ∀ p iri, iri ∈ (t.node p).members →
        (ix.iriOf id ∈ (build ix w t inconsistent).instancesOf t iri ↔ (t.node p).canonical ∈ all) := by
  obtain ⟨all, htypes, hascending, hall⟩ := exists_types h hup (directTypes?_build hnodup hid) hlowest
  refine ⟨all, htypes, hascending, hall, fun p iri hmem => ?_⟩
  have hlt := Taxonomy.lt_size_of_mem_members hmem
  rw [mem_instancesOf_iff_mem h hup hlowest (fun _ => mem_directInstances_build_iff hnodup hid) ((h.mem_members hlt).1 hmem),
    hall]
  exact ⟨fun hp => ⟨p, hp, rfl⟩, fun ⟨q, hq, e⟩ => h.canonical_inj (hup q hq).1 hlt e ▸ hq⟩

end Lowest

end Realization

end ELOntology
