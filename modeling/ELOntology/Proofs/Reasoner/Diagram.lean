import ELOntology.Proofs.Reasoner.History

/-!
# The taxonomy as a Hasse diagram

Whenever the class taxonomy of a reasoner is done, it is the Hasse diagram of the inclusions that the contexts have
derived.  That the derived inclusions are a preorder at all rests on the contexts being saturated for each other.
-/

namespace ELOntology

namespace Taxonomy

variable {α : Type} {t : Taxonomy} {name : α → String} {le : α → α → Prop}

/-- The nodes of the taxonomy are the equivalence classes of a preorder, and its links are the covering pairs of the order
of these. -/
structure HasseDiagram (t : Taxonomy) (name : α → String) (le : α → α → Prop) : Prop where
  preorder : (∀ a, le a a) ∧ ∀ a b c, le a b → le b c → le a c
  /-- Each thing has one node. -/
  placed (a : α) : ∃ p < t.size, name a ∈ (t.node p).members ∧ ∀ q < t.size, name a ∈ (t.node q).members → q = p
  /-- The members of a node make up an equivalence class. -/
  members {p : Nat} : p < t.size → ∃ a, ∀ s, s ∈ (t.node p).members ↔ ∃ b, name b = s ∧ le a b ∧ le b a
  arranged {p : Nat} : p < t.size → Arranged (t.node p).members
  /-- What is above, up to equivalence, is the same node or an ancestor of it. -/
  above {a b : α} {p q : Nat} : p < t.size → q < t.size → name a ∈ (t.node p).members → name b ∈ (t.node q).members →
    (q = p ∨ q ∈ t.ancestors p ↔ le a b)
  /-- The links lead from each node to those that cover it. -/
  links {p q : Nat} : p < t.size → (q ∈ (t.node p).supers ↔
    q < t.size ∧ ∃ a b, name a ∈ (t.node p).members ∧ name b ∈ (t.node q).members ∧ Covers le a b)
  /-- The links are stored at both ends, once each. -/
  paired {p q : Nat} : q < t.size → (p ∈ (t.node q).subs ↔ p < t.size ∧ q ∈ (t.node p).supers)
  single {p : Nat} : p < t.size → (t.node p).supers.Nodup ∧ (t.node p).subs.Nodup
  top : t.top < t.size ∧ owlThing ∈ (t.node t.top).members
  bottom : t.bottom < t.size ∧ owlNothing ∈ (t.node t.bottom).members

theorem Draws.hasseDiagram [Finite α] (h : t.Draws name le) (harranged : ∀ {p}, p < t.size → Arranged (t.node p).members) :
    t.HasseDiagram name le where
  preorder := ⟨h.refl, h.trans⟩
  placed a := by
    obtain ⟨p, hp⟩ := h.place a
    have hlt := (h.named hp).1
    refine ⟨p, hlt, (h.mem_members hlt).2 hp, fun q hq hmem => ?_⟩
    exact Option.some.inj (((h.mem_members hq).1 hmem).symm.trans hp)
  members {p} hlt := by
    obtain ⟨a, ha⟩ := h.exists_thing hlt
    refine ⟨a, fun s => (h.mem_members hlt).trans ⟨fun hs => ?_, ?_⟩⟩
    · obtain ⟨-, b, rfl⟩ := h.named hs
      exact ⟨b, rfl, (h.same ha).1 hs⟩
    · rintro ⟨b, rfl, hab⟩
      exact (h.same ha).2 hab
  arranged := harranged
  above {a b p q} hp hq ha hb := by
    rw [h.mem_members hp] at ha
    rw [h.mem_members hq] at hb
    rw [h.mem_ancestors_iff ha hb]
    constructor
    · rintro (rfl | hab)
      · exact ((h.same ha).1 hb).1
      · exact hab.1
    · intro hab
      by_cases hba : le b a
      · exact .inl (Option.some.inj (hb.symm.trans ((h.same ha).2 ⟨hab, hba⟩)))
      · exact .inr ⟨hab, hba⟩
  links {p q} hp := by
    constructor
    · intro hmem
      have hq := h.supers_lt hp hmem
      obtain ⟨a, ha⟩ := h.exists_thing hp
      obtain ⟨b, hb⟩ := h.exists_thing hq
      exact ⟨hq, a, b, (h.mem_members hp).2 ha, (h.mem_members hq).2 hb, (h.supers ha hb).1 hmem⟩
    · rintro ⟨hq, a, b, ha, hb, hcovers⟩
      exact (h.supers ((h.mem_members hp).1 ha) ((h.mem_members hq).1 hb)).2 hcovers
  paired {p q} hq := by
    obtain ⟨b, hb⟩ := h.exists_thing hq
    constructor
    · intro hmem
      have hp := h.subs_lt hq hmem
      obtain ⟨a, ha⟩ := h.exists_thing hp
      exact ⟨hp, (h.supers ha hb).2 ((h.subs ha hb).1 hmem)⟩
    · rintro ⟨hp, hmem⟩
      obtain ⟨a, ha⟩ := h.exists_thing hp
      exact (h.subs ha hb).2 ((h.supers ha hb).1 hmem)
  single hp := ⟨h.nodup_supers hp, h.nodup_subs hp⟩
  top := by
    have hlt := (h.named h.top).1
    exact ⟨hlt, (h.mem_members hlt).2 h.top⟩
  bottom := by
    have hlt := (h.named h.bottom).1
    exact ⟨hlt, (h.mem_members hlt).2 h.bottom⟩

end Taxonomy

namespace Reasoner

/-- In every state that calls lead to and in which the class taxonomy is done, it passes the audit.  Where the ontology is
consistent it is the Hasse diagram of the relation that holds between two classes if the context of the first one is found
to be empty or has the second one as a subsumer.  Where it is not, there is a single node that holds all classes. -/
theorem taxonomy_is_hasseDiagram {config : Config} {r₀ : Reasoner} (hr : Reasoner.new config = .ok r₀) (calls : List Call)
    (hdone : (r₀.after calls).stages.isDone .classTaxonomy = true) :
    let r := r₀.after calls
    ∃ t, r.taxonomy = some t ∧ t.audit r.index = .ok () ∧ (r.inconsistent = true ↔ Contradictory r.index.said) ∧
      (r.inconsistent = false → t.HasseDiagram Index.Class.iri fun a b : r.index.Class =>
        r.workspace.isUnsatisfiable a = true ∨ r.workspace.hasSubsumer a b = true) ∧
      (r.inconsistent = true → t.size = 1 ∧ t.top = 0 ∧ t.bottom = 0 ∧ (t.node 0).supers = [] ∧ (t.node 0).subs = [] ∧
        (t.node 0).members.Nodup ∧ ∀ s, s ∈ (t.node 0).members ↔ ∃ a : r.index.Class, a.iri = s) := by
  intro r
  have h : r.Sound := (undisturbed_after hr calls).sound
  have ht := h.taxonomy hdone
  refine ⟨_, ht, h.audit hdone ht, h.inconsistent_iff (h.closed.of_depth_lt hdone (by decide)), fun hconsistent => ?_,
    fun hinconsistent => ?_⟩
  · obtain ⟨hdraws, harranged⟩ := h.draws hdone hconsistent ht
    exact hdraws.hasseDiagram harranged
  · have hdraws := Taxonomy.draws_collapsed h.accounts.tidy
    rw [h.collapsed hdone hinconsistent ht]
    exact ⟨rfl, rfl, rfl, rfl, rfl, hdraws.nodup Nat.one_pos, fun s => Taxonomy.mem_collapsed h.accounts.tidy⟩

/-- A class that is equivalent to another one, and classes below and above them. -/
theorem taxonomy_is_hasseDiagram_equivalent : ∃ r₀, Reasoner.new (.standard 1) = .ok r₀ ∧
    let r := r₀.after [.add (.equivalentClasses [.named "A", .named "B"]), .add (.subClassOf (.named "B") (.named "C")),
      .ask .classify]
    r.inconsistent = false ∧ ∃ t, r.taxonomy = some t ∧ t.audit r.index = .ok () ∧
      t.HasseDiagram Index.Class.iri fun a b : r.index.Class =>
        r.workspace.isUnsatisfiable a = true ∨ r.workspace.hasSubsumer a b = true := by
  refine ⟨_, rfl, ?_⟩
  intro r
  have hconsistent : r.inconsistent = false := by decide +kernel
  obtain ⟨t, ht, haudit, -, hdiagram, -⟩ := taxonomy_is_hasseDiagram (show Reasoner.new (.standard 1) = _ from rfl)
    [.add (.equivalentClasses [.named "A", .named "B"]), .add (.subClassOf (.named "B") (.named "C")), .ask .classify]
    (show r.stages.isDone .classTaxonomy = true by decide +kernel)
  exact ⟨hconsistent, t, ht, haudit, hdiagram hconsistent⟩

end Reasoner

end ELOntology
