import Mathlib.Tactic.ByContra
import ELOntology.Proofs.Order.Cover
import ELOntology.Proofs.Order.Sorted
import ELOntology.Proofs.Taxonomy.Audit

/-!
# Taxonomies that draw a preorder

`t.Draws name le` says that a taxonomy is the Hasse diagram of a preorder `le` of things with names: its nodes hold the
names of the equivalence classes, and its links are the covering pairs.

Key facts: `Draws.mem_ancestors_iff` (the nodes above a node are those of the things strictly above), `Draws.audit_eq`
(a taxonomy that draws a preorder of the classes of an index passes the audit).
-/

namespace ELOntology

namespace Taxonomy

/-- The order of the members of a node: the top class, or else the bottom class, or else the least name stands first, and
the others ascend. -/
def Arranged : List String → Prop
  | [] => False
  | first :: rest => rest.Pairwise (· < ·) ∧ first ∉ rest ∧
      (first = owlThing ∨ owlThing ∉ rest ∧ (first = owlNothing ∨ owlNothing ∉ rest ∧ ∀ s ∈ rest, first < s))

/-- Arranged members depend on the set of members alone. -/
theorem Arranged.ext {members members' : List String} (h : Arranged members) (h' : Arranged members')
    (hmem : ∀ s, s ∈ members ↔ s ∈ members') : members = members' := by
  cases members with
  | nil => exact h.elim
  | cons first rest =>
    cases members' with
    | nil => exact h'.elim
    | cons first' rest' =>
      obtain ⟨hrest, hnot, hfirst⟩ := h
      obtain ⟨hrest', hnot', hfirst'⟩ := h'
      have hmem_or := (hmem first).1 (List.mem_cons_self ..)
      have hmem_or' := (hmem first').2 (List.mem_cons_self ..)
      rw [List.mem_cons] at hmem_or hmem_or'
      -- each of the two stands before the other
      have heq : first = first' := by
        rcases hmem_or with e | hin
        · exact e
        · rcases hmem_or' with e | hin'
          · exact e.symm
          · rcases hfirst with rfl | ⟨hthing, hfirst⟩
            · exact (hfirst'.elim (fun e => e.symm) fun h => absurd hin h.1)
            · rcases hfirst' with rfl | ⟨hthing', hfirst'⟩
              · exact absurd hin' hthing
              · rcases hfirst with rfl | ⟨hnothing, hfirst⟩
                · exact (hfirst'.elim (fun e => e.symm) fun h => absurd hin h.1)
                · rcases hfirst' with rfl | ⟨-, hfirst'⟩
                  · exact absurd hin' hnothing
                  · exact absurd (hfirst first' hin') (String.lt_asymm (hfirst' first hin))
      subst heq
      refine congrArg _ (ascending_ext hrest hrest' fun s => ⟨fun hs => ?_, fun hs => ?_⟩)
      · rcases List.mem_cons.1 ((hmem s).1 (List.mem_cons_of_mem _ hs)) with rfl | hs'
        · exact absurd hs hnot
        · exact hs'
      · rcases List.mem_cons.1 ((hmem s).2 (List.mem_cons_of_mem _ hs)) with rfl | hs'
        · exact absurd hs hnot'
        · exact hs'

structure Draws {α : Type} (t : Taxonomy) (name : α → String) (le : α → α → Prop) : Prop where
  refl (a : α) : le a a
  trans (a b c : α) : le a b → le b c → le a c
  /-- Each thing has a node. -/
  place (a : α) : ∃ p, t.place? (name a) = some p
  named {s : String} {p : Nat} : t.place? s = some p → p < t.size ∧ ∃ a, name a = s
  mem_members {p : Nat} {s : String} : p < t.size → (s ∈ (t.node p).members ↔ t.place? s = some p)
  members_ne_nil {p : Nat} : p < t.size → (t.node p).members ≠ []
  nodup {p : Nat} : p < t.size → (t.node p).members.Nodup
  /-- The nodes are the equivalence classes. -/
  same {a b : α} {p : Nat} : t.place? (name a) = some p → (t.place? (name b) = some p ↔ le a b ∧ le b a)
  supers_lt {p q : Nat} : p < t.size → q ∈ (t.node p).supers → q < t.size
  subs_lt {p q : Nat} : p < t.size → q ∈ (t.node p).subs → q < t.size
  nodup_supers {p : Nat} : p < t.size → (t.node p).supers.Nodup
  nodup_subs {p : Nat} : p < t.size → (t.node p).subs.Nodup
  /-- The links are the covering pairs. -/
  supers {a b : α} {p q : Nat} : t.place? (name a) = some p → t.place? (name b) = some q →
    (q ∈ (t.node p).supers ↔ Covers le a b)
  subs {a b : α} {p q : Nat} : t.place? (name a) = some p → t.place? (name b) = some q →
    (p ∈ (t.node q).subs ↔ Covers le a b)
  top : t.place? owlThing = some t.top
  bottom : t.place? owlNothing = some t.bottom

namespace Draws

variable {α : Type} {t : Taxonomy} {name : α → String} {le : α → α → Prop} {a b : α} {p q : Nat}

/-- Each node has a member. -/
theorem exists_thing (h : t.Draws name le) (hp : p < t.size) : ∃ a, t.place? (name a) = some p := by
  obtain ⟨s, hs⟩ := List.exists_mem_of_ne_nil _ (h.members_ne_nil hp)
  have hplace := (h.mem_members hp).1 hs
  obtain ⟨-, a, rfl⟩ := h.named hplace
  exact ⟨a, hplace⟩

/-- The first member of a node leads back to it. -/
theorem place?_canonical (h : t.Draws name le) (hp : p < t.size) : t.place? (t.node p).canonical = some p := by
  refine (h.mem_members hp).1 ?_
  have hne := h.members_ne_nil hp
  rw [TaxonomyNode.canonical]
  generalize (t.node p).members = members at hne
  cases members with
  | nil => exact absurd rfl hne
  | cons first rest => exact List.mem_cons_self ..

/-- The places of the nodes are closed under going up. -/
private theorem range_closed (h : t.Draws name le) :
    ∀ p ∈ List.range t.size, ∀ q, Leads (fun p => (t.node p).supers) p q → q ∈ List.range t.size :=
  fun _ hp _ hq => List.mem_range.2 (h.supers_lt (List.mem_range.1 hp) hq)

/-- Links lead up, to things above. -/
private theorem le_of_path (h : t.Draws name le) (hp : t.place? (name a) = some p)
    (hpath : Relation.ReflTransGen t.Up p q) :
    ∃ b, t.place? (name b) = some q ∧ le a b := by
  induction hpath with
  | refl => exact ⟨a, hp, h.refl a⟩
  | @tail q r _ hstep ih =>
    obtain ⟨b, hq, hab⟩ := ih
    obtain ⟨c, hr⟩ := h.exists_thing (h.supers_lt (h.named hq).1 hstep)
    exact ⟨c, hr, h.trans a b c hab ((h.supers hq hr).1 hstep).1.1⟩

/-- Covering pairs are links, so they make up a path. -/
private theorem path_of_covers (h : t.Draws name le) (hp : t.place? (name a) = some p)
    (hpath : Relation.ReflTransGen (Covers le) a b) (hq : t.place? (name b) = some q) :
    Relation.ReflTransGen t.Up p q := by
  induction hpath generalizing q with
  | refl =>
    obtain rfl : p = q := Option.some.inj (hp.symm.trans hq)
    exact .refl
  | @tail b c _ hcover ih =>
    obtain ⟨r, hr⟩ := h.place b
    exact (ih hr).tail ((h.supers hr hq).2 hcover)

/-- No name is a member twice. -/
private theorem nodup_members (h : t.Draws name le) : (t.nodes.toList.flatMap TaxonomyNode.members).Nodup := by
  have hnode {p : Nat} (hp : p < t.nodes.toList.length) : t.nodes.toList[p] = t.node p := by
    rw [Array.length_toList] at hp
    rw [node_eq_getElem hp]
    rfl
  rw [List.nodup_flatMap]
  constructor
  · intro node hmem
    obtain ⟨p, hp, rfl⟩ := List.getElem_of_mem hmem
    rw [hnode hp]
    exact h.nodup (by rwa [Array.length_toList] at hp)
  · rw [List.pairwise_iff_getElem]
    intro p q hp hq hlt s hsp hsq
    rw [hnode hp] at hsp
    rw [hnode hq] at hsq
    have hplace := (h.mem_members (lt_size_of_mem_members hsp)).1 hsp
    rw [(h.mem_members (lt_size_of_mem_members hsq)).1 hsq] at hplace
    cases hplace
    omega

private theorem checkMembers_eq (h : t.Draws name le) {ix : Index} (hclasses : ∀ id ∈ ix.classes, ∃ a, name a = ix.iriOf id) :
    t.checkMembers ix = .ok () := by
  refine checkMembers_eq_ok_iff.2 ⟨h.nodup_members, fun p m hm => ?_, fun id hid => ?_⟩
  · exact (h.mem_members (lt_size_of_mem_members hm)).1 hm
  · obtain ⟨a, ha⟩ := hclasses id hid
    obtain ⟨p, hp⟩ := h.place a
    exact ⟨p, ha ▸ (h.mem_members (h.named hp).1).2 hp⟩

/-- The links down are the links up, turned round. -/
theorem mem_supers_iff_mem_subs (h : t.Draws name le) : q ∈ (t.node p).supers ↔ p ∈ (t.node q).subs := by
  constructor
  · intro hq
    obtain ⟨a, ha⟩ := h.exists_thing (lt_size_of_mem_supers hq)
    obtain ⟨b, hb⟩ := h.exists_thing (h.supers_lt (lt_size_of_mem_supers hq) hq)
    exact (h.subs ha hb).2 ((h.supers ha hb).1 hq)
  · intro hp
    obtain ⟨b, hb⟩ := h.exists_thing (lt_size_of_mem_subs hp)
    obtain ⟨a, ha⟩ := h.exists_thing (h.subs_lt (lt_size_of_mem_subs hp) hp)
    exact (h.supers ha hb).2 ((h.subs ha hb).1 hp)

private theorem checkLinks_eq (h : t.Draws name le) : t.checkLinks = .ok () :=
  checkLinks_eq_ok_iff.2 fun _ _ => h.mem_supers_iff_mem_subs

/-- What is below a node are the nodes that it is above. -/
theorem mem_descendants_iff (h : t.Draws name le) (hp : p < t.size) (hq : q < t.size) :
    q ∈ t.descendants p ↔ p ∈ t.ancestors q := by
  have hsubs : ∀ p ∈ List.range t.size, ∀ q, Leads (fun p => (t.node p).subs) p q → q ∈ List.range t.size :=
    fun _ hp _ hq => List.mem_range.2 (h.subs_lt (List.mem_range.1 hp) hq)
  have hturned : Leads (fun p => (t.node p).subs) = Function.swap t.Up :=
    funext fun _ => funext fun _ => propext h.mem_supers_iff_mem_subs.symm
  rw [descendants, reachable, mem_drop_reach_iff (List.range t.size) (List.mem_range.2 hp) hsubs
    (Nat.le_of_eq List.length_range), ancestors, reachable, mem_drop_reach_iff (List.range t.size) (List.mem_range.2 hq)
    h.range_closed (Nat.le_of_eq List.length_range), hturned, Relation.reflTransGen_swap]
  exact and_congr_right fun _ => ne_comm

variable [Finite α]

/-- A path leads up from one node to another if and only if what they hold is below. -/
theorem path_iff (h : t.Draws name le) (hp : t.place? (name a) = some p) (hq : t.place? (name b) = some q) :
    Relation.ReflTransGen t.Up p q ↔ le a b := by
  constructor
  · intro hpath
    obtain ⟨c, hc, hac⟩ := h.le_of_path hp hpath
    exact h.trans a c b hac ((h.same hc).1 hq).1
  · intro hab
    obtain ⟨c, hpath, hcb, hbc⟩ := exists_path_of_le h.trans h.refl hab
    exact h.path_of_covers hp hpath ((h.same hq).2 ⟨hbc, hcb⟩)

/-- The nodes above a node are those of the things strictly above. -/
theorem mem_ancestors_iff (h : t.Draws name le) (hp : t.place? (name a) = some p) (hq : t.place? (name b) = some q) :
    q ∈ t.ancestors p ↔ Strict le a b := by
  have hlt := (h.named hp).1
  rw [ancestors, reachable, mem_drop_reach_iff (List.range t.size) (List.mem_range.2 hlt) h.range_closed
    (Nat.le_of_eq List.length_range), h.path_iff hp hq]
  refine and_congr_right fun hab => ?_
  constructor
  · intro hne hba
    exact hne (Option.some.inj (hq.symm.trans ((h.same hp).2 ⟨hab, hba⟩)))
  · rintro hba rfl
    exact hba ((h.same hp).1 hq).2

private theorem checkReduction_eq (h : t.Draws name le) : t.checkReduction = .ok () := by
  have hranged : t.Ranged := ⟨fun hq => h.supers_lt (lt_size_of_mem_supers hq) hq, fun hq => h.subs_lt (lt_size_of_mem_subs hq) hq⟩
  refine (checkReduction_eq_ok_iff hranged).2 ⟨fun p hpath => ?_, fun p via hvia redundant hredundant hne hpath => ?_⟩
  · obtain ⟨q, hq, hback⟩ := Relation.TransGen.head'_iff.1 hpath
    obtain ⟨a, ha⟩ := h.exists_thing (lt_size_of_mem_supers hq)
    obtain ⟨b, hb⟩ := h.exists_thing (hranged.supers hq)
    -- a link leads strictly up
    exact ((h.supers ha hb).1 hq).1.2 ((h.path_iff hb ha).1 hback)
  · obtain ⟨a, ha⟩ := h.exists_thing (lt_size_of_mem_supers hvia)
    obtain ⟨b, hb⟩ := h.exists_thing (hranged.supers hvia)
    obtain ⟨c, hc⟩ := h.exists_thing (hranged.supers hredundant)
    have hbc := (h.path_iff hb hc).1 hpath
    -- nothing is between a node and one that covers it, so both links lead to the same node
    have hcb : le c b := Classical.byContradiction fun hcb =>
      ((h.supers ha hc).1 hredundant).2 b ((h.supers ha hb).1 hvia).1 ⟨hbc, hcb⟩
    have hsame := (h.same hb).2 ⟨hbc, hcb⟩
    rw [hc] at hsame
    exact hne (Option.some.inj hsame)

/-- A taxonomy that draws a preorder of the classes of an index passes the audit. -/
theorem audit_eq (h : t.Draws name le) {ix : Index} (hclasses : ∀ id ∈ ix.classes, ∃ a, name a = ix.iriOf id) :
    t.audit ix = .ok () :=
  audit_eq_ok_iff_checks.2 ⟨h.checkMembers_eq hclasses, h.checkLinks_eq, h.checkReduction_eq⟩

end Draws

end Taxonomy

end ELOntology
