import ELOntology.Proofs.Taxonomy.Drawing
import ELOntology.Proofs.Taxonomy.Types

/-!
# Taxonomies under other numbers

The places of the nodes of a taxonomy depend on the numbers of the classes.  Taxonomies that draw the same preorder of
names have the same nodes and links up to that (`Draws.alike`), and give the same answers to all questions by
name.
-/

namespace ELOntology

namespace Taxonomy

/-- Links and the table of classes lead to nodes. -/
structure Linked (t : Taxonomy) : Prop where
  supers_lt {p q : Nat} : p < t.size → q ∈ (t.node p).supers → q < t.size
  subs_lt {p q : Nat} : p < t.size → q ∈ (t.node p).subs → q < t.size
  place_lt {s : String} {p : Nat} : t.place? s = some p → p < t.size

theorem Draws.linked {α : Type} {t : Taxonomy} {name : α → String} {le : α → α → Prop} (h : t.Draws name le) : t.Linked :=
  ⟨h.supers_lt, h.subs_lt, fun hp => (h.named hp).1⟩

/-- What can be reached along links that lead to nodes are nodes. -/
theorem lt_of_mem_reachable {t : Taxonomy} {next : TaxonomyNode → List Nat} {p q : Nat}
    (hclosed : ∀ p < t.size, ∀ q ∈ next (t.node p), q < t.size) (hp : p < t.size) (hq : q ∈ t.reachable next p) :
    q < t.size := by
  rw [reachable, mem_drop_reach_iff (List.range t.size) (List.mem_range.2 hp)
    (fun p hp q hq => List.mem_range.2 (hclosed p (List.mem_range.1 hp) q hq)) (Nat.le_of_eq List.length_range)] at hq
  have hpath := hq.1
  clear hq
  induction hpath with
  | refl => exact hp
  | tail _ hlast ih => exact hclosed _ ih _ hlast

theorem Linked.ancestors_lt {t : Taxonomy} (ht : t.Linked) {p q : Nat} (hp : p < t.size) (hq : q ∈ t.ancestors p) :
    q < t.size := lt_of_mem_reachable (fun _ hp _ => ht.supers_lt hp) hp hq

theorem Linked.descendants_lt {t : Taxonomy} (ht : t.Linked) {p q : Nat} (hp : p < t.size) (hq : q ∈ t.descendants p) :
    q < t.size := lt_of_mem_reachable (fun _ hp _ => ht.subs_lt hp) hp hq

/-- The second taxonomy is the first one with the nodes at other places. -/
structure Renumbers (σ : Nat → Nat) (t t' : Taxonomy) : Prop where
  lt {p : Nat} : p < t.size → σ p < t'.size
  injective {p q : Nat} : p < t.size → q < t.size → σ p = σ q → p = q
  surjective {p : Nat} : p < t'.size → ∃ q < t.size, σ q = p
  members {p : Nat} : p < t.size → (t'.node (σ p)).members = (t.node p).members
  supers {p : Nat} : p < t.size → (t'.node (σ p)).supers.Perm ((t.node p).supers.map σ)
  subs {p : Nat} : p < t.size → (t'.node (σ p)).subs.Perm ((t.node p).subs.map σ)
  place? (s : String) : t'.place? s = (t.place? s).map σ
  top : t'.top = σ t.top
  bottom : t'.bottom = σ t.bottom

/-- The taxonomies are the same up to the places of the nodes. -/
def Alike (t t' : Taxonomy) : Prop := ∃ σ, Renumbers σ t t'

theorem Alike.refl (t : Taxonomy) : t.Alike t :=
  ⟨id, id, fun _ _ => id, fun hp => ⟨_, hp, rfl⟩, fun _ => rfl, fun _ => (List.map_id _).symm ▸ .refl _,
    fun _ => (List.map_id _).symm ▸ .refl _, fun _ => Option.map_id_apply.symm, rfl, rfl⟩

namespace Renumbers

variable {σ : Nat → Nat} {t t' : Taxonomy} {p q : Nat}

theorem canonical_eq (h : Renumbers σ t t') (hp : p < t.size) : (t'.node (σ p)).canonical = (t.node p).canonical := by
  rw [TaxonomyNode.canonical, TaxonomyNode.canonical, h.members hp]

theorem place?_eq_some_iff (h : Renumbers σ t t') (ht : t.Linked) (hp : p < t.size) {s : String} :
    t'.place? s = some (σ p) ↔ t.place? s = some p := by
  rw [h.place?, Option.map_eq_some_iff]
  constructor
  · rintro ⟨q, hq, e⟩
    rwa [← h.injective (ht.place_lt hq) hp e]
  · exact fun hp' => ⟨p, hp', rfl⟩

/-- Names of nodes are the same under other numbers. -/
theorem canonicals_eq (h : Renumbers σ t t') {places places' : List Nat} (hlt : ∀ p ∈ places, p < t.size)
    (hplaces : ∀ p', p' ∈ places' ↔ ∃ p ∈ places, σ p = p') : t'.canonicals places' = t.canonicals places := by
  refine textSet_congr fun s => ?_
  rw [List.mem_map, List.mem_map]
  constructor
  · rintro ⟨p', hp', rfl⟩
    obtain ⟨p, hp, rfl⟩ := (hplaces p').1 hp'
    exact ⟨p, hp, (h.canonical_eq (hlt p hp)).symm⟩
  · rintro ⟨p, hp, rfl⟩
    exact ⟨σ p, (hplaces _).2 ⟨p, hp, rfl⟩, h.canonical_eq (hlt p hp)⟩

/-- What can be reached along links is the same under other numbers. -/
theorem mem_reachable_iff (h : Renumbers σ t t') {next : TaxonomyNode → List Nat}
    (hnext : ∀ p < t.size, (next (t'.node (σ p))).Perm ((next (t.node p)).map σ))
    (hclosed : ∀ p < t.size, ∀ q ∈ next (t.node p), q < t.size) (hp : p < t.size) {q' : Nat} :
    q' ∈ t'.reachable next (σ p) ↔ ∃ q < t.size, q ∈ t.reachable next p ∧ σ q = q' := by
  have hstep {p q' : Nat} (hp : p < t.size) : q' ∈ next (t'.node (σ p)) ↔ ∃ q ∈ next (t.node p), σ q = q' := by
    rw [(hnext p hp).mem_iff, List.mem_map]
  -- a path under the new numbers is the image of one under the old numbers
  have hpath {q' : Nat} : Relation.ReflTransGen (Leads fun p => next (t'.node p)) (σ p) q' ↔
      ∃ q < t.size, Relation.ReflTransGen (Leads fun p => next (t.node p)) p q ∧ σ q = q' := by
    constructor
    · intro hpath
      induction hpath with
      | refl => exact ⟨p, hp, .refl, rfl⟩
      | tail _ hlast ih =>
        obtain ⟨q, hq, hpath, rfl⟩ := ih
        obtain ⟨r, hr, rfl⟩ := (hstep hq).1 hlast
        exact ⟨r, hclosed q hq r hr, hpath.tail hr, rfl⟩
    · rintro ⟨q, -, hpath, rfl⟩
      have hforward : q < t.size ∧ Relation.ReflTransGen (Leads fun p => next (t'.node p)) (σ p) (σ q) := by
        induction hpath with
        | refl => exact ⟨hp, .refl⟩
        | tail _ hlast ih => exact ⟨hclosed _ ih.1 _ hlast, ih.2.tail ((hstep ih.1).2 ⟨_, hlast, rfl⟩)⟩
      exact hforward.2
  have hclosed' : ∀ p' ∈ List.range t'.size, ∀ q', Leads (fun p => next (t'.node p)) p' q' → q' ∈ List.range t'.size := by
    intro p' hp' q' hq'
    obtain ⟨p, hp, rfl⟩ := h.surjective (List.mem_range.1 hp')
    obtain ⟨q, hq, rfl⟩ := (hstep hp).1 hq'
    exact List.mem_range.2 (h.lt (hclosed p hp q hq))
  have hrange : ∀ p ∈ List.range t.size, ∀ q, Leads (fun p => next (t.node p)) p q → q ∈ List.range t.size :=
    fun p hp q hq => List.mem_range.2 (hclosed p (List.mem_range.1 hp) q hq)
  rw [reachable, mem_drop_reach_iff (List.range t'.size) (List.mem_range.2 (h.lt hp)) hclosed'
    (Nat.le_of_eq List.length_range), hpath]
  constructor
  · rintro ⟨⟨q, hq, hpath, rfl⟩, hne⟩
    refine ⟨q, hq, ?_, rfl⟩
    rw [reachable, mem_drop_reach_iff (List.range t.size) (List.mem_range.2 hp) hrange (Nat.le_of_eq List.length_range)]
    exact ⟨hpath, fun e => hne (congrArg σ e)⟩
  · rintro ⟨q, hq, hreach, rfl⟩
    rw [reachable, mem_drop_reach_iff (List.range t.size) (List.mem_range.2 hp) hrange
      (Nat.le_of_eq List.length_range)] at hreach
    exact ⟨⟨q, hq, hreach.1, rfl⟩, fun e => hreach.2 (h.injective hq hp e)⟩

/-- The nodes above a node are the same under other numbers. -/
theorem mem_ancestors_iff (h : Renumbers σ t t') (ht : t.Linked) (hp : p < t.size) {q' : Nat} :
    q' ∈ t'.ancestors (σ p) ↔ ∃ q < t.size, q ∈ t.ancestors p ∧ σ q = q' :=
  h.mem_reachable_iff (fun _ => h.supers) (fun _ hp _ => ht.supers_lt hp) hp

theorem mem_descendants_iff (h : Renumbers σ t t') (ht : t.Linked) (hp : p < t.size) {q' : Nat} :
    q' ∈ t'.descendants (σ p) ↔ ∃ q < t.size, q ∈ t.descendants p ∧ σ q = q' :=
  h.mem_reachable_iff (fun _ => h.subs) (fun _ hp _ => ht.subs_lt hp) hp

/-! ### Answers by name -/

theorem nodeOf?_map_members (h : Renumbers σ t t') (ht : t.Linked) (s : String) :
    (t'.nodeOf? s).map TaxonomyNode.members = (t.nodeOf? s).map TaxonomyNode.members := by
  rw [nodeOf?, nodeOf?, h.place?]
  cases hp : t.place? s with
  | none => rfl
  | some p => exact congrArg some (h.members (ht.place_lt hp))

theorem equivalents?_eq (h : Renumbers σ t t') (ht : t.Linked) (s : String) : t'.equivalents? s = t.equivalents? s := by
  have hmembers := congrArg (Option.map textSet) (h.nodeOf?_map_members ht s)
  rwa [Option.map_map, Option.map_map] at hmembers

/-- Names found from the place of a class are the same if what is found is. -/
private theorem found_eq (h : Renumbers σ t t') (ht : t.Linked) (found found' : Nat → List Nat)
    (hlt : ∀ p < t.size, ∀ q ∈ found p, q < t.size)
    (hfound : ∀ p < t.size, ∀ q', q' ∈ found' (σ p) ↔ ∃ q ∈ found p, σ q = q') (s : String) :
    ((t'.place? s).map fun p => t'.canonicals (found' p)) = (t.place? s).map fun p => t.canonicals (found p) := by
  rw [h.place?]
  cases hp : t.place? s with
  | none => rfl
  | some p => exact congrArg some (h.canonicals_eq (hlt p (ht.place_lt hp)) (hfound p (ht.place_lt hp)))

theorem directSupers?_eq (h : Renumbers σ t t') (ht : t.Linked) (s : String) : t'.directSupers? s = t.directSupers? s := by
  rw [directSupers?, directSupers?, nodeOf?, nodeOf?, Option.map_map, Option.map_map]
  refine h.found_eq ht (fun p => (t.node p).supers) (fun p => (t'.node p).supers)
    (fun p hp q hq => ht.supers_lt hp hq) (fun p hp q' => ?_) s
  rw [(h.supers hp).mem_iff, List.mem_map]

theorem directSubs?_eq (h : Renumbers σ t t') (ht : t.Linked) (s : String) : t'.directSubs? s = t.directSubs? s := by
  rw [directSubs?, directSubs?, nodeOf?, nodeOf?, Option.map_map, Option.map_map]
  refine h.found_eq ht (fun p => (t.node p).subs) (fun p => (t'.node p).subs)
    (fun p hp q hq => ht.subs_lt hp hq) (fun p hp q' => ?_) s
  rw [(h.subs hp).mem_iff, List.mem_map]

theorem supers?_eq (h : Renumbers σ t t') (ht : t.Linked) (s : String) : t'.supers? s = t.supers? s := by
  refine h.found_eq ht t.ancestors t'.ancestors (fun p hp q hq => ht.ancestors_lt hp hq) (fun p hp q' => ?_) s
  rw [h.mem_ancestors_iff ht hp]
  exact ⟨fun ⟨q, _, hq, e⟩ => ⟨q, hq, e⟩, fun ⟨q, hq, e⟩ => ⟨q, ht.ancestors_lt hp hq, hq, e⟩⟩

theorem subs?_eq (h : Renumbers σ t t') (ht : t.Linked) (s : String) : t'.subs? s = t.subs? s := by
  refine h.found_eq ht t.descendants t'.descendants (fun p hp q hq => ht.descendants_lt hp hq) (fun p hp q' => ?_) s
  rw [h.mem_descendants_iff ht hp]
  exact ⟨fun ⟨q, _, hq, e⟩ => ⟨q, hq, e⟩, fun ⟨q, hq, e⟩ => ⟨q, ht.descendants_lt hp hq, hq, e⟩⟩

/-! ### Realizations -/

/-- The lowest of the nodes of certain classes have the same names under other numbers. -/
theorem canonicals_lowest_eq (h : Renumbers σ t t') (ht : t.Linked) {P : String → Prop} {places places' : List Nat}
    (hplaces : ∀ p, p ∈ places ↔ ∃ s, t.place? s = some p ∧ P s)
    (hplaces' : ∀ p, p ∈ places' ↔ ∃ s, t'.place? s = some p ∧ P s) :
    t'.canonicals (Realization.lowest t' places') = t.canonicals (Realization.lowest t places) := by
  have hlt {p : Nat} (hp : p ∈ places) : p < t.size := by
    obtain ⟨s, hs, -⟩ := (hplaces p).1 hp
    exact ht.place_lt hs
  have hmem {p : Nat} (hp : p < t.size) : σ p ∈ places' ↔ p ∈ places := by
    rw [hplaces, hplaces']
    exact exists_congr fun s => and_congr_left fun _ => h.place?_eq_some_iff ht hp
  -- the places of the other taxonomy are the images of those of this one
  have himage {p' : Nat} (hp' : p' ∈ places') : ∃ p ∈ places, σ p = p' := by
    obtain ⟨s, hs, hP⟩ := (hplaces' p').1 hp'
    rw [h.place?, Option.map_eq_some_iff] at hs
    obtain ⟨p, hp, rfl⟩ := hs
    exact ⟨p, (hplaces p).2 ⟨s, hp, hP⟩, rfl⟩
  refine h.canonicals_eq (fun p hp => hlt (Realization.mem_lowest_iff.1 hp).1) fun p' => ?_
  have habove {p q : Nat} (hp : p < t.size) (hq : q < t.size) : σ p ∈ t'.ancestors (σ q) ↔ p ∈ t.ancestors q := by
    rw [h.mem_ancestors_iff ht hq]
    exact ⟨fun ⟨r, hr, hmem, e⟩ => h.injective hr hp e ▸ hmem, fun hmem => ⟨p, hp, hmem, rfl⟩⟩
  rw [Realization.mem_lowest_iff]
  constructor
  · rintro ⟨hp', hmin⟩
    obtain ⟨p, hp, rfl⟩ := himage hp'
    refine ⟨p, Realization.mem_lowest_iff.2 ⟨hp, fun q hq hne habv => ?_⟩, rfl⟩
    exact hmin (σ q) ((hmem (hlt hq)).2 hq) (fun e => hne (h.injective (hlt hq) (hlt hp) e))
      ((habove (hlt hp) (hlt hq)).2 habv)
  · rintro ⟨p, hp, rfl⟩
    obtain ⟨hp, hmin⟩ := Realization.mem_lowest_iff.1 hp
    refine ⟨(hmem (hlt hp)).2 hp, fun q' hq' hne habv => ?_⟩
    obtain ⟨q, hq, rfl⟩ := himage hq'
    exact hmin q hq (fun e => hne (congrArg σ e)) ((habove (hlt hp) (hlt hq)).1 habv)

/-- The types of an individual, with all that is above them, have the same names under other numbers. -/
theorem types?_eq (h : Renumbers σ t t') (ht : t.Linked) (i : Realization) (individual : String) :
    i.types? t' individual = i.types? t individual := by
  refine congrArg (fun f => (i.directTypes? individual).map f) (funext fun direct => textSet_congr fun s => ?_)
  rw [List.mem_append, List.mem_append, List.mem_flatMap, List.mem_flatMap]
  refine or_congr_right (exists_congr fun name => and_congr_right fun _ => ?_)
  rw [h.place?]
  cases hp : t.place? name with
  | none => rfl
  | some p =>
    have hlt := ht.place_lt hp
    simp only [Option.map_some, List.mem_map]
    constructor
    · rintro ⟨q', hq', rfl⟩
      obtain ⟨q, hq, hmem, rfl⟩ := (h.mem_ancestors_iff ht hlt).1 hq'
      exact ⟨q, hmem, (h.canonical_eq hq).symm⟩
    · rintro ⟨q, hq, rfl⟩
      have hqlt := ht.ancestors_lt hlt hq
      exact ⟨σ q, (h.mem_ancestors_iff ht hlt).2 ⟨q, hqlt, hq, rfl⟩, h.canonical_eq hqlt⟩

end Renumbers

/-! ### Taxonomies that draw the same preorder -/

/-- The same names are in the same order. -/
structure SameOrder {α β : Type} (name : α → String) (le : α → α → Prop) (name' : β → String) (le' : β → β → Prop) :
    Prop where
  right (a : α) : ∃ b, name' b = name a
  left (b : β) : ∃ a, name a = name' b
  le_iff {a c : α} {b d : β} : name' b = name a → name' d = name c → (le' b d ↔ le a c)

namespace SameOrder

variable {α β : Type} {name : α → String} {le : α → α → Prop} {name' : β → String} {le' : β → β → Prop} {a c : α} {b d : β}

theorem covers_iff (h : SameOrder name le name' le') (hb : name' b = name a) (hd : name' d = name c) :
    Covers le' b d ↔ Covers le a c := by
  have hstrict {a c : α} {b d : β} (hb : name' b = name a) (hd : name' d = name c) : Strict le' b d ↔ Strict le a c :=
    and_congr (h.le_iff hb hd) (not_congr (h.le_iff hd hb))
  refine and_congr (hstrict hb hd) ⟨fun hbetween e he hec => ?_, fun hbetween f hf hfd => ?_⟩
  · obtain ⟨f, hf⟩ := h.right e
    exact hbetween f ((hstrict hb hf).2 he) ((hstrict hf hd).2 hec)
  · obtain ⟨e, he⟩ := h.left f
    exact hbetween e ((hstrict hb he.symm).1 hf) ((hstrict he.symm hd).1 hfd)

end SameOrder

/-- The place in another taxonomy of the first member of a node. -/
def placeIn (t t' : Taxonomy) (p : Nat) : Nat := (t'.place? (t.node p).canonical).getD 0

namespace Draws

variable {α β : Type} {t t' : Taxonomy} {name : α → String} {le : α → α → Prop} {name' : β → String} {le' : β → β → Prop}
variable {p q : Nat}

/-- Some thing is the first member of a node. -/
private theorem exists_canonical (h : t.Draws name le) (hp : p < t.size) :
    ∃ a, name a = (t.node p).canonical ∧ t.place? (name a) = some p := by
  have hplace := h.place?_canonical hp
  obtain ⟨-, a, ha⟩ := h.named hplace
  exact ⟨a, ha, ha ▸ hplace⟩

variable (h : t.Draws name le) (h' : t'.Draws name' le') (hsame : SameOrder name le name' le')

include h h' hsame

/-- Each node has one in the other taxonomy with the same first member. -/
private theorem exists_counterpart (hp : p < t.size) : ∃ a b, name' b = name a ∧ t.place? (name a) = some p ∧
    t'.place? (name' b) = some (t.placeIn t' p) := by
  obtain ⟨a, ha, hplace⟩ := h.exists_canonical hp
  obtain ⟨b, hb⟩ := hsame.right a
  obtain ⟨p', hp'⟩ := h'.place b
  refine ⟨a, b, hb, hplace, ?_⟩
  rw [placeIn, ← ha, ← hb, hp']
  rfl

/-- The table of the other taxonomy leads to the corresponding nodes. -/
private theorem place?_map (s : String) : t'.place? s = (t.place? s).map (t.placeIn t') := by
  cases hp : t.place? s with
  | none =>
    cases hp' : t'.place? s with
    | none => rfl
    | some p' =>
      obtain ⟨-, b, rfl⟩ := h'.named hp'
      obtain ⟨a, ha⟩ := hsame.left b
      obtain ⟨p, hplace⟩ := h.place a
      rw [ha, hp] at hplace
      cases hplace
  | some p =>
    obtain ⟨hlt, c, rfl⟩ := h.named hp
    obtain ⟨d, hd⟩ := hsame.right c
    obtain ⟨a, b, hb, ha, hb'⟩ := exists_counterpart h h' hsame hlt
    -- the class shares its node with the first member of the node, in both taxonomies
    have hshared := (h.same ha).1 hp
    rw [← hd]
    exact (h'.same hb').2 ⟨(hsame.le_iff hb hd).2 hshared.1, (hsame.le_iff hd hb).2 hshared.2⟩

private theorem placeIn_injective (hp : p < t.size) (hq : q < t.size) (e : t.placeIn t' p = t.placeIn t' q) : p = q := by
  obtain ⟨a, b, hb, ha, hb'⟩ := exists_counterpart h h' hsame hp
  obtain ⟨c, d, hd, hc, hd'⟩ := exists_counterpart h h' hsame hq
  have hshared := (h'.same hb').1 (e ▸ hd')
  have hpc := (h.same ha).2 ⟨(hsame.le_iff hb hd).1 hshared.1, (hsame.le_iff hd hb).1 hshared.2⟩
  exact Option.some.inj (hpc.symm.trans hc)

private theorem placeIn_surjective {p' : Nat} (hp' : p' < t'.size) : ∃ p < t.size, t.placeIn t' p = p' := by
  obtain ⟨b, hb⟩ := h'.exists_thing hp'
  rw [place?_map h h' hsame, Option.map_eq_some_iff] at hb
  obtain ⟨p, hp, rfl⟩ := hb
  exact ⟨p, (h.named hp).1, rfl⟩

/-- Links without repetition that lead to nodes correspond if they do one by one. -/
private theorem perm_links {links links' : List Nat} (hnodup : links.Nodup) (hnodup' : links'.Nodup)
    (hlinks : ∀ q ∈ links, q < t.size) (hlinks' : ∀ q' ∈ links', q' < t'.size)
    (hiff : ∀ q < t.size, t.placeIn t' q ∈ links' ↔ q ∈ links) : links'.Perm (links.map (t.placeIn t')) := by
  refine (List.perm_ext_iff_of_nodup hnodup' ?_).2 fun q' => ?_
  · exact hnodup.map_on fun p hp q hq e => placeIn_injective h h' hsame (hlinks p hp) (hlinks q hq) e
  · rw [List.mem_map]
    constructor
    · intro hq'
      obtain ⟨q, hq, rfl⟩ := placeIn_surjective h h' hsame (hlinks' q' hq')
      exact ⟨q, (hiff q hq).1 hq', rfl⟩
    · rintro ⟨q, hq, rfl⟩
      exact (hiff q (hlinks q hq)).2 hq

/-- Taxonomies that draw the same preorder of names, with members in the same order, are the same up to numbers. -/
theorem alike (harranged : ∀ {p}, p < t.size → Arranged (t.node p).members)
    (harranged' : ∀ {p}, p < t'.size → Arranged (t'.node p).members) : t.Alike t' := by
  have hlt {p : Nat} (hp : p < t.size) : t.placeIn t' p < t'.size := by
    obtain ⟨a, b, -, -, hb⟩ := exists_counterpart h h' hsame hp
    exact (h'.named hb).1
  have hplace := place?_map h h' hsame
  have hfound {p : Nat} (hp : p < t.size) {s : String} : t'.place? s = some (t.placeIn t' p) ↔ t.place? s = some p := by
    rw [hplace, Option.map_eq_some_iff]
    exact ⟨fun ⟨q, hq, e⟩ => placeIn_injective h h' hsame (h.named hq).1 hp e ▸ hq, fun hp => ⟨p, hp, rfl⟩⟩
  refine ⟨t.placeIn t', hlt, placeIn_injective h h' hsame, placeIn_surjective h h' hsame, fun hp => ?_, fun {p} hp => ?_,
    fun {p} hp => ?_, hplace, ?_, ?_⟩
  · refine Arranged.ext (harranged' (hlt hp)) (harranged hp) fun s => ?_
    rw [h'.mem_members (hlt hp), h.mem_members hp, hfound hp]
  · refine perm_links h h' hsame (h.nodup_supers hp) (h'.nodup_supers (hlt hp)) (fun q hq => h.supers_lt hp hq)
      (fun q hq => h'.supers_lt (hlt hp) hq) fun q hq => ?_
    obtain ⟨a, b, hb, ha, hb'⟩ := exists_counterpart h h' hsame hp
    obtain ⟨c, d, hd, hc, hd'⟩ := exists_counterpart h h' hsame hq
    rw [h.supers ha hc, h'.supers hb' hd', hsame.covers_iff hb hd]
  · refine perm_links h h' hsame (h.nodup_subs hp) (h'.nodup_subs (hlt hp)) (fun q hq => h.subs_lt hp hq)
      (fun q hq => h'.subs_lt (hlt hp) hq) fun q hq => ?_
    obtain ⟨a, b, hb, ha, hb'⟩ := exists_counterpart h h' hsame hp
    obtain ⟨c, d, hd, hc, hd'⟩ := exists_counterpart h h' hsame hq
    rw [h.subs hc ha, h'.subs hd' hb', hsame.covers_iff hd hb]
  · have htop := h'.top
    rw [hplace, h.top] at htop
    exact (Option.some.inj htop).symm
  · have hbottom := h'.bottom
    rw [hplace, h.bottom] at hbottom
    exact (Option.some.inj hbottom).symm

end Draws

end Taxonomy

end ELOntology
