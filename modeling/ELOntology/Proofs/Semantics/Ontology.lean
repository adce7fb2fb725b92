import ELOntology.Proofs.Index.Classes
import ELOntology.Proofs.Index.Revision
import ELOntology.Proofs.Semantics.Entailment

/-!
# What an ontology says

What the asserted axioms say decides which names an index lists, which terms are included in others in all models, and
whether the ontology is contradictory.  Neither numbers nor the history of an index have a part in any of it, nor has the
order in which the axioms are asserted (`SameEntries`).

Key facts: `Index.Accounts.exists_class_iff`, `Index.Accounts.exists_individual_iff` (the names that an index lists) and
`not_void_of_not_mentions` (a name of which nothing is said is satisfiable).
-/

namespace ELOntology

/-- In all models the first term is included in the second one. -/
def Entails (said : List TermEntry) (sub sup : Term) : Prop :=
  ∀ I : Interpretation, SatisfiedAll I said → ∀ x, sub.Holds I x → sup.Holds I x

/-- In all models the term has no instances. -/
def Void (said : List TermEntry) (t : Term) : Prop := ∀ I : Interpretation, SatisfiedAll I said → ∀ x, ¬ t.Holds I x

/-- The term occurs in what is said. -/
def Mentions (said : List TermEntry) (t : Term) : Prop := ∃ polarity, .occurrence polarity t ∈ said

/-- The name is that of a class that occurs, or of the top or the bottom class. -/
def Lists (said : List TermEntry) (name : String) : Prop :=
  name = owlThing ∨ name = owlNothing ∨ Mentions said (.named name)

/-- Nothing can exist, or one of the individuals cannot. -/
def Contradictory (said : List TermEntry) : Prop :=
  Void said .thing ∨ ∃ individual, Mentions said (.nominal individual) ∧ Void said (.nominal individual)

/-- The same is said. -/
def SameEntries (said said' : List TermEntry) : Prop := ∀ entry, entry ∈ said' ↔ entry ∈ said

namespace SameEntries

variable {said said' : List TermEntry}

theorem refl (said : List TermEntry) : SameEntries said said := fun _ => Iff.rfl

theorem symm (h : SameEntries said said') : SameEntries said' said := fun entry => (h entry).symm

theorem trans {said'' : List TermEntry} (h : SameEntries said said') (h' : SameEntries said' said'') :
    SameEntries said said'' := fun entry => (h' entry).trans (h entry)

theorem satisfiedAll_iff (h : SameEntries said said') (I : Interpretation) : SatisfiedAll I said' ↔ SatisfiedAll I said :=
  forall_congr' fun entry => imp_congr (h entry) Iff.rfl

theorem entails_iff (h : SameEntries said said') {sub sup : Term} : Entails said' sub sup ↔ Entails said sub sup :=
  forall_congr' fun I => imp_congr (h.satisfiedAll_iff I) Iff.rfl

theorem void_iff (h : SameEntries said said') {t : Term} : Void said' t ↔ Void said t :=
  forall_congr' fun I => imp_congr (h.satisfiedAll_iff I) Iff.rfl

theorem mentions_iff (h : SameEntries said said') {t : Term} : Mentions said' t ↔ Mentions said t :=
  exists_congr fun _ => h _

theorem lists_iff (h : SameEntries said said') {name : String} : Lists said' name ↔ Lists said name :=
  or_congr_right (or_congr_right h.mentions_iff)

theorem contradictory_iff (h : SameEntries said said') : Contradictory said' ↔ Contradictory said :=
  or_congr h.void_iff (exists_congr fun _ => and_congr h.mentions_iff h.void_iff)

end SameEntries

/-! ### Names of which nothing is said -/

/-- The class of the given name is a part of the term. -/
def Term.Names (name : String) : Term → Prop
  | named iri => iri = name
  | conjunction first second => Names name first ∨ Names name second
  | existential _ filler => Names name filler
  | data .. | nominal _ => False

/-- The class of the given name is a part of a term that the entry restricts. -/
def TermEntry.Names (name : String) : TermEntry → Prop
  | .inclusion sub sup => sub.Names name ∨ sup.Names name
  | .disjointness ts => ∃ t ∈ ts, t.Names name
  | .occurrence .. | .roleInclusion .. | .composition .. => False

namespace Term

variable {name : String}

/-- A part of a term occurs where the term does. -/
theorem occurrence_mem_of_names {polarity : Polarity} {t : Term} (h : t.Names name) :
    .occurrence polarity (.named name) ∈ t.occurrences polarity := by
  induction t with
  | named iri =>
    obtain rfl : iri = name := h
    exact List.mem_singleton_self _
  | conjunction first second ih₁ ih₂ =>
    refine List.mem_cons_of_mem _ (List.mem_append.2 ?_)
    exact h.imp ih₁ ih₂
  | existential role filler ih => exact List.mem_cons_of_mem _ (ih h)
  | data | nominal => cases h

/-- Occurrences restrict nothing. -/
theorem not_names_of_mem_occurrences {polarity : Polarity} {t : Term} {entry : TermEntry}
    (hentry : entry ∈ t.occurrences polarity) : ¬ entry.Names name := by
  induction t with
  | conjunction first second ih₁ ih₂ =>
    rcases List.mem_cons.1 hentry with rfl | hentry
    · exact id
    · exact (List.mem_append.1 hentry).elim ih₁ ih₂
  | existential role filler ih =>
    rcases List.mem_cons.1 hentry with rfl | hentry
    · exact id
    · exact ih hentry
  | named | data | nominal =>
    rw [List.mem_singleton.1 hentry]
    exact id

end Term

/-- Whatever is restricted occurs. -/
def Grounded (said : List TermEntry) : Prop :=
  ∀ entry ∈ said, ∀ name, entry.Names name → Mentions said (.named name)

namespace Grounded

variable {said said' : List TermEntry}

theorem append (h : Grounded said) (h' : Grounded said') : Grounded (said ++ said') := by
  intro entry hentry name hname
  rcases List.mem_append.1 hentry with hentry | hentry
  · exact (h entry hentry name hname).imp fun _ => List.mem_append_left _
  · exact (h' entry hentry name hname).imp fun _ => List.mem_append_right _

theorem flatMap {α : Type} {f : α → List TermEntry} {xs : List α} (hf : ∀ x ∈ xs, Grounded (f x)) :
    Grounded (xs.flatMap f) := by
  intro entry hentry name hname
  obtain ⟨x, hx, hentry⟩ := List.mem_flatMap.1 hentry
  exact (hf x hx entry hentry name hname).imp fun _ hmem => List.mem_flatMap.2 ⟨x, hx, hmem⟩

theorem of_not_names (h : ∀ entry ∈ said, ∀ name, ¬ entry.Names name) : Grounded said :=
  fun entry hentry name hname => absurd hname (h entry hentry name)

/-- One more entry is grounded if the names that it restricts occur before it. -/
theorem append_single {entry : TermEntry} (h : Grounded said)
    (hentry : ∀ name, entry.Names name → Mentions said (.named name)) : Grounded (said ++ [entry]) := by
  intro other hother name hname
  rcases List.mem_append.1 hother with hother | hother
  · exact (h other hother name hname).imp fun _ => List.mem_append_left _
  · rw [List.mem_singleton.1 hother] at hname
    exact (hentry name hname).imp fun _ => List.mem_append_left _

end Grounded

namespace Term

theorem grounded_occurrences (polarity : Polarity) (t : Term) : Grounded (t.occurrences polarity) :=
  .of_not_names fun _ hentry _ => not_names_of_mem_occurrences hentry

theorem grounded_inclusionEntries (sub sup : Term) : Grounded (sub.inclusionEntries sup) := by
  refine ((grounded_occurrences _ _).append (grounded_occurrences _ _)).append_single fun name hname => ?_
  rcases hname with hname | hname
  · exact ⟨.negative, List.mem_append_left _ (occurrence_mem_of_names hname)⟩
  · exact ⟨.positive, List.mem_append_right _ (occurrence_mem_of_names hname)⟩

theorem grounded_equivalenceEntries (first : Term) (rest : List Term) : Grounded (first.equivalenceEntries rest) := by
  induction rest with
  | nil => exact .of_not_names fun _ hentry => absurd hentry List.not_mem_nil
  | cons other rest ih =>
    exact ((grounded_inclusionEntries first other).append (grounded_inclusionEntries other first)).append ih

theorem grounded_disjointnessEntries (ts : List Term) : Grounded (disjointnessEntries ts) := by
  refine (Grounded.flatMap fun t _ => grounded_occurrences _ t).append_single fun name hname => ?_
  obtain ⟨t, ht, hname⟩ := hname
  exact ⟨.negative, List.mem_flatMap.2 ⟨t, ht, occurrence_mem_of_names hname⟩⟩

end Term

theorem Axiom.grounded_entries {a : Axiom} {said : List TermEntry} (h : a.entries? = some said) : Grounded said := by
  cases hrole : a.isRoleAxiom with
  | true =>
    refine .of_not_names fun entry hentry name => ?_
    rcases role_of_mem_entries hrole h entry hentry with ⟨n, m, rfl⟩ | ⟨l, r, s, rfl⟩ <;> exact id
  | false =>
    cases form_entries hrole h with
    | nothing => exact .of_not_names fun _ hentry => absurd hentry List.not_mem_nil
    | occurrence t => exact t.grounded_occurrences .positive
    | inclusion sub sup => exact sub.grounded_inclusionEntries sup
    | equivalence first rest => exact first.grounded_equivalenceEntries rest
    | disjointness ts => exact Term.grounded_disjointnessEntries ts

theorem Index.grounded_said (ix : Index) : Grounded ix.said := Grounded.flatMap fun asserted _ => by
  cases h : asserted.1.entries? with
  | none => exact .of_not_names fun _ hentry => absurd hentry List.not_mem_nil
  | some said => exact Axiom.grounded_entries h

namespace Interpretation

variable {I : Interpretation} {name : String}

/-- The interpretation that differs in that everything is in the class of the given name. -/
def widen (I : Interpretation) (name : String) (hname : name ≠ owlNothing) : Interpretation :=
  { I with
    named := fun iri x => iri = name ∨ I.named iri x
    thing := fun x => .inr (I.thing x)
    nothing := fun x hx => hx.elim (fun e => hname e.symm) (I.nothing x) }

theorem holds_widen {hname : name ≠ owlNothing} {t : Term} (ht : ¬ t.Names name) (x : I.Domain) :
    t.Holds (I.widen name hname) x ↔ t.Holds I x := by
  induction t generalizing x with
  | named iri => exact or_iff_right ht
  | conjunction first second ih₁ ih₂ =>
    rw [Term.Names, not_or] at ht
    exact and_congr (ih₁ ht.1 x) (ih₂ ht.2 x)
  | existential role filler ih => exact exists_congr fun y => and_congr_right fun _ => ih ht y
  | data | nominal => exact Iff.rfl

/-- What is said restricts nothing that does not occur. -/
theorem satisfiedAll_widen {said : List TermEntry} (hsaid : Grounded said) {hname : name ≠ owlNothing}
    (h : ¬ Mentions said (.named name)) (hI : SatisfiedAll I said) : SatisfiedAll (I.widen name hname) said := by
  intro entry hentry
  have hfree : ¬ entry.Names name := fun hnames => h (hsaid entry hentry name hnames)
  have hsatisfied := hI entry hentry
  cases entry with
  | occurrence => trivial
  | inclusion sub sup =>
    rw [TermEntry.Names, not_or] at hfree
    exact fun (x : I.Domain) hx => (holds_widen hfree.2 x).2 (hsatisfied x ((holds_widen hfree.1 x).1 hx))
  | disjointness ts =>
    refine List.Pairwise.imp_of_mem (fun {t u} ht hu htu (x : I.Domain) hx => htu x ?_) hsatisfied
    have hmember {t : Term} (ht : t ∈ ts) : ¬ t.Names name := fun hnames => hfree ⟨t, ht, hnames⟩
    exact ⟨(holds_widen (hmember ht) x).1 hx.1, (holds_widen (hmember hu) x).1 hx.2⟩
  | roleInclusion | composition => exact hsatisfied

end Interpretation

/-- In an ontology that has a model, a name of which nothing is said is satisfiable. -/
theorem not_void_of_not_mentions {said : List TermEntry} (hsaid : Grounded said) (hmodel : ¬ Void said .thing) {name : String}
    (hname : name ≠ owlNothing) (h : ¬ Mentions said (.named name)) : ¬ Void said (.named name) := by
  intro hvoid
  refine hmodel fun I hI x _ => ?_
  exact hvoid (I.widen name hname) (I.satisfiedAll_widen hsaid h hI) x (.inl rfl)

/-! ### The names that an index lists -/

namespace Index

variable {ix ix' : Index}

/-- What the asserted axioms say is the same if the asserted axioms are. -/
theorem sameEntries_said (h : ∀ a, a ∈ ix'.axioms.map Prod.fst ↔ a ∈ ix.axioms.map Prod.fst) :
    SameEntries ix.said ix'.said := fun entry => by
  rw [mem_said_iff, mem_said_iff]
  exact exists_congr fun a => and_congr_left fun _ => h a

namespace Accounts

/-- A node occurs if what it stands for does. -/
theorem occurs_iff_mentions (h : ix.Accounts) {id : ExprId} {t : Term} (hid : ix.Denotes id t) :
    ix.occurs id = true ↔ Mentions ix.said t := by
  obtain ⟨entries, hledger, hreads⟩ := h.exists_entries
  have hentries (polarity : Polarity) : .occurrence polarity id ∈ entries ↔ .occurrence polarity t ∈ ix.said := by
    constructor
    · intro hentry
      obtain ⟨said, hsaid, hread⟩ := exists_right_of_mem hreads hentry
      cases hread with
      | occurrence hid' => exact hid.term_unique hid' ▸ hsaid
    · intro hsaid
      obtain ⟨entry, hentry, hread⟩ := exists_left_of_mem hreads hsaid
      cases hread with
      | occurrence hid' => exact h.tidy.id_unique hid' hid ▸ hentry
  obtain ⟨node, hnode⟩ := node?_isSome_iff.2 hid.lt_size
  rw [occurs, hnode]
  dsimp only
  rw [decide_eq_true_eq, hledger.nodes.occurrences hnode, Nat.add_pos_iff_pos_or_pos, List.count_pos_iff,
    List.count_pos_iff, hentries, hentries]
  constructor
  · rintro (hsaid | hsaid)
    · exact ⟨.positive, hsaid⟩
    · exact ⟨.negative, hsaid⟩
  · rintro ⟨polarity, hsaid⟩
    cases polarity with
    | positive => exact .inl hsaid
    | negative => exact .inr hsaid

/-- What occurs has a node. -/
theorem exists_denotes_of_mentions (h : ix.Accounts) {t : Term} (ht : Mentions ix.said t) : ∃ id, ix.Denotes id t := by
  obtain ⟨entries, -, hreads⟩ := h.exists_entries
  obtain ⟨polarity, hsaid⟩ := ht
  obtain ⟨entry, -, hread⟩ := exists_left_of_mem hreads hsaid
  cases hread with
  | occurrence hid => exact ⟨_, hid⟩

/-- A class is listed if its name is. -/
theorem mem_classes_iff_lists (h : ix.Accounts) {id : ExprId} {name : String} (hid : ix.shape? id = some (.named name)) :
    id ∈ ix.classes ↔ Lists ix.said name := by
  have hclass : ix.isClass id = true := isClass_iff.2 ⟨name, hid⟩
  have hthing : id = .thing ↔ name = owlThing := by
    constructor
    · rintro rfl
      exact Shape.named.inj (Option.some.inj (hid.symm.trans h.tidy.thing))
    · rintro rfl
      exact h.tidy.shape_unique hid h.tidy.thing
  have hnothing : id = .nothing ↔ name = owlNothing := by
    constructor
    · rintro rfl
      exact Shape.named.inj (Option.some.inj (hid.symm.trans h.tidy.nothing))
    · rintro rfl
      exact h.tidy.shape_unique hid h.tidy.nothing
  rw [mem_classes_iff, isListed, hclass, Bool.true_and, Bool.or_eq_true, Bool.or_eq_true, decide_eq_true_eq,
    decide_eq_true_eq, h.occurs_iff_mentions (.named hid), hthing, hnothing, Lists]
  tauto

/-- The classes have just the names that are listed. -/
theorem exists_class_iff (h : ix.Accounts) {name : String} : (∃ a : ix.Class, a.iri = name) ↔ Lists ix.said name := by
  constructor
  · rintro ⟨a, rfl⟩
    obtain ⟨iri, hshape, hname⟩ := exists_shape_of_mem_classes a.2
    show Lists ix.said (ix.iriOf a)
    rw [hname]
    exact (h.mem_classes_iff_lists hshape).1 a.2
  · intro hname
    obtain ⟨id, hid⟩ : ∃ id, ix.shape? id = some (.named name) := by
      rcases hname with rfl | rfl | hname
      · exact ⟨.thing, h.tidy.thing⟩
      · exact ⟨.nothing, h.tidy.nothing⟩
      · obtain ⟨id, hid⟩ := h.exists_denotes_of_mentions hname
        cases hid with
        | named hshape => exact ⟨id, hshape⟩
    refine ⟨⟨id, (h.mem_classes_iff_lists hid).2 hname⟩, ?_⟩
    exact iriOf_class hid

theorem mem_individuals_iff (h : ix.Accounts) {id : ExprId} :
    id ∈ ix.individuals ↔ ∃ name, ix.shape? id = some (.nominal name) ∧ Mentions ix.said (.nominal name) := by
  constructor
  · intro hid
    have hlisted := (List.mem_filter.1 hid).2
    split at hlisted
    · rename_i name hshape
      exact ⟨name, hshape, (h.occurs_iff_mentions (.nominal hshape)).1 hlisted⟩
    · cases hlisted
  · rintro ⟨name, hshape, hname⟩
    refine List.mem_filter.2 ⟨List.mem_map.2 ⟨id.val, List.mem_range.2 (lt_size_of_shape? hshape), rfl⟩, ?_⟩
    rw [hshape]
    exact (h.occurs_iff_mentions (.nominal hshape)).2 hname

/-- The individuals have just the names that occur. -/
theorem exists_individual_iff (h : ix.Accounts) {name : String} :
    (∃ id ∈ ix.individuals, ix.iriOf id = name) ↔ Mentions ix.said (.nominal name) := by
  constructor
  · rintro ⟨id, hid, rfl⟩
    obtain ⟨name, hshape, hname⟩ := h.mem_individuals_iff.1 hid
    rwa [iriOf_individual hshape]
  · intro hname
    obtain ⟨id, hid⟩ := h.exists_denotes_of_mentions hname
    cases hid with
    | nominal hshape => exact ⟨id, h.mem_individuals_iff.2 ⟨name, hshape, hname⟩, iriOf_individual hshape⟩

end Accounts

end Index

end ELOntology
