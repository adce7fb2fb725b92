import ELOntology.Index.Intern
import ELOntology.Proofs.Index.Term
import ELOntology.Proofs.Order.Sorted

/-!
# The term of a class expression

Which term a class expression is numbered as depends on the expression alone, and so does whether it can be numbered at
all: `ClassExpression.term?` says both.  `Indexing.Follows` relates a computation on an index to such an optional value.

Key fact: `ClassExpression.intern_follows`.  Where the order of conjuncts depends on numbers, the hashes collide and
interning fails, so the history of the index has no influence.
-/

namespace ELOntology

namespace Term

/-- The intersection of terms: paired from the left in the order of hashes, and none when two different terms have the
same hash. -/
def intersection? (ts : List Term) : Option Term :=
  if ∀ t ∈ ts, ∀ u ∈ ts, t.hash = u.hash → t = u then
    match sortBy (fun t u => decide (t.hash ≤ u.hash)) ts with
    | [] => none
    | first :: rest => some (rest.foldl .conjunction first)
  else none

end Term

namespace ClassExpression

mutual

/-- The term that a class expression is numbered as. -/
def term? : ClassExpression → Option Term
  | named iri => some (.named iri)
  | thing => some .thing
  | nothing => some .nothing
  | intersection operands => do
    let ts ← conjunctTerms? operands
    Term.intersection? ts
  | someValues role filler => do
    let t ← term? filler
    return .existential role t
  | hasValue role individual => some (.existential role (.nominal individual))
  | oneOf individual => some (.nominal individual)
  | dataHasValue property literal => some (.data property (.value literal.datatype literal.lexical))
  | dataSomeValues property range => some (.data property range.valueSpace)

/-- The terms of conjuncts, those of nested intersections in their places. -/
def conjunctTerms? : List ClassExpression → Option (List Term)
  | [] => some []
  | intersection operands :: rest => do
    let inner ← conjunctTerms? operands
    let outer ← conjunctTerms? rest
    return inner ++ outer
  | operand :: rest => do
    let t ← term? operand
    let ts ← conjunctTerms? rest
    return t :: ts

end

def terms? : List ClassExpression → Option (List Term)
  | [] => some []
  | e :: es => do
    let t ← term? e
    let ts ← terms? es
    return t :: ts

end ClassExpression

namespace Index

/-- The nodes stand for the terms, one by one. -/
abbrev DenoteAll (ix : Index) : List ExprId → List Term → Prop := List.Forall₂ ix.Denotes

theorem Names.denoteAll {ix ix' : Index} (h : ix.Names ix') {ids : List ExprId} {ts : List Term}
    (hd : ix.DenoteAll ids ts) : ix'.DenoteAll ids ts := hd.imp fun _ _ => h.denotes

end Index

/-! ### Computations on an index -/

namespace Indexing

/-- The computation succeeds when there is a value, with a result that is related to it, and fails when there is none.
Either way it only makes nodes and roles. -/
def Follows {α β : Type} (m : Indexing α) (v : Option β) (R : Index → α → β → Prop) (ix : Index) : Prop :=
  ∃ ix' : Index, ix'.Tidy ∧ ix.Grown ix' ∧
    match v with
    | some b => ∃ a, m ix = (.ok a, ix') ∧ R ix' a b
    | none => ∃ e, m ix = (.error e, ix')

variable {α β γ δ : Type} {ix : Index}

theorem bind_apply (m : Indexing α) (f : α → Indexing γ) (ix : Index) : (m >>= f) ix =
    match m ix with
    | (.ok a, ix') => f a ix'
    | (.error e, ix') => (.error e, ix') := by
  show (ExceptT.bind m f) ix = _
  unfold ExceptT.bind ExceptT.mk
  show (match m ix with | (a, s) => ExceptT.bindCont f a s) = _
  rcases m ix with ⟨a | a, ix'⟩ <;> rfl

theorem Follows.pure (hix : ix.Tidy) {R : Index → α → β → Prop} {a : α} {b : β} (h : R ix a b) :
    Follows (Pure.pure a) (some b) R ix :=
  ⟨ix, hix, .refl ix, a, rfl, h⟩

theorem Follows.bind {m : Indexing α} {v : Option β} {R : Index → α → β → Prop} (hm : m.Follows v R ix)
    {f : α → Indexing γ} {g : β → Option δ} {S : Index → γ → δ → Prop}
    (hf : ∀ a b ix', ix'.Tidy → ix.Grown ix' → R ix' a b → (f a).Follows (g b) S ix') :
    (m >>= f).Follows (v >>= g) S ix := by
  obtain ⟨ix', htidy, hgrown, h⟩ := hm
  cases v with
  | none =>
    obtain ⟨e, he⟩ := h
    exact ⟨ix', htidy, hgrown, e, by rw [bind_apply, he]⟩
  | some b =>
    obtain ⟨a, ha, hR⟩ := h
    obtain ⟨ix'', htidy', hgrown', h⟩ := hf a b ix' htidy hgrown hR
    refine ⟨ix'', htidy', hgrown.trans hgrown', ?_⟩
    rw [bind_apply, ha]
    exact h

/-- A step that always succeeds leaves the value to what comes after it. -/
theorem Follows.andThen {m : Indexing α} {b : β} {R : Index → α → β → Prop} (hm : m.Follows (some b) R ix)
    {f : α → Indexing γ} {v : Option δ} {S : Index → γ → δ → Prop}
    (hf : ∀ a ix', ix'.Tidy → ix.Grown ix' → R ix' a b → (f a).Follows v S ix') : (m >>= f).Follows v S ix := by
  obtain ⟨ix', htidy, hgrown, a, ha, hR⟩ := hm
  obtain ⟨ix'', htidy', hgrown', h⟩ := hf a ix' htidy hgrown hR
  refine ⟨ix'', htidy', hgrown.trans hgrown', ?_⟩
  rw [bind_apply, ha]
  exact h

theorem intern_follows (hix : ix.Tidy) {shape : Shape} {t : Term} (hshape : shape.Within ix)
    (ht : ∀ ix' id, ix.Grown ix' → ix'.shape? id = some shape → ix'.Denotes id t) :
    (Indexing.intern shape).Follows (some t) Index.Denotes ix := by
  obtain ⟨htidy, hgrown, hid⟩ := hix.intern hshape
  exact ⟨_, htidy, hgrown, _, rfl, ht _ _ hgrown hid⟩

theorem internRole_follows (hix : ix.Tidy) (name : String) :
    (Indexing.internRole name).Follows (some name) (fun ix' role n => ix'.role? role = some n) ix := by
  obtain ⟨htidy, hgrown, hrole⟩ := hix.internRole name
  exact ⟨_, htidy, hgrown, _, rfl, hrole⟩

theorem intern_named_follows (hix : ix.Tidy) (iri : String) :
    (Indexing.intern (.named iri)).Follows (some (.named iri)) Index.Denotes ix :=
  intern_follows hix trivial fun _ _ _ h => .named h

theorem intern_nominal_follows (hix : ix.Tidy) (individual : String) :
    (Indexing.intern (.nominal individual)).Follows (some (.nominal individual)) Index.Denotes ix :=
  intern_follows hix trivial fun _ _ _ h => .nominal h

theorem intern_data_follows (hix : ix.Tidy) (property : String) (space : ValueSpace) :
    (Indexing.intern (.data property space)).Follows (some (.data property space)) Index.Denotes ix :=
  intern_follows hix trivial fun _ _ _ h => .data h

theorem intern_conjunction_follows (hix : ix.Tidy) {first second : ExprId} {t u : Term} (hfirst : ix.Denotes first t)
    (hsecond : ix.Denotes second u) :
    (Indexing.intern (.conjunction first second)).Follows (some (.conjunction t u)) Index.Denotes ix :=
  intern_follows hix ⟨hfirst.lt_size, hsecond.lt_size⟩ fun _ _ hgrown h =>
    .conjunction h (hgrown.names.denotes hfirst) (hgrown.names.denotes hsecond)

theorem intern_existential_follows (hix : ix.Tidy) {role : RoleId} {filler : ExprId} {name : String} {t : Term}
    (hrole : ix.role? role = some name) (hfiller : ix.Denotes filler t) :
    (Indexing.intern (.existential role filler)).Follows (some (.existential name t)) Index.Denotes ix :=
  intern_follows hix ⟨Index.lt_size_of_role? hrole, hfiller.lt_size⟩ fun _ _ hgrown h =>
    .existential h (hgrown.role? hrole) (hgrown.names.denotes hfiller)

/-! ### Ordering conjuncts -/

/-- Keys and numbers as they are sorted, and the terms that they stand for. -/
private def Keyed (ix : Index) (ts : List Term) (key : UInt64 × ExprId) (t : Term) : Prop :=
  key.1 = t.hash ∧ ix.Denotes key.2 t ∧ t ∈ ts

private theorem forall₂_keyed {ix : Index} (hix : ix.Tidy) {ids : List ExprId} {ts us : List Term}
    (h : ix.DenoteAll ids ts) (hts : ∀ t ∈ ts, t ∈ us) :
    List.Forall₂ (Keyed ix us) (ids.map fun id => (ix.hashOf id, id)) ts := by
  induction h with
  | nil => exact .nil
  | cons hid _ ih =>
    refine .cons ⟨hix.hashOf_eq hid, hid, hts _ (List.mem_cons_self ..)⟩ (ih fun t ht => ?_)
    exact hts t (List.mem_cons_of_mem _ ht)

private theorem conjunctLe_total (a b : UInt64 × ExprId) : conjunctLe a b = true ∨ conjunctLe b a = true := by
  simp only [conjunctLe, Bool.or_eq_true, Bool.and_eq_true, decide_eq_true_eq]
  rcases UInt64.lt_or_lt_of_ne (a := a.1) (b := b.1) with h
  by_cases e : a.1 = b.1
  · rcases Nat.le_total a.2.val b.2.val with hle | hle
    · exact .inl (.inr ⟨e, hle⟩)
    · exact .inr (.inr ⟨e.symm, hle⟩)
  · rcases h e with h | h
    · exact .inl (.inl h)
    · exact .inr (.inl h)

private theorem conjunctLe_trans (a b c : UInt64 × ExprId) (hab : conjunctLe a b = true) (hbc : conjunctLe b c = true) :
    conjunctLe a c = true := by
  simp only [conjunctLe, Bool.or_eq_true, Bool.and_eq_true, decide_eq_true_eq] at hab hbc ⊢
  rcases hab with hab | ⟨hab, hle⟩ <;> rcases hbc with hbc | ⟨hbc, hle'⟩
  · exact .inl (UInt64.lt_trans hab hbc)
  · exact .inl (hbc ▸ hab)
  · exact .inl (hab ▸ hbc)
  · exact .inr ⟨hab.trans hbc, Nat.le_trans hle hle'⟩

private theorem key_le_of_conjunctLe {a b : UInt64 × ExprId} (h : conjunctLe a b = true) : a.1 ≤ b.1 := by
  simp only [conjunctLe, Bool.or_eq_true, Bool.and_eq_true, decide_eq_true_eq] at h
  rcases h with h | ⟨h, -⟩
  · exact UInt64.le_of_lt h
  · exact h ▸ UInt64.le_refl _

/-- In an ascending list without a collision, equal hashes belong to the same node. -/
private theorem eq_of_collision?_eq_none {keys : List (UInt64 × ExprId)} (hsorted : keys.Pairwise (conjunctLe · · = true))
    (h : collision? keys = none) : keys.Pairwise fun a b => a.1 = b.1 → a.2 = b.2 := by
  induction keys with
  | nil => exact .nil
  | cons a keys ih =>
    cases keys with
    | nil => exact List.pairwise_singleton _ _
    | cons b keys =>
      obtain ⟨ha, hsorted'⟩ := List.pairwise_cons.1 hsorted
      rw [collision?] at h
      split at h
      · cases h
      · rename_i hne
        have ih := ih hsorted' h
        refine List.pairwise_cons.2 ⟨fun c hc e => ?_, ih⟩
        have hb : a.1 = b.1 → a.2 = b.2 := fun e => Classical.byContradiction fun hne' => hne ⟨e, hne'⟩
        rcases List.mem_cons.1 hc with rfl | hc
        · exact hb e
        · have hbc := key_le_of_conjunctLe ((List.pairwise_cons.1 hsorted').1 c hc)
          have hab : a.1 = b.1 := UInt64.le_antisymm (key_le_of_conjunctLe (ha b (List.mem_cons_self ..))) (e ▸ hbc)
          exact (hb hab).trans ((List.pairwise_cons.1 ih).1 c hc (hab.symm.trans e))

private theorem collision?_eq_some {keys : List (UInt64 × ExprId)} {a b : ExprId} {hash : UInt64}
    (h : collision? keys = some (a, b, hash)) : (hash, a) ∈ keys ∧ (hash, b) ∈ keys ∧ a ≠ b := by
  induction keys with
  | nil => cases h
  | cons x keys ih =>
    cases keys with
    | nil => cases h
    | cons y keys =>
      rw [collision?] at h
      split at h
      · rename_i hcollide
        cases h
        refine ⟨List.mem_cons_self .., ?_, hcollide.2⟩
        rw [hcollide.1]
        exact List.mem_cons_of_mem _ (List.mem_cons_self ..)
      · obtain ⟨h₁, h₂, hne⟩ := ih h
        exact ⟨List.mem_cons_of_mem _ h₁, List.mem_cons_of_mem _ h₂, hne⟩

/-- Without different terms of the same hash, the order of conjuncts is that of the hashes. -/
private theorem orderConjuncts_of_injective (hix : ix.Tidy) {ids : List ExprId} {ts : List Term}
    (h : ix.DenoteAll ids ts) (hts : ∀ t ∈ ts, ∀ u ∈ ts, t.hash = u.hash → t = u) :
    ∃ ordered, orderConjuncts ix ids = .ok ordered ∧
      ix.DenoteAll ordered (sortBy (fun t u => decide (t.hash ≤ u.hash)) ts) := by
  have hsame {a b : UInt64 × ExprId} {t u : Term} (ha : Keyed ix ts a t) (hb : Keyed ix ts b u) (e : a.1 = b.1) :
      a.2 = b.2 := by
    obtain rfl := hts t ha.2.2 u hb.2.2 (ha.1.symm.trans (e.trans hb.1))
    exact hix.id_unique ha.2.1 hb.2.1
  have hle (a b : UInt64 × ExprId) (t u : Term) (ha : Keyed ix ts a t) (hb : Keyed ix ts b u) :
      conjunctLe a b = decide (t.hash ≤ u.hash) := by
    rw [← ha.1, ← hb.1, Bool.eq_iff_iff, decide_eq_true_iff]
    refine ⟨key_le_of_conjunctLe, fun hle => ?_⟩
    simp only [conjunctLe, Bool.or_eq_true, Bool.and_eq_true, decide_eq_true_eq]
    by_cases e : a.1 = b.1
    · exact .inr ⟨e, Nat.le_of_eq (congrArg ExprId.val (hsame ha hb e))⟩
    · exact .inl (UInt64.lt_of_le_of_ne hle e)
  have hkeyed := forall₂_keyed hix h fun t ht => ht
  have hsorted := forall₂_sortBy hle hkeyed
  unfold orderConjuncts
  generalize (ids.map fun id => (ix.hashOf id, id)) = keys at hkeyed hsorted
  dsimp only
  split
  · rename_i a b hash hcollision
    obtain ⟨ha, hb, hne⟩ := collision?_eq_some hcollision
    obtain ⟨t, -, ht⟩ := exists_right_of_mem hsorted ha
    obtain ⟨u, -, hu⟩ := exists_right_of_mem hsorted hb
    exact absurd (hsame ht hu rfl) hne
  · exact ⟨_, rfl, (List.forall₂_map_left_iff).2 (hsorted.imp fun _ _ h => h.2.1)⟩

private theorem orderConjuncts_of_not_injective (hix : ix.Tidy) {ids : List ExprId} {ts : List Term}
    (h : ix.DenoteAll ids ts) (hts : ¬ ∀ t ∈ ts, ∀ u ∈ ts, t.hash = u.hash → t = u) :
    ∃ e, orderConjuncts ix ids = .error e := by
  have hkeyed := forall₂_keyed hix h fun t ht => ht
  unfold orderConjuncts
  generalize (ids.map fun id => (ix.hashOf id, id)) = keys at hkeyed
  dsimp only
  split
  · exact ⟨_, rfl⟩
  · rename_i hcollision
    refine absurd (fun t ht u hu e => ?_) hts
    obtain ⟨a, hamem, ha⟩ := exists_left_of_mem hkeyed ht
    obtain ⟨b, hbmem, hb⟩ := exists_left_of_mem hkeyed hu
    have hpairs := eq_of_collision?_eq_none (pairwise_sortBy conjunctLe_total conjunctLe_trans keys) hcollision
    have : Std.Symm fun a b : UInt64 × ExprId => a.1 = b.1 → a.2 = b.2 := ⟨fun _ _ h e => (h e.symm).symm⟩
    have hab : a.2 = b.2 := by
      refine hpairs.forall_of_forall (fun _ _ _ => rfl) (mem_sortBy.2 hamem) (mem_sortBy.2 hbmem) ?_
      rw [ha.1, hb.1, e]
    exact ha.2.1.term_unique (hab ▸ hb.2.1)

/-! ### Interning expressions -/

private theorem internFold_follows {id : ExprId} {t : Term} {ids : List ExprId} {ts : List Term} (hix : ix.Tidy)
    (hid : ix.Denotes id t) (h : ix.DenoteAll ids ts) :
    (internFold id ids).Follows (some (ts.foldl .conjunction t)) Index.Denotes ix := by
  induction ids generalizing ix id t ts with
  | nil =>
    cases h
    exact .pure hix hid
  | cons next rest ih =>
    cases h with
    | cons hnext hrest =>
      exact (intern_conjunction_follows hix hid hnext).bind (fun _ _ _ htidy hgrown hacc =>
        ih htidy hacc (hgrown.names.denoteAll hrest))

theorem internConjunction_follows {ids : List ExprId} {ts : List Term} (hix : ix.Tidy) (h : ix.DenoteAll ids ts) :
    (internConjunction ids).Follows (Term.intersection? ts) Index.Denotes ix := by
  unfold Follows internConjunction
  rw [bind_apply]
  simp only [show (get : Indexing Index) ix = (.ok ix, ix) from rfl]
  unfold Term.intersection?
  split_ifs with hts
  · obtain ⟨ordered, hordered, hdenote⟩ := orderConjuncts_of_injective hix h hts
    rw [hordered]
    generalize sortBy (fun t u => decide (t.hash ≤ u.hash)) ts = sorted at hdenote
    cases hdenote with
    | nil => exact ⟨ix, hix, .refl ix, _, rfl⟩
    | cons hfirst hrest => exact internFold_follows hix hfirst hrest
  · obtain ⟨e, he⟩ := orderConjuncts_of_not_injective hix h hts
    rw [he]
    exact ⟨ix, hix, .refl ix, e, rfl⟩

end Indexing

namespace ClassExpression

open Indexing

mutual

/-- Interning a class expression gives the node of its term if it has one, and fails if not. -/
theorem intern_follows {ix : Index} (hix : ix.Tidy) :
    (e : ClassExpression) → e.intern.Follows e.term? Index.Denotes ix
  | named iri => intern_named_follows hix iri
  | thing => .pure hix hix.denotes_thing
  | nothing => .pure hix hix.denotes_nothing
  | intersection operands => by
    rw [intern, term?]
    exact (internConjuncts_follows hix operands).bind fun ids ts ix' htidy _ h => internConjunction_follows htidy h
  | someValues role filler => by
    rw [intern, term?]
    refine (intern_follows hix filler).bind fun id t ix' htidy _ hid => ?_
    refine (internRole_follows htidy role).andThen fun r ix'' htidy' hgrown hr => ?_
    exact intern_existential_follows htidy' hr (hgrown.names.denotes hid)
  | hasValue role individual => by
    rw [intern, term?]
    refine (intern_nominal_follows hix individual).andThen fun id ix' htidy _ hid => ?_
    refine (internRole_follows htidy role).andThen fun r ix'' htidy' hgrown hr => ?_
    exact intern_existential_follows htidy' hr (hgrown.names.denotes hid)
  | oneOf individual => intern_nominal_follows hix individual
  | dataHasValue property literal => intern_data_follows hix property _
  | dataSomeValues property range => intern_data_follows hix property _

theorem internConjuncts_follows {ix : Index} (hix : ix.Tidy) :
    (es : List ClassExpression) → (internConjuncts es).Follows (conjunctTerms? es) Index.DenoteAll ix
  | [] => .pure hix .nil
  | e :: es => by
    have operand (h : internConjuncts (e :: es) = do
          let id ← e.intern
          let ids ← internConjuncts es
          return id :: ids)
        (h' : conjunctTerms? (e :: es) = do
          let t ← e.term?
          let ts ← conjunctTerms? es
          return t :: ts) : (internConjuncts (e :: es)).Follows (conjunctTerms? (e :: es)) Index.DenoteAll ix := by
      rw [h, h']
      refine (intern_follows hix e).bind fun id t ix' htidy _ hid => ?_
      refine (internConjuncts_follows htidy es).bind fun ids ts ix'' htidy' hgrown hids => ?_
      exact .pure htidy' (.cons (hgrown.names.denotes hid) hids)
    cases e with
    | intersection operands =>
      rw [internConjuncts, conjunctTerms?]
      refine (internConjuncts_follows hix operands).bind fun ids ts ix' htidy _ hids => ?_
      refine (internConjuncts_follows htidy es).bind fun ids' ts' ix'' htidy' hgrown hids' => ?_
      exact .pure htidy' (List.rel_append (hgrown.names.denoteAll hids) hids')
    | _ => exact operand (by rw [internConjuncts]; simp) (by rw [conjunctTerms?]; simp)

end

theorem internAll_follows {ix : Index} (hix : ix.Tidy) (es : List ClassExpression) :
    (internAll es).Follows (terms? es) Index.DenoteAll ix := by
  induction es generalizing ix with
  | nil => exact .pure hix .nil
  | cons e es ih =>
    rw [internAll, terms?]
    refine (intern_follows hix e).bind fun id t ix' htidy _ hid => ?_
    refine (ih htidy).bind fun ids ts ix'' htidy' hgrown hids => ?_
    exact .pure htidy' (.cons (hgrown.names.denotes hid) hids)

end ClassExpression

end ELOntology
