import Mathlib.Data.List.Perm.Basic
import ELOntology.Proofs.Index.Canonical

/-!
# Normal forms of class expressions

A normal form is what is left of a class expression when the order and the grouping of its conjuncts are disregarded, and
different ways of writing the same restriction: intersections hold at least two parts, none of which is an intersection.
`NormalForm.Same` compares normal forms, with the parts of every intersection as a multiset.

Key facts: two expressions have the same term just when their normal forms are the same (`same_iff_of_term?`), and an
expression has no term just when one of the intersections in it is `Flawed` (`term?_eq_none_iff`).
-/

namespace ELOntology

inductive NormalForm where
  | named (iri : String)
  | intersection (parts : List NormalForm)
  | existential (role : String) (filler : NormalForm)
  | data (property : String) (space : ValueSpace)
  | nominal (individual : String)

namespace NormalForm

/-- Equality of normal forms when the order of parts does not matter, at any depth. -/
inductive Same : NormalForm → NormalForm → Prop
  | refl (n : NormalForm) : Same n n
  | symm {n m : NormalForm} : Same n m → Same m n
  | trans {n m o : NormalForm} : Same n m → Same m o → Same n o
  | perm {parts parts' : List NormalForm} : parts.Perm parts' → Same (intersection parts) (intersection parts')
  | part (before after : List NormalForm) {n m : NormalForm} :
      Same n m → Same (intersection (before ++ n :: after)) (intersection (before ++ m :: after))
  | filler (role : String) {n m : NormalForm} : Same n m → Same (existential role n) (existential role m)

/-- The intersection of the parts, which is the part itself if there is one only. -/
def meet : List NormalForm → NormalForm
  | [part] => part
  | parts => intersection parts

end NormalForm

namespace ClassExpression

/-- The conjuncts of an intersection, those of its nested intersections in their places. -/
def conjuncts : List ClassExpression → List ClassExpression
  | [] => []
  | intersection operands :: rest => conjuncts operands ++ conjuncts rest
  | operand :: rest => operand :: conjuncts rest

mutual

def normalForm : ClassExpression → NormalForm
  | named iri => .named iri
  | thing => .named owlThing
  | nothing => .named owlNothing
  | intersection operands => .meet (conjunctForms operands)
  | someValues role filler => .existential role filler.normalForm
  | hasValue role individual => .existential role (.nominal individual)
  | oneOf individual => .nominal individual
  | dataHasValue property literal => .data property (.value literal.datatype literal.lexical)
  | dataSomeValues property range => .data property range.valueSpace

/-- The normal forms of the conjuncts of an intersection. -/
def conjunctForms : List ClassExpression → List NormalForm
  | [] => []
  | intersection operands :: rest => conjunctForms operands ++ conjunctForms rest
  | operand :: rest => operand.normalForm :: conjunctForms rest

end

/-- The operands are those of an intersection inside the expression that is not itself an operand of an intersection. -/
inductive HasMeet : ClassExpression → List ClassExpression → Prop
  | here (operands : List ClassExpression) : HasMeet (intersection operands) operands
  | conjunct {operands operands' : List ClassExpression} {c : ClassExpression} (hc : c ∈ conjuncts operands) :
      HasMeet c operands' → HasMeet (intersection operands) operands'
  | filler (role : String) {e : ClassExpression} {operands : List ClassExpression} :
      HasMeet e operands → HasMeet (someValues role e) operands

end ClassExpression

/-! ### The term of a normal form -/

/-- A list has an image under a partial function if each of its elements has one. -/
theorem mapM_eq_some_iff {α β : Type} {f : α → Option β} {xs : List α} {ys : List β} :
    xs.mapM f = some ys ↔ List.Forall₂ (fun x y => f x = some y) xs ys := by
  induction xs generalizing ys with
  | nil => simp [eq_comm]
  | cons x xs ih =>
    rw [List.mapM_cons]
    constructor
    · intro h
      obtain ⟨y, hy, h⟩ := Option.bind_eq_some_iff.1 h
      obtain ⟨zs, hzs, h⟩ := Option.bind_eq_some_iff.1 h
      obtain rfl := Option.some.inj h
      exact .cons hy (ih.1 hzs)
    · rintro (_ | ⟨hy, hzs⟩)
      rw [hy, ih.2 hzs]
      rfl

namespace Term

theorem intersection?_eq_none_iff {ts : List Term} :
    intersection? ts = none ↔ ts = [] ∨ ∃ t ∈ ts, ∃ u ∈ ts, t ≠ u ∧ t.hash = u.hash := by
  have hnil : sortBy (fun t u : Term => decide (t.hash ≤ u.hash)) ts = [] ↔ ts = [] := by
    rw [← List.length_eq_zero_iff, (sortBy_perm _ ts).length_eq, List.length_eq_zero_iff]
  unfold intersection?
  split
  · rename_i hts
    cases hsorted : sortBy (fun t u : Term => decide (t.hash ≤ u.hash)) ts with
    | nil => exact ⟨fun _ => .inl (hnil.1 hsorted), fun _ => rfl⟩
    | cons first rest =>
      refine ⟨nofun, ?_⟩
      rintro (h | ⟨t, ht, u, hu, hne, e⟩)
      · cases hsorted.symm.trans (hnil.2 h)
      · exact absurd (hts t ht u hu e) hne
  · rename_i hts
    simp only [not_forall] at hts
    obtain ⟨t, ht, u, hu, e, hne⟩ := hts
    exact ⟨fun _ => .inr ⟨t, ht, u, hu, hne, e⟩, fun _ => rfl⟩

private theorem pairwise_sortBy_hash (ts : List Term) :
    (sortBy (fun t u => decide (t.hash ≤ u.hash)) ts).Pairwise fun t u => decide (t.hash ≤ u.hash) = true := by
  refine pairwise_sortBy (fun t u => ?_) (fun t u v htu huv => ?_) ts
  · rcases UInt64.le_total t.hash u.hash with h | h
    · exact .inl (decide_eq_true h)
    · exact .inr (decide_eq_true h)
  · exact decide_eq_true (UInt64.le_trans (of_decide_eq_true htu) (of_decide_eq_true huv))

/-- The intersection of terms does not depend on their order. -/
theorem intersection?_perm {ts us : List Term} (h : ts.Perm us) : intersection? ts = intersection? us := by
  have hperm := (sortBy_perm (fun t u => decide (t.hash ≤ u.hash)) ts).trans
    (h.trans (sortBy_perm (fun t u => decide (t.hash ≤ u.hash)) us).symm)
  unfold intersection?
  simp only [h.mem_iff]
  split <;> rename_i hus
  · rw [hperm.eq_of_pairwise (fun t u ht hu htu hut => ?_) (pairwise_sortBy_hash ts) (pairwise_sortBy_hash us)]
    refine hus t (h.mem_iff.1 (mem_sortBy.1 ht)) u (mem_sortBy.1 hu) ?_
    exact UInt64.le_antisymm (of_decide_eq_true htu) (of_decide_eq_true hut)
  · rfl

theorem intersection?_singleton (t : Term) : intersection? [t] = some t := by
  simp [intersection?, sortBy, insertBy]

end Term

namespace NormalForm

mutual

/-- The term of the expressions with this normal form. -/
def term? : NormalForm → Option Term
  | named iri => some (.named iri)
  | intersection parts => do
    let ts ← terms? parts
    Term.intersection? ts
  | existential role filler => do
    let t ← term? filler
    return .existential role t
  | data property space => some (.data property space)
  | nominal individual => some (.nominal individual)

def terms? : List NormalForm → Option (List Term)
  | [] => some []
  | n :: ns => do
    let t ← term? n
    let ts ← terms? ns
    return t :: ts

end

theorem terms?_eq_mapM (ns : List NormalForm) : terms? ns = ns.mapM term? := by
  induction ns with
  | nil => rfl
  | cons n ns ih => rw [terms?, List.mapM_cons, ih]

/-- Parts in another order have the same terms in another order. -/
private theorem exists_terms?_perm {ns ms : List NormalForm} (h : ns.Perm ms) {us : List Term}
    (hus : terms? ms = some us) : ∃ ts, terms? ns = some ts ∧ ts.Perm us := by
  rw [terms?_eq_mapM, mapM_eq_some_iff] at hus
  obtain ⟨ts, hts, hperm⟩ := List.perm_comp_forall₂ h hus
  exact ⟨ts, by rw [terms?_eq_mapM, mapM_eq_some_iff]; exact hts, hperm⟩

private theorem term?_intersection_perm {ns ms : List NormalForm} (h : ns.Perm ms) :
    (intersection ns).term? = (intersection ms).term? := by
  rw [term?, term?]
  cases hms : terms? ms with
  | some us =>
    obtain ⟨ts, hts, hperm⟩ := exists_terms?_perm h hms
    rw [hts]
    exact Term.intersection?_perm hperm
  | none =>
    cases hns : terms? ns with
    | none => rfl
    | some ts =>
      obtain ⟨us, hus, -⟩ := exists_terms?_perm h.symm hns
      cases hms.symm.trans hus

/-- Normal forms that are the same have the same term. -/
theorem Same.term?_eq {n m : NormalForm} (h : n.Same m) : n.term? = m.term? := by
  induction h with
  | refl n => rfl
  | symm _ ih => exact ih.symm
  | trans _ _ ih₁ ih₂ => exact ih₁.trans ih₂
  | perm h => exact term?_intersection_perm h
  | part before after _ ih =>
    rw [term?, term?, terms?_eq_mapM, terms?_eq_mapM, List.mapM_append, List.mapM_append, List.mapM_cons,
      List.mapM_cons, ih]
  | filler role _ ih => rw [term?, term?, ih]

theorem term?_meet (ns : List NormalForm) : (meet ns).term? = terms? ns >>= Term.intersection? := by
  match ns with
  | [n] =>
    rw [meet, terms?, terms?]
    cases n.term? with
    | none => rfl
    | some t => exact (Term.intersection?_singleton t).symm
  | [] | _ :: _ :: _ => rfl

/-! ### The normal form of a term -/

def parts : NormalForm → List NormalForm
  | intersection parts => parts
  | n => [n]

theorem Same.all_parts {ns ms : List NormalForm} (h : List.Forall₂ Same ns ms) :
    Same (intersection ns) (intersection ms) := by
  suffices h : ∀ before, Same (.intersection (before ++ ns)) (.intersection (before ++ ms)) from h []
  induction h with
  | nil => exact fun before => .refl _
  | @cons n m ns ms hnm _ ih =>
    intro before
    refine (Same.part before ns hnm).trans ?_
    simpa using ih (before ++ [m])

theorem Same.meet_congr {ns ms : List NormalForm} (h : List.Forall₂ Same ns ms) : Same (meet ns) (meet ms) := by
  match h with
  | .nil => exact .refl _
  | .cons h .nil => exact h
  | .cons h (.cons h' hrest) => exact .all_parts (.cons h (.cons h' hrest))

theorem Same.meet_perm {ns ms : List NormalForm} (h : ns.Perm ms) : Same (meet ns) (meet ms) := by
  match ns with
  | [] => rw [h.nil_eq]; exact .refl _
  | [n] => rw [List.singleton_perm.1 h]; exact .refl _
  | n :: n' :: ns =>
    match ms with
    | [] => cases h.eq_nil
    | [m] => cases List.perm_singleton.1 h
    | m :: m' :: ms => exact .perm h

end NormalForm

namespace Term

/-- The normal form of the expressions with this term. -/
def normalForm : Term → NormalForm
  | named iri => .named iri
  | conjunction first second => .intersection (first.normalForm.parts ++ [second.normalForm])
  | existential role filler => .existential role filler.normalForm
  | data property space => .data property space
  | nominal individual => .nominal individual

/-- The term is no intersection. -/
def Simple (t : Term) : Prop := t.normalForm.parts = [t.normalForm]

private theorem normalForm_foldl (first second : Term) (rest : List Term) :
    (rest.foldl conjunction (conjunction first second)).normalForm =
      .intersection (first.normalForm.parts ++ (second :: rest).map normalForm) := by
  induction rest generalizing first second with
  | nil => rfl
  | cons next rest ih =>
    rw [List.foldl_cons, ih]
    simp [normalForm, NormalForm.parts]

/-- Terms that are paired from the left can be told from the result, if they are no intersections themselves. -/
theorem normalForm_pairing {first : Term} (h : first.Simple) (rest : List Term) :
    (rest.foldl conjunction first).normalForm = .meet ((first :: rest).map normalForm) := by
  cases rest with
  | nil => rfl
  | cons second rest =>
    rw [List.foldl_cons, normalForm_foldl, h]
    rfl

theorem same_intersection? {ts : List Term} {t : Term} (h : intersection? ts = some t) (hts : ∀ u ∈ ts, u.Simple) :
    (NormalForm.meet (ts.map normalForm)).Same t.normalForm := by
  unfold intersection? at h
  split at h
  · have hperm := sortBy_perm (fun t u : Term => decide (t.hash ≤ u.hash)) ts
    generalize sortBy (fun t u : Term => decide (t.hash ≤ u.hash)) ts = sorted at h hperm
    cases sorted with
    | nil => cases h
    | cons first rest =>
      obtain rfl := Option.some.inj h
      rw [normalForm_pairing (hts first (hperm.mem_iff.1 (List.mem_cons_self ..)))]
      exact .meet_perm (hperm.symm.map _)
  · cases h

end Term

namespace ClassExpression

/-! ### Conjuncts -/

private theorem sizeOf_lt_of_mem_conjuncts {es : List ClassExpression} {c : ClassExpression} (hc : c ∈ conjuncts es) :
    sizeOf c < sizeOf es := by
  fun_induction conjuncts es with
  | case1 => cases hc
  | case2 operands rest ih₁ ih₂ =>
    rcases List.mem_append.1 hc with hc | hc
    · have := ih₁ hc
      simp only [List.cons.sizeOf_spec, intersection.sizeOf_spec]
      omega
    · have := ih₂ hc
      simp only [List.cons.sizeOf_spec]
      omega
  | case3 operand rest _ ih =>
    simp only [List.cons.sizeOf_spec]
    rcases List.mem_cons.1 hc with rfl | hc
    · omega
    · have := ih hc
      omega

theorem sizeOf_conjunct_lt {operands : List ClassExpression} {c : ClassExpression} (hc : c ∈ conjuncts operands) :
    sizeOf c < sizeOf (intersection operands) := by
  have := sizeOf_lt_of_mem_conjuncts hc
  simp only [intersection.sizeOf_spec]
  omega

theorem sizeOf_filler_lt (role : String) (filler : ClassExpression) : sizeOf filler < sizeOf (someValues role filler) := by
  simp only [someValues.sizeOf_spec]
  omega

theorem ne_intersection_of_mem_conjuncts {es : List ClassExpression} {c : ClassExpression} (hc : c ∈ conjuncts es)
    (operands : List ClassExpression) : c ≠ intersection operands := by
  fun_induction conjuncts es with
  | case1 => cases hc
  | case2 _ _ ih₁ ih₂ => exact (List.mem_append.1 hc).elim ih₁ ih₂
  | case3 operand rest hoperand ih =>
    rcases List.mem_cons.1 hc with rfl | hc
    · exact hoperand operands
    · exact ih hc

theorem conjunctForms_eq (es : List ClassExpression) : conjunctForms es = (conjuncts es).map normalForm := by
  fun_induction conjuncts es with
  | case1 => rfl
  | case2 operands rest ih₁ ih₂ => rw [conjunctForms, ih₁, ih₂, List.map_append]
  | case3 operand rest hoperand ih => rw [conjunctForms, ih, List.map_cons]; exact hoperand

theorem terms?_eq_mapM (es : List ClassExpression) : terms? es = es.mapM term? := by
  induction es with
  | nil => rfl
  | cons e es ih => rw [terms?, List.mapM_cons, ih]

theorem conjunctTerms?_eq (es : List ClassExpression) : conjunctTerms? es = terms? (conjuncts es) := by
  fun_induction conjuncts es with
  | case1 => rfl
  | case2 operands rest ih₁ ih₂ =>
    rw [conjunctTerms?, ih₁, ih₂, terms?_eq_mapM, terms?_eq_mapM, terms?_eq_mapM, List.mapM_append]
  | case3 operand rest hoperand ih => rw [conjunctTerms?, ih, terms?]; exact hoperand

theorem terms?_eq_some_iff {es : List ClassExpression} {ts : List Term} :
    terms? es = some ts ↔ List.Forall₂ (fun e t => e.term? = some t) es ts := by
  rw [terms?_eq_mapM, mapM_eq_some_iff]

theorem terms?_eq_none_iff {es : List ClassExpression} : terms? es = none ↔ ∃ e ∈ es, e.term? = none := by
  induction es with
  | nil => simp [terms?]
  | cons e es ih =>
    rw [terms?, List.exists_mem_cons_iff, ← ih]
    cases e.term? <;> cases terms? es <;> simp

theorem term?_intersection (operands : List ClassExpression) :
    (intersection operands).term? = terms? (conjuncts operands) >>= Term.intersection? := by
  rw [term?, conjunctTerms?_eq]

/-! ### Terms and normal forms -/

private theorem terms?_map_normalForm {cs : List ClassExpression} (h : ∀ c ∈ cs, c.normalForm.term? = c.term?) :
    NormalForm.terms? (cs.map normalForm) = terms? cs := by
  induction cs with
  | nil => rfl
  | cons c cs ih =>
    rw [List.forall_mem_cons] at h
    rw [List.map_cons, NormalForm.terms?, terms?, h.1, ih h.2]

/-- The term of an expression is determined by its normal form. -/
theorem term?_normalForm : (e : ClassExpression) → e.normalForm.term? = e.term?
  | named _ | thing | nothing | hasValue .. | oneOf _ | dataHasValue .. | dataSomeValues .. => rfl
  | intersection operands => by
    have hforms : NormalForm.terms? ((conjuncts operands).map normalForm) = terms? (conjuncts operands) :=
      terms?_map_normalForm fun c hc => term?_normalForm c
    rw [normalForm, NormalForm.term?_meet, conjunctForms_eq, hforms, term?_intersection]
  | someValues role filler => by rw [normalForm, NormalForm.term?, term?_normalForm filler, term?]
termination_by e => sizeOf e
decreasing_by
  · exact sizeOf_conjunct_lt hc
  · exact sizeOf_filler_lt role filler

theorem simple_of_term? {e : ClassExpression} (he : ∀ operands, e ≠ intersection operands) {t : Term}
    (h : e.term? = some t) : t.Simple := by
  cases e with
  | intersection operands => exact absurd rfl (he operands)
  | someValues role filler =>
    obtain ⟨u, -, ht⟩ := Option.bind_eq_some_iff.1 h
    obtain rfl := Option.some.inj ht
    rfl
  | named | thing | nothing | hasValue | oneOf | dataHasValue | dataSomeValues =>
    obtain rfl := Option.some.inj h
    rfl

/-- The normal form of an expression can be read off its term. -/
theorem same_normalForm : (e : ClassExpression) → {t : Term} → e.term? = some t → e.normalForm.Same t.normalForm
  | named _, _, h | thing, _, h | nothing, _, h | hasValue .., _, h | oneOf _, _, h | dataHasValue .., _, h
  | dataSomeValues .., _, h => by
    obtain rfl := Option.some.inj h
    exact .refl _
  | intersection operands, t, h => by
    rw [term?_intersection] at h
    obtain ⟨ts, hts, ht⟩ := Option.bind_eq_some_iff.1 h
    have hterms := terms?_eq_some_iff.1 hts
    have hsame : List.Forall₂ NormalForm.Same (conjunctForms operands) (ts.map Term.normalForm) := by
      have ih : ∀ c ∈ conjuncts operands, ∀ t, c.term? = some t → c.normalForm.Same t.normalForm :=
        fun c hc t => same_normalForm c
      rw [conjunctForms_eq, List.forall₂_map_left_iff, List.forall₂_map_right_iff]
      exact ((List.forall₂_and_left _ _).2 ⟨ih, hterms⟩).imp fun c t h => h.1 t h.2
    refine (NormalForm.Same.meet_congr hsame).trans (Term.same_intersection? ht fun u hu => ?_)
    obtain ⟨c, hc, hu⟩ := exists_left_of_mem hterms hu
    exact simple_of_term? (ne_intersection_of_mem_conjuncts hc) hu
  | someValues role filler, t, h => by
    obtain ⟨u, hu, ht⟩ := Option.bind_eq_some_iff.1 h
    obtain rfl := Option.some.inj ht
    exact .filler role (same_normalForm filler hu)
termination_by e => sizeOf e
decreasing_by
  · exact sizeOf_conjunct_lt hc
  · exact sizeOf_filler_lt role filler

/-- Expressions have the same term just when they have the same normal form. -/
theorem same_iff_of_term? {e e' : ClassExpression} {t t' : Term} (h : e.term? = some t) (h' : e'.term? = some t') :
    e.normalForm.Same e'.normalForm ↔ t = t' := by
  constructor
  · intro hsame
    have hterm := hsame.term?_eq
    rw [term?_normalForm, term?_normalForm, h, h'] at hterm
    exact Option.some.inj hterm
  · rintro rfl
    exact (same_normalForm e h).trans (same_normalForm e' h').symm

/-! ### Expressions without a term -/

/-- An intersection of the operands has no conjuncts, or two different conjuncts with the same hash. -/
def Flawed (operands : List ClassExpression) : Prop :=
  conjuncts operands = [] ∨ ∃ c ∈ conjuncts operands, ∃ d ∈ conjuncts operands, ∃ t u,
    c.term? = some t ∧ d.term? = some u ∧ t ≠ u ∧ t.hash = u.hash

private theorem flawed_or_of_term? {operands : List ClassExpression} (h : (intersection operands).term? = none) :
    Flawed operands ∨ ∃ c ∈ conjuncts operands, c.term? = none := by
  rw [term?_intersection] at h
  cases hterms : terms? (conjuncts operands) with
  | none => exact .inr (terms?_eq_none_iff.1 hterms)
  | some ts =>
    rw [hterms] at h
    rw [terms?_eq_some_iff] at hterms
    refine .inl ?_
    rcases Term.intersection?_eq_none_iff.1 h with rfl | ⟨t, ht, u, hu, hne, e⟩
    · exact .inl (List.forall₂_nil_right_iff.1 hterms)
    · obtain ⟨c, hc, hct⟩ := exists_left_of_mem hterms ht
      obtain ⟨d, hd, hdu⟩ := exists_left_of_mem hterms hu
      exact .inr ⟨c, hc, d, hd, t, u, hct, hdu, hne, e⟩

private theorem Flawed.term?_eq_none {operands : List ClassExpression} (h : Flawed operands) :
    (intersection operands).term? = none := by
  rw [term?_intersection]
  cases hterms : terms? (conjuncts operands) with
  | none => rfl
  | some ts =>
    refine Term.intersection?_eq_none_iff.2 ?_
    rw [terms?_eq_some_iff] at hterms
    rcases h with h | ⟨c, hc, d, hd, t, u, hct, hdu, hne, e⟩
    · rw [h] at hterms
      exact .inl (List.forall₂_nil_left_iff.1 hterms)
    · obtain ⟨t', ht', h⟩ := exists_right_of_mem hterms hc
      obtain ⟨u', hu', h'⟩ := exists_right_of_mem hterms hd
      obtain rfl := Option.some.inj (hct.symm.trans h)
      obtain rfl := Option.some.inj (hdu.symm.trans h')
      exact .inr ⟨t, ht', u, hu', hne, e⟩

private theorem exists_flawed : (e : ClassExpression) → e.term? = none → ∃ operands, e.HasMeet operands ∧ Flawed operands
  | intersection operands, h => by
    rcases flawed_or_of_term? h with h | ⟨c, hc, h⟩
    · exact ⟨operands, .here operands, h⟩
    · obtain ⟨operands', hmeet, h⟩ := exists_flawed c h
      exact ⟨operands', .conjunct hc hmeet, h⟩
  | someValues role filler, h => by
    have hfiller : filler.term? = none := by
      rw [term?] at h
      cases hterm : filler.term? with
      | none => rfl
      | some t => simp [hterm] at h
    obtain ⟨operands, hmeet, h⟩ := exists_flawed filler hfiller
    exact ⟨operands, .filler role hmeet, h⟩
termination_by e => sizeOf e
decreasing_by
  · exact sizeOf_conjunct_lt hc
  · exact sizeOf_filler_lt role filler

/-- An expression has no term just when one of the intersections in it is flawed. -/
theorem term?_eq_none_iff {e : ClassExpression} : e.term? = none ↔ ∃ operands, e.HasMeet operands ∧ Flawed operands := by
  refine ⟨exists_flawed e, ?_⟩
  rintro ⟨operands, hmeet, h⟩
  induction hmeet with
  | here operands => exact h.term?_eq_none
  | conjunct hc _ ih => rw [term?_intersection, terms?_eq_none_iff.2 ⟨_, hc, ih h⟩]; rfl
  | filler role _ ih => rw [term?, ih h]; rfl

end ClassExpression

end ELOntology
