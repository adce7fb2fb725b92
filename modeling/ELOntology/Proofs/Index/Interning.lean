import ELOntology.Proofs.Index.History
import ELOntology.Proofs.Index.NormalForm

/-!
# The node of a class expression

A node is made for the term of an expression and keeps standing for it, so what was interned before has an influence on
its number only.  Its hash and its rendering are those of the term.

Key fact: `intern_canonical`.  Two expressions get the same node just when their normal forms are the same, and an
expression gets none just when an intersection in it has no conjuncts or two different ones with the same hash.
-/

namespace ELOntology

/-- The expression in mathematical notation. -/
def Term.render : Term → String
  | named iri => iri
  | conjunction first second => "(" ++ first.render ++ " ⊓ " ++ second.render ++ ")"
  | existential role filler => "∃" ++ role ++ "." ++ filler.render
  | data property space => "∃" ++ property ++ "." ++ Index.ValueSpace.render space
  | nominal individual => "\x7b" ++ individual ++ "\x7d"

namespace Index

variable {ix ix' : Index}

theorem Tidy.renderWithin_eq (hix : ix.Tidy) {id : ExprId} {t : Term} (h : ix.Denotes id t) {fuel : Nat}
    (hfuel : id.val < fuel) : ix.renderWithin fuel id = t.render := by
  induction h generalizing fuel with
  | named h | data h | nominal h =>
    obtain ⟨fuel, rfl⟩ := Nat.exists_eq_add_one.2 (Nat.zero_lt_of_lt hfuel)
    rw [renderWithin, h]
    rfl
  | conjunction h _ _ ih₁ ih₂ =>
    obtain ⟨fuel, rfl⟩ := Nat.exists_eq_add_one.2 (Nat.zero_lt_of_lt hfuel)
    obtain ⟨hfirst, hsecond⟩ := hix.conjuncts h
    rw [renderWithin, h]
    dsimp only
    rw [ih₁ (by omega), ih₂ (by omega), Term.render]
  | existential h hrole _ ih =>
    obtain ⟨fuel, rfl⟩ := Nat.exists_eq_add_one.2 (Nat.zero_lt_of_lt hfuel)
    obtain ⟨hfiller, -⟩ := hix.filler h
    rw [renderWithin, h]
    dsimp only
    rw [ih (by omega), roleName_of_role? hrole, Term.render]

/-- The rendering of a node is that of its term. -/
theorem Tidy.render_eq (hix : ix.Tidy) {id : ExprId} {t : Term} (h : ix.Denotes id t) : ix.render id = t.render :=
  hix.renderWithin_eq h (Nat.lt_succ_self _)

end Index

namespace ClassExpression

open Index

variable {ix ix' : Index} {e : ClassExpression}

/-- Interning only makes nodes and roles.  Its result is the node of the term of the expression, or an error when there is
no term. -/
theorem intern_cases (hix : ix.Tidy) {result : Except IndexError ExprId} (h : e.intern ix = (result, ix')) :
    ix'.Tidy ∧ ix.Grown ix' ∧ ((∃ t i, e.term? = some t ∧ result = .ok i ∧ ix'.Denotes i t) ∨
      e.term? = none ∧ ∃ error, result = .error error) := by
  obtain ⟨ix'', htidy, hgrown, hresult⟩ := e.intern_follows hix
  cases hterm : e.term? with
  | none =>
    rw [hterm] at hresult
    obtain ⟨error, he⟩ := hresult
    cases h.symm.trans he
    exact ⟨htidy, hgrown, .inr ⟨rfl, error, rfl⟩⟩
  | some t =>
    rw [hterm] at hresult
    obtain ⟨i, hi, hdenotes⟩ := hresult
    cases h.symm.trans hi
    exact ⟨htidy, hgrown, .inl ⟨t, i, rfl, rfl, hdenotes⟩⟩

theorem grown_of_intern (hix : ix.Tidy) {result : Except IndexError ExprId} (h : e.intern ix = (result, ix')) :
    ix'.Tidy ∧ ix.Grown ix' := ⟨(intern_cases hix h).1, (intern_cases hix h).2.1⟩

theorem denotes_of_intern (hix : ix.Tidy) {i : ExprId} (h : e.intern ix = (.ok i, ix')) :
    ∃ t, e.term? = some t ∧ ix'.Denotes i t := by
  obtain ⟨-, -, ⟨t, j, ht, e, hdenotes⟩ | ⟨-, _, e⟩⟩ := intern_cases hix h
  · cases e
    exact ⟨t, ht, hdenotes⟩
  · cases e

theorem exists_intern (hix : ix.Tidy) {t : Term} (h : e.term? = some t) :
    ∃ i ix', e.intern ix = (.ok i, ix') ∧ ix'.Tidy ∧ ix.Grown ix' ∧ ix'.Denotes i t := by
  rcases hresult : e.intern ix with ⟨result, ix'⟩
  obtain ⟨htidy, hgrown, ⟨u, i, hu, rfl, hdenotes⟩ | ⟨hnone, -⟩⟩ := intern_cases hix hresult
  · cases h.symm.trans hu
    exact ⟨i, ix', rfl, htidy, hgrown, hdenotes⟩
  · cases h.symm.trans hnone

/-- Interning fails just when the expression has no term. -/
theorem intern_fails_iff (hix : ix.Tidy) : (∃ error ix', e.intern ix = (.error error, ix')) ↔ e.term? = none := by
  rcases hresult : e.intern ix with ⟨result, ix'⟩
  obtain ⟨-, -, ⟨t, i, ht, rfl, -⟩ | ⟨hnone, error, rfl⟩⟩ := intern_cases hix hresult
  · rw [ht]
    exact ⟨fun ⟨_, _, e⟩ => (by cases e), nofun⟩
  · exact ⟨fun _ => hnone, fun _ => ⟨error, ix', rfl⟩⟩

end ClassExpression

namespace Index

variable {ix ix' ix'' : Index}

/-- What an index can become: by further calls, and by interning expressions. -/
inductive Reaches (ix : Index) : Index → Prop
  | refl : Reaches ix ix
  | call {ix' : Index} (h : Reaches ix ix') (call : Call) : Reaches ix (call.apply ix')
  | intern {ix' ix'' : Index} (h : Reaches ix ix') {e : ClassExpression} {result : Except IndexError ExprId}
      (he : e.intern ix' = (result, ix'')) : Reaches ix ix''

theorem Call.names_apply (h : ix.Accounts) (call : Call) : ix.Names (call.apply ix) := by
  cases call with
  | assert a => exact (h.assert a).2.1
  | retract a => exact (h.retract a).2.1
  | commit => exact h.commit.2.1.names
  | takeRolesChanged => exact ⟨id, id⟩

/-- A reachable index is in order, and the numbers in use keep their meaning. -/
theorem Reaches.accounts (h : ix.Reaches ix') (hix : ix.Accounts) : ix'.Accounts ∧ ix.Names ix' := by
  induction h with
  | refl => exact ⟨hix, .refl ix⟩
  | call _ call ih => exact ⟨call.accounts_apply ih.1, ih.2.trans (call.names_apply ih.1)⟩
  | intern _ he ih =>
    obtain ⟨htidy, hgrown⟩ := ClassExpression.grown_of_intern ih.1.tidy he
    exact ⟨ih.1.of_grown htidy hgrown, ih.2.trans hgrown.names⟩

theorem reaches_after (calls : List Call) : Index.empty.Reaches (after calls) := by
  suffices h : ∀ ix, Index.empty.Reaches ix → Index.empty.Reaches (calls.foldl Call.apply ix) from h _ .refl
  induction calls with
  | nil => exact fun _ h => h
  | cons call calls ih => exact fun ix h => ih _ (h.call call)

/-- Interned one after the other, the expressions get different nodes with the same hash. -/
def Collide (ix : Index) (c d : ClassExpression) : Prop :=
  ∃ i j ix' ix'', c.intern ix = (.ok i, ix') ∧ d.intern ix' = (.ok j, ix'') ∧ i ≠ j ∧ ix''.hashOf i = ix''.hashOf j

theorem Tidy.collide_iff (hix : ix.Tidy) {c d : ClassExpression} :
    ix.Collide c d ↔ ∃ t u, c.term? = some t ∧ d.term? = some u ∧ t ≠ u ∧ t.hash = u.hash := by
  constructor
  · rintro ⟨i, j, ix', ix'', hi, hj, hne, hhash⟩
    obtain ⟨htidy, hgrown⟩ := ClassExpression.grown_of_intern hix hi
    obtain ⟨htidy', hgrown'⟩ := ClassExpression.grown_of_intern htidy hj
    obtain ⟨t, ht, hit⟩ := ClassExpression.denotes_of_intern hix hi
    obtain ⟨u, hu, hju⟩ := ClassExpression.denotes_of_intern htidy hj
    have hit' := hgrown'.names.denotes hit
    refine ⟨t, u, ht, hu, ?_, by rw [← htidy'.hashOf_eq hit', ← htidy'.hashOf_eq hju, hhash]⟩
    rintro rfl
    exact hne (htidy'.id_unique hit' hju)
  · rintro ⟨t, u, ht, hu, hne, hhash⟩
    obtain ⟨i, ix', hi, htidy, -, hit⟩ := ClassExpression.exists_intern hix ht
    obtain ⟨j, ix'', hj, htidy', hgrown', hju⟩ := ClassExpression.exists_intern htidy hu
    have hit' := hgrown'.names.denotes hit
    refine ⟨i, j, ix', ix'', hi, hj, ?_, by rw [htidy'.hashOf_eq hit', htidy'.hashOf_eq hju, hhash]⟩
    rintro rfl
    exact hne (hit'.term_unique hju)

end Index

namespace ClassExpression

open Index

variable {ix ix₁ ix₂ ix₃ : Index} {e e' : ClassExpression}

theorem eq_iff_same (hix : ix.Accounts) {i i' : ExprId} (hi : e.intern ix = (.ok i, ix₁)) (h : ix₁.Reaches ix₂)
    (hi' : e'.intern ix₂ = (.ok i', ix₃)) : i = i' ↔ e.normalForm.Same e'.normalForm := by
  obtain ⟨t, ht, hit⟩ := denotes_of_intern hix.tidy hi
  obtain ⟨htidy, hgrown⟩ := grown_of_intern hix.tidy hi
  obtain ⟨hix₂, hnames⟩ := h.accounts (hix.of_grown htidy hgrown)
  obtain ⟨u, hu, hiu⟩ := denotes_of_intern hix₂.tidy hi'
  obtain ⟨htidy', hgrown'⟩ := grown_of_intern hix₂.tidy hi'
  have hit' : ix₃.Denotes i t := hgrown'.names.denotes (hnames.denotes hit)
  rw [same_iff_of_term? ht hu]
  constructor
  · rintro rfl
    exact hit'.term_unique hiu
  · rintro rfl
    exact htidy'.id_unique hit' hiu

theorem intern_fails_iff_flawed (hix : ix.Tidy) :
    (∃ error ix₁, e.intern ix = (.error error, ix₁)) ↔ ∃ operands, e.HasMeet operands ∧
      (conjuncts operands = [] ∨ ∃ c ∈ conjuncts operands, ∃ d ∈ conjuncts operands, ix.Collide c d) := by
  simp only [intern_fails_iff hix, term?_eq_none_iff, Flawed, hix.collide_iff]

/-- The hash and the rendering of an expression are those of its term, in every later index. -/
theorem hashOf_render_eq (hix : ix.Accounts) {i : ExprId} (hi : e.intern ix = (.ok i, ix₁)) {t : Term}
    (ht : e.term? = some t) (h : ix₁.Reaches ix₂) : ix₂.hashOf i = t.hash ∧ ix₂.render i = t.render := by
  obtain ⟨u, hu, hiu⟩ := denotes_of_intern hix.tidy hi
  obtain rfl := Option.some.inj (hu.symm.trans ht)
  obtain ⟨htidy, hgrown⟩ := grown_of_intern hix.tidy hi
  obtain ⟨hix₂, hnames⟩ := h.accounts (hix.of_grown htidy hgrown)
  exact ⟨hix₂.tidy.hashOf_eq (hnames.denotes hiu), hix₂.tidy.render_eq (hnames.denotes hiu)⟩

/-- Interning is canonical.  Two expressions get the same node just when their normal forms are the same; an expression
gets none just when one of its intersections has no conjuncts or two that collide; and its hash and its rendering are the
same in all indices, for good. -/
theorem intern_canonical {jx : Index} (hix : Index.empty.Reaches ix) (hjx : Index.empty.Reaches jx)
    (e e' : ClassExpression) :
    (∀ i i' ix₁ ix₂ ix₃, e.intern ix = (.ok i, ix₁) → ix₁.Reaches ix₂ → e'.intern ix₂ = (.ok i', ix₃) →
      (i = i' ↔ e.normalForm.Same e'.normalForm)) ∧
    ((∃ error ix₁, e.intern ix = (.error error, ix₁)) ↔ ∃ operands, e.HasMeet operands ∧
      (conjuncts operands = [] ∨ ∃ c ∈ conjuncts operands, ∃ d ∈ conjuncts operands, ix.Collide c d)) ∧
    ∀ i ix₁ ix₂, e.intern ix = (.ok i, ix₁) → ix₁.Reaches ix₂ →
      ∃ j jx₁, e.intern jx = (.ok j, jx₁) ∧ ∀ jx₂, jx₁.Reaches jx₂ →
        jx₂.hashOf j = ix₂.hashOf i ∧ jx₂.render j = ix₂.render i := by
  obtain ⟨hix, -⟩ := hix.accounts accounts_empty
  obtain ⟨hjx, -⟩ := hjx.accounts accounts_empty
  refine ⟨fun i i' ix₁ ix₂ ix₃ hi h hi' => eq_iff_same hix hi h hi', intern_fails_iff_flawed hix.tidy, ?_⟩
  intro i ix₁ ix₂ hi h
  obtain ⟨t, ht, -⟩ := denotes_of_intern hix.tidy hi
  obtain ⟨j, jx₁, hj, -⟩ := exists_intern hjx.tidy ht
  refine ⟨j, jx₁, hj, fun jx₂ h' => ?_⟩
  obtain ⟨hhash, hrender⟩ := hashOf_render_eq hix hi ht h
  obtain ⟨hhash', hrender'⟩ := hashOf_render_eq hjx hj ht h'
  exact ⟨hhash'.trans hhash.symm, hrender'.trans hrender.symm⟩

/-- Two ways of writing an intersection give the same node, also with an axiom retracted in between. -/
theorem intern_canonical_regrouped : ∃ i ix₁ ix₂,
    (intersection [named "A", intersection [named "B", named "A"]]).intern
      (after [.assert (.subClassOf (named "B") (named "C"))]) = (.ok i, ix₁) ∧
    (intersection [intersection [named "A"], named "A", named "B"]).intern
      (ix₁.retract (.subClassOf (named "B") (named "C"))).2 = (.ok i, ix₂) := by
  have hterm : (intersection [named "A", intersection [named "B", named "A"]]).term?.isSome = true := by decide +kernel
  have hterm' : (intersection [intersection [named "A"], named "A", named "B"]).term?.isSome = true := by decide +kernel
  obtain ⟨t, ht⟩ := Option.isSome_iff_exists.1 hterm
  obtain ⟨u, hu⟩ := Option.isSome_iff_exists.1 hterm'
  have hix := reaches_after [.assert (.subClassOf (named "B") (named "C"))]
  have haccounts := accounts_after [.assert (.subClassOf (named "B") (named "C"))]
  obtain ⟨i, ix₁, hi, htidy, hgrown, -⟩ := exists_intern haccounts.tidy ht
  have hreaches : ix₁.Reaches (ix₁.retract (.subClassOf (named "B") (named "C"))).2 :=
    Reaches.refl.call (.retract (.subClassOf (named "B") (named "C")))
  have htidy' := (hreaches.accounts (haccounts.of_grown htidy hgrown)).1.tidy
  obtain ⟨i', ix₂, hi', -⟩ := exists_intern htidy' hu
  have heq : i = i' := ((intern_canonical hix hix _ _).1 i i' ix₁ _ ix₂ hi hreaches hi').2
    (.perm (.cons _ (.swap _ _ _)))
  exact ⟨i, ix₁, ix₂, hi, heq ▸ hi'⟩

end ClassExpression

end ELOntology
