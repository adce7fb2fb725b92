import ELOntology.Proofs.Saturation.Retracting

/-!
# Calculi that agree

An index that grows, and a role hierarchy that does not know its latest roles, change the calculus only where no rule
leads.  Two calculi agree up to `n` if they give the expressions below `n` the same shapes and have the same instances
of the other rules.  Then the invariants of derivation and retraction carry over from one to the other.

Key facts: `Deriving.agree` and `Retracting.agree`.
-/

namespace ELOntology

structure Calculus.Agree (n : Nat) (K K' : Calculus) : Prop where
  shape? {expr : ExprId} : expr.val < n → K'.shape? expr = K.shape? expr
  contributes (g : Contribution) : K'.contributes g ↔ K.contributes g
  subRoles {filler existential : ExprId} {role : RoleId} : K.contributes (.propagation filler role existential) →
    ∀ below, below ∈ K'.roles.subRoles role ↔ below ∈ K.roles.subRoles role
  compositions (left right composed : RoleId) :
    composed ∈ K'.roles.compositions left right ↔ composed ∈ K.roles.compositions left right
  rightComposable (role : RoleId) : K'.roles.isRightComposable role = K.roles.isRightComposable role

namespace Calculus.Agree

variable {n : Nat} {K K' : Calculus} {root target expr : ExprId} {premises : List Conclusion} {c : Conclusion}

theorem symm (h : Agree n K K') : Agree n K' K :=
  ⟨fun hlt => (h.shape? hlt).symm, fun g => (h.contributes g).symm,
    fun hg below => (h.subRoles ((h.contributes _).1 hg) below).symm,
    fun left right composed => (h.compositions left right composed).symm, fun role => (h.rightComposable role).symm⟩

theorem mono {m : Nat} (h : Agree n K K') (hle : m ≤ n) : Agree m K K' :=
  { h with shape? := fun hlt => h.shape? (Nat.lt_of_lt_of_le hlt hle) }

theorem unfolds (h : Agree n K K') (hlt : expr.val < n) (hu : Unfolds K root expr target c) :
    Unfolds K' root expr target c := by
  have hshape := h.shape? hlt
  cases hu with
  | first hs => exact .first (hshape.trans hs)
  | second hs => exact .second (hshape.trans hs)
  | link hs => exact .link (hshape.trans hs)

theorem yields (h : Agree n K K') {g : Contribution} (hg : K.contributes g) (hy : g.Yields K.roles premises c) :
    g.Yields K'.roles premises c := by
  cases hy with
  | told => exact .told
  | conjoin => exact .conjoin
  | propagate hbelow => exact .propagate ((h.subRoles hg _).2 hbelow)
  | member => exact .member

theorem combines (h : Agree n K K') (hc : Combines K root premises target c) : Combines K' root premises target c := by
  cases hc with
  | apply hg hy => exact .apply ((h.contributes _).2 hg) (h.yields hg hy)
  | bottom => exact .bottom
  | clash hne => exact .clash hne
  | carry => exact .carry
  | empty => exact .empty
  | forward hr => exact .forward ((h.rightComposable _).trans hr)
  | compose hcomp => exact .compose ((h.compositions _ _ _).2 hcomp)

end Calculus.Agree

variable {n : Nat} {K K' : Calculus}

theorem Derives.agree (h : K.Agree n K') {held : ExprId → Conclusion → Prop}
    (hheld : ∀ root expr, held root (.isA expr) → expr.val < n) {root : ExprId} {c : Conclusion}
    (hd : Derives K held root c) : Derives K' held root c := by
  induction hd with
  | self root => exact .self root
  | thing root => exact .thing root
  | unfold hp _ hu ih => exact .unfold hp ih (h.unfolds (hheld _ _ hp) hu)
  | combine hp _ hc ih => exact .combine hp ih (h.combines hc)

theorem Assembled.agree (h : K.Agree n K') {stored : ExprId → Conclusion → Prop} {root expr : ExprId}
    (ha : Assembled K stored root expr) : Assembled K' stored root expr := by
  obtain ⟨source, premises, hp, hc⟩ := ha
  exact ⟨source, premises, hp, h.combines hc⟩

theorem Saturated.agree (h : K.Agree n K') {stored : ExprId → Conclusion → Prop}
    (hstored : ∀ root expr, stored root (.isA expr) → expr.val < n) (hs : Saturated K stored) : Saturated K' stored where
  self := hs.self
  thing := hs.thing
  combined hp hc := hs.combined hp (h.symm.combines hc)
  explained hexpr := (hs.explained hexpr).imp (fun hu target c hc => hu target c (h.symm.unfolds (hstored _ _ hexpr) hc))
    (Assembled.agree h)
  derived hc := (hs.derived hc).agree h hstored

/-- The invariant of derivation depends on the calculus only as far as the table of contexts reaches. -/
theorem Deriving.agree {w : Workspace} (h : K.Agree w.contexts.size K') (hw : Deriving K w) : Deriving K' w := by
  have hstored (root expr : ExprId) (hexpr : w.Stores root (.isA expr)) : expr.val < w.contexts.size :=
    hw.within_stores hexpr
  constructor
  · exact hw.within_stores
  · exact hw.within_waits
  · exact hw.started
  · intro root target premises c hp hc
    rcases hw.combined hp (h.symm.combines hc) with hcover | ⟨e, g, hg, hy, hwait⟩
    · exact .inl hcover
    · exact .inr ⟨e, g, (h.contributes g).2 hg, h.yields hg hy, hwait⟩
  · intro root expr hexpr
    refine (hw.explained hexpr).imp (fun hu target c hc => ?_) (Assembled.agree h)
    exact hu target c (h.symm.unfolds (hstored root expr hexpr) hc)
  · exact fun hexpr => (hw.assembled hexpr).agree h
  · exact fun hc => (hw.derived_stores hc).agree h hstored
  · exact fun hc hstorable => (hw.derived_waits hc hstorable).agree h hstored

/-- The invariant of retraction depends on the calculus only as far as the table of contexts reaches. -/
theorem Retracting.agree {removed : List Contribution} {base : ExprId → Conclusion → Prop} {cleaned : List ExprId}
    {w : Workspace} (h : K.Agree w.contexts.size K') (hremoved : ∀ g ∈ removed, K.contributes g)
    (hw : Retracting K removed base cleaned w) : Retracting K' removed base cleaned w := by
  have hbase (root expr : ExprId) (hexpr : base root (.isA expr)) : expr.val < w.contexts.size := hw.within hexpr
  constructor
  · exact hw.saturated.agree h hbase
  · exact hw.within
  · exact hw.rooted
  · exact hw.has
  · exact hw.kept
  · exact fun hexpr hgone hu => hw.unfolded hexpr hgone (h.symm.unfolds (hbase _ _ hexpr) hu)
  · exact fun hp hc hgone => hw.combined hp (h.symm.combines hc) hgone
  · intro root g premises c hp hg hy
    exact hw.seeded hp hg (h.symm.yields ((h.contributes g).2 (hremoved g hg)) hy)
  · exact hw.emptied
  · exact hw.noted
  · exact hw.marked

end ELOntology
