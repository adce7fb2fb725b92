import ELOntology.Proofs.Taxonomy.Answers
import ELOntology.Proofs.Order.Cover
import ELOntology.Proofs.Taxonomy.Layout

/-!
# Spots

The satisfiable classes of an index are laid out by their reductions, one place for each set of equivalent classes, and
the unsatisfiable ones go to a last place, that of the bottom node.  The spot of a class is its place (`spot`).

Key facts: `mem_direct_iff` (the reduction of a class names what covers it), `spot_eq_iff` (classes share a spot if and
only if they include each other) and `exists_spot` (every place is the spot of a class).
-/

namespace ELOntology

namespace Taxonomy

variable {ix : Index} {w : Workspace} {a b x : ExprId} {p q : Nat}

/-! ### The reductions -/

/-- The reduction of a class. -/
def reductionOf (ix : Index) (w : Workspace) (a : ExprId) : Reduction :=
  reduce (included w) a (summarize ix w a).supers

theorem id_summarize (ix : Index) (w : Workspace) (a : ExprId) : (summarize ix w a).id = a := by
  unfold summarize
  split <;> rfl

theorem reductions_eq : reductions w (ix.classes.map (summarize ix w)) =
    (ix.classes.filter fun a => (summarize ix w a).satisfiable).map (reductionOf ix w) := by
  rw [reductions, List.filter_map, List.map_map]
  refine List.map_congr_left fun a _ => ?_
  rw [Function.comp_apply, id_summarize, reductionOf]

theorem satisfiable_summarize (h : Answers ix w) (ha : a ∈ ix.classes) :
    (summarize ix w a).satisfiable = !w.isUnsatisfiable a := by
  obtain ⟨ctx, hctx⟩ := h.has ha
  unfold summarize Workspace.isUnsatisfiable
  rw [hctx]
  rfl

theorem included_eq (h : Answers ix w) (ha : a ∈ ix.classes) (b : ExprId) : included w a b = w.hasSubsumer a b := by
  obtain ⟨ctx, hctx⟩ := h.has ha
  unfold included Workspace.hasSubsumer
  rw [hctx]

theorem mem_supers_summarize (h : Answers ix w) (ha : a ∈ ix.classes) :
    x ∈ (summarize ix w a).supers ↔ x ∈ ix.classes ∧ w.hasSubsumer a x = true := by
  obtain ⟨ctx, hctx⟩ := h.has ha
  unfold summarize Workspace.hasSubsumer
  rw [hctx]
  have hmem : x ∈ ctx.facts.subsumers.filter ix.isListed ↔ ctx.facts.hasSubsumer x = true ∧ ix.isListed x = true :=
    List.mem_filter.trans (and_congr_left' Facts.mem_exprsOf)
  exact hmem.trans (by rw [Index.mem_classes_iff, and_comm])

theorem nodup_supers_summarize (h : Answers ix w) (ha : a ∈ ix.classes) : (summarize ix w a).supers.Nodup := by
  obtain ⟨ctx, hctx⟩ := h.has ha
  unfold summarize
  rw [hctx]
  refine List.Nodup.filter _ ?_
  have hnodup : ctx.facts.subsumerSet.members.Nodup := ctx.facts.subsumerSet.ascending.imp fun hlt => Nat.ne_of_lt hlt
  exact List.Nodup.map (fun _ _ e => ExprId.mk.inj e) hnodup

theorem mem_equivalents_iff (h : Answers ix w) (ha : a ∈ ix.classes) (hsat : w.isUnsatisfiable a = false) :
    x ∈ (reductionOf ix w a).equivalents ↔ x ∈ ix.classes ∧ w.Includes a x ∧ w.Includes x a := by
  rw [reductionOf, mem_reduce_equivalents, mem_supers_summarize h ha]
  constructor
  · rintro (rfl | ⟨⟨hx, hax⟩, hxa⟩)
    · exact ⟨ha, h.includes_refl ha, h.includes_refl ha⟩
    · exact ⟨hx, .inr hax, .inr (by rwa [included_eq h hx] at hxa)⟩
  · rintro ⟨hx, hax, hxa⟩
    have hsatx := h.satisfiable_of_includes ha hx hsat hax
    refine .inr ⟨⟨hx, Answers.hasSubsumer_of_includes hsat hax⟩, ?_⟩
    rw [included_eq h hx]
    exact Answers.hasSubsumer_of_includes hsatx hxa

/-- Inclusion between the classes of an index. -/
def Below (ix : Index) (w : Workspace) (a b : ix.Class) : Prop := w.Includes a b

theorem below_refl (h : Answers ix w) (a : ix.Class) : Below ix w a a := h.includes_refl a.2

theorem below_trans (h : Answers ix w) (a b c : ix.Class) (hab : Below ix w a b) (hbc : Below ix w b c) :
    Below ix w a c := h.includes_trans a.2 b.2 hab hbc

/-- Directly above a satisfiable class is what covers it. -/
theorem mem_direct_iff (h : Answers ix w) {a b : ix.Class} (hsat : w.isUnsatisfiable a = false) :
    b.1 ∈ (reductionOf ix w a).direct ↔ Covers (Below ix w) a b := by
  have hback {x : ix.Class} (hax : w.hasSubsumer a x = true) : included w x a = false ↔ ¬ Below ix w x a := by
    have hsatx := h.satisfiable_of_includes a.2 x.2 hsat (.inr hax)
    rw [included_eq h x.2, ← Bool.not_eq_true]
    exact not_congr ⟨.inr, Answers.hasSubsumer_of_includes hsatx⟩
  rw [reductionOf, mem_reduce_direct, mem_supers_summarize h a.2]
  constructor
  · rintro ⟨⟨-, hab⟩, -, hba, hmin⟩
    refine ⟨⟨.inr hab, (hback hab).1 hba⟩, fun c hac hcb => hcb.2 ?_⟩
    have hac' := Answers.hasSubsumer_of_includes hsat hac.1
    have hsatc := h.satisfiable_of_includes a.2 c.2 hsat hac.1
    have hsatb := h.satisfiable_of_includes a.2 b.2 hsat (.inr hab)
    have hne : c.1 ≠ a.1 := fun e => hac.2 (Subtype.ext e ▸ below_refl h _)
    have hne' : c.1 ≠ b.1 := fun e => hcb.2 (Subtype.ext e ▸ below_refl h _)
    have := hmin c ((mem_supers_summarize h a.2).2 ⟨c.2, hac'⟩) hne ((hback hac').2 hac.2) hne' (by
      rw [included_eq h c.2]
      exact Answers.hasSubsumer_of_includes hsatc hcb.1)
    rw [included_eq h b.2] at this
    exact .inr this
  · rintro ⟨⟨hab, hba⟩, hmin⟩
    have hab' := Answers.hasSubsumer_of_includes hsat hab
    refine ⟨⟨b.2, hab'⟩, fun e => hba (Subtype.ext e ▸ below_refl h _), (hback hab').2 hba, ?_⟩
    intro other hother _ hnot _ hle
    obtain ⟨hmem, hac⟩ := (mem_supers_summarize h a.2).1 hother
    have hsatb := h.satisfiable_of_includes a.2 b.2 hsat hab
    rw [included_eq h hmem] at hle
    rw [included_eq h b.2]
    by_contra hne
    refine hmin ⟨other, hmem⟩ ⟨.inr hac, (hback (x := ⟨other, hmem⟩) hac).1 hnot⟩ ⟨.inr hle, fun hbc => ?_⟩
    exact hne (Answers.hasSubsumer_of_includes hsatb hbc)

/-! ### Spots -/

/-- The layout of the satisfiable classes. -/
def layoutOf (ix : Index) (w : Workspace) : Layout :=
  Layout.ofReductions (reductions w (ix.classes.map (summarize ix w)))

/-- The place of the bottom node. -/
def bottomOf (ix : Index) (w : Workspace) : Nat := (layoutOf ix w).chosen.length

/-- The place of the node of a class. -/
def spot (ix : Index) (w : Workspace) (a : ExprId) : Nat := ((layoutOf ix w).place? a).getD (bottomOf ix w)

theorem covers_layoutOf (ix : Index) (w : Workspace) :
    (layoutOf ix w).Covers (reductions w (ix.classes.map (summarize ix w))) := by
  refine Layout.covers_ofReductions fun r hr => ?_
  rw [reductions_eq] at hr
  obtain ⟨a, -, rfl⟩ := List.mem_map.1 hr
  exact mem_reduce_equivalents.2 (.inl rfl)

theorem lt_bottomOf (h : (layoutOf ix w).place? x = some p) : p < bottomOf ix w := by
  obtain ⟨r, hr, -⟩ := (covers_layoutOf ix w).listed h
  exact (List.getElem?_eq_some_iff.1 hr).1

private theorem mem_reductions_iff (h : Answers ix w) {r : Reduction} :
    r ∈ reductions w (ix.classes.map (summarize ix w)) ↔
      ∃ a ∈ ix.classes, w.isUnsatisfiable a = false ∧ reductionOf ix w a = r := by
  rw [reductions_eq, List.mem_map]
  refine exists_congr fun a => ?_
  rw [List.mem_filter, and_assoc]
  refine and_congr_right fun ha => ?_
  rw [satisfiable_summarize h ha, Bool.not_eq_true']

private theorem partition_reductions (h : Answers ix w) :
    Partition (reductions w (ix.classes.map (summarize ix w))) := by
  constructor
  · intro r hr
    obtain ⟨a, ha, hsat, rfl⟩ := (mem_reductions_iff h).1 hr
    exact mem_reduce_equivalents.2 (.inl rfl)
  · intro r r' x hr hr' hx hx' y
    obtain ⟨a, ha, hsat, rfl⟩ := (mem_reductions_iff h).1 hr
    obtain ⟨a', ha', hsat', rfl⟩ := (mem_reductions_iff h).1 hr'
    rw [mem_equivalents_iff h ha hsat] at hx ⊢
    rw [mem_equivalents_iff h ha' hsat'] at hx' ⊢
    have haa' := h.includes_trans ha hx.1 hx.2.1 hx'.2.2
    have ha'a := h.includes_trans ha' hx'.1 hx'.2.1 hx.2.2
    refine and_congr_right fun hy => ⟨fun hay => ?_, fun hay => ?_⟩
    · exact ⟨h.includes_trans ha' ha ha'a hay.1, h.includes_trans hy ha hay.2 haa'⟩
    · exact ⟨h.includes_trans ha ha' haa' hay.1, h.includes_trans hy ha' hay.2 ha'a⟩

private theorem lays_layoutOf (h : Answers ix w) :
    (layoutOf ix w).Lays (reductions w (ix.classes.map (summarize ix w))) :=
  Layout.lays_ofReductions (partition_reductions h)

/-- A chosen reduction is that of a satisfiable class, which has its place. -/
theorem exists_of_chosen (h : Answers ix w) {r : Reduction} (hr : (layoutOf ix w).chosen[p]? = some r) :
    ∃ a : ix.Class, w.isUnsatisfiable a = false ∧ r = reductionOf ix w a ∧ (layoutOf ix w).place? a = some p := by
  obtain ⟨a, ha, hsat, rfl⟩ := (mem_reductions_iff h).1 ((lays_layoutOf h).mem_of_chosen (List.mem_of_getElem? hr))
  refine ⟨⟨a, ha⟩, hsat, rfl, (lays_layoutOf h).place?_eq_some_iff.2 ⟨_, hr, ?_⟩⟩
  exact mem_reduce_equivalents.2 (.inl rfl)

/-- The classes with a place in the layout are the satisfiable ones, and equivalent ones have the same. -/
theorem place?_layoutOf_iff (h : Answers ix w) {a : ix.Class} (hsat : w.isUnsatisfiable a = false)
    (ha : (layoutOf ix w).place? a = some p) :
    (layoutOf ix w).place? x = some p ↔ x ∈ ix.classes ∧ w.Includes a x ∧ w.Includes x a := by
  obtain ⟨r, hr, hmem⟩ := (lays_layoutOf h).place?_eq_some_iff.1 ha
  obtain ⟨b, hsatb, rfl, -⟩ := exists_of_chosen h hr
  have hself : a.1 ∈ (reductionOf ix w a).equivalents := mem_reduce_equivalents.2 (.inl rfl)
  have hsame := (partition_reductions h).same ((mem_reductions_iff h).2 ⟨b, b.2, hsatb, rfl⟩)
    ((mem_reductions_iff h).2 ⟨a, a.2, hsat, rfl⟩) hmem hself x
  rw [(lays_layoutOf h).place?_eq_some_iff, ← mem_equivalents_iff h a.2 hsat, ← hsame]
  constructor
  · rintro ⟨r', hr', hx⟩
    rw [hr] at hr'
    cases hr'
    exact hx
  · exact fun hx => ⟨_, hr, hx⟩

theorem exists_place? (h : Answers ix w) {a : ix.Class} (hsat : w.isUnsatisfiable a = false) :
    ∃ p, (layoutOf ix w).place? a = some p := by
  have hmem := (mem_reductions_iff h).2 ⟨a, a.2, hsat, rfl⟩
  exact (lays_layoutOf h).placed hmem

/-- A place in the layout is the spot of satisfiable classes. -/
theorem place?_eq_some_iff (h : Answers ix w) {a : ix.Class} :
    (layoutOf ix w).place? a = some p ↔ w.isUnsatisfiable a = false ∧ spot ix w a = p := by
  constructor
  · intro hp
    refine ⟨?_, by rw [spot, hp]; rfl⟩
    obtain ⟨r, hr, hmem⟩ := (lays_layoutOf h).place?_eq_some_iff.1 hp
    obtain ⟨b, hsatb, rfl, -⟩ := exists_of_chosen h hr
    exact h.satisfiable_of_includes b.2 a.2 hsatb ((mem_equivalents_iff h b.2 hsatb).1 hmem).2.1
  · rintro ⟨hsat, rfl⟩
    obtain ⟨p, hp⟩ := exists_place? h hsat
    rw [spot, hp]
    rfl

theorem spot_eq_bottomOf_iff (h : Answers ix w) {a : ix.Class} :
    spot ix w a = bottomOf ix w ↔ w.isUnsatisfiable a = true := by
  constructor
  · intro hspot
    by_contra hne
    have hsat := Bool.eq_false_iff.2 hne
    have hlt := lt_bottomOf ((place?_eq_some_iff h).2 ⟨hsat, hspot⟩)
    omega
  · intro hempty
    have hnone : (layoutOf ix w).place? a = none := by
      refine Option.eq_none_iff_forall_ne_some.2 fun p hp => ?_
      have hsat := ((place?_eq_some_iff h).1 hp).1
      rw [hempty] at hsat
      cases hsat
    rw [spot, hnone]
    rfl

theorem spot_le (h : Answers ix w) (a : ix.Class) : spot ix w a ≤ bottomOf ix w := by
  by_cases hempty : w.isUnsatisfiable a = true
  · exact Nat.le_of_eq ((spot_eq_bottomOf_iff h).2 hempty)
  · have hplace := (place?_eq_some_iff h (a := a)).2 ⟨Bool.eq_false_iff.2 hempty, rfl⟩
    exact Nat.le_of_lt (lt_bottomOf hplace)

/-- Two classes have the same spot if and only if they include each other. -/
theorem spot_eq_iff (h : Answers ix w) {a b : ix.Class} :
    spot ix w b = spot ix w a ↔ Below ix w a b ∧ Below ix w b a := by
  by_cases hempty : w.isUnsatisfiable a = true
  · rw [(spot_eq_bottomOf_iff h).2 hempty, spot_eq_bottomOf_iff h]
    constructor
    · exact fun hb => ⟨.inl hempty, .inl hb⟩
    · rintro ⟨-, hb | hba⟩
      · exact hb
      · exact h.empty b.2 a.2 hba hempty
  · have hsat := Bool.eq_false_iff.2 hempty
    have hplace := (place?_eq_some_iff h (a := a)).2 ⟨hsat, rfl⟩
    have hiff := place?_layoutOf_iff h (x := b) hsat hplace
    rw [place?_eq_some_iff h] at hiff
    constructor
    · intro hspot
      by_cases hb : w.isUnsatisfiable b = true
      · have := lt_bottomOf hplace
        rw [← hspot, (spot_eq_bottomOf_iff h).2 hb] at this
        omega
      · exact (hiff.1 ⟨Bool.eq_false_iff.2 hb, hspot⟩).2
    · exact fun hab => (hiff.2 ⟨b.2, hab⟩).2

/-- Every place of a node is the spot of a class. -/
theorem exists_spot (hix : ix.Tidy) (h : Answers ix w) (hp : p ≤ bottomOf ix w) : ∃ a : ix.Class, spot ix w a = p := by
  by_cases hlt : p < bottomOf ix w
  · obtain ⟨r, hr⟩ : ∃ r, (layoutOf ix w).chosen[p]? = some r := ⟨_, List.getElem?_eq_getElem hlt⟩
    obtain ⟨a, -, -, ha⟩ := exists_of_chosen h hr
    exact ⟨a, ((place?_eq_some_iff h).1 ha).2⟩
  · have hnothing : w.isUnsatisfiable (⟨.nothing, hix.nothing_mem_classes⟩ : ix.Class) = true := h.nothing
    refine ⟨⟨.nothing, hix.nothing_mem_classes⟩, ?_⟩
    rw [(spot_eq_bottomOf_iff h).2 hnothing]
    omega

end Taxonomy

end ELOntology
