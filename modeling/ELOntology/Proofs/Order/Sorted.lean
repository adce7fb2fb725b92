import Mathlib.Data.List.Forall2
import Mathlib.Data.List.Pairwise
import ELOntology.Order.Sort

/-!
# Sorted lists

What insertion sort promises besides keeping every element.  Key facts: its result ascends (`pairwise_sortBy`), related
lists are sorted into related lists when the two orders agree on related elements (`forall₂_sortBy`), and a sorted list of
texts without repetitions depends on its members alone (`ascending_ext`).
-/

namespace ELOntology

variable {α β : Type}

theorem pairwise_insertBy {le : α → α → Bool} (htotal : ∀ a b, le a b = true ∨ le b a = true)
    (htrans : ∀ a b c, le a b = true → le b c = true → le a c = true) {x : α} {xs : List α}
    (h : xs.Pairwise (le · · = true)) : (insertBy le x xs).Pairwise (le · · = true) := by
  induction xs with
  | nil => exact List.pairwise_singleton _ _
  | cons y ys ih =>
    obtain ⟨hy, hys⟩ := List.pairwise_cons.1 h
    unfold insertBy
    split
    · rename_i hxy
      exact List.pairwise_cons.2 ⟨List.forall_mem_cons.2 ⟨hxy, fun z hz => htrans _ _ _ hxy (hy z hz)⟩, h⟩
    · rename_i hxy
      refine List.pairwise_cons.2 ⟨fun z hz => ?_, ih hys⟩
      rcases List.mem_cons.1 ((insertBy_perm le x ys).mem_iff.1 hz) with rfl | hz
      · exact (htotal z y).resolve_left hxy
      · exact hy z hz

/-- Under a total and transitive order, the sorted list ascends. -/
theorem pairwise_sortBy {le : α → α → Bool} (htotal : ∀ a b, le a b = true ∨ le b a = true)
    (htrans : ∀ a b c, le a b = true → le b c = true → le a c = true) (xs : List α) :
    (sortBy le xs).Pairwise (le · · = true) := by
  induction xs with
  | nil => exact .nil
  | cons x xs ih => exact pairwise_insertBy htotal htrans ih

section Forall₂

variable {R : α → β → Prop} {le : α → α → Bool} {le' : β → β → Bool}

theorem exists_right_of_mem {a : α} {as : List α} {xs : List β} (h : List.Forall₂ R as xs) (ha : a ∈ as) :
    ∃ x ∈ xs, R a x := by
  induction h with
  | nil => cases ha
  | cons hby _ ih =>
    rcases List.mem_cons.1 ha with rfl | ha
    · exact ⟨_, List.mem_cons_self .., hby⟩
    · obtain ⟨x, hx, hax⟩ := ih ha
      exact ⟨x, List.mem_cons_of_mem _ hx, hax⟩

theorem exists_left_of_mem {x : β} {as : List α} {xs : List β} (h : List.Forall₂ R as xs) (hx : x ∈ xs) :
    ∃ a ∈ as, R a x := by
  induction h with
  | nil => cases hx
  | cons hby _ ih =>
    rcases List.mem_cons.1 hx with rfl | hx
    · exact ⟨_, List.mem_cons_self .., hby⟩
    · obtain ⟨a, ha, hax⟩ := ih hx
      exact ⟨a, List.mem_cons_of_mem _ ha, hax⟩

/-- Lists that match can be split at the same place. -/
theorem forall₂_append_left {as bs : List α} {xs : List β} (h : List.Forall₂ R (as ++ bs) xs) :
    ∃ ys zs, xs = ys ++ zs ∧ List.Forall₂ R as ys ∧ List.Forall₂ R bs zs := by
  induction as generalizing xs with
  | nil => exact ⟨[], xs, rfl, .nil, h⟩
  | cons a as ih =>
    cases h with
    | cons ha hrest =>
      obtain ⟨ys, zs, rfl, hys, hzs⟩ := ih hrest
      exact ⟨_ :: ys, zs, rfl, .cons ha hys, hzs⟩

theorem forall₂_split {a : α} {pre post : List α} {xs : List β} (h : List.Forall₂ R (pre ++ a :: post) xs) :
    ∃ xpre x xpost, xs = xpre ++ x :: xpost ∧ List.Forall₂ R pre xpre ∧ R a x ∧ List.Forall₂ R post xpost := by
  obtain ⟨xpre, rest, rfl, hpre, hrest⟩ := forall₂_append_left h
  cases hrest with
  | cons hx hpost => exact ⟨xpre, _, _, rfl, hpre, hx, hpost⟩

theorem forall₂_insertBy (hle : ∀ a b x y, R a x → R b y → le a b = le' x y) {a : α} {x : β} (hax : R a x)
    {as : List α} {xs : List β} (h : List.Forall₂ R as xs) :
    List.Forall₂ R (insertBy le a as) (insertBy le' x xs) := by
  induction h with
  | nil => exact .cons hax .nil
  | cons hby hrest ih =>
    rw [insertBy, insertBy, hle _ _ _ _ hax hby]
    split
    · exact .cons hax (.cons hby hrest)
    · exact .cons hby ih

/-- Lists of related elements are sorted alike by orders that agree on related elements. -/
theorem forall₂_sortBy (hle : ∀ a b x y, R a x → R b y → le a b = le' x y) {as : List α} {xs : List β}
    (h : List.Forall₂ R as xs) : List.Forall₂ R (sortBy le as) (sortBy le' xs) := by
  induction h with
  | nil => exact .nil
  | cons hax _ ih => exact forall₂_insertBy hle hax ih

end Forall₂

/-! ### Texts -/

/-- Ascending lists of texts with the same members are equal. -/
theorem ascending_ext {texts texts' : List String} (h : texts.Pairwise (· < ·)) (h' : texts'.Pairwise (· < ·))
    (hmem : ∀ s, s ∈ texts ↔ s ∈ texts') : texts = texts' := by
  have hnodup : texts.Nodup := h.imp String.ne_of_lt
  have hnodup' : texts'.Nodup := h'.imp String.ne_of_lt
  have hperm : texts.Perm texts' := (List.perm_ext_iff_of_nodup hnodup hnodup').2 hmem
  exact hperm.eq_of_pairwise (fun a b _ _ hab hba => absurd hba (String.lt_asymm hab)) h h'

/-- Sorted texts ascend strictly when none is repeated. -/
theorem pairwise_sortTexts {texts : List String} (h : texts.Nodup) : (sortTexts texts).Pairwise (· < ·) := by
  have hle : (sortTexts texts).Pairwise fun s t => decide (s ≤ t) = true := by
    refine pairwise_sortBy (fun s t => ?_) (fun s t u hst htu => ?_) texts
    · rcases String.le_total s t with hst | hts
      · exact .inl (decide_eq_true hst)
      · exact .inr (decide_eq_true hts)
    · exact decide_eq_true (String.le_trans (of_decide_eq_true hst) (of_decide_eq_true htu))
  have hne : (sortTexts texts).Pairwise (· ≠ ·) := (sortBy_perm _ texts).nodup_iff.2 h
  refine hle.imp₂ (fun s t hst hne => ?_) hne
  exact String.not_le.1 fun hts => hne (String.le_antisymm (of_decide_eq_true hst) hts)

theorem mem_sortTexts {texts : List String} {s : String} : s ∈ sortTexts texts ↔ s ∈ texts := mem_sortBy

theorem mem_textSet {texts : List String} {s : String} : s ∈ textSet texts ↔ s ∈ texts :=
  mem_sortTexts.trans mem_distinct

/-- A set of texts depends on its members alone. -/
theorem textSet_congr {texts texts' : List String} (h : ∀ s, s ∈ texts ↔ s ∈ texts') : textSet texts = textSet texts' := by
  refine ascending_ext (pairwise_sortTexts (nodup_distinct _)) (pairwise_sortTexts (nodup_distinct _)) fun s => ?_
  exact mem_textSet.trans ((h s).trans mem_textSet.symm)

end ELOntology
