import Mathlib.Data.Multiset.Dedup

/-!
# Multisets that match element by element

`Multiset.Rel R s t` says that the elements of two multisets can be matched one by one.  Key facts: what is chosen from
both by related conditions or functions matches as well (`rel_filter`, `rel_filterMap`), matches compose (`rel_comp`), and
two multisets without repetitions match as soon as each element has a partner (`rel_of_nodup`).
-/

namespace ELOntology

open Multiset

variable {α β γ δ : Type} {R : α → β → Prop} {s : Multiset α} {t : Multiset β}

theorem rel_of_forall₂ {xs : List α} {ys : List β} (h : List.Forall₂ R xs ys) : Rel R (xs : Multiset α) ys := by
  induction h with
  | nil => exact .zero
  | cons hxy _ ih => exact .cons hxy ih

theorem exists_right_of_rel (h : Rel R s t) {x : α} (hx : x ∈ s) : ∃ y ∈ t, R x y := exists_mem_of_rel_of_mem h hx

theorem exists_left_of_rel (h : Rel R s t) {y : β} (hy : y ∈ t) : ∃ x ∈ s, R x y :=
  exists_mem_of_rel_of_mem (rel_flip.2 h) hy

theorem rel_filter {p : α → Prop} {q : β → Prop} [DecidablePred p] [DecidablePred q] (h : Rel R s t)
    (hpq : ∀ x y, R x y → (p x ↔ q y)) : Rel R (s.filter p) (t.filter q) := by
  induction h with
  | zero => exact .zero
  | @cons x y s t hxy _ ih =>
    by_cases hx : p x
    · rw [filter_cons_of_pos _ hx, filter_cons_of_pos _ ((hpq x y hxy).1 hx)]
      exact .cons hxy ih
    · rw [filter_cons_of_neg _ hx, filter_cons_of_neg _ (mt (hpq x y hxy).2 hx)]
      exact ih

theorem countP_eq_of_rel {p : α → Prop} {q : β → Prop} [DecidablePred p] [DecidablePred q] (h : Rel R s t)
    (hpq : ∀ x y, R x y → (p x ↔ q y)) : s.countP p = t.countP q := by
  rw [countP_eq_card_filter, countP_eq_card_filter]
  exact card_eq_card_of_rel (rel_filter h hpq)

/-- Related elements occur equally often if the relation matches each of them with nothing else. -/
theorem count_eq_of_rel [DecidableEq α] [DecidableEq β] (h : Rel R s t) {x : α} {y : β}
    (hxy : ∀ x' y', R x' y' → (x' = x ↔ y' = y)) : s.count x = t.count y :=
  countP_eq_of_rel h fun x' y' hR => by rw [eq_comm, hxy x' y' hR, eq_comm]

theorem rel_filterMap {S : γ → δ → Prop} {f : α → Option γ} {g : β → Option δ} (h : Rel R s t)
    (hfg : ∀ x y, R x y → Option.Rel S (f x) (g y)) : Rel S (s.filterMap f) (t.filterMap g) := by
  induction h with
  | zero => exact .zero
  | @cons x y s t hxy _ ih =>
    have hS := hfg x y hxy
    cases hf : f x with
    | none =>
      cases hg : g y with
      | none =>
        rw [filterMap_cons_none _ _ hf, filterMap_cons_none _ _ hg]
        exact ih
      | some => rw [hf, hg] at hS; cases hS
    | some z =>
      cases hg : g y with
      | none => rw [hf, hg] at hS; cases hS
      | some w =>
        rw [hf, hg] at hS
        rw [filterMap_cons_some _ _ _ hf, filterMap_cons_some _ _ _ hg]
        cases hS with
        | some hzw => exact .cons hzw ih

theorem rel_comp {S : β → γ → Prop} {u : Multiset γ} (h : Rel R s t) (h' : Rel S t u) :
    Rel (Relation.Comp R S) s u := by
  induction h generalizing u with
  | zero =>
    rw [rel_zero_left.1 h']
    exact .zero
  | cons hxy _ ih =>
    obtain ⟨z, u, hyz, hrest, rfl⟩ := rel_cons_left.1 h'
    exact .cons ⟨_, hxy, hyz⟩ (ih hrest)

/-- The relation matches each element with one element at most, so a match leaves no choice. -/
theorem eq_of_rel_left {s' : Multiset α} (h : Rel R s t) (h' : Rel R s' t)
    (hunique : ∀ x x' y, R x y → R x' y → x = x') : s = s' := by
  induction h generalizing s' with
  | zero => exact (rel_zero_right.1 h').symm
  | cons hxy _ ih =>
    obtain ⟨x', s', hx', hrest, rfl⟩ := rel_cons_right.1 h'
    rw [hunique _ _ _ hxy hx', ih hrest]

theorem eq_of_rel_right {t' : Multiset β} (h : Rel R s t) (h' : Rel R s t')
    (hunique : ∀ x y y', R x y → R x y' → y = y') : t = t' :=
  eq_of_rel_left (R := flip R) (rel_flip.2 h) (rel_flip.2 h') fun y y' x => hunique x y y'

/-- Without repetitions, it is enough that each element has a partner and no two share one. -/
theorem rel_of_nodup (hs : s.Nodup) (ht : t.Nodup) (hleft : ∀ x ∈ s, ∃ y ∈ t, R x y) (hright : ∀ y ∈ t, ∃ x ∈ s, R x y)
    (hunique : ∀ x ∈ s, ∀ x' ∈ s, ∀ y, R x y → R x' y → x = x') (hunique' : ∀ x, ∀ y ∈ t, ∀ y' ∈ t, R x y → R x y' → y = y') :
    Rel R s t := by
  induction s using Multiset.induction_on generalizing t with
  | empty =>
    rw [rel_zero_left]
    refine eq_zero_of_forall_notMem fun y hy => ?_
    obtain ⟨x, hx, -⟩ := hright y hy
    exact notMem_zero x hx
  | cons x s ih =>
    obtain ⟨hx, hs⟩ := nodup_cons.1 hs
    obtain ⟨y, hy, hxy⟩ := hleft x (mem_cons_self ..)
    obtain ⟨t, rfl⟩ := exists_cons_of_mem hy
    obtain ⟨hy, ht⟩ := nodup_cons.1 ht
    refine .cons hxy (ih hs ht (fun z hz => ?_) (fun w hw => ?_)
      (fun z hz z' hz' => hunique z (mem_cons_of_mem hz) z' (mem_cons_of_mem hz'))
      fun z w hw w' hw' => hunique' z w (mem_cons_of_mem hw) w' (mem_cons_of_mem hw'))
    · obtain ⟨w, hw, hzw⟩ := hleft z (mem_cons_of_mem hz)
      rcases mem_cons.1 hw with rfl | hw
      · exact absurd (hunique z (mem_cons_of_mem hz) x (mem_cons_self ..) w hzw hxy ▸ hz) hx
      · exact ⟨w, hw, hzw⟩
    · obtain ⟨z, hz, hzw⟩ := hright w (mem_cons_of_mem hw)
      rcases mem_cons.1 hz with rfl | hz
      · exact absurd (hunique' z w (mem_cons_of_mem hw) y (mem_cons_self ..) hzw hxy ▸ hw) hy
      · exact ⟨z, hz, hzw⟩

end ELOntology
