import Mathlib.Data.List.Induction
import Mathlib.Data.List.Nodup
import ELOntology.Proofs.Order.Cover
import ELOntology.Taxonomy.Build

/-!
# One node for each equivalence class

The reduction of a class lists its equivalents and what covers it among its subsumers.  The layout gives the class of each
reduction a place, whatever the reductions are (`Layout.Covers`).  Once reductions of equivalent classes have the same
equivalents (`Partition`), it chooses one of each class and gives all equivalents its place (`Layout.Lays`).

Key facts: `mem_reduce_equivalents`, `mem_reduce_direct`, `Layout.covers_ofReductions` and `Layout.lays_ofReductions`.
-/

namespace ELOntology

namespace Taxonomy

/-! ### Reductions -/

section Reduce

variable {included : ExprId → ExprId → Bool} {id x : ExprId} {supers : List ExprId}

theorem mem_reduce_equivalents :
    x ∈ (reduce included id supers).equivalents ↔ x = id ∨ x ∈ supers ∧ included x id = true := by
  have hcons : x ∈ (reduce included id supers).equivalents ↔
      x ∈ id :: (supers.filter (· ≠ id)).filter fun sup => included sup id := mem_sortBy
  rw [hcons, List.mem_cons, List.mem_filter, List.mem_filter, decide_eq_true_iff]
  constructor
  · rintro (rfl | ⟨⟨hx, -⟩, hback⟩)
    · exact .inl rfl
    · exact .inr ⟨hx, hback⟩
  · rintro (rfl | ⟨hx, hback⟩)
    · exact .inl rfl
    · by_cases e : x = id
      · exact .inl e
      · exact .inr ⟨⟨hx, e⟩, hback⟩

theorem nodup_reduce_equivalents (h : supers.Nodup) : (reduce included id supers).equivalents.Nodup := by
  have hperm : (reduce included id supers).equivalents.Perm
      (id :: (supers.filter (· ≠ id)).filter fun sup => included sup id) := sortBy_perm _ _
  rw [hperm.nodup_iff, List.nodup_cons, List.mem_filter, List.mem_filter, decide_eq_true_iff]
  exact ⟨fun hid => hid.1.2 rfl, (h.filter _).filter _⟩

/-- What is directly above a class is what covers it among its subsumers. -/
theorem mem_reduce_direct : x ∈ (reduce included id supers).direct ↔ x ∈ supers ∧ x ≠ id ∧ included x id = false ∧
    ∀ other ∈ supers, other ≠ id → included other id = false → other ≠ x → included other x = true →
      included x other = true := by
  have hstrict (y : ExprId) : y ∈ (supers.filter (· ≠ id)).filter (fun sup => !included sup id) ↔
      y ∈ supers ∧ y ≠ id ∧ included y id = false := by
    rw [List.mem_filter, List.mem_filter, decide_eq_true_iff, Bool.not_eq_true', and_assoc]
  rw [reduce, List.mem_filter, hstrict, and_assoc, and_assoc, Bool.not_eq_true', List.any_eq_false]
  refine and_congr_right fun _ => and_congr_right fun _ => and_congr_right fun _ => ?_
  constructor
  · intro hmin other hother hne hback hnex hle
    have := hmin other ((hstrict other).2 ⟨hother, hne, hback⟩)
    simpa [hnex, hle] using this
  · intro hmin other hother hbelow
    obtain ⟨hother, hne, hback⟩ := (hstrict other).1 hother
    simp only [Bool.and_eq_true, decide_eq_true_eq, Bool.not_eq_true'] at hbelow
    obtain ⟨⟨hnex, hle⟩, hnot⟩ := hbelow
    rw [hmin other hother hne hback hnex hle] at hnot
    cases hnot

end Reduce

/-! ### The layout -/

/-- The equivalents of the reductions are the classes of an equivalence. -/
structure Partition (rs : List Reduction) : Prop where
  self {r : Reduction} : r ∈ rs → r.id ∈ r.equivalents
  same {r r' : Reduction} {x : ExprId} : r ∈ rs → r' ∈ rs → x ∈ r.equivalents → x ∈ r'.equivalents →
    ∀ y, y ∈ r.equivalents ↔ y ∈ r'.equivalents

namespace Layout

variable {layout : Layout} {seen all : List Reduction} {r : Reduction}

private theorem find?_map_reverse (ids : List ExprId) (n : Nat) (id : ExprId) :
    ((ids.map fun id => (id, n)).reverse.find? fun entry => entry.1 = id) = if id ∈ ids then some (id, n) else none := by
  split <;> rename_i hid
  · have hsome : ((ids.map fun id => (id, n)).reverse.find? fun entry => entry.1 = id).isSome := by
      refine List.find?_isSome.2 ⟨(id, n), ?_, decide_eq_true rfl⟩
      exact List.mem_reverse.2 (List.mem_map.2 ⟨id, hid, rfl⟩)
    obtain ⟨entry, hentry⟩ := Option.isSome_iff_exists.1 hsome
    have hkey : entry.1 = id := by simpa using List.find?_some hentry
    obtain ⟨other, -, rfl⟩ := List.mem_map.1 (List.mem_reverse.1 (List.mem_of_find?_eq_some hentry))
    rw [hentry, ← hkey]
  · refine List.find?_eq_none.2 fun entry hentry hkey => hid ?_
    obtain ⟨other, hother, rfl⟩ := List.mem_map.1 (List.mem_reverse.1 hentry)
    exact of_decide_eq_true hkey ▸ hother

theorem add_of_place? {p : Nat} (hplace : layout.place? r.id = some p) : layout.add r = layout := by
  rw [add, hplace]
  rfl

theorem chosen_add (hnew : layout.place? r.id = none) : (layout.add r).chosen = layout.chosen ++ [r] := by
  rw [add, hnew]
  rfl

/-- The classes of a reduction get the next place, and no other class gets another one. -/
theorem place?_add (hnew : layout.place? r.id = none) (id : ExprId) :
    (layout.add r).place? id = if id ∈ r.equivalents then some layout.chosen.length else layout.place? id := by
  have hadd : layout.add r = ⟨layout.chosen ++ [r],
      (r.equivalents.map fun id => (id, layout.chosen.length)).reverse ++ layout.places⟩ := by
    rw [add, hnew]
    rfl
  rw [hadd, place?, List.find?_append, find?_map_reverse]
  split
  · rfl
  · rfl

/-! ### Any reductions -/

/-- Each place is that of a chosen reduction which lists the class, and the class of each reduction seen has a place.  The
chosen reductions may overlap; then a class is where the latest of them has put it. -/
structure Covers (layout : Layout) (seen : List Reduction) : Prop where
  listed {id : ExprId} {p : Nat} : layout.place? id = some p → ∃ r, layout.chosen[p]? = some r ∧ id ∈ r.equivalents
  placed {r : Reduction} : r ∈ seen → ∃ p, layout.place? r.id = some p

private theorem Covers.add (h : layout.Covers seen) (hself : r.id ∈ r.equivalents) : (layout.add r).Covers (seen ++ [r]) := by
  cases hplace : layout.place? r.id with
  | some p =>
    rw [add_of_place? hplace]
    refine ⟨h.listed, fun hr' => ?_⟩
    rcases List.mem_append.1 hr' with hr' | hr'
    · exact h.placed hr'
    · exact ⟨p, List.mem_singleton.1 hr' ▸ hplace⟩
  | none =>
    constructor
    · intro id p hid
      rw [place?_add hplace] at hid
      rw [chosen_add hplace]
      split at hid
      · rename_i hmem
        obtain rfl := Option.some.inj hid
        exact ⟨r, by simp, hmem⟩
      · obtain ⟨r', hr', hmem⟩ := h.listed hid
        exact ⟨r', by rwa [List.getElem?_append_left (List.getElem?_eq_some_iff.1 hr').1], hmem⟩
    · intro r' hr'
      rw [place?_add hplace]
      split
      · exact ⟨_, rfl⟩
      · rename_i hnot
        rcases List.mem_append.1 hr' with hr' | hr'
        · exact h.placed hr'
        · obtain rfl := List.mem_singleton.1 hr'
          exact absurd hself hnot

/-- Every class of a reduction has a place.  By induction on the reductions, the last one put on top of the others. -/
theorem covers_ofReductions {rs : List Reduction} (hself : ∀ r ∈ rs, r.id ∈ r.equivalents) :
    (ofReductions rs).Covers rs := by
  induction rs using List.reverseRecOn with
  | nil => exact ⟨fun h => (nomatch h), fun h => absurd h List.not_mem_nil⟩
  | append_singleton rs r ih =>
    obtain ⟨hrs, hr⟩ := List.forall_mem_append.1 hself
    rw [ofReductions, List.foldl_append]
    exact (ih hrs).add (hr r (List.mem_singleton_self r))

/-! ### The reductions of a partition -/

/-- The layout has one node for each class of equivalents among the reductions seen. -/
structure Lays (layout : Layout) (seen : List Reduction) : Prop where
  mem_of_chosen {r : Reduction} : r ∈ layout.chosen → r ∈ seen
  place?_eq_some_iff {id : ExprId} {p : Nat} :
    layout.place? id = some p ↔ ∃ r, layout.chosen[p]? = some r ∧ id ∈ r.equivalents
  placed {r : Reduction} : r ∈ seen → ∃ p, layout.place? r.id = some p

/-- A class of a reduction that had a place would have given it to the class of the reduction. -/
private theorem Lays.place?_ne_of_new (hp : Partition all) (h : layout.Lays seen) (hseen : ∀ r ∈ seen, r ∈ all)
    (hr : r ∈ all) (hnew : layout.place? r.id = none) {id : ExprId} (hid : id ∈ r.equivalents) (p : Nat) :
    layout.place? id ≠ some p := by
  intro hplace
  obtain ⟨r', hr', hid'⟩ := h.place?_eq_some_iff.1 hplace
  have hmem := hseen r' (h.mem_of_chosen (List.mem_of_getElem? hr'))
  have hself := (hp.same hr hmem hid hid' r.id).1 (hp.self hr)
  have := h.place?_eq_some_iff.2 ⟨r', hr', hself⟩
  rw [hnew] at this
  cases this

/-- The places of the classes are those of the reductions chosen, also with one more of them. -/
private theorem Lays.place?_add_iff (h : layout.Lays seen) (hnew : layout.place? r.id = none)
    (hfresh : ∀ id ∈ r.equivalents, ∀ p, layout.place? id ≠ some p) (id : ExprId) (p : Nat) :
    (layout.add r).place? id = some p ↔ ∃ r', (layout.chosen ++ [r])[p]? = some r' ∧ id ∈ r'.equivalents := by
  rw [place?_add hnew]
  split <;> rename_i hid
  · constructor
    · intro e
      cases e
      exact ⟨r, by rw [List.getElem?_append_right (Nat.le_refl _), Nat.sub_self]; rfl, hid⟩
    · rintro ⟨r', hr', hid'⟩
      by_cases hlt : p < layout.chosen.length
      · rw [List.getElem?_append_left hlt] at hr'
        exact absurd (h.place?_eq_some_iff.2 ⟨r', hr', hid'⟩) (hfresh id hid p)
      · have hle := (List.getElem?_eq_some_iff.1 hr').1
        rw [List.length_append, List.length_singleton] at hle
        have hlast : p = layout.chosen.length := by omega
        rw [hlast]
  · rw [h.place?_eq_some_iff]
    refine exists_congr fun r' => ?_
    constructor
    · rintro ⟨hr', hid'⟩
      exact ⟨by rw [List.getElem?_append_left (List.getElem?_eq_some_iff.1 hr').1, hr'], hid'⟩
    · rintro ⟨hr', hid'⟩
      by_cases hlt : p < layout.chosen.length
      · exact ⟨by rwa [List.getElem?_append_left hlt] at hr', hid'⟩
      · rw [List.getElem?_append_right (Nat.le_of_not_lt hlt)] at hr'
        obtain rfl := List.mem_singleton.1 (List.mem_of_getElem? hr')
        exact absurd hid' hid

/-- One more reduction is laid out, in the node of its class or in a new one. -/
private theorem Lays.add (hp : Partition all) (h : layout.Lays seen) (hseen : ∀ r ∈ seen, r ∈ all) (hr : r ∈ all) :
    (layout.add r).Lays (seen ++ [r]) := by
  have hcovers : (layout.add r).Covers (seen ++ [r]) := Covers.add ⟨h.place?_eq_some_iff.1, h.placed⟩ (hp.self hr)
  cases hplace : layout.place? r.id with
  | some p =>
    rw [add_of_place? hplace] at hcovers ⊢
    exact ⟨fun hr' => List.mem_append_left _ (h.mem_of_chosen hr'), h.place?_eq_some_iff, hcovers.placed⟩
  | none =>
    have hfresh (id : ExprId) (hid : id ∈ r.equivalents) (p : Nat) : layout.place? id ≠ some p :=
      h.place?_ne_of_new hp hseen hr hplace hid p
    refine ⟨fun {r'} hr' => ?_, fun {id p} => ?_, hcovers.placed⟩
    · rw [chosen_add hplace] at hr'
      exact List.mem_append.2 ((List.mem_append.1 hr').imp_left h.mem_of_chosen)
    · rw [chosen_add hplace]
      exact h.place?_add_iff hplace hfresh id p

/-- All reductions of a partition are laid out.  By induction on those still to come. -/
theorem lays_ofReductions {rs : List Reduction} (hp : Partition rs) : (ofReductions rs).Lays rs := by
  have hstart : Lays ⟨[], []⟩ [] :=
    ⟨fun h => absurd h List.not_mem_nil, by simp [place?], fun h => absurd h List.not_mem_nil⟩
  have hstep (rest : List Reduction) : ∀ (layout : Layout) (seen : List Reduction), layout.Lays seen →
      (∀ r ∈ seen ++ rest, r ∈ rs) → (rest.foldl Layout.add layout).Lays (seen ++ rest) := by
    induction rest with
    | nil =>
      intro layout seen h _
      rwa [List.append_nil]
    | cons r rest ih =>
      intro layout seen h hall
      have hseen : ∀ r' ∈ seen, r' ∈ rs := fun r' hr' => hall r' (List.mem_append_left _ hr')
      have hr : r ∈ rs := hall r (List.mem_append_right _ (List.mem_cons_self ..))
      have happend : seen ++ r :: rest = seen ++ [r] ++ rest := by rw [List.append_assoc, List.singleton_append]
      rw [happend] at hall ⊢
      exact ih _ _ (h.add hp hseen hr) hall
  exact hstep rs _ [] hstart fun r hr => hr

end Layout

end Taxonomy

end ELOntology
