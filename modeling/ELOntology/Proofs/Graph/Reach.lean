import Mathlib.Data.List.Perm.Subperm
import Mathlib.Logic.Relation
import ELOntology.Graph.Reach

/-!
# What a search finds

Key facts: `mem_reach_iff` (with enough fuel the search finds exactly what can be reached) and `nodup_reach` (nothing is
found twice).
-/

namespace ELOntology

variable {α : Type} [DecidableEq α] {next : α → List α}

/-- One step of a search. -/
abbrev Leads (next : α → List α) (x y : α) : Prop := y ∈ next x

/-- What has been found, whether it has been looked at or not, and all that is led to from what has been looked at. -/
private structure Searching (next : α → List α) (all done queue : List α) : Prop where
  nodup : (done ++ queue).Nodup
  subset : ∀ x ∈ done ++ queue, x ∈ all
  closed : ∀ x ∈ done, ∀ y, Leads next x y → y ∈ done ++ queue

private theorem Searching.step {all done queue : List α} {x : α} (hall : ∀ x ∈ all, ∀ y, Leads next x y → y ∈ all)
    (h : Searching next all done (x :: queue)) :
    Searching next all (done ++ [x]) (queue ++ fresh (done ++ x :: queue) (next x)) := by
  have hsplit : done ++ [x] ++ (queue ++ fresh (done ++ x :: queue) (next x)) =
      (done ++ x :: queue) ++ fresh (done ++ x :: queue) (next x) := by simp
  have hx : x ∈ all := h.subset x (by simp)
  constructor
  · rw [hsplit, List.nodup_append]
    exact ⟨h.nodup, nodup_fresh _ _, fun a ha b hb e => (mem_fresh.1 hb).2 (e ▸ ha)⟩
  · rw [hsplit]
    intro y hy
    rcases List.mem_append.1 hy with hy | hy
    · exact h.subset y hy
    · exact hall x hx y (mem_fresh.1 hy).1
  · rw [hsplit]
    intro y hy z hz
    rcases List.mem_append.1 hy with hy | hy
    · exact List.mem_append_left _ (h.closed y hy z hz)
    · obtain rfl := List.mem_singleton.1 hy
      by_cases hseen : z ∈ done ++ y :: queue
      · exact List.mem_append_left _ hseen
      · exact List.mem_append_right _ (mem_fresh.2 ⟨hz, hseen⟩)

/-- The result of a search has no repetitions, keeps what was found, leads nowhere else, and has only what was found or
can be reached from it.  By induction on the fuel, which is enough for all that has not been looked at. -/
private theorem reachFrom_spec {all : List α} (hall : ∀ x ∈ all, ∀ y, Leads next x y → y ∈ all) (fuel : Nat)
    {done queue : List α} (h : Searching next all done queue) (hfuel : all.length ≤ fuel + done.length) :
    Searching next all (reachFrom next fuel done queue) [] ∧ (∀ x ∈ done ++ queue, x ∈ reachFrom next fuel done queue) ∧
      ∀ x ∈ reachFrom next fuel done queue, ∃ y ∈ done ++ queue, Relation.ReflTransGen (Leads next) y x := by
  induction fuel generalizing done queue with
  | zero =>
    have hle : (done ++ queue).length ≤ all.length := (h.nodup.subperm h.subset).length_le
    obtain rfl : queue = [] := by
      rw [List.length_append] at hle
      exact List.length_eq_zero_iff.1 (by omega)
    simp only [reachFrom, List.append_nil]
    exact ⟨h, fun x hx => hx, fun x hx => ⟨x, hx, .refl⟩⟩
  | succ fuel ih =>
    cases queue with
    | nil =>
      simp only [reachFrom, List.append_nil]
      exact ⟨h, fun x hx => hx, fun x hx => ⟨x, hx, .refl⟩⟩
    | cons x queue =>
      obtain ⟨hout, hkept, hfound⟩ := ih (h.step hall) (by
        rw [List.length_append, List.length_singleton]
        omega)
      refine ⟨hout, fun y hy => hkept y ?_, fun y hy => ?_⟩
      · simp only [List.mem_append, List.mem_cons, List.not_mem_nil, or_false] at hy ⊢
        tauto
      · obtain ⟨z, hz, hpath⟩ := hfound y hy
        simp only [List.mem_append, List.mem_cons, List.not_mem_nil, or_false] at hz
        rcases hz with (hz | rfl) | hz | hz
        · exact ⟨z, by simp [hz], hpath⟩
        · exact ⟨z, by simp, hpath⟩
        · exact ⟨z, by simp [hz], hpath⟩
        · exact ⟨x, by simp, .head (mem_fresh.1 hz).1 hpath⟩

variable {all : List α} {start : α} {fuel : Nat}

private theorem reach_spec (hstart : start ∈ all) (hall : ∀ x ∈ all, ∀ y, Leads next x y → y ∈ all)
    (hfuel : all.length ≤ fuel) : Searching next all (reach next fuel start) [] ∧ start ∈ reach next fuel start ∧
      ∀ x ∈ reach next fuel start, Relation.ReflTransGen (Leads next) start x := by
  have h : Searching next all [] [start] :=
    ⟨List.pairwise_singleton _ start, fun x hx => List.mem_singleton.1 hx ▸ hstart, fun x hx => absurd hx List.not_mem_nil⟩
  obtain ⟨hout, hkept, hfound⟩ := reachFrom_spec hall fuel h hfuel
  refine ⟨hout, hkept start (List.mem_singleton_self start), fun x hx => ?_⟩
  obtain ⟨y, hy, hpath⟩ := hfound x hx
  exact List.mem_singleton.1 hy ▸ hpath

/-- With enough fuel for all that may be found, a search finds exactly what can be reached. -/
theorem mem_reach_iff (all : List α) (hstart : start ∈ all) (hall : ∀ x ∈ all, ∀ y, Leads next x y → y ∈ all) (hfuel : all.length ≤ fuel)
    {x : α} : x ∈ reach next fuel start ↔ Relation.ReflTransGen (Leads next) start x := by
  obtain ⟨hout, hself, hfound⟩ := reach_spec hstart hall hfuel
  refine ⟨hfound x, fun hpath => ?_⟩
  induction hpath with
  | refl => exact hself
  | tail _ hstep ih => simpa using hout.closed _ ih _ hstep

theorem nodup_reach (all : List α) (hstart : start ∈ all) (hall : ∀ x ∈ all, ∀ y, Leads next x y → y ∈ all)
    (hfuel : all.length ≤ fuel) : (reach next fuel start).Nodup := by
  obtain ⟨hout, -, -⟩ := reach_spec hstart hall hfuel
  simpa using hout.nodup

/-- What has been found stays at the front. -/
private theorem prefix_reachFrom (next : α → List α) (fuel : Nat) (done queue : List α) :
    done ++ queue <+: reachFrom next fuel done queue := by
  induction fuel generalizing done queue with
  | zero => exact List.prefix_refl _
  | succ fuel ih =>
    cases queue with
    | nil => simp [reachFrom]
    | cons x queue =>
      rw [reachFrom]
      refine List.IsPrefix.trans ?_ (ih _ _)
      rw [← List.append_assoc, List.append_assoc done [x] queue, List.singleton_append]
      exact List.prefix_append ..

/-- Behind its start, a search finds what else can be reached. -/
theorem mem_drop_reach_iff (all : List α) (hstart : start ∈ all) (hall : ∀ x ∈ all, ∀ y, Leads next x y → y ∈ all)
    (hfuel : all.length ≤ fuel) {x : α} :
    x ∈ (reach next fuel start).drop 1 ↔ Relation.ReflTransGen (Leads next) start x ∧ x ≠ start := by
  have hnodup := nodup_reach all hstart hall hfuel
  have hmem := mem_reach_iff all hstart hall hfuel (x := x)
  obtain ⟨rest, hrest⟩ := prefix_reachFrom next fuel [] [start]
  have hcons : reach next fuel start = start :: rest := hrest.symm
  rw [hcons, List.nodup_cons] at hnodup
  rw [hcons, List.mem_cons] at hmem
  rw [hcons, ← hmem, List.drop_one, List.tail_cons]
  constructor
  · intro hx
    exact ⟨.inr hx, fun e => hnodup.1 (e ▸ hx)⟩
  · rintro ⟨e | hx, hne⟩
    · exact absurd e hne
    · exact hx

end ELOntology
