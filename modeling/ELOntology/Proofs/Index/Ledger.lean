import ELOntology.Index.Assert
import ELOntology.Proofs.Index.Contribution
import ELOntology.Proofs.Index.Term
import ELOntology.Proofs.Order.Sorted

/-!
# The ledger of an index

What an axiom says is a list of entries: occurrences of expressions, told inclusions, sets of disjoint classes, and what
is told of roles.  `Ledger ix entries` says that an index counts exactly the given entries, and that the contributions in
force together with those pending are the ones due for them.

Key facts: `Index.standing_recordAll` (recording changes the balance by what is recorded) and
`Index.Committable.recordAll` (what is pending can be committed as long as no more is removed than is there).
-/

namespace ELOntology

/-- One thing that an axiom says about expressions or about roles. -/
inductive Entry (ε ρ : Type) where
  | occurrence (polarity : Polarity) (expr : ε)
  | inclusion (sub sup : ε)
  | disjointness (members : List ε)
  | roleInclusion (sub sup : ρ)
  | composition (left right sup : ρ)
deriving DecidableEq

/-- An entry in terms of numbers. -/
abbrev IndexEntry := Entry ExprId RoleId

/-- Whether the entry is a set of disjoint classes with the given members, in whatever order. -/
def IndexEntry.lists (members : List ExprId) : IndexEntry → Bool
  | .disjointness ids => decide (Index.sortIds ids = members)
  | _ => false

/-- The numbers that the entry mentions are in use. -/
def IndexEntry.Within (entry : IndexEntry) (ix : Index) : Prop :=
  match entry with
  | .occurrence _ id => id.val < ix.nodes.size
  | .inclusion sub sup => sub.val < ix.nodes.size ∧ sup.val < ix.nodes.size
  | .disjointness ids => ∀ id ∈ ids, id.val < ix.nodes.size
  | .roleInclusion sub sup => sub.val < ix.roles.size ∧ sup.val < ix.roles.size
  | .composition left right sup => left.val < ix.roles.size ∧ right.val < ix.roles.size ∧ sup.val < ix.roles.size

/-! ### Shares

What each element of a list adds to a sum. -/

/-- The sum of what the elements add, which depends on their places. -/
def shares {α : Type} (f : Nat → α → Nat) : Nat → List α → Nat
  | _, [] => 0
  | i, x :: xs => f i x + shares f (i + 1) xs

section Shares

variable {α : Type} {f : Nat → α → Nat}

theorem shares_append (i : Nat) (xs ys : List α) :
    shares f i (xs ++ ys) = shares f i xs + shares f (i + xs.length) ys := by
  induction xs generalizing i with
  | nil => simp [shares]
  | cons x xs ih =>
    rw [List.cons_append, shares, shares, ih, List.length_cons]
    rw [show i + 1 + xs.length = i + (xs.length + 1) by omega]
    omega

theorem shares_set {i j : Nat} {xs : List α} {old : α} (h : xs[j]? = some old) (new : α) :
    shares f i (xs.set j new) + f (i + j) old = shares f i xs + f (i + j) new := by
  induction xs generalizing i j with
  | nil => simp at h
  | cons x xs ih =>
    cases j with
    | zero =>
      obtain rfl : x = old := by simpa using h
      simp only [List.set_cons_zero, shares, Nat.add_zero]
      omega
    | succ j =>
      have hrest := ih (i := i + 1) (j := j) (by simpa using h)
      rw [List.set_cons_succ, shares, shares]
      rw [show i + 1 + j = i + (j + 1) by omega] at hrest
      omega

theorem shares_pos_iff {i : Nat} {xs : List α} : 0 < shares f i xs ↔ ∃ j x, xs[j]? = some x ∧ 0 < f (i + j) x := by
  induction xs generalizing i with
  | nil => simp [shares]
  | cons x xs ih =>
    have hrest := ih (i := i + 1)
    rw [shares]
    constructor
    · intro h
      by_cases hx : 0 < f i x
      · exact ⟨0, x, rfl, hx⟩
      · obtain ⟨j, y, hy, hpos⟩ := hrest.1 (by omega)
        exact ⟨j + 1, y, by simpa using hy, by rwa [show i + (j + 1) = i + 1 + j by omega]⟩
    · rintro ⟨j, y, hy, hpos⟩
      cases j with
      | zero =>
        obtain rfl : x = y := by simpa using hy
        rw [Nat.add_zero] at hpos
        omega
      | succ j =>
        have := hrest.2 ⟨j, y, by simpa using hy, by rwa [show i + 1 + j = i + (j + 1) by omega]⟩
        omega

end Shares

namespace Index

/-! ### Sorted members -/

theorem sortIds_perm (ids : List ExprId) : (sortIds ids).Perm ids := sortBy_perm _ ids

theorem pairwise_sortIds (ids : List ExprId) : (sortIds ids).Pairwise fun a b => a.val ≤ b.val := by
  refine List.Pairwise.imp of_decide_eq_true (pairwise_sortBy (fun a b => ?_) (fun a b c hab hbc => ?_) ids)
  · exact (Nat.le_total a.val b.val).imp decide_eq_true decide_eq_true
  · exact decide_eq_true (Nat.le_trans (of_decide_eq_true hab) (of_decide_eq_true hbc))

theorem sortIds_eq_of_perm {ids ids' : List ExprId} (h : ids.Perm ids') : sortIds ids = sortIds ids' := by
  refine List.Perm.eq_of_pairwise (fun a b _ _ hab hba => ?_) (pairwise_sortIds ids) (pairwise_sortIds ids') ?_
  · exact ExprId.ext (Nat.le_antisymm hab hba)
  · exact (sortIds_perm ids).trans (h.trans (sortIds_perm ids').symm)

theorem sortIds_sortIds (ids : List ExprId) : sortIds (sortIds ids) = sortIds ids := sortIds_eq_of_perm (sortIds_perm ids)

/-! ### What is due -/

/-- How often the contribution is in force or added, less how often it is removed. -/
def standing (ix : Index) (g : Contribution) : Int :=
  (ix.contributionsOf g.premise).count g + ix.pending.added.count g - ix.pending.removed.count g

/-- How often the contribution is due for told inclusions. -/
def toldShare (entries : List IndexEntry) : Contribution → Nat
  | .toldSuper sub sup => entries.count (.inclusion sub sup)
  | _ => 0

/-- How often the contribution is due for a node. -/
def nodeShare (g : Contribution) (i : Nat) (node : Node) : Nat :=
  if 0 < node.negativeOccurrences then (structural ⟨i⟩ node.shape).count g else 0

/-- How often the contribution is due for a set of disjoint classes. -/
def setShare (g : Contribution) (i : Nat) (set : DisjointSet) : Nat :=
  if 0 < set.occurrences then (disjointnessContributions ⟨i⟩ set.members).count g else 0

/-- How often the contribution is due for the entries. -/
def due (ix : Index) (entries : List IndexEntry) (g : Contribution) : Nat :=
  toldShare entries g + shares (nodeShare g) 0 ix.nodes.toList + shares (setShare g) 0 ix.disjointSets.toList

/-- The nodes count the occurrences among the entries. -/
structure CountsNodes (ix : Index) (entries : List IndexEntry) : Prop where
  occurrences {id : ExprId} {node : Node} : ix.node? id = some node →
    node.occurrences = entries.count (.occurrence .positive id) + entries.count (.occurrence .negative id)
  negatives {id : ExprId} {node : Node} : ix.node? id = some node →
    node.negativeOccurrences = entries.count (.occurrence .negative id)

/-- What is told of roles is what the entries say of them. -/
structure CountsRoles (ix : Index) (entries : List IndexEntry) : Prop where
  inclusions (sub sup : RoleId) : ix.toldInclusions.count (sub, sup) = entries.count (.roleInclusion sub sup)
  compositions (left right sup : RoleId) :
    ix.toldCompositions.count (left, right, sup) = entries.count (.composition left right sup)

/-- The members of a disjointness axiom. -/
def members? (ix : Index) (d : DisjointnessId) : Option (List ExprId) := ix.disjointSets[d.val]?.map (·.members)

theorem members?_eq_some {ix : Index} {d : DisjointnessId} {set : DisjointSet} {members : List ExprId}
    (hset : ix.disjointSets[d.val]? = some set) (h : set.members = members) : ix.members? d = some members := by
  rw [members?, hset, ← h]
  rfl

/-- Each set of disjoint classes is found by its members, exactly at its place in the table. -/
def SetsFound (ix : Index) : Prop :=
  ∀ (members : List ExprId) (d : DisjointnessId), ix.disjointnessId? members = some d ↔ ix.members? d = some members

/-- No two sets have the same members. -/
theorem SetsFound.unique {ix : Index} (h : ix.SetsFound) {d d' : Nat} {set set' : DisjointSet}
    (hset : ix.disjointSets[d]? = some set) (hset' : ix.disjointSets[d']? = some set') (e : set.members = set'.members) :
    d = d' := by
  have hfind := (h _ ⟨d⟩).2 (members?_eq_some hset e)
  have hfind' := (h _ ⟨d'⟩).2 (members?_eq_some hset' rfl)
  exact congrArg DisjointnessId.val (Option.some.inj (hfind.symm.trans hfind'))

/-- There is one set for all entries with the same disjoint classes, and it counts them. -/
structure CountsSets (ix : Index) (entries : List IndexEntry) : Prop where
  occurrences {d : Nat} {set : DisjointSet} : ix.disjointSets[d]? = some set →
    set.occurrences = entries.countP (IndexEntry.lists set.members)
  sorted {d : Nat} {set : DisjointSet} : ix.disjointSets[d]? = some set → sortIds set.members = set.members
  found : ix.SetsFound
  exists_set {ids : List ExprId} : .disjointness ids ∈ entries →
    ∃ (d : Nat) (set : DisjointSet), ix.disjointSets[d]? = some set ∧ set.members = sortIds ids

/-- What is pending can be committed: only what is in force is removed, and nothing is both added and removed. -/
structure Committable (ix : Index) : Prop where
  removed_le (g : Contribution) : ix.pending.removed.count g ≤ (ix.contributionsOf g.premise).count g
  exclusive (g : Contribution) : ix.pending.added.count g = 0 ∨ ix.pending.removed.count g = 0
  kinds (id : ExprId) : (ix.rulesOf id).Kinds

/-- The index counts the entries. -/
structure Ledger (ix : Index) (entries : List IndexEntry) : Prop where
  within {entry : IndexEntry} : entry ∈ entries → entry.Within ix
  nodes : ix.CountsNodes entries
  roles : ix.CountsRoles entries
  sets : ix.CountsSets entries
  standing (g : Contribution) : ix.standing g = ix.due entries g
  committable : ix.Committable

end Index

/-! ### Recording contributions -/

namespace Edit

/-- By how much an edit changes a count. -/
def sign : Edit → Int
  | .assert => 1
  | .retract => -1

/-- What the entries become when one of them is asserted or retracted. -/
inductive Moves (entry : IndexEntry) : Edit → List IndexEntry → List IndexEntry → Prop
  | assert (entries : List IndexEntry) : Moves entry .assert entries (entry :: entries)
  | retract (entries : List IndexEntry) : Moves entry .retract (entry :: entries) entries

variable {edit : Edit} {entry : IndexEntry} {entries entries' : List IndexEntry}

theorem Moves.mem_or (h : edit.Moves entry entries entries') {e : IndexEntry} (he : e ∈ entries') :
    e = entry ∨ e ∈ entries := by
  cases h with
  | assert => exact List.mem_cons.1 he
  | retract => exact .inr (List.mem_cons_of_mem _ he)

theorem Moves.countP_eq_step (h : edit.Moves entry entries entries') {p : IndexEntry → Bool} (hp : p entry = true) :
    entries'.countP p = edit.step (entries.countP p) := by
  cases h with
  | assert => rw [List.countP_cons_of_pos hp, step]
  | retract => rw [List.countP_cons_of_pos hp, step, Nat.add_sub_cancel]

theorem Moves.countP_eq (h : edit.Moves entry entries entries') {p : IndexEntry → Bool} (hp : ¬ p entry = true) :
    entries'.countP p = entries.countP p := by
  cases h with
  | assert => rw [List.countP_cons_of_neg hp]
  | retract => rw [List.countP_cons_of_neg hp]

theorem Moves.count_self (h : edit.Moves entry entries entries') : entries'.count entry = edit.step (entries.count entry) :=
  h.countP_eq_step (beq_self_eq_true entry)

theorem Moves.count_of_ne (h : edit.Moves entry entries entries') {e : IndexEntry} (he : e ≠ entry) :
    entries'.count e = entries.count e :=
  h.countP_eq (by simpa using he.symm)

/-- What is due while some entry of a kind is there begins or ends to be due when the counter turns. -/
theorem Moves.share_eq (h : edit.Moves entry entries entries') {p : IndexEntry → Bool} (hp : p entry = true) (n : Nat) :
    ((if 0 < entries'.countP p then n else 0 : Nat) : Int) = (if 0 < entries.countP p then n else 0 : Nat) +
      edit.sign * if edit.turns (entries'.countP p) then (n : Int) else 0 := by
  cases h with
  | assert =>
    rw [List.countP_cons_of_pos hp]
    by_cases h : entries.countP p = 0
    · simp [h, turns, sign]
    · have hpos : 0 < entries.countP p := Nat.pos_of_ne_zero h
      simp [h, hpos, turns]
  | retract =>
    rw [List.countP_cons_of_pos hp]
    by_cases h : entries'.countP p = 0
    · have hnone : ¬ 0 < entries'.countP p := Nat.not_lt.2 (Nat.le_of_eq h)
      rw [if_neg hnone, if_pos (Nat.succ_pos _), if_pos (by simp [h, turns]), sign]
      omega
    · have hpos : 0 < entries'.countP p := Nat.pos_of_ne_zero h
      simp [h, hpos, turns]

theorem Moves.share_count (h : edit.Moves entry entries entries') (n : Nat) :
    ((if 0 < entries'.count entry then n else 0 : Nat) : Int) = (if 0 < entries.count entry then n else 0 : Nat) +
      edit.sign * if edit.turns (entries'.count entry) then (n : Int) else 0 :=
  h.share_eq (p := (· == entry)) (beq_self_eq_true entry) n

end Edit

theorem perm_cons_swapErase {α : Type} [DecidableEq α] {x : α} {l : List α} (h : x ∈ l) : l.Perm (x :: swapErase x l) :=
  (List.perm_cons_erase h).trans ((swapErase_perm x l).symm.cons x)

section Counts

variable {α : Type} [DecidableEq α] [BEq α] [LawfulBEq α]

theorem count_cons_eq (x y : α) (l : List α) : (x :: l).count y = l.count y + if y = x then 1 else 0 := by
  rw [List.count_cons]
  by_cases h : y = x
  · simp [h]
  · have h' : ¬ x = y := fun e => h e.symm
    simp [h, h']

theorem count_concat_eq (x y : α) (l : List α) : (l ++ [x]).count y = l.count y + if y = x then 1 else 0 := by
  rw [List.count_append, count_cons_eq, List.count_nil, Nat.zero_add]

theorem count_swapErase (x y : α) (l : List α) : (swapErase x l).count y = l.count y - if y = x then 1 else 0 := by
  by_cases hx : x ∈ l
  · rw [(perm_cons_swapErase hx).count_eq y, count_cons_eq, Nat.add_sub_cancel]
  · rw [swapErase_of_not_mem hx]
    by_cases h : y = x
    · simp [h, List.count_eq_zero.2 hx]
    · simp [h]

end Counts

namespace Index

variable {ix : Index} {edit : Edit}

/-- Record many contributions. -/
def recordAll (edit : Edit) (cs : List Contribution) (ix : Index) : Index :=
  cs.foldl (fun ix c => ix.record edit c) ix

/-- Recording concerns nothing but what is pending. -/
theorem record_eq (c : Contribution) (ix : Index) :
    ix.record edit c = { ix with pending := (ix.record edit c).pending } := by
  cases edit <;> rfl

theorem recordAll_eq (cs : List Contribution) (ix : Index) :
    ix.recordAll edit cs = { ix with pending := (ix.recordAll edit cs).pending } := by
  induction cs generalizing ix with
  | nil => rfl
  | cons c cs ih => cases edit <;> exact ih _

theorem standing_record (c g : Contribution) (ix : Index) :
    (ix.record edit c).standing g = ix.standing g + edit.sign * if g = c then 1 else 0 := by
  have hrules : (ix.record edit c).contributionsOf g.premise = ix.contributionsOf g.premise := by
    rw [record_eq]
    rfl
  rw [standing, standing, hrules]
  cases edit with
  | assert =>
    simp only [record, Changes.recordAddition, Edit.sign]
    split
    · rename_i hc
      have hpos : 0 < ix.pending.removed.count c := List.count_pos_iff.2 hc
      simp only [count_swapErase]
      by_cases hg : g = c
      · subst hg
        simp only [if_true]
        omega
      · simp only [if_neg hg]
        omega
    · simp only [count_concat_eq]
      by_cases hg : g = c
      · simp only [if_pos hg]
        omega
      · simp only [if_neg hg]
        omega
  | retract =>
    simp only [record, Changes.recordRemoval, Edit.sign]
    split
    · rename_i hc
      have hpos : 0 < ix.pending.added.count c := List.count_pos_iff.2 hc
      simp only [count_swapErase]
      by_cases hg : g = c
      · subst hg
        simp only [if_true]
        omega
      · simp only [if_neg hg]
        omega
    · simp only [count_concat_eq]
      by_cases hg : g = c
      · simp only [if_pos hg]
        omega
      · simp only [if_neg hg]
        omega

theorem standing_recordAll (cs : List Contribution) (g : Contribution) (ix : Index) :
    (ix.recordAll edit cs).standing g = ix.standing g + edit.sign * cs.count g := by
  induction cs generalizing ix with
  | nil => simp [recordAll]
  | cons c cs ih =>
    have h := ih (ix.record edit c)
    rw [recordAll] at h
    rw [recordAll, List.foldl_cons, h, standing_record, count_cons_eq]
    by_cases hg : g = c
    · simp only [if_pos hg, Int.natCast_add, Int.mul_add, Int.natCast_one]
      omega
    · simp only [if_neg hg, Int.mul_zero, Int.add_zero, Nat.add_zero]

namespace Committable

theorem record_assert (h : ix.Committable) (c : Contribution) : (ix.record .assert c).Committable := by
  refine ⟨fun g => ?_, fun g => ?_, h.kinds⟩
  · refine Nat.le_trans ?_ (h.removed_le g)
    simp only [record, Changes.recordAddition]
    split
    · rw [count_swapErase]
      omega
    · exact Nat.le_refl _
  · simp only [record, Changes.recordAddition]
    split
    · show ix.pending.added.count g = 0 ∨ (swapErase c ix.pending.removed).count g = 0
      rw [count_swapErase]
      have := h.exclusive g
      omega
    · rename_i hc
      rw [List.count_append, List.count_singleton]
      by_cases hg : c = g
      · subst hg
        exact .inr (List.count_eq_zero.2 hc)
      · simpa [hg] using h.exclusive g

theorem record_retract (h : ix.Committable) {c : Contribution} (hc : 0 ≤ (ix.record .retract c).standing c) :
    (ix.record .retract c).Committable := by
  refine ⟨fun g => ?_, fun g => ?_, h.kinds⟩
  · have hle := h.removed_le g
    have hrules : (ix.record .retract c).contributionsOf g.premise = ix.contributionsOf g.premise := rfl
    rw [hrules]
    simp only [record, Changes.recordRemoval]
    split
    · exact hle
    · rename_i hadded
      rw [List.count_append, List.count_singleton]
      by_cases hg : c = g
      · subst hg
        rw [standing_record, standing, List.count_eq_zero.2 hadded] at hc
        simp only [Edit.sign, if_true] at hc
        simp
        omega
      · simpa [hg] using hle
  · simp only [record, Changes.recordRemoval]
    split
    · show (swapErase c ix.pending.added).count g = 0 ∨ ix.pending.removed.count g = 0
      rw [count_swapErase]
      have := h.exclusive g
      omega
    · rename_i hadded
      rw [List.count_append, List.count_singleton]
      by_cases hg : c = g
      · subst hg
        exact .inl (List.count_eq_zero.2 hadded)
      · simpa [hg] using h.exclusive g

/-- Contributions may be recorded as long as no more are removed than are there. -/
theorem recordAll (h : ix.Committable) {cs : List Contribution} (hcs : ∀ g, 0 ≤ (ix.recordAll edit cs).standing g) :
    (ix.recordAll edit cs).Committable := by
  induction cs generalizing ix with
  | nil => exact h
  | cons c cs ih =>
    refine ih ?_ hcs
    cases edit with
    | assert => exact h.record_assert c
    | retract =>
      refine h.record_retract ?_
      have hlast : 0 ≤ ((ix.record .retract c).recordAll .retract cs).standing c := hcs c
      rw [standing_recordAll] at hlast
      simp only [Edit.sign] at hlast
      omega

end Committable

end Index

end ELOntology
