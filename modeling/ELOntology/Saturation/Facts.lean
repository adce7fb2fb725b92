import ELOntology.Finite.NatRelation
import ELOntology.Saturation.Conclusion

/-!
# The facts of a context

What a context has concluded about its root: a finite set of storable conclusions, in which subsumers have no polarity.
The set is kept by kind.  `Facts.contains` looks a conclusion up, `Facts.stored` lists them all, and facts that contain
the same conclusions are equal (`Facts.ext`).
-/

namespace ELOntology

structure Facts where
  subsumerSet : NatSet
  /-- Relates a role to the sources that it links to the root. -/
  backwardLinks : NatRelation
  /-- Relates a role to the targets that it links the root to. -/
  forwardLinks : NatRelation
  /-- Relates a role to the existentials that are carried back over it. -/
  propagations : NatRelation
  /-- Relates a disjointness axiom to those of its members that the root is included in. -/
  memberships : NatRelation
  contradictory : Bool
deriving DecidableEq, Inhabited

namespace Facts

def empty : Facts := ⟨.empty, .empty, .empty, .empty, .empty, false⟩

def contains (facts : Facts) : Conclusion → Bool
  | .subsumer expr _ => facts.subsumerSet.contains expr.val
  | .backwardLink source role => facts.backwardLinks.holds role.val source.val
  | .forwardLink role target => facts.forwardLinks.holds role.val target.val
  | .propagation role carry => facts.propagations.holds role.val carry.val
  | .disjointMember d member => facts.memberships.holds d.val member.val
  | .contradiction => facts.contradictory
  | .init | .rulesChanged _ => false

def insert (facts : Facts) : Conclusion → Facts
  | .subsumer expr _ => { facts with subsumerSet := facts.subsumerSet.insert expr.val }
  | .backwardLink source role => { facts with backwardLinks := facts.backwardLinks.insert role.val source.val }
  | .forwardLink role target => { facts with forwardLinks := facts.forwardLinks.insert role.val target.val }
  | .propagation role carry => { facts with propagations := facts.propagations.insert role.val carry.val }
  | .disjointMember d member => { facts with memberships := facts.memberships.insert d.val member.val }
  | .contradiction => { facts with contradictory := true }
  | .init | .rulesChanged _ => facts

def erase (facts : Facts) : Conclusion → Facts
  | .subsumer expr _ => { facts with subsumerSet := facts.subsumerSet.erase expr.val }
  | .backwardLink source role => { facts with backwardLinks := facts.backwardLinks.erase role.val source.val }
  | .forwardLink role target => { facts with forwardLinks := facts.forwardLinks.erase role.val target.val }
  | .propagation role carry => { facts with propagations := facts.propagations.erase role.val carry.val }
  | .disjointMember d member => { facts with memberships := facts.memberships.erase d.val member.val }
  | .contradiction => { facts with contradictory := false }
  | .init | .rulesChanged _ => facts

def isEmpty (facts : Facts) : Bool := facts = empty

/-! ### Looking facts up -/

def hasSubsumer (facts : Facts) (expr : ExprId) : Bool := facts.subsumerSet.contains expr.val

/-- The expressions with the given numbers. -/
def exprsOf (s : NatSet) : List ExprId := s.members.map ExprId.mk

/-- The rows of a relation, whose first numbers are of a kind of their own. -/
def rowsOf {κ : Type} (key : Nat → κ) (r : NatRelation) : List (κ × List ExprId) :=
  r.rows.map fun (i, s) => (key i, exprsOf s)

def subsumers (facts : Facts) : List ExprId := exprsOf facts.subsumerSet

/-- The sources linked to the root, by role. -/
def backward (facts : Facts) : List (RoleId × List ExprId) := rowsOf RoleId.mk facts.backwardLinks

/-- The targets that the root is linked to, by role. -/
def forward (facts : Facts) : List (RoleId × List ExprId) := rowsOf RoleId.mk facts.forwardLinks

def sourcesBy (facts : Facts) (role : RoleId) : List ExprId := exprsOf (facts.backwardLinks.row role.val)

def carriedBy (facts : Facts) (role : RoleId) : List ExprId := exprsOf (facts.propagations.row role.val)

def disjointMembers (facts : Facts) (d : DisjointnessId) : List ExprId := exprsOf (facts.memberships.row d.val)

/-- One conclusion for each pair of a relation. -/
def conclusionsOf {κ : Type} (key : Nat → κ) (conclude : κ → ExprId → Conclusion) (r : NatRelation) :
    List Conclusion :=
  (rowsOf key r).flatMap fun (k, exprs) => exprs.map (conclude k)

/-- Every stored conclusion, subsumers as positive ones. -/
def stored (facts : Facts) : List Conclusion :=
  facts.subsumers.map (.subsumer · .positive)
    ++ conclusionsOf RoleId.mk (fun role source => .backwardLink source role) facts.backwardLinks
    ++ conclusionsOf RoleId.mk .forwardLink facts.forwardLinks
    ++ conclusionsOf RoleId.mk .propagation facts.propagations
    ++ conclusionsOf DisjointnessId.mk .disjointMember facts.memberships
    ++ if facts.contradictory then [.contradiction] else []

/-! ### What is contained -/

@[simp] theorem contains_empty (c : Conclusion) : empty.contains c = false := by
  cases c <;> simp [contains, empty]

@[simp] theorem contains_insert (facts : Facts) (c d : Conclusion) :
    (facts.insert c).contains d = (decide (c.isStorable ∧ d.unsigned = c.unsigned) || facts.contains d) := by
  cases c <;> cases d <;> simp [contains, insert, Conclusion.isStorable, Conclusion.unsigned, ExprId.ext_iff,
    RoleId.ext_iff, DisjointnessId.ext_iff, and_comm]

@[simp] theorem contains_erase (facts : Facts) (c d : Conclusion) :
    (facts.erase c).contains d = (decide (d.unsigned ≠ c.unsigned) && facts.contains d) := by
  cases c <;> cases d <;> simp [contains, erase, Conclusion.unsigned, ExprId.ext_iff, RoleId.ext_iff,
    DisjointnessId.ext_iff, and_comm]

theorem mem_exprsOf {s : NatSet} {expr : ExprId} : expr ∈ exprsOf s ↔ s.contains expr.val = true := by
  rw [NatSet.contains_iff, exprsOf, List.mem_map]
  exact ⟨fun ⟨_, hx, e⟩ => e ▸ hx, fun h => ⟨expr.val, h, rfl⟩⟩

theorem mem_conclusionsOf {κ : Type} {key : Nat → κ} {conclude : κ → ExprId → Conclusion} {r : NatRelation}
    {c : Conclusion} :
    c ∈ conclusionsOf key conclude r ↔ ∃ i expr, r.holds i expr.val = true ∧ conclude (key i) expr = c := by
  simp only [conclusionsOf, rowsOf, List.mem_flatMap, List.mem_map, NatRelation.holds_iff]
  constructor
  · rintro ⟨_, ⟨⟨i, s⟩, hrow, rfl⟩, expr, hexpr, rfl⟩
    exact ⟨i, expr, ⟨s, hrow, mem_exprsOf.1 hexpr⟩, rfl⟩
  · rintro ⟨i, expr, ⟨s, hrow, hexpr⟩, rfl⟩
    exact ⟨_, ⟨⟨i, s⟩, hrow, rfl⟩, expr, mem_exprsOf.2 hexpr, rfl⟩

/-- What is stored is what is contained, subsumers as positive ones. -/
theorem mem_stored {facts : Facts} {c : Conclusion} :
    c ∈ facts.stored ↔ c.unsigned = c ∧ facts.contains c = true := by
  simp only [stored, List.mem_append, List.mem_map, mem_conclusionsOf, subsumers, mem_exprsOf]
  constructor
  · rintro (((((⟨expr, h, rfl⟩ | ⟨i, expr, h, rfl⟩) | ⟨i, expr, h, rfl⟩) | ⟨i, expr, h, rfl⟩) | ⟨i, expr, h, rfl⟩) | h)
    · exact ⟨rfl, h⟩
    · exact ⟨rfl, h⟩
    · exact ⟨rfl, h⟩
    · exact ⟨rfl, h⟩
    · exact ⟨rfl, h⟩
    · split at h
      · rename_i hc
        exact List.mem_singleton.1 h ▸ ⟨rfl, hc⟩
      · cases h
  · rintro ⟨hc, h⟩
    cases c with
    | init | rulesChanged => exact absurd h Bool.false_ne_true
    | subsumer expr _ => exact .inl (.inl (.inl (.inl (.inl ⟨expr, h, hc⟩))))
    | backwardLink source role => exact .inl (.inl (.inl (.inl (.inr ⟨role.val, source, h, rfl⟩))))
    | forwardLink role target => exact .inl (.inl (.inl (.inr ⟨role.val, target, h, rfl⟩)))
    | propagation role carry => exact .inl (.inl (.inr ⟨role.val, carry, h, rfl⟩))
    | disjointMember d member => exact .inl (.inr ⟨d.val, member, h, rfl⟩)
    | contradiction => exact .inr (by rw [if_pos (show facts.contradictory = true from h)]; simp)

/-- Facts that contain the same conclusions are equal. -/
theorem ext {facts facts' : Facts} (h : ∀ c, facts.contains c = facts'.contains c) : facts = facts' := by
  have h₁ := NatSet.ext fun x => h (.subsumer ⟨x⟩ .positive)
  have h₂ := NatRelation.ext fun i x => h (.backwardLink ⟨x⟩ ⟨i⟩)
  have h₃ := NatRelation.ext fun i x => h (.forwardLink ⟨i⟩ ⟨x⟩)
  have h₄ := NatRelation.ext fun i x => h (.propagation ⟨i⟩ ⟨x⟩)
  have h₅ := NatRelation.ext fun i x => h (.disjointMember ⟨i⟩ ⟨x⟩)
  have h₆ : facts.contradictory = facts'.contradictory := h .contradiction
  cases facts
  cases facts'
  simp_all

end Facts

end ELOntology
