import ELOntology.Graph.Reach
import ELOntology.Index.Basic
import ELOntology.Order.Sort

/-!
# The role hierarchy

Computed from the told inclusions and compositions of an index.  Below a role stands every role that told inclusions
lead up from, the role itself included; a composition told of two roles holds for all roles below them.  A hierarchy
does not follow its index: roles numbered later are not part of it.
-/

namespace ELOntology

structure RoleHierarchy where
  /-- The roles below each role, itself first. -/
  below : Array (List RoleId)
  /-- The roles above each role, itself first. -/
  above : Array (List RoleId)
  /-- Pairs of roles told to compose to a role. -/
  told : List (RoleId × RoleId × RoleId)
deriving Inhabited

namespace RoleHierarchy

/-- The hierarchy without roles. -/
def empty : RoleHierarchy := ⟨#[], #[], []⟩

/-- The roles told to be directly below a role, in the order told. -/
def toldBelow (inclusions : List (RoleId × RoleId)) (r : RoleId) : List RoleId :=
  inclusions.filterMap fun (sub, sup) => if sup = r then some sub else none

def toldAbove (inclusions : List (RoleId × RoleId)) (r : RoleId) : List RoleId :=
  inclusions.filterMap fun (sub, sup) => if sub = r then some sup else none

/-- Whatever is reached is the start or an end of an inclusion, which bounds the search. -/
def closure (next : RoleId → List RoleId) (inclusions : List (RoleId × RoleId)) (r : RoleId) : List RoleId :=
  reach next (2 * inclusions.length + 1) r

def build (ix : Index) : RoleHierarchy :=
  let inclusions := ix.toldInclusions
  let roles := (List.range ix.roles.size).map RoleId.mk
  { below := (roles.map (closure (toldBelow inclusions) inclusions)).toArray
    above := (roles.map (closure (toldAbove inclusions) inclusions)).toArray
    told := ix.toldCompositions }

/-- The number of roles. -/
def size (h : RoleHierarchy) : Nat := h.below.size

/-- The roles below a role, itself included; none for a role that is not part of the hierarchy. -/
def subRoles (h : RoleHierarchy) (r : RoleId) : List RoleId := h.below.getD r.val []

def superRoles (h : RoleHierarchy) (r : RoleId) : List RoleId := h.above.getD r.val []

def isBelow (h : RoleHierarchy) (sub sup : RoleId) : Bool := decide (sub ∈ h.subRoles sup)

/-- The roles that the composition of two roles is told to be below, each once. -/
def compositions (h : RoleHierarchy) (left right : RoleId) : List RoleId :=
  distinct (h.told.filterMap fun (l, r, sup) => if h.isBelow left l ∧ h.isBelow right r then some sup else none)

/-- Whether the role can stand on the right of a composition. -/
def isRightComposable (h : RoleHierarchy) (r : RoleId) : Bool :=
  h.told.any fun (_, right, _) => h.isBelow r right

end RoleHierarchy

end ELOntology
