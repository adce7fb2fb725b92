import ELOntology.Order.Sort
import ELOntology.Saturation.Rules
import ELOntology.Saturation.Workspace

/-!
# Maintaining a saturation

When rule contributions are removed and added, a saturated workspace is brought up to date in four steps, with a run
after the first, the second and the fourth:

* wherever the premise of a removed contribution holds, what the contribution concluded is retracted, still under the
  old rules (`seedRemoved`);
* every context that lost a conclusion is cleaned: all its conclusions are retracted, which may affect more contexts
  (`seedCleaning`);
* the index commits, and the cleaned contexts start again (`restart`);
* the other contexts send once more what they contribute to the cleaned ones (`replay`), and look again at the rules of
  the premises of added contributions (`seedAdded`).

What is sent here goes to contexts that exist; nothing is created.
-/

namespace ELOntology

/-- What a contribution concludes in a context where its premise holds. -/
def Contribution.conclusions (facts : Facts) (roles : RoleHierarchy) : Contribution → List Conclusion
  | .toldSuper _ sup => [.subsumer sup .positive]
  | .conjunction _ other both => if facts.hasSubsumer other then [.subsumer both .negative] else []
  | .propagation _ role existential => (roles.subRoles role).map (.propagation · existential)
  | .disjointness member d => [.disjointMember d member]

namespace Workspace

/-- Give each context the conclusions that a function of its root and its facts names. -/
def seed (conclusions : ExprId → Facts → List Conclusion) (w : Workspace) : Workspace :=
  w.roots.foldl (fun w root =>
    match w.context? root with
    | some ctx => (conclusions root ctx.facts).foldl (fun w c => w.enqueue root c) w
    | none => w) w

/-- Retract what removed contributions have concluded. -/
def seedRemoved (roles : RoleHierarchy) (removed : List Contribution) (w : Workspace) : Workspace :=
  w.seed fun _ facts => (removed.filter fun c => facts.hasSubsumer c.premise).flatMap (·.conclusions facts roles)

/-- Retract all that the given contexts store. -/
def seedCleaning (roots : List ExprId) (w : Workspace) : Workspace :=
  roots.foldl (fun w root =>
    match w.context? root with
    | some ctx => ctx.facts.stored.foldl (fun w c => w.enqueue root c) w
    | none => w) w

/-- Have the cleaned contexts start again. -/
def restart (cleaned : List ExprId) (w : Workspace) : Workspace :=
  cleaned.foldl (fun w root => (w.clearContext root).enqueue root .init) w

end Workspace

namespace RuleBase

/-- What a context contributes to the contexts of cleaned roots. -/
def contributionsTo (rb : RuleBase) (cleaned : List ExprId) (root : ExprId) (facts : Facts) : List Production :=
  let links := facts.subsumers.flatMap fun expr =>
    match rb.index.shape? expr with
    | some (.existential role filler) => if filler ∈ cleaned then [(filler, .backwardLink root role)] else []
    | _ => []
  let back := facts.backward.flatMap fun (role, sources) =>
    (sources.filter (· ∈ cleaned)).flatMap fun source =>
      (if facts.contradictory then [(source, .contradiction)] else [])
        ++ (facts.carriedBy role).map (fun carry => (source, .subsumer carry .negative))
        ++ (if rb.roles.isRightComposable role then [(source, .forwardLink role root)] else [])
  let composed := facts.backward.flatMap fun (left, sources) =>
    facts.forward.flatMap fun (right, targets) =>
      (rb.roles.compositions left right).flatMap fun role =>
        sources.flatMap fun source =>
          (targets.filter (· ∈ cleaned)).map fun target => (target, .backwardLink source role)
  links ++ back ++ composed

/-- Have the contexts that were not cleaned send what they contribute to the cleaned ones. -/
def replay (rb : RuleBase) (cleaned : List ExprId) (w : Workspace) : Workspace :=
  (w.roots.filter (· ∉ cleaned)).foldl (fun w root =>
    match w.context? root with
    | some ctx => (rb.contributionsTo cleaned root ctx.facts).foldl (fun w (target, c) => w.enqueue target c) w
    | none => w) w

end RuleBase

namespace Workspace

/-- Have the contexts that were not cleaned look at the rules of the premises of added contributions. -/
def seedAdded (added : List Contribution) (cleaned : List ExprId) (w : Workspace) : Workspace :=
  let premises := distinct (added.map (·.premise))
  w.seed fun root facts =>
    if root ∈ cleaned then [] else (premises.filter (facts.hasSubsumer ·)).map .rulesChanged

end Workspace

end ELOntology
