import ELOntology.Proofs.Saturation.Schedule
import ELOntology.Proofs.Saturation.Vocabulary

/-!
# Why a run ends

What a run may still have to do is bounded by a number, its potential, which every processed conclusion lowers: a
conclusion that changes a context uses up room for facts, which is worth more than all of its productions, and one that
changes nothing is gone from its queue.  A context that may still be created is worth as much as a new one.

Key facts: `Workspace.potential_process_derive` and `Workspace.potential_process_retract` (the step in either mode), and
`RuleBase.potential_lt_workBound` (the fuel of a run exceeds its potential).
-/

namespace ELOntology

/-- The worth of what is yet to do. -/
structure Rate where
  /-- At least the number of productions of one conclusion. -/
  width : Nat
  /-- At least the room for facts in a context that has none. -/
  capacity : Nat
  /-- The number of conclusions that can still change a context with the given facts. -/
  room : Facts → Nat

namespace Rate

/-- The worth of a conclusion that waits: it makes up for its productions, unless they use up room. -/
def weight (rate : Rate) : Conclusion → Nat
  | .init => 5
  | .rulesChanged _ => 2 * rate.width + 1
  | _ => 1

theorem weight_pos (rate : Rate) (c : Conclusion) : 0 < rate.weight c := by
  cases c <;> simp [weight]

def ofContext (rate : Rate) (ctx : Context) : Nat :=
  2 * rate.width * rate.room ctx.facts + (ctx.todo.toList.map rate.weight).sum

/-- The worth of a place in the table of contexts. -/
def ofPlace (rate : Rate) : Option Context → Nat
  | some ctx => rate.ofContext ctx
  | none => 2 * rate.width * rate.capacity + 6

end Rate

namespace Workspace

variable {rate : Rate} {w w' : Workspace} {root : ExprId} {c : Conclusion}

/-- What a workspace may still have to do. -/
def potential (rate : Rate) (w : Workspace) : Nat :=
  (w.contexts.toList.map rate.ofPlace).sum + w.active.toList.length

private theorem sum_set {xs : List Nat} {i old : Nat} (h : xs[i]? = some old) (new : Nat) :
    (xs.set i new).sum + old = xs.sum + new := by
  induction xs generalizing i with
  | nil => cases h
  | cons x xs ih =>
    cases i with
    | zero =>
      obtain rfl : x = old := Option.some.inj h
      simp only [List.set_cons_zero, List.sum_cons]
      omega
    | succ i =>
      have hrest := ih (i := i) h
      simp only [List.set_cons_succ, List.sum_cons]
      omega

private theorem potential_put_place (rate : Rate) {old : Option Context} (hold : w.contexts[root.val]? = some old)
    (ctx : Context) :
    (w.put root ctx).potential rate + rate.ofPlace old = w.potential rate + rate.ofContext ctx := by
  have hget : (w.contexts.toList.map rate.ofPlace)[root.val]? = some (rate.ofPlace old) := by
    rw [List.getElem?_map, Array.getElem?_toList, hold]
    rfl
  have hsum := sum_set hget (rate.ofPlace (some ctx))
  rw [← List.map_set] at hsum
  unfold potential put
  simp only [Array.toList_setIfInBounds]
  simp only [Rate.ofPlace] at hsum ⊢
  omega

theorem potential_put (rate : Rate) {ctx : Context} (hctx : w.context? root = some ctx) (ctx' : Context) :
    (w.put root ctx').potential rate + rate.ofContext ctx = w.potential rate + rate.ofContext ctx' :=
  potential_put_place rate (Option.join_eq_some_iff.1 hctx) ctx'

theorem potential_congr (hcontexts : w'.contexts = w.contexts) (hactive : w'.active = w.active) :
    w'.potential rate = w.potential rate := by
  rw [potential, potential, hcontexts, hactive]

/-- Facts and flags that are worth the same. -/
theorem potential_replace (rate : Rate) {ctx : Context} (hctx : w.context? root = some ctx) (ctx' : Context) (hfacts : ctx'.facts = ctx.facts)
    (htodo : ctx'.todo = ctx.todo) : (w.put root ctx').potential rate = w.potential rate := by
  have hput := potential_put rate hctx ctx'
  have hsame : rate.ofContext ctx' = rate.ofContext ctx := by rw [Rate.ofContext, Rate.ofContext, hfacts, htodo]
  omega

theorem potential_update (rate : Rate) {f : Context → Context} (hfacts : ∀ ctx, (f ctx).facts = ctx.facts)
    (htodo : ∀ ctx, (f ctx).todo = ctx.todo) (root : ExprId) : (w.update root f).potential rate = w.potential rate := by
  unfold update
  cases hctx : w.context? root with
  | none => rfl
  | some ctx => exact potential_replace rate hctx _ (hfacts ctx) (htodo ctx)

/-! ### Giving a context something to do -/

theorem potential_enlist (root : ExprId) :
    potential rate { w with active := w.active.push root } = w.potential rate + 1 := by
  simp [potential, Nat.add_assoc]

theorem potential_enqueue_le (rate : Rate) (root : ExprId) (c : Conclusion) :
    (w.enqueue root c).potential rate ≤ w.potential rate + rate.weight c + 1 := by
  unfold enqueue
  cases hctx : w.context? root with
  | none =>
    dsimp only
    omega
  | some ctx =>
    have hput := potential_put rate hctx { ctx with todo := ctx.todo.push c, active := true }
    have hnew : rate.ofContext { ctx with todo := ctx.todo.push c, active := true } =
        rate.ofContext ctx + rate.weight c := by
      simp [Rate.ofContext, Nat.add_assoc]
    dsimp only
    split
    · omega
    · refine Nat.le_trans (Nat.le_of_eq (potential_enlist root)) ?_
      omega

theorem potential_ensure_le (hroom : rate.room .empty ≤ rate.capacity) (root : ExprId) :
    (w.ensure root).potential rate ≤ w.potential rate := by
  obtain e | ⟨hnone, hlt, e⟩ := w.ensure_cases root
  · rw [e]
  · have hplace : w.contexts[root.val]? = some none := by
      rw [context?, Option.join_eq_none_iff] at hnone
      refine hnone.resolve_left fun e => ?_
      rw [Array.getElem?_eq_none_iff] at e
      omega
    have hput := potential_put_place rate hplace .new
    have henqueue := potential_enqueue_le rate (w := w.put root .new) root .init
    have hcapacity : 2 * rate.width * rate.room .empty ≤ 2 * rate.width * rate.capacity := Nat.mul_le_mul_left _ hroom
    have hnew : rate.ofContext .new = 2 * rate.width * rate.room .empty := rfl
    have hensure : (w.ensure root).potential rate = ((w.put root .new).enqueue root .init).potential rate := by
      rw [e]
      exact potential_congr rfl rfl
    rw [hensure]
    simp only [Rate.ofPlace, Rate.weight] at hput henqueue
    omega

theorem potential_send_le (hroom : rate.room .empty ≤ rate.capacity) (mode : Mode) (root : ExprId)
    (hc : c.isStorable = true) : (w.send mode root c).potential rate ≤ w.potential rate + 2 := by
  have hweight : rate.weight c = 1 := by cases c <;> first | rfl | cases hc
  cases mode with
  | derive =>
    have hensure := potential_ensure_le (w := w) hroom root
    have henqueue := potential_enqueue_le rate (w := w.ensure root) root c
    simp only [send]
    omega
  | retract =>
    have henqueue := potential_enqueue_le rate (w := w) root c
    simp only [send]
    omega

theorem potential_sendAll_le {rate : Rate} (hroom : rate.room .empty ≤ rate.capacity) (mode : Mode) {productions : List Production}
    (h : ∀ p ∈ productions, p.2.isStorable = true) :
    (RuleBase.sendAll mode productions w).potential rate ≤ w.potential rate + 2 * productions.length := by
  induction productions generalizing w with
  | nil => exact Nat.le_refl _
  | cons p ps ih =>
    have hsend := potential_send_le (w := w) hroom mode p.1 (h p (List.mem_cons_self ..))
    have hrest := ih (w := w.send mode p.1 p.2) fun q hq => h q (List.mem_cons_of_mem _ hq)
    rw [sendAll_cons, List.length_cons]
    omega

/-! ### Processing a conclusion -/

/-- Taking a conclusion from a queue lowers the potential by the worth of the conclusion. -/
theorem potential_take (rate : Rate) {ctx : Context} (hctx : w.context? root = some ctx) {before after : List Conclusion}
    {rest : Queue Conclusion} (htodo : ctx.todo.toList = before ++ c :: after) (hrest : rest.toList = before ++ after) :
    (w.put root { ctx with todo := rest }).potential rate + rate.weight c = w.potential rate := by
  have hput := potential_put rate hctx { ctx with todo := rest }
  have hold : rate.ofContext ctx = rate.ofContext { ctx with todo := rest } + rate.weight c := by
    simp only [Rate.ofContext, htodo, hrest, List.map_append, List.map_cons, List.sum_append, List.sum_cons]
    omega
  omega

theorem potential_next (h : w.next root = (some c, w')) : w'.potential rate + rate.weight c = w.potential rate := by
  obtain ⟨ctx, rest, hctx, htodo, rfl⟩ := next_eq_some h
  have htake : ctx.todo.toList = [] ++ c :: rest.toList := htodo
  exact potential_take rate hctx htake rfl

/-- A conclusion that changes a context uses up room for facts, or is a command with few productions. -/
theorem potential_process_derive {rb : RuleBase} (hroom : rate.room .empty ≤ rate.capacity)
    (hstorable : ∀ ctx, w.context? root = some ctx → ctx.facts.contains c = false →
      ∀ p ∈ rb.productions .derive root (ctx.facts.insert c) c, p.2.isStorable = true)
    (hwidth : ∀ ctx, w.context? root = some ctx → ctx.facts.contains c = false →
      (rb.productions .derive root (ctx.facts.insert c) c).length ≤ rate.width)
    (hfacts : ∀ ctx, w.context? root = some ctx → ctx.facts.contains c = false → c.isStorable = true →
      rate.room (ctx.facts.insert c) + 1 = rate.room ctx.facts) :
    (rb.process .derive root c w).2.potential rate < w.potential rate + rate.weight c := by
  have hpos := rate.weight_pos c
  obtain e | ⟨ctx, -, hctx, hc, e⟩ | ⟨ctx, e, -⟩ := rb.process_cases .derive root c w
  · rw [e]
    exact Nat.lt_add_of_pos_right hpos
  · rw [e, RuleBase.takeIn]
    dsimp only
    have hput := potential_put rate hctx { ctx with facts := ctx.facts.insert c, saturated := false }
    have hsend := potential_sendAll_le hroom .derive (hstorable ctx hctx hc)
      (w := (w.put root { ctx with facts := ctx.facts.insert c, saturated := false }).observe ⟨root, c, .derive⟩)
    have hobserve : ((w.put root { ctx with facts := ctx.facts.insert c, saturated := false }).observe
        ⟨root, c, .derive⟩).potential rate =
        (w.put root { ctx with facts := ctx.facts.insert c, saturated := false }).potential rate := potential_congr rfl rfl
    have hlength := hwidth ctx hctx hc
    simp only [Rate.ofContext] at hput
    cases hcs : c.isStorable with
    | true =>
      have hroom' : 2 * rate.width * rate.room ctx.facts =
          2 * rate.width * rate.room (ctx.facts.insert c) + 2 * rate.width := by
        rw [← hfacts ctx hctx hc hcs, Nat.mul_succ]
      omega
    | false =>
      rw [Facts.insert_of_not_isStorable hcs] at hput hsend hobserve hlength ⊢
      cases c with
      | init =>
        simp only [RuleBase.productions, List.length_cons, List.length_nil, Rate.weight] at hsend ⊢
        omega
      | rulesChanged premise =>
        simp only [Rate.weight]
        omega
      | _ => cases hcs
  · cases e

theorem potential_markModified (root : ExprId) : (w.markModified root).potential rate = w.potential rate := by
  obtain ⟨_, e⟩ := w.exists_markModified_eq root
  rw [e]
  exact potential_update rate (f := fun ctx => { ctx with saturated := false, modified := true }) (fun _ => rfl)
    (fun _ => rfl) root

/-- Taking a conclusion back makes the room for facts to take back smaller. -/
theorem potential_process_retract {rb : RuleBase} (hroom : rate.room .empty ≤ rate.capacity)
    (hstorable : ∀ ctx, w.context? root = some ctx → ctx.facts.contains c = true →
      ∀ p ∈ rb.productions .retract root ctx.facts c, p.2.isStorable = true)
    (hwidth : ∀ ctx, w.context? root = some ctx → (rb.productions .retract root ctx.facts c).length ≤ rate.width)
    (hfacts : ∀ ctx, w.context? root = some ctx → ctx.facts.contains c = true →
      rate.room (ctx.facts.erase c) + 1 = rate.room ctx.facts) :
    (rb.process .retract root c w).2.potential rate < w.potential rate + rate.weight c := by
  have hpos := rate.weight_pos c
  obtain e | ⟨ctx, e, -⟩ | ⟨ctx, -, hctx, hc, e⟩ := rb.process_cases .retract root c w
  · rw [e]
    exact Nat.lt_add_of_pos_right hpos
  · cases e
  · rw [e, RuleBase.giveUp]
    have hobserve : (w.observe ⟨root, c, .retract⟩).potential rate = w.potential rate := potential_congr rfl rfl
    have hsend := potential_sendAll_le hroom .retract (hstorable ctx hctx hc)
      (w := w.observe ⟨root, c, .retract⟩)
    obtain ⟨ctx', hctx', hsame⟩ := exists_context_sendAll_retract (w := w.observe ⟨root, c, .retract⟩) hctx
      (rb.productions .retract root ctx.facts c)
    have hlength := hwidth ctx hctx
    generalize RuleBase.sendAll .retract (rb.productions .retract root ctx.facts c)
      (w.observe ⟨root, c, .retract⟩) = w₁ at hsend hctx' ⊢
    have hput := potential_put rate hctx' { ctx' with facts := ctx'.facts.erase c }
    have hupdate : w₁.update root (fun ctx => { ctx with facts := ctx.facts.erase c }) =
        w₁.put root { ctx' with facts := ctx'.facts.erase c } := by simp [update, hctx']
    have hroom' : 2 * rate.width * rate.room ctx'.facts =
        2 * rate.width * rate.room (ctx'.facts.erase c) + 2 * rate.width := by
      rw [hsame, ← hfacts ctx hctx hc, Nat.mul_succ]
    simp only [Rate.ofContext] at hput
    rw [potential_markModified, hupdate]
    omega

end Workspace

end ELOntology
