import ELOntology.Proofs.Reasoner.Meaning
import ELOntology.Proofs.Reasoner.Answer

/-!
# The history of a reasoner

A caller asserts and retracts axioms, asks queries, and may watch and prompt the runs in any way.  How the workers take turns
in the runs of a query is left open: before each query any lawful engine may be put in.  What can be reached like this is
sound, and once its contexts are saturated nothing waits in them (`Undisturbed`).

Key facts: `undisturbed_after` (the states that a history leads to), `Sound.add_spec` and `Sound.remove_spec` (what an edit
answers, and what is asserted afterwards), and `Sound.addAll_spec`.
-/

namespace ELOntology

namespace Reasoner

variable {r r' : Reasoner}

/-- The reasoner is sound, and no context has been created from outside since the contexts were saturated. -/
structure Undisturbed (r : Reasoner) : Prop where
  sound : r.Sound
  quiet : r.stages.isDone .saturation = true → r.workspace.Quiet

namespace Undisturbed

theorem of_unsaturated (h : r.Sound) (hnot : r.stages.isDone .saturation ≠ true) : r.Undisturbed :=
  ⟨h, fun hdone => absurd hdone hnot⟩

/-- Once the contexts are saturated, each holds its root and the top class. -/
theorem stores_self (h : r.Undisturbed) (hdone : r.stages.isDone .saturation = true) {root : ExprId}
    (hroot : r.workspace.Has root) : r.workspace.Stores root (.isA root) ∧ r.workspace.Stores root (.isA .thing) :=
  (h.sound.idle_of_addition (h.sound.closed.of_depth_lt hdone (by decide))).2.1.stores_self (h.quiet hdone) hroot

theorem new {config : Config} (hr : Reasoner.new config = .ok r) : r.Undisturbed := by
  refine .of_unsaturated (.new hr) ?_
  obtain rfl := eq_of_new hr
  exact Bool.false_ne_true

theorem onMonitor (h : r.Undisturbed) (f : Monitor → Monitor) : (r.onMonitor f).Undisturbed :=
  ⟨h.sound.onMonitor f, fun hdone => h.quiet hdone⟩

theorem setEngine (h : r.Undisturbed) {e : Engine} (he : e.Lawful) : ({ r with engine := e } : Reasoner).Undisturbed :=
  ⟨h.sound.setEngine he, fun hdone => h.quiet hdone⟩

/-- An edit that changes the axioms leaves the contexts to be saturated again, and any other one leaves them alone. -/
theorem edited (h : r.Undisturbed) {edit : Except IndexError Bool × Index} (hix : edit.2.Accounts) (hedit : r.index.Edits edit) :
    (r.edited edit).2.Undisturbed := by
  have hsound := h.sound.edited hix hedit
  cases hedit with
  | failed hkept => exact ⟨hsound, fun hdone => (h.quiet hdone).grow _⟩
  | counted hkept => exact ⟨hsound, fun hdone => (h.quiet hdone).grow _⟩
  | revised hrevises =>
    refine .of_unsaturated hsound fun hdone => ?_
    cases eq_roleHierarchy_of_axiomsChanged hdone

theorem add (h : r.Undisturbed) (a : Axiom) : (r.add a).2.Undisturbed :=
  h.edited (h.sound.accounts.assert a).1 (h.sound.accounts.edits_assert a)

theorem remove (h : r.Undisturbed) (a : Axiom) : (r.remove a).2.Undisturbed :=
  h.edited (h.sound.accounts.retract a).1 (h.sound.accounts.edits_retract a)

theorem served (h : r.Undisturbed) (hserved : r.Served r') : r'.Undisturbed :=
  ⟨hserved.sound, fun hdone => (hserved.rested hdone).elim (fun hsame => hsame.2 ▸ h.quiet hsame.1) id⟩

theorem ask (h : r.Undisturbed) (q : Query) : (q.run r).2.Undisturbed := by
  have hask := h.sound.ask q
  generalize q.run r = result at hask
  cases hask with
  | ok hr => exact h.served hr.1.served
  | error hstopped => exact .of_unsaturated hstopped.sound hstopped.unsaturated

end Undisturbed

/-! ### Histories -/

/-- What can happen to a reasoner between two moments at which nothing runs.  An interruption may be asked for at any moment
of a run, since anything may be done to the monitor beforehand. -/
inductive Call where
  | add (a : Axiom)
  | remove (a : Axiom)
  | ask (q : Query)
  | monitor (f : Monitor → Monitor)
  /-- Workers are going to take turns as in the runs of the engine, which may be runs of any number of workers in any
  order. -/
  | engine (e : Engine) (h : e.Lawful)

namespace Call

/-- The reasoner that a call leaves. -/
def apply (r : Reasoner) : Call → Reasoner
  | add a => (r.add a).2
  | remove a => (r.remove a).2
  | ask q => (q.run r).2
  | monitor f => r.onMonitor f
  | engine e _ => { r with engine := e }

theorem undisturbed_apply (h : r.Undisturbed) (call : Call) : (call.apply r).Undisturbed := by
  cases call with
  | add a => exact h.add a
  | remove a => exact h.remove a
  | ask q => exact h.ask q
  | monitor f => exact h.onMonitor f
  | engine e he => exact h.setEngine he

end Call

/-- The reasoner after more calls. -/
def after (r : Reasoner) (calls : List Call) : Reasoner := calls.foldl Call.apply r

theorem Undisturbed.after (h : r.Undisturbed) (calls : List Call) : (r.after calls).Undisturbed := by
  induction calls generalizing r with
  | nil => exact h
  | cons call calls ih => exact ih (call.undisturbed_apply h)

/-- Every history leads to an undisturbed reasoner. -/
theorem undisturbed_after {config : Config} (hr : Reasoner.new config = .ok r) (calls : List Call) :
    (r.after calls).Undisturbed := (Undisturbed.new hr).after calls

/-! ### What is asserted -/

/-- An edit passes the axioms of the index on. -/
theorem axioms_edited {edit : Except IndexError Bool × Index} (hix : edit.2.Accounts) :
    (r.edited edit).2.index.axioms = edit.2.axioms := by
  obtain ⟨answer, ix⟩ := edit
  match answer with
  | .error _ => rfl
  | .ok false => rfl
  | .ok true =>
    show ({ r with index := ix }.sync.axiomsChanged).index.axioms = ix.axioms
    rw [axiomsChanged_eq]
    split
    · exact hix.takeRolesChanged.commit.2.2.2
    · rfl

/-- An edit leaves watching and prompting alone. -/
theorem monitor_edited (edit : Except IndexError Bool × Index) :
    (r.edited edit).2.workspace.monitor = r.workspace.monitor := by
  obtain ⟨answer, ix⟩ := edit
  match answer with
  | .error _ => rfl
  | .ok false => rfl
  | .ok true =>
    show ({ r with index := ix }.sync.axiomsChanged).workspace.monitor = _
    rw [axiomsChanged_eq]
    split <;> rfl

/-- An edit leaves the configuration and the engine alone. -/
theorem setup_edited (edit : Except IndexError Bool × Index) :
    (r.edited edit).2.config = r.config ∧ (r.edited edit).2.engine = r.engine := by
  obtain ⟨answer, ix⟩ := edit
  match answer with
  | .error _ => exact ⟨rfl, rfl⟩
  | .ok false => exact ⟨rfl, rfl⟩
  | .ok true =>
    show ({ r with index := ix }.sync.axiomsChanged).config = _ ∧ ({ r with index := ix }.sync.axiomsChanged).engine = _
    rw [axiomsChanged_eq]
    split <;> exact ⟨rfl, rfl⟩

theorem assertions_congr {ix ix' : Index} (h : ix'.axioms = ix.axioms) (a : Axiom) : ix'.assertions a = ix.assertions a := by
  rw [Index.assertions, h, Index.assertions]

namespace Sound

/-- What an assertion does: it counts one more if the axiom can be indexed, and fails if not. -/
theorem add_spec (h : r.Sound) (a : Axiom) :
    match a.entries? with
    | some _ => (r.add a).1 = .ok (decide (r.index.assertions a = 0)) ∧
        ∀ b, (r.add a).2.index.assertions b = r.index.assertions b + if b = a then 1 else 0
    | none => (∃ e, (r.add a).1 = .error (.index e)) ∧ (r.add a).2.index.axioms = r.index.axioms := by
  obtain ⟨hix, -, -, hspec⟩ := h.accounts.assert a
  have haxioms := axioms_edited (r := r) hix
  unfold Reasoner.add
  generalize r.index.assert a = edit at hspec haxioms
  cases hentries : a.entries? with
  | none =>
    rw [hentries] at hspec
    obtain ⟨⟨e, he⟩, hgrown⟩ := hspec
    obtain ⟨answer, ix⟩ := edit
    obtain rfl : answer = .error e := he
    exact ⟨⟨e, rfl⟩, hgrown.axioms⟩
  | some said =>
    rw [hentries] at hspec
    obtain ⟨he, hcount⟩ := hspec
    refine ⟨?_, fun b => (assertions_congr haxioms b).trans (hcount b)⟩
    obtain ⟨answer, ix⟩ := edit
    obtain rfl : answer = .ok (decide (r.index.assertions a = 0)) := he
    cases decide (r.index.assertions a = 0) <;> rfl

/-- What a retraction does: it counts one less, and never fails. -/
theorem remove_spec (h : r.Sound) (a : Axiom) : (r.remove a).1 = .ok (decide (r.index.assertions a = 1)) ∧
    ∀ b, (r.remove a).2.index.assertions b = r.index.assertions b - if b = a then 1 else 0 := by
  obtain ⟨hix, -, -, he, hcount⟩ := h.accounts.retract a
  have haxioms := axioms_edited (r := r) hix
  unfold Reasoner.remove
  generalize r.index.retract a = edit at he hcount haxioms
  refine ⟨?_, fun b => (assertions_congr haxioms b).trans (hcount b)⟩
  obtain ⟨answer, ix⟩ := edit
  obtain rfl : answer = .ok (decide (r.index.assertions a = 1)) := he
  cases decide (r.index.assertions a = 1) <;> rfl

/-- An axiom that is asserted can be indexed. -/
theorem exists_entries (h : r.Sound) {a : Axiom} (ha : 0 < r.index.assertions a) : ∃ said, a.entries? = some said := by
  obtain ⟨n, hn⟩ := Nat.exists_eq_succ_of_ne_zero (Nat.ne_of_gt ha)
  exact (h.accounts.exists_reading (Index.mem_axioms_of_assertions hn)).2

end Sound

/-- Axioms that can be indexed are asserted one by one, without failing. -/
theorem Undisturbed.addAll_spec (h : r.Undisturbed) {axioms : List Axiom} (haxioms : ∀ a ∈ axioms, ∃ said, a.entries? = some said) :
    ∃ n r', r.addAll axioms = (.ok n, r') ∧ r'.Undisturbed ∧ r'.workspace.monitor = r.workspace.monitor ∧
      ∀ b, 0 < r'.index.assertions b ↔ 0 < r.index.assertions b ∨ b ∈ axioms := by
  induction axioms generalizing r with
  | nil => exact ⟨0, r, rfl, h, rfl, fun b => by simp⟩
  | cons a axioms ih =>
    obtain ⟨said, hsaid⟩ := haxioms a (List.mem_cons_self ..)
    have hspec := h.sound.add_spec a
    rw [hsaid] at hspec
    obtain ⟨hanswer, hcount⟩ := hspec
    obtain ⟨n, r', hall, hr', hmonitor, hcount'⟩ := ih (h.add a) fun b hb => haxioms b (List.mem_cons_of_mem _ hb)
    refine ⟨n + if decide (r.index.assertions a = 0) then 1 else 0, r', ?_, hr', hmonitor.trans (monitor_edited _), fun b => ?_⟩
    · rw [Reasoner.addAll]
      rw [show r.add a = (.ok (decide (r.index.assertions a = 0)), (r.add a).2) from Prod.ext hanswer rfl]
      dsimp only
      rw [hall]
    · rw [hcount', hcount, List.mem_cons]
      by_cases hb : b = a <;> simp [hb]

/-- The asserted axioms decide what is said. -/
theorem Sound.agrees (h : r.Sound) (h' : r'.Sound) (hsame : ∀ a, 0 < r'.index.assertions a ↔ 0 < r.index.assertions a) :
    r.Agrees r' :=
  Index.sameEntries_said fun a => h'.accounts.mem_axioms_iff.trans ((hsame a).trans h.accounts.mem_axioms_iff.symm)

theorem Serves.agrees (h : r.Serves r') : r.Agrees r' := Index.sameEntries_said fun a => by rw [h.axioms]

/-- A query changes nothing about what is asserted, whether it is answered or interrupted. -/
theorem Sound.serves_ask (h : r.Sound) (q : Query) : r.Serves (q.run r).2 := by
  have hask := h.ask q
  generalize q.run r = result at hask
  cases hask with
  | ok hr => exact hr.1.served.serves
  | error hstopped => exact hstopped.serves

/-- Calls leave the configuration as it is. -/
theorem Undisturbed.config_after (h : r.Undisturbed) (calls : List Call) : (r.after calls).config = r.config := by
  induction calls generalizing r with
  | nil => rfl
  | cons call calls ih =>
    refine (ih (call.undisturbed_apply h)).trans ?_
    cases call with
    | add a => exact (setup_edited (r.index.assert a)).1
    | remove a => exact (setup_edited (r.index.retract a)).1
    | ask q => exact (h.sound.serves_ask q).config
    | monitor | engine => rfl

/-- How often an axiom is asserted after a call, as far as the call and the count before it tell. -/
def Call.tally (a : Axiom) (n : Nat) : Call → Nat
  | add b => if b = a ∧ a.entries?.isSome then n + 1 else n
  | remove b => if b = a then n - 1 else n
  | ask _ | monitor _ | engine _ _ => n

/-- Calls keep count of the assertions of each axiom: those that succeed count up, and retractions count down. -/
theorem Undisturbed.assertions_after (h : r.Undisturbed) (calls : List Call) (a : Axiom) :
    (r.after calls).index.assertions a = calls.foldl (Call.tally a) (r.index.assertions a) := by
  induction calls generalizing r with
  | nil => rfl
  | cons call calls ih =>
    rw [List.foldl_cons, show Call.tally a (r.index.assertions a) call = (call.apply r).index.assertions a from ?_]
    · exact ih (call.undisturbed_apply h)
    cases call with
    | add b =>
      have hspec := h.sound.add_spec b
      by_cases hb : b = a
      · subst hb
        cases hentries : b.entries? with
        | none =>
          rw [hentries] at hspec
          simp [Call.tally, hentries, Call.apply, assertions_congr hspec.2]
        | some said =>
          rw [hentries] at hspec
          simp [Call.tally, hentries, Call.apply, hspec.2]
      · have hb' : ¬ a = b := fun e => hb e.symm
        cases hentries : b.entries? with
        | none =>
          rw [hentries] at hspec
          simp [Call.tally, hb, Call.apply, assertions_congr hspec.2]
        | some said =>
          rw [hentries] at hspec
          simp [Call.tally, hb, hb', Call.apply, hspec.2]
    | remove b =>
      rw [Call.apply, (h.sound.remove_spec b).2, Call.tally]
      by_cases hb : b = a
      · simp [hb]
      · have hb' : ¬ a = b := fun e => hb e.symm
        simp [hb, hb']
    | ask q => exact (assertions_congr (h.sound.serves_ask q).axioms a).symm
    | monitor f => rfl
    | engine e he => rfl

/-- One worker carries out the runs of a new reasoner. -/
theorem setEngine_single_of_new {config : Config} (hr : Reasoner.new config = .ok r) :
    ({ r with engine := .single } : Reasoner) = r := by
  obtain rfl := eq_of_new hr
  rfl

/-- A new reasoner has no axioms. -/
theorem assertions_new {config : Config} (hr : Reasoner.new config = .ok r) (a : Axiom) : r.index.assertions a = 0 := by
  obtain rfl := eq_of_new hr
  exact Index.assertions_eq_zero (by rw [Index.axioms_empty]; exact List.not_mem_nil)

/-- An axiom is asserted if the successful assertions in the history outnumber the retractions that have struck one out. -/
theorem containsAxiom_after {config : Config} (hr : Reasoner.new config = .ok r) (calls : List Call) (a : Axiom) :
    (r.after calls).index.containsAxiom a = true ↔ 0 < calls.foldl (Call.tally a) 0 := by
  rw [(undisturbed_after hr calls).sound.accounts.containsAxiom_iff, (Undisturbed.new hr).assertions_after,
    assertions_new hr a]

end Reasoner

end ELOntology
