import ELOntology.Proofs.Index.Failure
import ELOntology.Proofs.Reasoner.Standing

/-!
# Assertions that fail

An assertion that fails leaves behind the expressions that it has numbered before it failed.  All later answers are as if
it had not been made, with one exception: a name that it has numbered is dormant instead of unknown, and only a question
that compares names sees the difference.

Key facts: `standing_add_of_error` (what a failed assertion leaves behind) and `answers_after_error`.
-/

namespace ELOntology

namespace Reasoner

variable {r s : Reasoner}

/-- All that a failed assertion can change about a name is that it becomes dormant instead of unknown. -/
theorem Sound.standing_add_of_error (h : r.Sound) {a : Axiom} {e : ReasonerError} (hfail : (r.add a).1 = .error e)
    (name : String) : (r.add a).2.standing name = r.standing name ∨
      r.standing name = .unknown ∧ (r.add a).2.standing name = .dormant := by
  have hix := (h.accounts.assert a).1
  have hedit := h.accounts.edits_assert a
  unfold Reasoner.add at hfail ⊢
  generalize r.index.assert a = edit at hfail hix hedit ⊢
  cases hedit with
  | counted => cases hfail
  | revised => cases hfail
  | @failed e ix hkept =>
    have htidy : ix.Tidy := hix.tidy
    have hhas {id : ExprId} : (r.edited (.error e, ix)).2.workspace.Has id ↔ r.workspace.Has id := Workspace.has_grow _
    have hclass {id : ExprId} (hid : r.index.classId? name = some id) :
        (r.edited (.error e, ix)).2.index.classId? name = some id :=
      htidy.find?_iff.2 (hkept.names.shape? (h.accounts.tidy.find?_iff.1 hid))
    cases hstanding : r.standing name with
    | live =>
      obtain ⟨id, hid, hroot⟩ := standing_eq_live.1 hstanding
      exact .inl (standing_eq_live.2 ⟨id, hclass hid, hhas.2 hroot⟩)
    | dormant =>
      obtain ⟨id, hid, hroot⟩ := standing_eq_dormant.1 hstanding
      exact .inl (standing_eq_dormant.2 ⟨id, hclass hid, fun hroot' => hroot (hhas.1 hroot')⟩)
    | unknown =>
      cases hid : (r.edited (.error e, ix)).2.index.classId? name with
      | none => exact .inl (standing_eq_unknown.2 hid)
      | some id =>
        refine .inr ⟨rfl, standing_eq_dormant.2 ⟨id, hid, fun hroot => ?_⟩⟩
        -- a context belongs to an expression that had its number before
        have hlt : id.val < r.index.nodes.size := Nat.lt_of_lt_of_le (hhas.1 hroot).lt_size h.size_le
        obtain ⟨shape, hshape⟩ := Index.exists_shape? hlt
        have hsame : shape = .named name :=
          Option.some.inj ((hkept.names.shape? hshape).symm.trans (htidy.find?_iff.1 hid))
        have hknown := h.accounts.tidy.find?_iff.2 (hsame ▸ hshape)
        cases (standing_eq_unknown.1 hstanding).symm.trans hknown

/-- Assertions are answered by the number of earlier ones, and by the axiom itself if it cannot be indexed. -/
theorem Sound.add_congr (h : r.Sound) (h' : s.Sound) (hsame : ∀ a, s.index.assertions a = r.index.assertions a) (a : Axiom) :
    (s.add a).1 = (r.add a).1 ∨ ∃ e e', (r.add a).1 = .error (.index e) ∧ (s.add a).1 = .error (.index e') ∧
      (e.IsCollision ∨ e'.IsCollision) := by
  have hfault {u : Reasoner} {e : IndexError} (he : (u.add a).1 = .error (.index e)) : e = a.fault ∨ e.IsCollision := by
    have hassert : (u.index.assert a).1 = .error e := by
      unfold Reasoner.add at he
      generalize u.index.assert a = edit at he ⊢
      obtain ⟨answer, ix⟩ := edit
      match answer with
      | .error _ => cases he; rfl
      | .ok false => cases he
      | .ok true => cases he
    exact Index.error_assert hassert
  have hspec := h.add_spec a
  have hspec' := h'.add_spec a
  cases hentries : a.entries? with
  | some said =>
    rw [hentries] at hspec hspec'
    exact .inl (by rw [hspec'.1, hspec.1, hsame])
  | none =>
    rw [hentries] at hspec hspec'
    obtain ⟨⟨e, he⟩, -⟩ := hspec
    obtain ⟨⟨e', he'⟩, -⟩ := hspec'
    rcases hfault he with hf | hc
    · rcases hfault he' with hf' | hc
      · exact .inl (by rw [he', he, hf, hf'])
      · exact .inr ⟨e, e', he, he', .inr hc⟩
    · exact .inr ⟨e, e', he, he', .inl hc⟩

/-- A query that is not answered has been interrupted. -/
theorem Sound.interrupted_of_error (h : r.Sound) {q : Query} {e : ReasonerError} {r' : Reasoner}
    (hrun : q.run r = (.error e, r')) : e.isInterrupted = true ∧ ¬ r.workspace.monitor.Calm := by
  have hask := h.ask q
  rw [hrun] at hask
  cases hask with
  | error hstopped => exact ⟨hstopped.error, hstopped.not_calm⟩

/-- Whatever is done after an assertion has failed is answered as if it had not been made.  Edits have the same answers, but
for the wording of collisions; queries that are not interrupted have the same answers up to the places of the nodes of
taxonomies, where the names that are compared stand in axioms, or are known alike. -/
theorem answers_after_error {config : Config} {r₀ : Reasoner} (hr : Reasoner.new config = .ok r₀) (before : List Call)
    {a : Axiom} {e : ReasonerError} (hfail : ((r₀.after before).add a).1 = .error e) (later : List Call) :
    let r := (r₀.after before).after later
    let s := ((r₀.after before).add a).2.after later
    (∀ b, (s.remove b).1 = (r.remove b).1) ∧
    (∀ b, (s.add b).1 = (r.add b).1 ∨ ∃ e e', (r.add b).1 = .error (.index e) ∧ (s.add b).1 = .error (.index e') ∧
      (e.IsCollision ∨ e'.IsCollision)) ∧
    (∀ (q : Query) x r' y s', q.run r = (.ok x, r') → q.run s = (.ok y, s') →
      (∀ name ∈ q.compared, Lists r.index.said name ∨ s'.standing name = r'.standing name) → x.Alike y) ∧
    (∀ (q : Query) e s', q.run s = (.error e, s') → e.isInterrupted = true ∧ ¬ s.workspace.monitor.Calm) ∧
    ((r₀.after before).add a).2.workspace.monitor = (r₀.after before).workspace.monitor ∧
    ∀ name, ((r₀.after before).add a).2.standing name = (r₀.after before).standing name ∨
      (r₀.after before).standing name = .unknown ∧ ((r₀.after before).add a).2.standing name = .dormant := by
  intro r s
  have h₀ := undisturbed_after hr before
  have h : r.Undisturbed := h₀.after later
  have h' : s.Undisturbed := (h₀.add a).after later
  have hsame (b : Axiom) : s.index.assertions b = r.index.assertions b := by
    have hspec := h₀.sound.add_spec a
    cases hentries : a.entries? with
    | some said =>
      rw [hentries] at hspec
      rw [hspec.1] at hfail
      cases hfail
    | none =>
      rw [hentries] at hspec
      rw [(h₀.add a).assertions_after later b, h₀.assertions_after later b, assertions_congr hspec.2]
  have hagrees : r.Agrees s := h.sound.agrees h'.sound fun b => by rw [hsame]
  refine ⟨fun b => ?_, h.sound.add_congr h'.sound hsame, fun q x r' y s' hrun hrun' hnames => ?_,
    fun q e s' hrun => h'.sound.interrupted_of_error hrun, monitor_edited _, h₀.sound.standing_add_of_error hfail⟩
  · rw [(h'.sound.remove_spec b).1, (h.sound.remove_spec b).1, hsame]
  · have hask := h.sound.ask q
    have hask' := h'.sound.ask q
    rw [hrun] at hask
    rw [hrun'] at hask'
    cases hask with
    | ok hx =>
    cases hask' with
    | ok hy =>
    obtain ⟨hreached, rfl⟩ := hx
    obtain ⟨hreached', rfl⟩ := hy
    refine (h.served hreached.served).answer_alike (h'.served hreached'.served)
      (hreached.served.serves.agrees.symm.trans (hagrees.trans hreached'.served.serves.agrees)) q hreached.done hreached'.done
      fun name hname => (hnames name hname).elim (fun hlists => ?_) id
    rw [hreached.live_of_lists q.depth_lt hlists, hreached'.live_of_lists q.depth_lt (hagrees.lists_iff.2 hlists)]

/-- A name that a failed assertion has numbered is dormant, and not included in itself any more. -/
theorem answers_after_error_dormant : ∃ r₀ s₀, Reasoner.new (.standard 1) = .ok r₀ ∧
    r₀.add (.subClassOf (.named "X") (.intersection [])) = (.error (.index .emptyIntersection), s₀) ∧
    r₀.standing "X" = .unknown ∧ s₀.standing "X" = .dormant ∧ (isSubsumed "X" "X" r₀).1 = .ok true ∧
    (isSubsumed "X" "X" s₀).1 = .ok false ∧ ∀ b, (s₀.remove b).1 = (r₀.remove b).1 := by
  obtain ⟨r₀, hr⟩ : ∃ r₀, Reasoner.new (.standard 1) = .ok r₀ := ⟨_, rfl⟩
  have hfail : (r₀.add (.subClassOf (.named "X") (.intersection []))).1 = .error (.index .emptyIntersection) := by
    cases hr
    decide +kernel
  have hunknown : r₀.standing "X" = .unknown := by
    cases hr
    decide +kernel
  have hanswer : (isSubsumed "X" "X" r₀).1 = .ok true := by
    cases hr
    decide +kernel
  have hanswer' : (isSubsumed "X" "X" (r₀.add (.subClassOf (.named "X") (.intersection []))).2).1 = .ok false := by
    cases hr
    decide +kernel
  have hdormant : (r₀.add (.subClassOf (.named "X") (.intersection []))).2.standing "X" = .dormant := by
    cases hr
    decide +kernel
  obtain ⟨hremove, -⟩ := answers_after_error hr [] hfail []
  exact ⟨r₀, _, hr, Prod.ext hfail rfl, hunknown, hdormant, hanswer, hanswer', hremove⟩

end Reasoner

end ELOntology
