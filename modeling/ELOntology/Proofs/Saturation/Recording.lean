import Mathlib.Data.List.Chain
import Mathlib.Data.List.Range
import ELOntology.Proofs.Saturation.Upkeep

/-!
# What a recorder tells

A recorder is told about conclusions that are taken in and given up, and about nothing else that happens to a context.
The records about one conclusion of one context then say whether it is stored: it is taken in only where it is not
stored, and given up only where it is (`Log.Tells`).  One worker at a time is at a context, so this is so in whatever order
several workers move.

What is not in this order are the numbers.  Two workers may number their inferences in one order and keep them in the other,
so with a limit the records are those numbered below it, which need not be the first to be kept (`Recorder.Follows`).  A
single worker keeps an inference before it numbers the next (`Pool.Sequential`).

Key facts: `Pool.Logs.move` (one move of a worker), `Traced.course`, and `Traced.keeps` for all that processes nothing.  A
context that starts again is not recorded, so it has to be empty by then (`Keeps.restart`).
-/

namespace ELOntology

/-! ### Records about one conclusion -/

/-- Derived and retracted in turn, derived first. -/
def Alternates (modes : List Mode) : Prop := modes.IsChain (· ≠ ·) ∧ ∀ mode ∈ modes.head?, mode = .derive

/-- The modes alternate, and the last one tells whether something is stored. -/
structure Tracks (modes : List Mode) (stored : Prop) : Prop where
  alternates : Alternates modes
  stored_iff : stored ↔ modes.getLast? = some .derive

namespace Tracks

variable {modes : List Mode} {stored stored' : Prop}

theorem nil (h : ¬ stored) : Tracks [] stored where
  alternates := ⟨.nil, fun _ hmode => by cases hmode⟩
  stored_iff := iff_of_false h (by simp)

theorem congr (h : Tracks modes stored) (hstored : stored' ↔ stored) : Tracks modes stored' :=
  ⟨h.alternates, hstored.trans h.stored_iff⟩

/-- What is not stored is derived, what is stored is retracted. -/
theorem append (h : Tracks modes stored) {mode : Mode} (hbefore : stored ↔ mode = .retract)
    (hafter : stored' ↔ mode = .derive) : Tracks (modes ++ [mode]) stored' where
  alternates := by
    obtain ⟨⟨hchain, hhead⟩, hstored⟩ := h
    constructor
    · refine List.isChain_append.2 ⟨hchain, .singleton mode, fun last hlast next hnext => ?_⟩
      obtain rfl : mode = next := by simpa using hnext
      rintro rfl
      -- the last mode says that the conclusion was stored if it was derived, but then it is retracted now
      rw [Option.mem_def.1 hlast, Option.some_inj, hbefore] at hstored
      cases last with
      | derive => cases hstored.2 rfl
      | retract => cases hstored.1 rfl
    · intro first hfirst
      cases modes with
      | nil =>
        obtain rfl : mode = first := by simpa using hfirst
        cases mode with
        | derive => rfl
        | retract => cases hstored.1 (hbefore.2 rfl)
      | cons first' modes => exact hhead first hfirst
  stored_iff := by simp [hafter]

end Tracks

/-- The modes of the inferences about a conclusion of the context of a root, in order.  Subsumers are compared without
their polarity. -/
def modesAbout (root : ExprId) (c : Conclusion) (inferences : List Inference) : List Mode :=
  inferences.filterMap fun i => if i.root = root ∧ i.conclusion.unsigned = c.unsigned then some i.mode else none

/-- Inferences with their numbers, in the order in which they were kept or, beyond the limit, passed over. -/
abbrev Log := List (Nat × Inference)

namespace Log

/-- The modes of the inferences of the log about a conclusion of the context of a root. -/
def modesOf (log : Log) (root : ExprId) (c : Conclusion) : List Mode := modesAbout root c (log.map Prod.snd)

/-- The inferences numbered below a limit, if there is one. -/
def within (limit : Option Nat) (log : Log) : List Inference :=
  (log.filter fun entry => !limit.any (· ≤ entry.1)).map Prod.snd

/-- The log tells what is stored. -/
def Tells (log : Log) (w : Workspace) : Prop :=
  ∀ ⦃root : ExprId⦄ ⦃c : Conclusion⦄, c.isStorable = true → Tracks (log.modesOf root c) (w.Stores root c)

variable {log : Log} {w w' : Workspace}

private theorem modesOf_append (log : Log) (number : Nat) (i : Inference) (root : ExprId) (c : Conclusion) :
    modesOf (log ++ [(number, i)]) root c =
      log.modesOf root c ++ if i.root = root ∧ i.conclusion.unsigned = c.unsigned then [i.mode] else [] := by
  rw [modesOf, modesAbout, List.map_append, List.filterMap_append, modesOf, modesAbout]
  refine congrArg (_ ++ ·) ?_
  split <;> rename_i hsame <;> simp [hsame]

/-- The number of inferences below the limit. -/
theorem length_within {seen : Nat} (hnumbers : (log.map Prod.fst).Perm (List.range seen)) (n : Nat) :
    (log.within (some n)).length = min n seen := by
  have hcount (seen : Nat) : (List.range seen).countP (fun number => !decide (n ≤ number)) = min n seen := by
    induction seen with
    | zero => simp
    | succ seen ih =>
      rw [List.range_succ, List.countP_append, ih]
      by_cases h : n ≤ seen
      · simp [h]
        omega
      · simp [h]
        omega
  rw [within, List.length_map, ← List.countP_eq_length_filter, ← hcount, ← hnumbers.countP_eq, List.countP_map]
  rfl

@[simp] theorem within_none (log : Log) : log.within none = log.map Prod.snd := by simp [within]

/-- If the numbers are in order, those below the limit come first. -/
theorem within_eq_take {seen : Nat} (hnumbers : log.map Prod.fst = List.range seen) (n : Nat) :
    log.within (some n) = (log.map Prod.snd).take n := by
  induction log using List.reverseRecOn generalizing seen with
  | nil => simp [within]
  | append_singleton log entry ih =>
    obtain ⟨k, rfl⟩ : ∃ k, seen = k + 1 := by
      refine Nat.exists_eq_succ_of_ne_zero ?_
      rintro rfl
      simp at hnumbers
    rw [List.range_succ, List.map_append, List.map_singleton] at hnumbers
    obtain ⟨hinit, hlast⟩ := List.append_inj' hnumbers rfl
    obtain rfl : entry.1 = k := List.singleton_inj.1 hlast
    have hlength : log.length = entry.1 := by simpa using congrArg List.length hinit
    have hinit := ih hinit
    rw [within] at hinit ⊢
    rw [List.filter_append, List.map_append, hinit, List.map_append, List.take_append, List.length_map, hlength]
    by_cases hlt : n ≤ entry.1
    · simp [hlt]
    · simp [hlt, List.take_of_length_le (show [entry.2].length ≤ n - entry.1 by simp; omega)]

namespace Tells

/-- Where nothing is stored, the log starts. -/
theorem nil (h : ∀ root c, ¬ w.Stores root c) : Tells [] w := fun _ _ _ => .nil (h _ _)

theorem congr (h : log.Tells w) (hstores : ∀ root c, w'.Stores root c ↔ w.Stores root c) : log.Tells w' :=
  fun _ _ hc => (h hc).congr (hstores _ _)

/-- One more inference, which takes a conclusion in or gives it up. -/
theorem append (h : log.Tells w) {root : ExprId} {c : Conclusion} {mode : Mode} (number : Nat)
    (hbefore : w.Stores root c ↔ mode = .retract) (hafter : ∀ other d, d.isStorable = true → (w'.Stores other d ↔
      if other = root ∧ d.unsigned = c.unsigned then mode = .derive else w.Stores other d)) :
    Tells (log ++ [(number, ⟨root, c, mode⟩)]) w' := by
  intro other d hd
  have hmodes : Tracks (log.modesOf other d) (w.Stores other d) := h hd
  have hstored := hafter other d hd
  rw [modesOf_append]
  by_cases hsame : other = root ∧ d.unsigned = c.unsigned
  · obtain ⟨rfl, hunsigned⟩ := hsame
    rw [if_pos ⟨rfl, hunsigned⟩] at hstored
    rw [if_pos ⟨rfl, hunsigned.symm⟩]
    refine hmodes.append ?_ hstored
    rw [← hbefore, ← Workspace.stores_unsigned, hunsigned, Workspace.stores_unsigned]
  · rw [if_neg hsame] at hstored
    rw [if_neg fun e => hsame ⟨e.1.symm, e.2.symm⟩, List.append_nil]
    exact hmodes.congr hstored

end Tells

end Log

/-! ### Numbering and keeping -/

namespace Recorder

/-- The recorder has numbered what is in the log and some more, and has kept what is in the log below its limit. -/
structure Follows (r : Recorder) (log numbered : Log) : Prop where
  numbers : ((log ++ numbered).map Prod.fst).Perm (List.range r.seen)
  kept : r.kept.toList = log.within r.limit

@[simp] theorem limit_number (r : Recorder) : r.number.2.limit = r.limit := rfl

@[simp] theorem limit_keep (r : Recorder) (number : Nat) (i : Inference) : (r.keep number i).limit = r.limit := by
  unfold keep
  split <;> rfl

@[simp] theorem seen_keep (r : Recorder) (number : Nat) (i : Inference) : (r.keep number i).seen = r.seen := by
  unfold keep
  split <;> rfl

@[simp] theorem limit_visit (r : Recorder) (i : Inference) : (r.visit i).limit = r.limit := limit_keep ..

@[simp] theorem seen_visit (r : Recorder) (i : Inference) : (r.visit i).seen = r.seen + 1 := seen_keep ..

namespace Follows

variable {r : Recorder} {log numbered : Log}

theorem new (limit : Option Nat) : (Recorder.new limit).Follows [] [] := ⟨.refl _, rfl⟩

theorem number (h : r.Follows log numbered) (i : Inference) : r.number.2.Follows log ((r.number.1, i) :: numbered) where
  numbers := by
    have hperm := h.numbers.cons r.seen
    rw [Recorder.number, List.range_succ]
    refine (List.Perm.trans ?_ hperm).trans (List.perm_append_singleton ..).symm
    simp
  kept := h.kept

theorem keep (h : r.Follows log numbered) {number : Nat} {i : Inference} (hnumbered : (number, i) ∈ numbered) :
    (r.keep number i).Follows (log ++ [(number, i)]) (numbered.erase (number, i)) where
  numbers := by
    rw [seen_keep, List.append_assoc]
    exact (((List.perm_cons_erase hnumbered).symm.append_left log).map Prod.fst).trans h.numbers
  kept := by
    rw [limit_keep, Log.within, List.filter_append, List.map_append, ← Log.within, ← h.kept]
    unfold Recorder.keep
    cases hlimit : r.limit.any (· ≤ number) <;> simp [hlimit]

theorem visit (h : r.Follows log numbered) (i : Inference) : (r.visit i).Follows (log ++ [(r.seen, i)]) numbered := by
  have hkept := (h.number i).keep (List.mem_cons_self ..)
  rwa [List.erase_cons_head] at hkept

end Follows

end Recorder

namespace Pool

/-- At most one worker is at a context, it has numbered at most the inference it is about to keep, and the numbers are in
order. -/
structure Sequential (p : Pool) (log : Log) (seen : Nat) : Prop where
  alone : p.busy.length ≤ 1
  attended {entry : Nat × Inference} : entry ∈ p.numbered → entry.2.root ∈ p.busy
  single : p.numbered.length ≤ 1
  numbers : (log ++ p.numbered).map Prod.fst = List.range seen

namespace Sequential

variable {p : Pool} {log : Log} {seen : Nat} {i : Inference}

/-- A worker that is between two conclusions has no inference to keep, if it is the only one. -/
theorem numbered_eq_nil (h : p.Sequential log seen) {root : ExprId} (hfree : p.Free root) : p.numbered = [] := by
  refine List.eq_nil_iff_forall_not_mem.2 fun entry hentry => hfree.settled entry hentry ?_
  obtain ⟨only, honly⟩ : ∃ only, p.busy = [only] := by
    refine List.length_eq_one_iff.1 (Nat.le_antisymm h.alone ?_)
    exact List.length_pos_of_mem hfree.busy
  have hroot := hfree.busy
  have hother := h.attended hentry
  rw [honly, List.mem_singleton] at hroot hother
  exact hother.trans hroot.symm

/-- The next number is given to an inference that is kept at once. -/
theorem visit (h : p.Sequential log seen) (hfree : p.Free i.root) (w : Workspace) :
    Sequential { p with workspace := w } (log ++ [(seen, i)]) (seen + 1) where
  alone := h.alone
  attended := h.attended
  single := h.single
  numbers := by
    have hnumbers := h.numbers
    rw [h.numbered_eq_nil hfree, List.append_nil] at hnumbers
    simp [h.numbered_eq_nil hfree, hnumbers, List.range_succ]

/-- The next number is given to an inference that is to be kept. -/
theorem number (h : p.Sequential log seen) (hfree : p.Free i.root) (w : Workspace) :
    Sequential { p with workspace := w, numbered := (seen, i) :: p.numbered } log (seen + 1) := by
  have hnumbers := h.numbers
  rw [h.numbered_eq_nil hfree, List.append_nil] at hnumbers
  rw [h.numbered_eq_nil hfree]
  refine ⟨h.alone, fun {entry} hentry => ?_, Nat.le_refl 1, by simp [hnumbers, List.range_succ]⟩
  rw [List.mem_singleton.1 hentry]
  exact hfree.busy

/-- The inference that is kept is the only one that is numbered. -/
theorem keep (h : p.Sequential log seen) {number : Nat} (hnumbered : (number, i) ∈ p.numbered) (w : Workspace) :
    Sequential { p with workspace := w, numbered := p.numbered.erase (number, i) } (log ++ [(number, i)]) seen := by
  obtain ⟨only, honly⟩ := List.length_eq_one_iff.1 (Nat.le_antisymm h.single (List.length_pos_of_mem hnumbered))
  obtain rfl : (number, i) = only := List.mem_singleton.1 (honly ▸ hnumbered)
  have hnumbers := h.numbers
  rw [honly] at hnumbers
  exact ⟨h.alone, fun hentry => h.attended (List.mem_of_mem_erase hentry),
    Nat.le_trans (List.length_erase_le ..) h.single, by simpa [honly] using hnumbers⟩

end Sequential

end Pool

/-! ### What leaves the records alone -/

/-- Who is told about conclusions, and what has been recorded. -/
def Monitor.notes (m : Monitor) : Option Observer × Option Recorder := (m.observer, m.recorder)

namespace Workspace

/-- Nothing is recorded, and the same is stored. -/
structure Keeps (w w' : Workspace) : Prop where
  notes : w'.monitor.notes = w.monitor.notes
  stores (root : ExprId) (c : Conclusion) : w'.Stores root c ↔ w.Stores root c

namespace Keeps

variable {w w' w'' : Workspace}

theorem refl (w : Workspace) : w.Keeps w := ⟨rfl, fun _ _ => Iff.rfl⟩

theorem trans (h : w.Keeps w') (h' : w'.Keeps w'') : w.Keeps w'' :=
  ⟨h'.notes.trans h.notes, fun root c => (h'.stores root c).trans (h.stores root c)⟩

theorem of_sameWork (h : w.SameWork w') (hnotes : w'.monitor.notes = w.monitor.notes) : w.Keeps w' :=
  ⟨hnotes, fun _ _ => h.stores_iff⟩

theorem enqueue (w : Workspace) (root : ExprId) (c : Conclusion) : w.Keeps (w.enqueue root c) :=
  ⟨congrArg Monitor.notes (monitor_enqueue root c), fun _ _ => stores_enqueue⟩

theorem ensure (w : Workspace) (root : ExprId) : w.Keeps (w.ensure root) := by
  refine ⟨?_, fun _ _ => stores_ensure⟩
  obtain e | ⟨-, -, e⟩ := w.ensure_cases root <;> rw [e]
  show ((w.put root .new).enqueue root .init).monitor.notes = w.monitor.notes
  exact congrArg Monitor.notes (monitor_enqueue (w := w.put root .new) root .init)

theorem sendAll (w : Workspace) (mode : Mode) (productions : List Production) :
    w.Keeps (RuleBase.sendAll mode productions w) := by
  induction productions generalizing w with
  | nil => exact .refl w
  | cons p productions ih =>
    refine Keeps.trans ?_ (ih (w.send mode p.1 p.2))
    cases mode with
    | derive => exact (ensure w p.1).trans (enqueue _ p.1 p.2)
    | retract => exact enqueue w p.1 p.2

theorem of_sends (h : w.Sends w') : w.Keeps w' := by
  obtain ⟨productions, rfl⟩ := h
  exact sendAll w .retract productions

theorem look (w : Workspace) : w.Keeps w.look.2 := .of_sameWork (.of_contexts rfl rfl) rfl

theorem submitAll (w : Workspace) (roots : List ExprId) : w.Keeps (w.submitAll roots).2 := by
  induction roots generalizing w with
  | nil => exact .refl w
  | cons root roots ih =>
    have hlooked := look w
    unfold Workspace.submitAll Workspace.submit
    rcases hlook : w.look with ⟨_ | _, w'⟩ <;> rw [hlook] at hlooked
    · exact hlooked.trans ((ensure w' root).trans (ih _))
    · exact hlooked

theorem grow (w : Workspace) (n : Nat) : w.Keeps (w.grow n) := ⟨rfl, fun _ _ => stores_grow n⟩

/-! ### Maintenance -/

theorem seedRemoved (w : Workspace) (roles : RoleHierarchy) (removed : List Contribution) :
    w.Keeps (w.seedRemoved roles removed) := .of_sends (w.sends_seedRemoved roles removed)

theorem seedCleaning (w : Workspace) (roots : List ExprId) : w.Keeps (w.seedCleaning roots) :=
  .of_sends (w.sends_seedCleaning roots)

theorem replay (w : Workspace) (rb : RuleBase) (cleaned : List ExprId) : w.Keeps (rb.replay cleaned w) :=
  .of_sends (w.sends_replay rb cleaned)

theorem seedAdded (w : Workspace) (added : List Contribution) (cleaned : List ExprId) :
    w.Keeps (w.seedAdded added cleaned) := .of_sends (w.sends_seedAdded added cleaned)

theorem takeModified (w : Workspace) : w.Keeps w.takeModified.2 :=
  ⟨congrArg Monitor.notes w.monitor_takeModified, fun _ _ => stores_takeModified⟩

/-- Contexts that are empty may start again. -/
theorem restart {cleaned : List ExprId} (hempty : ∀ root ∈ cleaned, ∀ c, ¬ w.Stores root c) : w.Keeps (w.restart cleaned) := by
  refine ⟨congrArg Monitor.notes (monitor_restart w cleaned), fun root c => ?_⟩
  rw [stores_restart]
  exact and_iff_left_of_imp fun hc hroot => hempty root hroot c hc

end Keeps

end Workspace

/-! ### Tracing a run -/

/-- A conclusion that is processed is recorded if it is taken in or given up, and changes nothing if it is not. -/
theorem RuleBase.process_tells (rb : RuleBase) (mode : Mode) (root : ExprId) (c : Conclusion) (w : Workspace) :
    rb.process mode root c w = (false, w) ∨
      (rb.process mode root c w).1 = true ∧
      (rb.process mode root c w).2.monitor.notes = (w.monitor.visit ⟨root, c, mode⟩).notes ∧
      ∀ (log : Log) (number : Nat), log.Tells w →
        Log.Tells (log ++ [(number, ⟨root, c, mode⟩)]) (rb.process mode root c w).2 := by
  obtain e | ⟨ctx, rfl, hctx, hc, e⟩ | ⟨ctx, rfl, hctx, hc, e⟩ := rb.process_cases mode root c w
  · exact .inl e
  · have htaken := takenIn_process rb hctx hc
    have hmissing : ¬ w.Stores root c := by simp [Workspace.stores_of_context? hctx, hc]
    refine .inr ⟨by rw [e], ?_, fun log number h => h.append number (by simp [hmissing]) fun other d hd => ?_⟩
    · rw [e]
      exact (Workspace.Keeps.sendAll _ _ _).notes
    · rw [htaken.stores]
      split <;> rename_i hsame
      · have hstorable : c.isStorable = true := by
          rw [← c.isStorable_unsigned, ← hsame.2, d.isStorable_unsigned, hd]
        simp [hsame, hstorable]
      · exact or_iff_left fun e => hsame ⟨e.1, e.2.2⟩
  · have hup := givenUp_process rb hctx hc
    have hstored : w.Stores root c := ⟨ctx, hctx, hc⟩
    refine .inr ⟨by rw [e], ?_, fun log number h => h.append number (by simp [hstored]) fun other d _ => ?_⟩
    · rw [e, giveUp, Workspace.monitor_markModified, Workspace.monitor_update]
      exact (Workspace.Keeps.sendAll _ _ _).notes
    · rw [hup.stores]
      split <;> rename_i hsame <;> simp [hsame]

/-- The recorder that is told about conclusions has the given limit and follows a log that tells what is stored.  If there is
only one worker, the log is in the order of the numbers. -/
structure Pool.Logs (workers : Nat) (limit : Option Nat) (r : Recorder) (log : Log) (p : Pool) : Prop where
  notes : p.workspace.monitor.notes = (some .recorder, some r)
  limited : r.limit = limit
  follows : r.Follows log p.numbered
  tells : log.Tells p.workspace
  inOrder : workers ≤ 1 → p.Sequential log r.seen

namespace Pool.Logs

variable {workers : Nat} {limit : Option Nat} {r : Recorder} {log : Log} {p p' : Pool} {rb : RuleBase} {mode : Mode}

/-- Nothing is recorded, and the same is stored. -/
private theorem keeps (h : Logs workers limit r log p) {w : Workspace} {busy : List ExprId} (hkeeps : p.workspace.Keeps w)
    (halone : workers ≤ 1 → busy.length ≤ 1) (hattended : ∀ entry ∈ p.numbered, entry.2.root ∈ p.busy → entry.2.root ∈ busy) :
    Logs workers limit r log { p with workspace := w, busy } where
  notes := hkeeps.notes.trans h.notes
  limited := h.limited
  follows := h.follows
  tells := h.tells.congr hkeeps.stores
  inOrder hone :=
    have hold := h.inOrder hone
    ⟨halone hone, fun hentry => hattended _ hentry (hold.attended hentry), hold.single, hold.numbers⟩

/-- A worker leaves a context, and nothing is recorded. -/
private theorem leaves (h : Logs workers limit r log p) {w : Workspace} (hkeeps : p.workspace.Keeps w) {root : ExprId}
    (hfree : p.Free root) : Logs workers limit r log { p with workspace := w, busy := p.busy.erase root } :=
  h.keeps hkeeps (fun hone => Nat.le_trans (List.length_erase_le ..) (h.inOrder hone).alone)
    fun entry hentry hbusy => (List.mem_erase_of_ne (hfree.settled entry hentry)).2 hbusy

/-- Whatever a worker does next, the log goes on. -/
theorem move (h : Logs workers limit r log p) (hmove : Move workers rb mode p p') :
    ∃ r' log', Logs workers limit r' log' p' := by
  obtain ⟨hobserver, hrecorder⟩ := Prod.mk.inj h.notes
  have hpicked {root : ExprId} {c : Conclusion} {w₀ : Workspace} (hpick : p.workspace.Picks root c w₀) :
      p.workspace.Keeps w₀ := ⟨congrArg Monitor.notes hpick.monitor, hpick.popped.stores⟩
  cases hmove with
  | look => exact ⟨r, log, h.keeps (.look p.workspace) (fun hone => (h.inOrder hone).alone) fun _ _ => id⟩
  | @take root before after rest hworkers _ _ _ =>
    refine ⟨r, log, h.keeps (w := { p.workspace with active := rest }) ⟨rfl, fun _ _ => Iff.rfl⟩ (fun hone => ?_)
      fun _ _ => List.mem_cons_of_mem _⟩
    rw [List.length_cons]
    omega
  | @finish root hfree _ =>
    exact ⟨r, log, h.leaves (.of_sameWork (.deactivate root) (congrArg Monitor.notes (Workspace.monitor_update root _))) hfree⟩
  | @handBack root hfree =>
    exact ⟨r, log, h.leaves (w := { p.workspace with active := p.workspace.active.push root }) ⟨rfl, fun _ _ => Iff.rfl⟩ hfree⟩
  | @process root c w₀ hfree hpick =>
    obtain e | ⟨-, hnotes, htells⟩ := rb.process_tells mode root c w₀
    · rw [e]
      exact ⟨r, log, h.keeps (hpicked hpick) (fun hone => (h.inOrder hone).alone) fun _ _ => id⟩
    · refine ⟨r.visit ⟨root, c, mode⟩, _, hnotes.trans ?_, (r.limit_visit _).trans h.limited, h.follows.visit ⟨root, c, mode⟩,
        htells log r.seen (h.tells.congr (hpicked hpick).stores), fun hone => ?_⟩
      · simp [Monitor.visit, Monitor.notes, hpick.monitor, hobserver, hrecorder]
      · rw [r.seen_visit]
        exact (h.inOrder hone).visit hfree _
  | @number root c w₀ recorder hfree _ _ _ hrecorder' =>
    obtain rfl : r = recorder := Option.some.inj (hrecorder.symm.trans hrecorder')
    exact ⟨r.number.2, log, Prod.ext hobserver rfl, h.limited, h.follows.number _, h.tells,
      fun hone => (h.inOrder hone).number hfree _⟩
  | @keep number root c w₀ recorder hnumbered hpick hchanges hrecorder' =>
    obtain rfl : r = recorder := Option.some.inj (hrecorder.symm.trans hrecorder')
    obtain e | ⟨-, hnotes, htells⟩ := rb.process_tells mode root c w₀
    · rw [e] at hchanges
      cases hchanges
    · refine ⟨r.keep number ⟨root, c, mode⟩, _, Prod.ext ?_ rfl, (r.limit_keep _ _).trans h.limited, h.follows.keep hnumbered,
        htells log number (h.tells.congr (hpicked hpick).stores), fun hone => ?_⟩
      · refine (congrArg Prod.fst hnotes).trans ?_
        simp [Monitor.visit, Monitor.notes, hpick.monitor, hobserver]
      · rw [r.seen_keep]
        exact (h.inOrder hone).keep hnumbered _

theorem moves (h : Logs workers limit r log p) (hmoves : Moves workers rb mode p p') :
    ∃ r' log', Logs workers limit r' log' p' := by
  induction hmoves with
  | refl => exact ⟨r, log, h⟩
  | tail _ hmove ih =>
    obtain ⟨r', log', hlogs⟩ := ih
    exact hlogs.move hmove

end Pool.Logs

namespace Workspace

/-- A recorder with the given limit is told about conclusions, and what it has been told tells what is stored. -/
def Traced (workers : Nat) (limit : Option Nat) (w : Workspace) : Prop :=
  ∃ r log, Pool.Logs workers limit r log (.idle w)

namespace Traced

variable {workers : Nat} {limit : Option Nat} {w w' : Workspace}

theorem keeps (h : w.Traced workers limit) (hkeeps : w.Keeps w') : w'.Traced workers limit := by
  obtain ⟨r, log, hlogs⟩ := h
  exact ⟨r, log, hkeeps.notes.trans hlogs.notes, hlogs.limited, hlogs.follows, hlogs.tells.congr hkeeps.stores,
    fun hone => ⟨Nat.zero_le 1, nofun, Nat.zero_le 1, (hlogs.inOrder hone).numbers⟩⟩

/-- Where nothing is stored, a recorder may be installed. -/
theorem record (workers : Nat) (limit : Option Nat) (h : ∀ root c, ¬ w.Stores root c) :
    Traced workers limit { w with monitor := w.monitor.record limit } :=
  ⟨.new limit, [], rfl, rfl, .new limit, .nil h, fun _ => ⟨Nat.zero_le 1, nofun, Nat.zero_le 1, rfl⟩⟩

/-- A run is traced, whether it comes to its end or is interrupted. -/
theorem course {rb : RuleBase} {mode : Mode} {result : Option Statistics × Workspace} (h : w.Traced workers limit)
    (hrun : Course workers rb mode w result) : result.2.Traced workers limit := by
  obtain ⟨r, log, hlogs⟩ := h
  have hlooked {w₁ w₂ : Workspace} {raised : Bool} (hmoves : Pool.Moves workers rb mode (.idle w) (.idle w₁))
      (hlook : w₁.look = (raised, w₂)) : w₂.Traced workers limit := by
    obtain rfl : w₁.look.2 = w₂ := by rw [hlook]
    exact keeps (hlogs.moves hmoves) (.look w₁)
  cases hrun with
  | interrupted hmoves hlook => exact hlooked hmoves hlook
  | finished statistics hmoves _ hlook =>
    cases mode with
    | derive => exact (hlooked hmoves hlook).keeps (.of_sameWork .markSaturated rfl)
    | retract => exact hlooked hmoves hlook

end Traced

end Workspace

end ELOntology
