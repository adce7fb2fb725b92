import ELOntology.CommandLine.Run
import ELOntology.File.Tree
import ELOntology.Proofs.File.Writing
import ELOntology.Proofs.Toml.Settings

/-!
# Configurations that are saved

The text of a configuration is a document of settings, so what is read from it is the configuration: each number is written
with its digits, and a limit that is not set has no line and is not set either when its key is missing.  But what is read is
checked and what is written is not.  So a saved configuration is loaded again exactly if a reasoner can run with it, and
`init-config` writes one that cannot be loaded exactly if it is told to use no workers.

Key facts: `Config.load_of_save`, and `saved_config_loads` (with the command line).
-/

namespace ELOntology

open Toml (Setting Spells IsBare settingLine)

namespace Config

variable {c : Config}

/-! ### The text of a configuration -/

private def switchSetting (key : String) (hkey : IsBare key) (b : Bool) : Setting :=
  ⟨key, (if b then "true" else "false").toList, .boolean b, hkey, .switch b⟩

private theorem toList_writeSwitch (key : String) (b : Bool) :
    (writeSwitch key b).toList = settingLine key (if b then "true" else "false").toList := by
  simp [writeSwitch, settingLine, String.toList_append]

private def countSetting (key : String) (hkey : IsBare key) (n : Nat) (hn : n ≤ maxInteger) : Setting :=
  ⟨key, Nat.toDigits 10 n, .integer n, hkey, .digits hn⟩

private theorem le_of_writeCount {key line : String} {n : Nat} (h : writeCount key n = some line) :
    n ≤ maxInteger ∧ line.toList = settingLine key (Nat.toDigits 10 n) := by
  unfold writeCount at h
  split at h
  · rename_i hn
    obtain rfl := Option.some.inj h
    refine ⟨hn, ?_⟩
    simp [settingLine, String.toList_append]
  · cases h

/-- The text of a configuration is a document of settings that make it. -/
private theorem exists_settings {text : String} (h : c.toText? = some text) :
    ∃ settings : List Setting, text = String.ofList (Setting.text settings) ∧ (settings.map (·.key)).Nodup ∧
      ∀ threads, ofToml? threads (Setting.entries settings) = some c := by
  obtain ⟨workers, incremental, validateTaxonomy, traceLimit⟩ := c
  obtain ⟨workersLine, hworkers, h⟩ := Option.bind_eq_some_iff.1 h
  obtain ⟨hworkersMax, hworkersLine⟩ := le_of_writeCount hworkers
  let given : List Setting :=
    [countSetting "workers" (Toml.isBare_of_all (by decide)) workers hworkersMax,
      switchSetting "incremental" (Toml.isBare_of_all (by decide)) incremental,
      switchSetting "validate_taxonomy" (Toml.isBare_of_all (by decide)) validateTaxonomy]
  cases traceLimit with
  | none =>
    refine ⟨given, ?_, by simp [given, countSetting, switchSetting], fun threads => ?_⟩
    · obtain rfl := Option.some.inj h
      apply String.toList_inj.1
      simp [given, Setting.text, String.toList_append, hworkersLine, toList_writeSwitch, countSetting, switchSetting]
    · simp [given, Setting.entries, ofToml?, count?, switch?, Toml.lookup, countSetting, switchSetting]
  | some n =>
    obtain ⟨traceLine, htrace, h⟩ := Option.bind_eq_some_iff.1 h
    obtain ⟨htraceMax, htraceLine⟩ := le_of_writeCount htrace
    refine ⟨given ++ [countSetting "trace_limit" (Toml.isBare_of_all (by decide)) n htraceMax], ?_,
      by simp [given, countSetting, switchSetting], fun threads => ?_⟩
    · obtain rfl := Option.some.inj h
      apply String.toList_inj.1
      simp [given, Setting.text, String.toList_append, hworkersLine, htraceLine, toList_writeSwitch, countSetting, switchSetting]
    · simp [given, Setting.entries, ofToml?, count?, switch?, Toml.lookup, countSetting, switchSetting]

/-- The text of a configuration is read as the configuration, which is then checked. -/
theorem ofText_of_toText? {text : String} (h : c.toText? = some text) (threads : Nat) (path : String) :
    ofText threads path text = c.check.map fun _ => c := by
  obtain ⟨settings, rfl, hnodup, hsettings⟩ := exists_settings h
  rw [ofText, Toml.parse?_settings hnodup, Option.bind_some, hsettings]

/-! ### Saving and loading -/

variable {path : String} {t t' : FileTree}

/-- Loading reads the file and leaves it as it is. -/
private theorem load_eq (threads : Nat) : load FileTree.access threads path t =
    (match t.read path with
      | none => .error (.read path)
      | some text => ofText threads path text, t) := by
  unfold load
  change (match t.read path with
      | none => pure (.error (.read path))
      | some text => pure (ofText threads path text) : StateM FileTree (Except ConfigError Config)) t = _
  cases t.read path <;> rfl

/-- Saving writes the text after it has made the directory. -/
private theorem save_eq : c.save FileTree.access path t =
    (match c.toText?, t.makeDirectory (parentPath path) with
      | none, _ => (.error (.parse path), t)
      | some _, none => (.error (.write (parentPath path)), t)
      | some text, some made =>
        match made.write path text with
        | none => (.error (.write path), made)
        | some written => (.ok (), written)) := by
  unfold save
  cases c.toText? with
  | none => rfl
  | some text =>
    cases hmade : t.makeDirectory (parentPath path) with
    | none =>
      simp [FileTree.access, FileTree.attempt, hmade, bind, StateT.bind]
      rfl
    | some made =>
      cases hwrite : made.write path text with
      | none =>
        simp [FileTree.access, FileTree.attempt, hmade, hwrite, bind, StateT.bind]
        rfl
      | some written =>
        simp [FileTree.access, FileTree.attempt, hmade, hwrite, bind, StateT.bind]
        rfl

private theorem exists_write_of_save (h : c.save FileTree.access path t = (.ok (), t')) :
    ∃ text, ∃ made : FileTree, c.toText? = some text ∧ made.write path text = some t' := by
  rw [save_eq] at h
  split at h
  · cases h
  · cases h
  · rename_i text made htext hmade
    split at h
    · cases h
    · rename_i written hwrite
      exact ⟨text, made, htext, (Prod.mk.inj h).2 ▸ hwrite⟩

/-- A saved configuration is loaded from its file, if it passes the check. -/
theorem load_of_save (h : c.save FileTree.access path t = (.ok (), t')) (threads : Nat) :
    load FileTree.access threads path t' = (c.check.map fun _ => c, t') := by
  obtain ⟨text, made, htext, hwrite⟩ := exists_write_of_save h
  rw [load_eq, FileTree.read_write hwrite]
  exact congrArg (·, t') (ofText_of_toText? htext threads path)

theorem eq_of_load {threads : Nat} {r : Except ConfigError Config} (h : load FileTree.access threads path t = (r, t')) : t' = t := by
  rw [load_eq] at h
  exact (Prod.mk.inj h).2.symm

/-- What is loaded has passed the check. -/
theorem check_of_load {threads : Nat} (h : load FileTree.access threads path t = (.ok c, t')) : c.check = .ok () := by
  rw [load_eq] at h
  have hload := (Prod.mk.inj h).1
  split at hload
  · cases hload
  · unfold ofText at hload
    split at hload
    · cases hload
    · rename_i c' _
      cases hcheck : c'.check with
      | error e =>
        rw [hcheck] at hload
        cases hload
      | ok u =>
        rw [hcheck] at hload
        cases hload
        exact hcheck

theorem check_eq_ok : c.check = .ok () ↔ c.workers ≠ 0 ∧ c.traceLimit ≠ some 0 := by
  unfold check
  by_cases hworkers : c.workers = 0
  · simp [hworkers]
  · by_cases htrace : c.traceLimit = some 0 <;> simp [hworkers, htrace]

end Config

namespace CommandLine

variable {i : Invocation} {c : Config} {t t' : FileTree} {threads : Nat}

/-- What a run does first has succeeded if the run has. -/
private theorem exists_of_bind {α β : Type} {x : ExceptT Failure (StateM FileTree) α}
    {f : α → ExceptT Failure (StateM FileTree) β} {b : β} (h : (x >>= f).run t = (.ok b, t')) :
    ∃ a t₁, x.run t = (.ok a, t₁) ∧ (f a).run t₁ = (.ok b, t') := by
  rw [ExceptT.run_bind] at h
  cases hx : x.run t with
  | mk r t₁ =>
    change StateT.bind (ExceptT.run x) _ t = _ at h
    rw [StateT.bind, hx] at h
    cases r with
    | error e => cases h
    | ok a => exact ⟨a, t₁, rfl, h⟩

/-- A failure that is passed on is a failure. -/
private theorem of_adapt {α ε : Type} {x : StateM FileTree (Except ε α)} {f : ε → Failure} {a : α}
    (h : ((ExceptT.mk x).adapt f).run t = (.ok a, t')) : x t = (.ok a, t') := by
  change (match x t with
    | (r, t₁) => (r.mapError f, t₁)) = _ at h
  cases hx : x t with
  | mk r t₁ =>
    rw [hx] at h
    cases r with
    | error e => cases h
    | ok a' => 
      cases h
      rfl

/-- A run takes the configuration that is loaded, or the standard one, with the number of workers that it is told. -/
private theorem configured_eq : configured FileTree.access threads i =
    (i.config.elim (pure (.standard threads)) fun path =>
      (ExceptT.mk (Config.load FileTree.access threads path)).adapt fun e => .reasoner (.config e)) >>=
    fun c => pure { c with workers := i.workers.getD c.workers } := by
  unfold configured
  cases i.config <;> cases i.workers <;> rfl

/-- The configuration of a run can be used, unless the command line says to use no workers. -/
private theorem check_of_configured (hthreads : 0 < threads)
    (h : (configured FileTree.access threads i).run t = (.ok c, t')) :
    t' = t ∧ c.check = if i.workers = some 0 then .error .noWorkers else .ok () := by
  rw [configured_eq] at h
  obtain ⟨base, t₁, hbase, h⟩ := exists_of_bind h
  cases h
  have hchecked : t' = t ∧ base.check = .ok () := by
    cases hconfig : i.config with
    | none =>
      rw [hconfig] at hbase
      cases hbase
      exact ⟨rfl, Config.check_eq_ok.2 ⟨Nat.ne_of_gt hthreads, by simp [Config.standard]⟩⟩
    | some path =>
      rw [hconfig] at hbase
      have hload := of_adapt hbase
      exact ⟨Config.eq_of_load hload, Config.check_of_load hload⟩
  obtain ⟨rfl, hcheck⟩ := hchecked
  refine ⟨rfl, ?_⟩
  cases hworkers : i.workers with
  | none => simpa using hcheck
  | some workers =>
    obtain ⟨-, htrace⟩ := Config.check_eq_ok.1 hcheck
    by_cases hzero : workers = 0
    · simp [Config.check, hzero]
    · simp [Config.check, hzero, htrace]

/-- A run of `init-config` that goes well saves the configuration of the run. -/
private theorem save_of_run {arguments : List String} {out : String} {outcome : Outcome} (hparse : parse arguments = .ok i)
    (hcommand : i.command = .initConfig out) (hrun : run FileTree.access threads arguments t = (outcome, t'))
    (hexit : outcome.exit = 0) :
    ∃ c t₁, (configured FileTree.access threads i).run t = (.ok c, t₁) ∧ c.save FileTree.access out t₁ = (.ok (), t') := by
  unfold run at hrun
  rw [hparse] at hrun
  dsimp only at hrun
  rw [hcommand] at hrun
  change StateT.bind _ _ t = _ at hrun
  rw [StateT.bind] at hrun
  cases hresult : (configured FileTree.access threads i >>= fun c => execute FileTree.access c (.initConfig out)).run t with
  | mk result t₂ =>
    rw [hresult] at hrun
    cases hrun
    cases result with
    | error failure => cases hexit
    | ok output =>
      obtain ⟨c, t₁, hconfigured, hexecute⟩ := exists_of_bind hresult
      obtain ⟨u, t₃, hsave, houtput⟩ := exists_of_bind hexecute
      cases houtput
      exact ⟨c, t₁, hconfigured, of_adapt hsave⟩

end CommandLine

/-- A configuration that was saved is loaded if a reasoner can run with it, and refused if not.  In particular the file that
`init-config` writes is refused if the command line says to use no workers, and otherwise gives back, on any machine, the
configuration of the run that wrote it. -/
theorem saved_config_loads (t t' : FileTree) (threads : Nat) :
    (∀ (c : Config) (path : String), c.save FileTree.access path t = (.ok (), t') →
      Config.load FileTree.access threads path t' = (c.check.map fun _ => c, t')) ∧
    ∀ (arguments : List String) (i : CommandLine.Invocation) (out : String) (outcome : CommandLine.Outcome) (threads₀ : Nat),
      0 < threads₀ → CommandLine.parse arguments = .ok i → i.command = .initConfig out →
      CommandLine.run FileTree.access threads₀ arguments t = (outcome, t') → outcome.exit = 0 →
      ∃ c, (CommandLine.configured FileTree.access threads₀ i).run t = (.ok c, t) ∧
        Config.load FileTree.access threads out t' = (if i.workers = some 0 then .error .noWorkers else .ok c, t') := by
  refine ⟨fun c path h => Config.load_of_save h threads, ?_⟩
  intro arguments i out outcome threads₀ hthreads hparse hcommand hrun hexit
  obtain ⟨c, t₁, hconfigured, hsave⟩ := CommandLine.save_of_run hparse hcommand hrun hexit
  obtain ⟨rfl, hcheck⟩ := CommandLine.check_of_configured hthreads hconfigured
  refine ⟨c, hconfigured, ?_⟩
  rw [Config.load_of_save hsave, hcheck]
  by_cases hzero : i.workers = some 0
  · simp [hzero, Except.map]
  · simp [hzero, Except.map]

/-- A configuration with a limit is loaded from a directory made for it, and one for no workers is not. -/
theorem saved_config_loads_nested :
    let t : FileTree := ⟨["work"], [], []⟩
    let c : Config := ⟨2, false, true, some 100⟩
    let saved := (c.save FileTree.access "nested/reasoner.toml" t).2
    let i : CommandLine.Invocation := ⟨none, some 0, .initConfig "el-classifier.toml"⟩
    let written := (CommandLine.run FileTree.access 4 ["init-config", "--workers", "0"] t).2
    (c.save FileTree.access "nested/reasoner.toml" t = (.ok (), saved) ∧
      Config.load FileTree.access 4 "nested/reasoner.toml" saved = (.ok c, saved)) ∧
    (0 < 4 ∧ CommandLine.parse ["init-config", "--workers", "0"] = .ok i ∧
      (CommandLine.run FileTree.access 4 ["init-config", "--workers", "0"] t).1.exit = 0 ∧
      Config.load FileTree.access 8 "el-classifier.toml" written = (.error .noWorkers, written)) := by
  intro t c saved i written
  have hsave : c.save FileTree.access "nested/reasoner.toml" t = (.ok (), saved) := by rfl
  have hparse : CommandLine.parse ["init-config", "--workers", "0"] = .ok i := by rfl
  have hexit : (CommandLine.run FileTree.access 4 ["init-config", "--workers", "0"] t).1.exit = 0 := by decide +kernel
  refine ⟨⟨hsave, (saved_config_loads t saved 4).1 c _ hsave⟩, by decide, hparse, hexit, ?_⟩
  obtain ⟨_, -, hload⟩ := (saved_config_loads t written 8).2 ["init-config", "--workers", "0"] i "el-classifier.toml" _ 4
    (by decide) hparse rfl rfl hexit
  exact hload

end ELOntology
