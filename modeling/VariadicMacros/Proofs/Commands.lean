/-
**What commands do to a directory.**

Resolving the settings only reads, and depends on nothing but the configuration file; everything
else that a command does besides replacing the output writes to the log at most.  So a command that
does not write a header leaves the directory as it is but for the log.

Main definitions:

* `VariadicMacros.Directory.logged` — a directory with more text in its log;
* `VariadicMacros.Action.OnlyLogs` — a part of a run writes to the log at most;
* `VariadicMacros.HeaderArguments.settingsIn` — the settings that arguments have in a directory;
* `VariadicMacros.Request.opening` — the directory that the command of a request finds.

Main results:

* `VariadicMacros.Action.run_resolve` — resolving settings only reads;
* `VariadicMacros.HeaderArguments.settingsIn_congr` — **settings depend on the configuration file
  only**;
* `VariadicMacros.Command.onlyLogs` — **commands that write no header write to the log at most**.
-/

import VariadicMacros.CommandLine.Run
import VariadicMacros.Proofs.ReplacedFiles

set_option autoImplicit false

namespace VariadicMacros

/-! ### Logs -/

namespace Directory

/-- The directory with more text in the log, if there is one. -/
def logged (d : Directory) (log : Option Place) (text : String) : Directory :=
  match log with
  | none => d
  | some p => d.append p text

theorem append_empty (d : Directory) (p : Place) : d.append p "" = d := by
  refine Std.ExtTreeMap.ext_getElem? fun path => ?_
  unfold append
  split
  · next content h =>
    rw [entry?_eq (isFixed_of_entry?_ne (d := d) (by simp [h]))] at h
    rw [getElem?_put]
    split
    · next heq => rw [← heq, h, String.append_empty]
    · rfl
  · rfl

theorem append_append (d : Directory) (p : Place) (s t : String) :
    (d.append p s).append p t = d.append p (s ++ t) := by
  cases h : d.entry? p with
  | none => simp [append, h]
  | some e =>
      cases e with
      | folder => simp [append, h]
      | sink => simp [append, h]
      | file content =>
          have hp := isFixed_of_entry?_ne (d := d) (p := p) (by simp [h])
          have hagain :
              entry? (d.put p (.file (content ++ s))) p = some (.file (content ++ s)) := by
            rw [entry?_eq hp, getElem?_put, if_pos rfl]
          simp only [append, h, hagain, String.append_assoc]
          refine Std.ExtTreeMap.ext_getElem? fun path => ?_
          rw [getElem?_put, getElem?_put, getElem?_put]
          split <;> rfl

@[simp] theorem logged_empty (d : Directory) (log : Option Place) : d.logged log "" = d := by
  cases log with
  | none => rfl
  | some p => exact append_empty d p

@[simp] theorem logged_logged (d : Directory) (log : Option Place) (s t : String) :
    (d.logged log s).logged log t = d.logged log (s ++ t) := by
  cases log with
  | none => rfl
  | some p => exact append_append d p s t

theorem sameShape_logged (d : Directory) (log : Option Place) (text : String) :
    SameShape d (d.logged log text) := by
  cases log with
  | none => exact .refl d
  | some p => exact sameShape_append d p text

theorem getElem?_logged {d : Directory} {log : Option Place} {path : String}
    (h : ∀ p ∈ log, p.path ≠ path) (text : String) : (d.logged log text)[path]? = d[path]? := by
  cases log with
  | none => rfl
  | some p => exact getElem?_append_of_ne (h p rfl) text

/-- A file that was replaced is found with its new content, also when a log at another place goes
on. -/
theorem found_of_replace {d e : Directory} {host : Host} {path content : String} {p : Place}
    (hsink : ∀ t, d.temporary? host path = some t → d[t.path]? ≠ some .sink)
    (h : d.replace host path content = (e, .ok p)) (log : Option Place) (text : String) :
    (e.logged (log.filter (·.path != p.path)) text).locate path = .ok p ∧
      (e.logged (log.filter (·.path != p.path)) text)[p.path]? = some (.file content) := by
  obtain ⟨hlocate, hcontent, -, -⟩ := locate_of_replace hsink h
  have hother : ∀ q ∈ log.filter (·.path != p.path), q.path ≠ p.path := by
    intro q hq
    simpa using (Option.mem_filter_iff.1 hq).2
  rw [getElem?_logged hother]
  exact ⟨(sameShape_logged e _ text).keepsFolders.locate hlocate, hcontent⟩

end Directory

/-! ### Parts of a run that write to the log at most -/

/-- One world goes on from another with more in the log and something printed. -/
def World.Extends (w w' : World) : Prop :=
  ∃ text output, w' = { w with directory := w.directory.logged w.log text, output := output }

theorem World.Extends.refl (w : World) : w.Extends w := ⟨"", w.output, by simp⟩

theorem World.Extends.trans {w w' w'' : World} (h : w.Extends w') (h' : w'.Extends w'') :
    w.Extends w'' := by
  obtain ⟨text, output, rfl⟩ := h
  obtain ⟨text', output', rfl⟩ := h'
  exact ⟨text ++ text', output', by simp⟩

namespace Action

/-- A part of a run writes to the log at most, and it is not refused. -/
def OnlyLogs {α : Type} (x : Action α) : Prop :=
  ∀ w, match x.run w with
    | .ok _ w' => w.Extends w'
    | .error failure w' => failure ≠ .usage ∧ w.Extends w'

namespace OnlyLogs

variable {α β : Type}

theorem pure (a : α) : OnlyLogs (pure a) := fun w => .refl w

theorem throw {failure : Failure} (h : failure ≠ .usage) :
    OnlyLogs (throw failure : Action α) := fun w => ⟨h, .refl w⟩

theorem get : OnlyLogs get := fun w => .refl w

theorem bind {x : Action α} {f : α → Action β} (hx : OnlyLogs x) (hf : ∀ a, OnlyLogs (f a)) :
    OnlyLogs (x >>= f) := by
  intro w
  have hxw := hx w
  rw [EStateM.run_bind]
  cases hrun : x.run w with
  | error failure w' =>
      rw [hrun] at hxw
      exact hxw
  | ok a w' =>
      rw [hrun] at hxw
      have hfw := hf a w'
      cases hrun' : (f a).run w' with
      | error failure w'' =>
          rw [hrun'] at hfw
          simp only [hrun']
          exact ⟨hfw.1, hxw.trans hfw.2⟩
      | ok b w'' =>
          rw [hrun'] at hfw
          simp only [hrun']
          exact hxw.trans hfw

theorem orFail {ε : Type} {failure : ε → Failure} (h : ∀ e, failure e ≠ .usage)
    (result : Except ε α) : OnlyLogs (orFail failure result) := by
  cases result with
  | error e => exact throw (h e)
  | ok a => exact pure a

theorem print (text : String) : OnlyLogs (print text) :=
  fun w => ⟨"", w.output ++ text, by rw [Directory.logged_empty]⟩

theorem report (r : Record) : OnlyLogs (report r) := by
  intro w
  change w.Extends (match w.log with
    | none => w
    | some p =>
      if w.threshold.admits r.level then
        { w with directory := w.directory.append p (r.line w.time) }
      else w)
  split
  · exact .refl w
  · next p hp =>
    split
    · exact ⟨r.line w.time, w.output, by rw [hp]; rfl⟩
    · exact .refl w

theorem reportAll (rs : List Record) : OnlyLogs (reportAll rs) := by
  induction rs with
  | nil => exact pure ()
  | cons r rest ih => exact bind (report r) fun _ => ih

theorem readFile (path : String) : OnlyLogs (readFile path) :=
  bind get fun w => orFail (by simp) _

theorem readConfig (named : Option String) : OnlyLogs (readConfig named) := by
  refine bind get fun w => ?_
  split
  · exact pure _
  · refine bind (readFile _) fun text => ?_
    split
    · exact throw (by simp)
    · exact pure _

theorem resolve (a : HeaderArguments) : OnlyLogs (resolve a) :=
  bind (readConfig _) fun _ => bind (orFail (by simp) _) fun _ => pure _

theorem renderHeader (o : Options) : OnlyLogs (renderHeader o) :=
  bind get fun _ => bind (orFail (by simp) _) fun _ => bind (reportAll _) fun _ => pure _

theorem loaded (l : Loading) : OnlyLogs (loaded l) :=
  bind (reportAll _) fun _ => bind (orFail (by simp) _) fun _ => pure _

theorem defineAll (table : MacroTable) (definitions : List String) :
    OnlyLogs (defineAll table definitions) := by
  induction definitions generalizing table with
  | nil => exact pure _
  | cons definition rest ih => exact bind (loaded _) fun table => ih table

theorem readHeader (path : String) : OnlyLogs (readHeader path) := by
  refine bind get fun w => ?_
  split
  · exact pure _
  · exact throw (by simp)
  · exact throw (by simp)

theorem check (a : HeaderArguments) : OnlyLogs (check a) := by
  refine bind (resolve a) fun settings => bind (readHeader _) fun existing =>
    bind (renderHeader _) fun text => bind (report _) fun _ => ?_
  split
  · exact throw (by simp)
  · exact bind (report _) fun _ => print _

theorem macroSource (a : HeaderArguments) (source : Option String) :
    OnlyLogs (macroSource a source) := by
  cases source with
  | some path => exact readFile path
  | none => exact bind (resolve a) fun settings => renderHeader _

theorem expand (a : HeaderArguments) (source : Option String) (definitions : List String)
    (text : String) : OnlyLogs (expand a source definitions text) :=
  bind (macroSource a source) fun _ => bind (loaded _) fun table => bind (defineAll table _)
    fun _ => bind (report _) fun _ => bind (orFail (fun _ => by simp) _) fun _ =>
    bind (report _) fun _ => print _

theorem surface (a : HeaderArguments) (json : Bool) : OnlyLogs (surface a json) := by
  refine bind (resolve a) fun settings => ?_
  split
  · exact print _
  · exact print _

theorem generated (a : HeaderArguments) : OnlyLogs (generated a) :=
  bind (resolve a) fun _ => bind (report _) fun _ => bind (renderHeader _) fun _ => pure _

/-- A header that is printed changes the log only. -/
theorem generate (a : HeaderArguments) : OnlyLogs (generate a true) :=
  bind (generated a) fun _ => print _

end OnlyLogs

end Action

/-- Whether a command writes a header to its output. -/
def Command.writesHeader : Command → Bool
  | .generate _ toStdout => !toStdout
  | .check _ => false
  | .expand _ _ _ _ => false
  | .surface _ _ => false

/-- **Commands that write no header write to the log at most.** -/
theorem Command.onlyLogs {c : Command} (h : c.writesHeader = false) : c.run.OnlyLogs := by
  cases c with
  | generate a toStdout =>
      cases toStdout with
      | false => cases h
      | true => exact .generate a
  | check a => exact .check a
  | expand a source definitions text => exact .expand a source definitions text
  | surface a json => exact .surface a json

/-! ### Reading a configuration -/

namespace Directory

theorem enter_ne_isAFolder (d : Directory) (p : Place) (component : String) :
    d.enter p component ≠ .error .isAFolder := by
  unfold enter
  split
  · simp
  · simp
  · simp
  · split
    · simp
    · split
      · simp
      · split <;> simp

theorem follow_ne_isAFolder (d : Directory) (p : Place) (names : List String) :
    d.follow p names ≠ .error .isAFolder := by
  induction names generalizing p with
  | nil => simp [follow]
  | cons component rest ih =>
      rw [follow]
      split
      · next fault henter =>
        intro heq
        cases heq
        exact enter_ne_isAFolder d p component henter
      · next next _ => exact ih next

theorem locate_ne_isAFolder (d : Directory) (path : String) :
    d.locate path ≠ .error .isAFolder := by
  unfold locate
  split
  · simp
  · split
    · simp
    · split
      · simp
      · exact follow_ne_isAFolder d _ _

/-- Whether a path leads to something can be told by reading it. -/
theorem holds_eq (d : Directory) (path : String) :
    d.holds path =
      match d.read path with
      | .ok _ => true
      | .error fault => decide (fault = .isAFolder) := by
  unfold holds read
  cases hlocate : d.locate path with
  | error fault =>
      have hfault : fault ≠ .isAFolder := by
        rintro rfl
        exact locate_ne_isAFolder d path hlocate
      simp [hfault]
  | ok p =>
      simp only
      rcases d.entry? p with _ | _ | _ | _ <;> simp

/-- A path that leads to a place reads the same once folders are added, as long as the entry at the
place is the same. -/
theorem KeepsFolders.read_eq {d e : Directory} (h : KeepsFolders d e) {path : String} {p : Place}
    (hlocate : d.locate path = .ok p) (hp : e[p.path]? = d[p.path]?) :
    e.read path = d.read path := by
  have hentry : e.entry? p = d.entry? p := by simp only [Directory.entry?, hp]
  rw [read, read, hlocate, h.locate hlocate]
  simp only [hentry]

theorem read_of_locate {d : Directory} {path content : String} {p : Place}
    (hlocate : d.locate path = .ok p) (hp : p.isFixed = false)
    (hcontent : d[p.path]? = some (.file content)) : d.read path = .ok content := by
  rw [read, hlocate]
  simp only [entry?_eq hp, hcontent]

end Directory

/-- The configuration file that arguments name, or else the default one. -/
def HeaderArguments.configPath (a : HeaderArguments) : String := a.config.getD defaultConfig

/-- What the configuration file of arguments sets in a directory. -/
def HeaderArguments.configIn (a : HeaderArguments) (d : Directory) : Except Failure ConfigFile :=
  if a.config.isNone && !d.holds a.configPath then .ok {}
  else
    match d.read a.configPath with
    | .error fault => .error (.file fault)
    | .ok text =>
      match ConfigFile.ofText? text with
      | none => .error (.config a.configPath)
      | some f => .ok f

/-- The settings that arguments have in a directory, if their options are accepted. -/
def HeaderArguments.settingsIn (a : HeaderArguments) (d : Directory) : Except Failure Settings :=
  match a.configIn d with
  | .error failure => .error failure
  | .ok f =>
    match (Settings.combine a f).options.check with
    | .error e => .error (.header e)
    | .ok () => .ok (Settings.combine a f)

/-- **Settings depend on the configuration file only.** -/
theorem HeaderArguments.settingsIn_congr {a : HeaderArguments} {d e : Directory}
    (h : d.read a.configPath = e.read a.configPath) : a.settingsIn d = a.settingsIn e := by
  simp only [settingsIn, configIn, Directory.holds_eq, h]

theorem HeaderArguments.settingsIn_ne_usage {a : HeaderArguments} {d : Directory}
    {failure : Failure} (h : a.settingsIn d = .error failure) : failure ≠ .usage := by
  rintro rfl
  unfold settingsIn at h
  split at h
  · next failure hconfig =>
    cases h
    unfold configIn at hconfig
    split at hconfig
    · cases hconfig
    · split at hconfig
      · cases hconfig
      · split at hconfig <;> cases hconfig
  · split at h <;> cases h

/-- Settings are the arguments over a configuration file, with options that are accepted. -/
theorem HeaderArguments.config_of_settingsIn {a : HeaderArguments} {d : Directory} {s : Settings}
    (h : a.settingsIn d = .ok s) :
    ∃ f, a.configIn d = .ok f ∧ s = Settings.combine a f ∧ s.options.check = .ok () := by
  unfold settingsIn at h
  split at h
  · cases h
  · next f hconfig =>
    split at h
    · cases h
    · next hcheck =>
      cases h
      exact ⟨f, hconfig, rfl, hcheck⟩

theorem HeaderArguments.check_of_settingsIn {a : HeaderArguments} {d : Directory} {s : Settings}
    (h : a.settingsIn d = .ok s) : s.options.check = .ok () := by
  obtain ⟨-, -, -, hcheck⟩ := config_of_settingsIn h
  exact hcheck

/-- Where settings are resolved the path of the configuration file leads somewhere, also when there
is no file. -/
theorem HeaderArguments.exists_locate_of_settingsIn {a : HeaderArguments} {d : Directory}
    {s : Settings} (h : a.settingsIn d = .ok s) : ∃ p, d.locate a.configPath = .ok p := by
  obtain ⟨f, hconfig, -⟩ := config_of_settingsIn h
  unfold configIn at hconfig
  split at hconfig
  · next habsent =>
    rw [Bool.and_eq_true, Option.isNone_iff_eq_none] at habsent
    rw [configPath, habsent.1]
    exact ⟨["vaforge.toml"], rfl⟩
  · cases hread : d.read a.configPath with
    | error fault =>
        rw [hread] at hconfig
        cases hconfig
    | ok text =>
        rw [Directory.read] at hread
        cases hlocate : d.locate a.configPath with
        | error fault =>
            rw [hlocate] at hread
            cases hread
        | ok p => exact ⟨p, rfl⟩

/-- An output that is given is not looked up. -/
theorem HeaderArguments.out_of_settingsIn {a : HeaderArguments} {d : Directory} {s : Settings}
    {out : String} (h : a.settingsIn d = .ok s) (hout : a.out = some out) : s.out = out := by
  obtain ⟨f, -, rfl, -⟩ := config_of_settingsIn h
  simp [Settings.combine, hout]

namespace Action

theorem run_orFail {ε α : Type} (failure : ε → Failure) (result : Except ε α) (w : World) :
    (orFail failure result).run w =
      match result with
      | .ok a => .ok a w
      | .error e => .error (failure e) w := by
  cases result <;> rfl

/-- A result of a run that leaves the world as it is. -/
def still {α : Type} (w : World) : Except Failure α → EStateM.Result Failure World α
  | .ok a => .ok a w
  | .error failure => .error failure w

theorem run_readConfig (a : HeaderArguments) (w : World) :
    (readConfig a.config).run w = still w (a.configIn w.directory) := by
  have hread : readConfig a.config = (do
      let w ← get
      if a.config.isNone && !w.directory.holds a.configPath then return {}
      else do
        let text ← readFile a.configPath
        match ConfigFile.ofText? text with
        | none => throw (.config a.configPath)
        | some f => return f) := rfl
  rw [hread, EStateM.run_bind, EStateM.run_get, HeaderArguments.configIn]
  simp only
  split
  · rfl
  · rw [EStateM.run_bind, readFile, EStateM.run_bind, EStateM.run_get]
    simp only [run_orFail]
    cases w.directory.read a.configPath with
    | error fault => rfl
    | ok text =>
        simp only
        cases ConfigFile.ofText? text <;> rfl

/-- Resolving settings only reads. -/
theorem run_resolve (a : HeaderArguments) (w : World) :
    (resolve a).run w = still w (a.settingsIn w.directory) := by
  rw [resolve, EStateM.run_bind, run_readConfig, HeaderArguments.settingsIn]
  cases a.configIn w.directory with
  | error failure => rfl
  | ok f =>
      simp only [still, EStateM.run_bind, run_orFail]
      cases (Settings.combine a f).options.check <;> rfl

/-! ### Writing a header -/

theorem exists_run_report (r : Record) (w : World) :
    ∃ w', (report r).run w = .ok () w' ∧ w.Extends w' := by
  have hlogs := OnlyLogs.report r w
  cases hrun : (report r).run w with
  | ok a w' =>
      rw [hrun] at hlogs
      exact ⟨w', rfl, hlogs⟩
  | error failure w' => cases hrun

theorem exists_run_reportAll (rs : List Record) (w : World) :
    ∃ w', (reportAll rs).run w = .ok () w' ∧ w.Extends w' := by
  induction rs generalizing w with
  | nil => exact ⟨w, rfl, .refl w⟩
  | cons r rest ih =>
      obtain ⟨w', hrun, hw'⟩ := exists_run_report r w
      obtain ⟨w'', hrun', hw''⟩ := ih w'
      refine ⟨w'', ?_, hw'.trans hw''⟩
      rw [reportAll, EStateM.run_bind, hrun]
      exact hrun'

/-- Generating a header for accepted options does not fail. -/
theorem exists_run_renderHeader {o : Options} {text : String} {w : World}
    (h : Header.render o w.time = .ok text) :
    ∃ w', (renderHeader o).run w = .ok text w' ∧ w.Extends w' := by
  obtain ⟨w', hrun, hw'⟩ := exists_run_reportAll (Record.ofRendering o) w
  refine ⟨w', ?_, hw'⟩
  rw [renderHeader, EStateM.run_bind, EStateM.run_get]
  simp only [EStateM.run_bind, run_orFail, h, hrun]
  rfl

/-- Options that are accepted give a header at every time. -/
theorem exists_render {o : Options} (h : o.check = .ok ()) (time : Timestamp) :
    ∃ text, Header.render o time = .ok text :=
  ⟨_, Header.write_eq_ok_of_check h time.text⟩

/-- Generating a header fails only where the settings cannot be resolved. -/
theorem generated_cases (a : HeaderArguments) (w : World) :
    (∃ failure, a.settingsIn w.directory = .error failure ∧
      (generated a).run w = .error failure w) ∨
      ∃ settings text w', a.settingsIn w.directory = .ok settings ∧
        Header.render settings.options w.time = .ok text ∧ w.Extends w' ∧
        (generated a).run w = .ok (settings, text) w' := by
  rw [generated, EStateM.run_bind, run_resolve]
  cases hsettings : a.settingsIn w.directory with
  | error failure => exact .inl ⟨failure, rfl, rfl⟩
  | ok settings =>
      obtain ⟨text, hrender⟩ := exists_render (HeaderArguments.check_of_settingsIn hsettings) w.time
      obtain ⟨w₀, hstart, hw₀⟩ := exists_run_report (Record.event "generation_started"
        [("max_arity", .number settings.options.bound), ("prefix", .text settings.options.stem)]) w
      have htime : w₀.time = w.time := by
        obtain ⟨_, _, rfl⟩ := hw₀
        rfl
      obtain ⟨w', htext, hw'⟩ := exists_run_renderHeader (htime ▸ hrender)
      refine .inr ⟨settings, text, w', rfl, hrender, hw₀.trans hw', ?_⟩
      simp only [still, EStateM.run_bind, hstart, htext, EStateM.run_pure]

section ReplaceFile

variable {path content : String} {w : World} {e : Directory}

theorem run_replaceFile_error {fault : PathFault}
    (h : w.directory.replace w.host path content = (e, .error fault)) :
    (replaceFile path content).run w = .error (.file fault) { w with directory := e } := by
  rw [replaceFile, EStateM.run_bind, EStateM.run_get]
  simp only [h]
  rfl

theorem run_replaceFile_ok {p : Place}
    (h : w.directory.replace w.host path content = (e, .ok p)) :
    (replaceFile path content).run w =
      .ok () { w with directory := e, log := w.log.filter (·.path != p.path) } := by
  rw [replaceFile, EStateM.run_bind, EStateM.run_get]
  simp only [h]
  rfl

end ReplaceFile

/-- A header is put at its place, after which only the log is written to, or it is not. -/
theorem writeHeader_cases (path text : String) (w : World) :
    (∃ e fault, w.directory.replace w.host path text = (e, .error fault) ∧
      (writeHeader path text).run w = .error (.file fault) { w with directory := e }) ∨
      ∃ e p w', w.directory.replace w.host path text = (e, .ok p) ∧
        World.Extends { w with directory := e, log := w.log.filter (·.path != p.path) } w' ∧
        (writeHeader path text).run w = .ok () w' := by
  rw [writeHeader, EStateM.run_bind]
  rcases hreplace : w.directory.replace w.host path text with ⟨e, fault | p⟩
  · rw [run_replaceFile_error hreplace]
    exact .inl ⟨e, fault, rfl, rfl⟩
  · obtain ⟨w', hrun, hw'⟩ := exists_run_report (Record.event "header_written"
      [("path", .text path), ("bytes", .number text.utf8ByteSize),
        ("fingerprint", .text (Header.fingerprint text))])
      { w with directory := e, log := w.log.filter (·.path != p.path) }
    rw [run_replaceFile_ok hreplace]
    exact .inr ⟨e, p, w', rfl, hw', hrun⟩

/-- How writing a header ends: the settings are not resolved, or the header is not put at its
place, or it is. -/
theorem generate_cases (a : HeaderArguments) (w : World) :
    (∃ failure, a.settingsIn w.directory = .error failure ∧
      (generate a false).run w = .error failure w) ∨
      ∃ settings text record, a.settingsIn w.directory = .ok settings ∧
        Header.render settings.options w.time = .ok text ∧
        ((∃ e fault w', (w.directory.logged w.log record).replace w.host settings.out text =
            (e, .error fault) ∧ (generate a false).run w = .error (.file fault) w' ∧
            w'.directory = e) ∨
          ∃ e p w' record', (w.directory.logged w.log record).replace w.host settings.out text =
            (e, .ok p) ∧ (generate a false).run w = .ok () w' ∧
            w'.directory = e.logged (w.log.filter (·.path != p.path)) record') := by
  have hrun : (generate a false).run w =
      (generated a >>= fun header => writeHeader header.1.out header.2).run w := rfl
  rw [EStateM.run_bind] at hrun
  rcases generated_cases a w with ⟨failure, hsettings, h⟩ |
    ⟨settings, text, w₁, hsettings, hrender, ⟨record, output, rfl⟩, h⟩
  · rw [h] at hrun
    exact .inl ⟨failure, hsettings, hrun⟩
  · rw [h] at hrun
    simp only at hrun
    refine .inr ⟨settings, text, record, hsettings, hrender, ?_⟩
    rw [hrun]
    rcases writeHeader_cases settings.out text
        { w with directory := w.directory.logged w.log record, output := output } with
      ⟨e, fault, hreplace, hw⟩ | ⟨e, p, w', hreplace, ⟨record', output', rfl⟩, hw⟩
    · rw [hw]
      exact .inl ⟨e, fault, _, hreplace, rfl, rfl⟩
    · rw [hw]
      exact .inr ⟨e, p, _, record', hreplace, rfl, rfl⟩

end Action

/-! ### Whole runs -/

namespace Request

/-- The log that a request opens, if it asks for one, and the directory that its command finds. -/
def opening (r : Request) (d : Directory) : Except PathFault (Option Place × Directory) :=
  match r.logFile with
  | none => .ok (none, d)
  | some path =>
    match d.openForAppend path with
    | .error fault => .error fault
    | .ok (p, e) => .ok (some p, e)

/-- A log whose path leads to a place where nothing is. -/
theorem opening_of_entry?_eq_none {r : Request} {d : Directory} {path name : String} {p : Place}
    (hlog : r.logFile = some path) (hlocate : d.locate path = .ok p) (hnone : d.entry? p = none)
    (hname : (Directory.components path).getLast? = some name) (hne : name ≠ "") :
    r.opening d = .ok (some p, d.put p (.file "")) := by
  simp [opening, Directory.openForAppend, hlog, hlocate, hnone, hname, hne]

/-- The log is not at a fixed place, and opening it makes at most an empty file there. -/
theorem opening_cases {r : Request} {d e : Directory} {log : Option Place}
    (h : r.opening d = .ok (log, e)) :
    (∀ p ∈ log, p.isFixed = false) ∧
      (e = d ∨ ∃ p ∈ log, d[p.path]? = none ∧ e = d.put p (.file "")) := by
  unfold opening at h
  split at h
  · cases h
    exact ⟨by simp, .inl rfl⟩
  · split at h
    · cases h
    · next p f hopen =>
      cases h
      obtain ⟨hfixed, hcases⟩ := Directory.openForAppend_cases hopen
      refine ⟨by simpa using hfixed, ?_⟩
      rcases hcases with rfl | ⟨hnone, rfl⟩
      · exact .inl rfl
      · exact .inr ⟨p, rfl, hnone, rfl⟩

theorem run_run (r : Request) {w : World} (hw : w.log = none) :
    r.run.run w =
      match r.opening w.directory with
      | .error fault => .error (.file fault) w
      | .ok (log, e) => r.command.run.run { w with directory := e, log := log } := by
  have hrun : r.run = (match r.logFile with
      | none => r.command.run
      | some path => Action.openLog path >>= fun _ => r.command.run) := by
    unfold run
    cases r.logFile <;> rfl
  rw [hrun, opening]
  cases r.logFile with
  | none =>
      simp only [← hw]
  | some path =>
      simp only
      rw [EStateM.run_bind, Action.openLog, EStateM.run_bind, EStateM.run_get]
      simp only [EStateM.run_bind, Action.run_orFail]
      cases w.directory.openForAppend path <;> rfl

end Request

/-- A run of a request opens its log and carries out its command. -/
theorem runOn_eq {arguments : List String} {r : Request} (h : Request.parse arguments = .ok r)
    (host : Directory.Host) (time : Timestamp) (d : Directory) :
    runOn host arguments time d =
      match r.opening d with
      | .error fault => ⟨some (.file fault), "", d⟩
      | .ok (log, e) => Outcome.ofResult
          (r.command.run.run ⟨host, time, e, log, Level.ofVerbosity r.verbosity, ""⟩) := by
  rw [runOn, h]
  simp only
  rw [Request.run_run r rfl]
  simp only
  rcases r.opening d with fault | ⟨log, e⟩ <;> rfl

end VariadicMacros
