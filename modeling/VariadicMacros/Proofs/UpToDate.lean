/-
**A header that was written is up to date.**

Writing a header and checking it are two commands that may run at different times, with different
logs, and with the directory changed in between.  They read the same flags as the same arguments,
and as long as the configuration file reads the same they resolve the same settings.  So a check
accepts what was written, with whatever stamp, and tells every other text and a missing file apart
from it.

Writing a header is itself a change of the directory.  It leaves the configuration file alone unless
the output leads through its path, or the log or the file beside the output is there.

Main definitions:

* `VariadicMacros.Given.Grows` — nothing that was given is lost.

Main results:

* `VariadicMacros.Request.parse_check_of_generate` — **flags to write a header are flags to check
  it**;
* `VariadicMacros.Action.failure_check` — what a check compares;
* `VariadicMacros.runOn_check_of_generate` — **a header that was written is up to date until it or
  its configuration changes**.
-/

import VariadicMacros.Proofs.ChangedFiles
import VariadicMacros.Proofs.MaskedHeaders

set_option autoImplicit false

namespace VariadicMacros

/-! ### The flags of the two commands -/

namespace Given

/-- What was given first was still given later. -/
def Grows (g h : Given) : Prop := g.options <:+ h.options

theorem Grows.refl (g : Given) : Grows g g := List.suffix_rfl

theorem Grows.trans {g h k : Given} (hg : Grows g h) (hh : Grows h k) : Grows g k :=
  List.IsSuffix.trans hg hh

theorem Grows.has {g h : Given} (hg : Grows g h) {o : OptionName} (ho : g.has o = true) :
    h.has o = true := by
  unfold Given.has at ho ⊢
  rw [List.any_eq_true] at ho ⊢
  obtain ⟨given, hmem, heq⟩ := ho
  exact ⟨given, hg.subset hmem, heq⟩

theorem grows_of_give {g h : Given} {form : OptionForm} {value : String}
    (hgive : g.give form value = .ok h) : Grows g h ∧ h.has form.name = true := by
  unfold give at hgive
  split at hgive
  · cases hgive
  · split at hgive
    · cases hgive
    · split at hgive
      · cases hgive
      · split at hgive
        · cases hgive
        · cases hgive
          exact ⟨List.suffix_cons _ _, by simp [has]⟩

theorem grows_of_reading {g h : Given} {form : OptionForm} {value : String}
    (hreading : reading (g.give form value) = .continue h) :
    Grows g h ∧ h.has form.name = true := by
  cases hgive : g.give form value with
  | error halt =>
      rw [hgive] at hreading
      cases hreading
  | ok k =>
      rw [hgive] at hreading
      cases hreading
      exact grows_of_give hgive

end Given

namespace Grammar

open Given (Grows grows_of_give grows_of_reading)

section Growth

variable (grammar : Grammar) {g h : Given}

theorem grows_of_readLong {cs : List Char} (hread : grammar.readLong g cs = .continue h) :
    Grows g h := by
  unfold readLong at hread
  simp only at hread
  split at hread
  · cases hread
  · split at hread
    · cases hread
      exact List.suffix_rfl
    · exact (grows_of_reading hread).1
  · split at hread
    · exact (grows_of_reading hread).1
    · cases hread

theorem grows_of_readShort {cs : List Char} (hread : grammar.readShort g cs = .continue h) :
    Grows g h := by
  induction cs generalizing g with
  | nil =>
      cases hread
      exact .refl _
  | cons c cs ih =>
      rw [readShort] at hread
      split at hread
      · cases hread
      · split at hread
        · split at hread
          · cases hread
            exact .refl _
          · exact (grows_of_reading hread).1
          · exact (grows_of_reading hread).1
        · split at hread
          · cases hread
          · next k hgive => exact (grows_of_give hgive).1.trans (ih hread)

theorem grows_of_readOperand {argument : String}
    (hread : grammar.readOperand g argument = .continue h) : Grows g h := by
  unfold readOperand at hread
  split at hread
  · cases hread
    exact .refl g
  · cases hread

/-- No argument takes back what was given. -/
theorem grows_of_step {argument : String} (hstep : grammar.step g argument = .continue h) :
    Grows g h := by
  unfold step at hstep
  split at hstep
  · exact grammar.grows_of_readOperand hstep
  · split at hstep
    · unfold readFree at hstep
      split at hstep
      · cases hstep
      · split at hstep
        · cases hstep
          exact .refl _
        · exact grammar.grows_of_readLong hstep
        · exact grammar.grows_of_readShort hstep
        · exact grammar.grows_of_readOperand hstep
    · split at hstep
      · cases hstep
      · exact (grows_of_reading hstep).1

end Growth

/-- The options of writing a header are those of checking it and one more, which is a flag. -/
theorem options_generate :
    generate.options = check.options ++ [OptionForm.flag .stdout "stdout" none] := rfl

theorem readShort_generate (g : Given) (cs : List Char) :
    generate.readShort g cs = check.readShort g cs := by
  induction cs generalizing g with
  | nil => rfl
  | cons c cs ih =>
      have hfind : generate.options.find? (fun form => form.short == some c) =
          check.options.find? (fun form => form.short == some c) := by
        rw [options_generate, List.find?_append]
        simp [OptionForm.flag]
      rw [readShort, readShort, hfind]
      simp only [ih]

/-- A reading that is refused or that asks to print the header. -/
def Prints (reading : Reading) : Prop :=
  (∃ halt, reading = .halt halt) ∨ ∃ h, reading = .continue h ∧ h.has .stdout = true

/-- A long option that both commands know is read alike; the other one asks to print the header. -/
theorem readLong_generate (g : Given) (cs : List Char) :
    generate.readLong g cs = check.readLong g cs ∨ Prints (generate.readLong g cs) := by
  have hfind : generate.options.find? (fun form => form.long == (splitLong cs).1) =
      (check.options.find? (fun form => form.long == (splitLong cs).1)).or
        (if "stdout" == (splitLong cs).1 then some (OptionForm.flag .stdout "stdout" none)
        else none) := by
    rw [options_generate, List.find?_append]
    simp only [List.find?_cons, List.find?_nil, OptionForm.flag]
    cases "stdout" == (splitLong cs).1 <;> rfl
  cases hknown : check.options.find? (fun form => form.long == (splitLong cs).1) with
  | some form =>
      left
      simp only [readLong, hfind, hknown, Option.some_or]
  | none =>
      rw [hknown, Option.none_or] at hfind
      split at hfind
      · right
        simp only [readLong, hfind]
        cases (splitLong cs).2 with
        | some value => exact .inl ⟨.refused, rfl⟩
        | none =>
            change Prints (Given.reading (g.give (OptionForm.flag .stdout "stdout" none) ""))
            cases hgive : g.give (OptionForm.flag .stdout "stdout" none) "" with
            | error halt => exact .inl ⟨halt, rfl⟩
            | ok h => exact .inr ⟨h, rfl, (grows_of_give hgive).2⟩
      · left
        simp only [readLong, hfind, hknown]

theorem step_generate (g : Given) (argument : String) :
    generate.step g argument = check.step g argument ∨ Prints (generate.step g argument) := by
  unfold step
  split
  · exact .inl rfl
  · split
    · unfold readFree
      have hcommands : generate.commands = check.commands := rfl
      rw [hcommands]
      split
      · exact .inl rfl
      · split
        · exact .inl rfl
        · exact readLong_generate g _
        · exact .inl (readShort_generate g _)
        · exact .inl rfl
    · exact .inl rfl

theorem grows_of_read (grammar : Grammar) {g h : Given} {arguments : List String}
    {rest : Option (String × List String)} (hread : grammar.read g arguments = .ok (h, rest)) :
    Grows g h := by
  induction arguments generalizing g with
  | nil =>
      rw [read] at hread
      split at hread
      · cases hread
      · cases hread
        exact .refl _
  | cons argument arguments ih =>
      rw [read] at hread
      split at hread
      · cases hread
      · cases hread
        exact .refl _
      · next k hstep => exact (grammar.grows_of_step hstep).trans (ih hread)

/-- Arguments that write a header, and do not print it, are read alike to check it. -/
theorem read_check_of_generate {g h : Given} {arguments : List String}
    {rest : Option (String × List String)} (hread : generate.read g arguments = .ok (h, rest))
    (hstdout : h.has .stdout = false) : check.read g arguments = .ok (h, rest) := by
  induction arguments generalizing g with
  | nil => exact hread
  | cons argument arguments ih =>
      rw [read] at hread
      rw [read]
      rcases step_generate g argument with hsame | ⟨halt, hstep⟩ | ⟨k, hstep, hprints⟩
      · rw [← hsame]
        split at hread
        · cases hread
        · exact hread
        · exact ih hread
      · rw [hstep] at hread
        cases hread
      · rw [hstep] at hread
        have hlost := (generate.grows_of_read hread).has hprints
        rw [hstdout] at hlost
        cases hlost

end Grammar

/-- **Flags to write a header are flags to check it.** -/
theorem Request.parse_check_of_generate {flags : List String} {verbosity : Nat}
    {logFile : Option String} {a : HeaderArguments}
    (h : parse ("generate" :: flags) = .ok ⟨verbosity, logFile, .generate a false⟩) :
    parse ("check" :: flags) = .ok ⟨verbosity, logFile, .check a⟩ := by
  have hgenerate : parse ("generate" :: flags) = ofCommand {} "generate" flags := rfl
  have hcheck : parse ("check" :: flags) = ofCommand {} "check" flags := rfl
  rw [hgenerate] at h
  rw [hcheck]
  unfold ofCommand at h ⊢
  simp only [Grammar.ofCommand?] at h ⊢
  split at h
  · cases h
  · next g rest hread =>
    split at h
    · cases h
    · next command hcommand =>
      simp only [Except.ok.injEq, Request.mk.injEq] at h
      obtain ⟨hverbosity, hlog, rfl⟩ := h
      simp only [Command.ofGiven?] at hcommand
      split at hcommand
      · cases hcommand
      · rw [Option.some.injEq, Command.generate.injEq] at hcommand
        obtain ⟨hheader, hstdout⟩ := hcommand
        rw [Grammar.read_check_of_generate hread hstdout]
        simp only [Command.ofGiven?, hheader, hverbosity, hlog]

/-! ### Checking -/

namespace Action

/-- How reading the header ends. -/
theorem run_readHeader (path : String) (w : World) :
    (readHeader path).run w =
      match w.directory.read path with
      | .ok text => .ok text w
      | .error .notFound => .error (.stale .missing) w
      | .error fault => .error (.file fault) w := by
  rw [readHeader, EStateM.run_bind, EStateM.run_get]
  simp only
  rcases w.directory.read path with fault | text
  · cases fault <;> rfl
  · rfl

/-- A check compares fingerprints: that of the header it would write, and that of what it reads. -/
theorem failure_check {a : HeaderArguments} {w : World} {settings : Settings} {expected : String}
    (hsettings : a.settingsIn w.directory = .ok settings)
    (hrender : Header.render settings.options w.time = .ok expected) :
    (Outcome.ofResult ((check a).run w)).failure =
      match w.directory.read settings.out with
      | .ok existing =>
        if Header.fingerprint expected = Header.fingerprint existing then none
        else some (.stale .differs)
      | .error .notFound => some (.stale .missing)
      | .error fault => some (.file fault) := by
  rw [check, EStateM.run_bind, run_resolve, hsettings]
  simp only [still]
  rw [EStateM.run_bind, run_readHeader]
  cases hread : w.directory.read settings.out with
  | error fault => cases fault <;> rfl
  | ok existing =>
      obtain ⟨w₁, hrun₁, -⟩ := exists_run_renderHeader hrender
      obtain ⟨w₂, hrun₂, -⟩ := exists_run_report
        (Record.message .debug Record.commandSource "fingerprints compared"
          [("expected", .text (Header.fingerprint expected)),
            ("actual", .text (Header.fingerprint existing))]) w₁
      obtain ⟨w₃, hrun₃, -⟩ := exists_run_report
        (Record.event "header_current" [("path", .text settings.out)]) w₂
      simp only [EStateM.run_bind, hrun₁, hrun₂]
      split
      · next hne =>
        rw [if_neg (by simpa using hne)]
        rfl
      · next heq =>
        rw [if_pos (by simpa using heq), EStateM.run_bind, hrun₃]
        rfl

end Action

/-! ### Checking what was written -/

namespace Header

theorem newline_notMem_text (time : Timestamp) : '\n' ∉ time.text.toList := fun hmem =>
  absurd (List.all_eq_true.1 (isInline_stamp time) _ hmem) (by decide)

theorem restamped_render {o : Options} (ho : o.check = .ok ()) {time : Timestamp} {text : String}
    (h : render o time = .ok text) : Restamped text text :=
  (maskStamp_write_iff ho (newline_notMem_text time) h text).1 rfl

/-- The fingerprint of a header of the same options at any time tells exactly the texts with another
stamp, unless there is a collision. -/
theorem fingerprint_render {o : Options} (ho : o.check = .ok ()) {time later : Timestamp}
    {text expected : String} (htext : render o time = .ok text)
    (hexpected : render o later = .ok expected) (content : String) :
    (Restamped text content → fingerprint expected = fingerprint content) ∧
      (¬ Restamped text content →
        ¬ Sha256.Collide (maskStamp content).toUTF8 (maskStamp text).toUTF8 →
          fingerprint expected ≠ fingerprint content) := by
  have hstamp := newline_notMem_text time
  have hsame : maskStamp expected = maskStamp text :=
    (maskStamp_write_eq_iff ho hstamp ho (newline_notMem_text later) htext hexpected).2 rfl
  have hmask := maskStamp_write_iff ho hstamp htext content
  have hfingerprint : fingerprint expected = fingerprint text := by
    rw [fingerprint, fingerprint, hsame]
  refine ⟨fun h => ?_, fun h hcollide heq => h (hmask.1 ?_)⟩
  · rw [fingerprint, fingerprint, hsame, hmask.2 h]
  · rw [← fingerprint_eq_iff_of_not_collide hcollide, ← heq, hfingerprint]

end Header

/-- A run that checks a header compares it in the directory that it finds. -/
theorem failure_runOn_check (host : Directory.Host) (time : Timestamp) {arguments : List String}
    {verbosity : Nat} {logFile : Option String} {log : Option Place} {a : HeaderArguments}
    {d found : Directory} {settings : Settings} {expected : String}
    (hparse : Request.parse arguments = .ok ⟨verbosity, logFile, .check a⟩)
    (hopening : Request.opening ⟨verbosity, logFile, .check a⟩ d = .ok (log, found))
    (hsettings : a.settingsIn found = .ok settings)
    (hrender : Header.render settings.options time = .ok expected) :
    (runOn host arguments time d).failure =
      match found.read settings.out with
      | .ok existing =>
        if Header.fingerprint expected = Header.fingerprint existing then none
        else some (.stale .differs)
      | .error .notFound => some (.stale .missing)
      | .error fault => some (.file fault) := by
  rw [runOn_eq hparse, hopening]
  exact Action.failure_check
    (w := ⟨host, time, found, log, Level.ofVerbosity verbosity, ""⟩) hsettings hrender

/-- A run that checks a header that was written accepts it with every stamp, tells every other text
from it that is no collision, and tells when it is missing. -/
theorem runOn_check_of_settingsIn (host : Directory.Host) (later : Timestamp)
    {arguments : List String} {verbosity : Nat} {logFile : Option String} {log : Option Place}
    {a : HeaderArguments} {d found : Directory} {settings : Settings} {time : Timestamp}
    {text : String} (hparse : Request.parse arguments = .ok ⟨verbosity, logFile, .check a⟩)
    (hopening : Request.opening ⟨verbosity, logFile, .check a⟩ d = .ok (log, found))
    (hsettings : a.settingsIn found = .ok settings)
    (hrender : Header.render settings.options time = .ok text) :
    let outcome := runOn host arguments later d
    (∀ content, found.read settings.out = .ok content →
      (content = text ∨ Header.Restamped text content → outcome.exitCode = 0) ∧
      (¬ Header.Restamped text content →
        ¬ Sha256.Collide (Header.maskStamp content).toUTF8 (Header.maskStamp text).toUTF8 →
          outcome.failure = some (.stale .differs))) ∧
    (found.read settings.out = .error .notFound → outcome.failure = some (.stale .missing)) := by
  intro outcome
  have hcheck := HeaderArguments.check_of_settingsIn hsettings
  obtain ⟨expected, hexpected⟩ := Action.exists_render hcheck later
  have hfailure := failure_runOn_check host later hparse hopening hsettings hexpected
  refine ⟨fun content hcontent => ?_, fun hmissing => ?_⟩
  · obtain ⟨hsame, hother⟩ := Header.fingerprint_render hcheck hrender hexpected content
    rw [hcontent] at hfailure
    refine ⟨fun h => ?_, fun h hcollide => hfailure.trans (if_neg (hother h hcollide))⟩
    have hrestamped : Header.Restamped text content := by
      rcases h with rfl | h
      · exact Header.restamped_render hcheck hrender
      · exact h
    rw [Outcome.exitCode, hfailure.trans (if_pos (hsame hrestamped))]
    rfl
  · rw [hmissing] at hfailure
    exact hfailure

/-- **A header that was written is up to date until it or its configuration changes.**  Let a run
write a header and end well, where no device but the null device loses what is written to it.  Then
the flags of the run are flags to check it, and the header can be read at its output.

If the run leaves the configuration file alone, which is where the output does not lead through its
path and neither the log nor the file beside the output is there, it reads as the run found it.  Any
later run that checks the header with the same arguments, after whatever happened to the directory,
finds it up to date if the configuration file still reads so and the output is the header with some
stamp; finds that it differs if the output is any other text that is no collision; and finds that it
is missing if nothing is there. -/
theorem runOn_check_of_generate {host : Directory.Host} {arguments : List String} {verbosity : Nat}
    {logFile : Option String} {a : HeaderArguments} {time : Timestamp} {d : Directory}
    (hparse : Request.parse arguments = .ok ⟨verbosity, logFile, .generate a false⟩)
    (hdevices : d.HasOnlyNullDevice) (hcode : (runOn host arguments time d).exitCode = 0) :
    let written := (runOn host arguments time d).directory
    (∀ flags, arguments = "generate" :: flags →
      Request.parse ("check" :: flags) = .ok ⟨verbosity, logFile, .check a⟩) ∧
    ∃ log found settings text place,
      Request.opening ⟨verbosity, logFile, .generate a false⟩ d = .ok (log, found) ∧
      a.settingsIn found = .ok settings ∧ Header.render settings.options time = .ok text ∧
      written.read settings.out = .ok text ∧ found.locate a.configPath = .ok place ∧
      (found.Spares host log settings.out place →
        written.read a.configPath = found.read a.configPath ∧
        ∀ host' arguments' verbosity' logFile' later d' log' found',
          Request.parse arguments' = .ok ⟨verbosity', logFile', .check a⟩ →
          Request.opening ⟨verbosity', logFile', .check a⟩ d' = .ok (log', found') →
          found'.read a.configPath = written.read a.configPath →
          let outcome := runOn host' arguments' later d'
          (∀ content, found'.read settings.out = .ok content →
            (content = text ∨ Header.Restamped text content → outcome.exitCode = 0) ∧
            (¬ Header.Restamped text content →
              ¬ Sha256.Collide (Header.maskStamp content).toUTF8 (Header.maskStamp text).toUTF8 →
                outcome.failure = some (.stale .differs))) ∧
          (found'.read settings.out = .error .notFound →
            outcome.failure = some (.stale .missing))) := by
  intro written
  refine ⟨?_, ?_⟩
  · rintro flags rfl
    exact Request.parse_check_of_generate hparse
  · obtain ⟨log, found, settings, text, hopening, hsettings, hrender, hread, hframe⟩ :=
      runOn_generate hparse hdevices hcode
    obtain ⟨place, hplace⟩ := HeaderArguments.exists_locate_of_settingsIn hsettings
    refine ⟨log, found, settings, text, place, hopening, hsettings, hrender, hread, hplace, ?_⟩
    intro hspares
    have hkept := hframe a.configPath place hplace hspares
    refine ⟨hkept, fun host' arguments' verbosity' logFile' later d' log' found' hparse' hopening'
      hconfig => ?_⟩
    have hsettings' := (HeaderArguments.settingsIn_congr (hconfig.trans hkept)).trans hsettings
    exact runOn_check_of_settingsIn host' later hparse' hopening' hsettings' hrender

/-- A configuration file that names the output, and a log: the header that was written is up to
date, and it is missing once it is removed. -/
theorem runOn_check_of_generate_configured :
    let d := Directory.fresh.put ["vaforge.toml"] (.file "out = \"inc/o.h\"\n")
    let arguments := ["generate", "--max-arity", "1", "--log-file", "l.log"]
    let written := runOn .usual arguments ⟨2024, 1, 1, 0, 0, 0, 0⟩ d
    let check := ["check", "--max-arity", "1"]
    d.HasOnlyNullDevice ∧ written.exitCode = 0 ∧
      (runOn .usual check ⟨2025, 2, 2, 0, 0, 0, 0⟩ written.directory).exitCode = 0 ∧
      (runOn .usual check ⟨2025, 2, 2, 0, 0, 0, 0⟩
        (written.directory.remove ["inc", "o.h"])).failure = some (.stale .missing) := by
  intro d arguments written check
  have hparse : Request.parse arguments =
      .ok ⟨0, some "l.log", .generate ⟨none, some 1, none, none, none⟩ false⟩ := rfl
  have hparse' : Request.parse check = .ok ⟨0, none, .check ⟨none, some 1, none, none, none⟩⟩ := rfl
  have hdevices : d.HasOnlyNullDevice := Directory.hasOnlyNullDevice_fresh.put_file _ _
  have hcode : written.exitCode = 0 := by decide +kernel
  have hopening : (⟨0, some "l.log", .generate ⟨none, some 1, none, none, none⟩ false⟩ :
      Request).opening d = .ok (some ["l.log"], d.put ["l.log"] (.file "")) := by
    have hname : (Directory.components "l.log").getLast? = some "l.log" := by decide
    exact Request.opening_of_entry?_eq_none rfl rfl (by decide +kernel) hname (by decide)
  obtain ⟨-, log, found, settings, text, place, hopened, hsettings, -, hread, hplace, hcheck⟩ :=
    runOn_check_of_generate hparse hdevices hcode
  rw [hopening, Except.ok.injEq, Prod.mk.injEq] at hopened
  obtain ⟨rfl, rfl⟩ := hopened
  have hout : settings.out = "inc/o.h" := by
    have hresolved : HeaderArguments.settingsIn ⟨none, some 1, none, none, none⟩
        (d.put ["l.log"] (.file "")) = .ok ⟨{ bound := 1 }, "inc/o.h"⟩ := by decide +kernel
    rw [hresolved] at hsettings
    cases hsettings
    rfl
  have hplace' : place = ["vaforge.toml"] := (Except.ok.inj hplace).symm
  rw [hout, hplace'] at hcheck
  have hspares : (d.put ["l.log"] (.file "")).Spares .usual (some ["l.log"]) "inc/o.h"
      ["vaforge.toml"] := by
    have hbeside : (d.put ["l.log"] (.file "")).temporary? .usual "inc/o.h" =
        some ["inc", ".o.h.10000.tmp"] := by decide +kernel
    refine ⟨by decide, fun t ht => ?_, by decide⟩
    rw [hbeside, Option.some.injEq] at ht
    subst ht
    decide
  obtain ⟨-, hcheck⟩ := hcheck hspares
  refine ⟨hdevices, hcode, ?_, ?_⟩
  · have hcurrent := (hcheck .usual check 0 none ⟨2025, 2, 2, 0, 0, 0, 0⟩ _ none _ hparse' rfl rfl).1
    exact (hcurrent text (hout ▸ hread)).1 (.inl rfl)
  · refine (hcheck .usual check 0 none _ _ none _ hparse' rfl ?_).2 ?_
    · decide +kernel
    · decide +kernel

/-- **A header can be written through the path of the configuration file**, and then the same flags
cannot check it: the folder that is made for it is where the configuration file is looked for.  And
a configuration file with the name of the file beside the output is moved away with it. -/
theorem runOn_check_through_config :
    let through := ["--max-arity", "1", "--out", "vaforge.toml/x.h"]
    let written := runOn .usual ("generate" :: through) ⟨2024, 1, 1, 0, 0, 0, 0⟩ .fresh
    let named := ["--config", ".o.h.10000.tmp", "--max-arity", "1", "--out", "o.h"]
    let moved := runOn .usual ("generate" :: named) ⟨2024, 1, 1, 0, 0, 0, 0⟩
      (Directory.fresh.put [".o.h.10000.tmp"] (.file ""))
    (written.exitCode = 0 ∧ written.directory.locate "vaforge.toml" = .ok ["vaforge.toml"] ∧
      written.directory.locate "vaforge.toml/x.h" = .ok ["vaforge.toml", "x.h"] ∧
      (∃ text, Header.render { bound := 1 } ⟨2024, 1, 1, 0, 0, 0, 0⟩ = .ok text ∧
        written.directory.read "vaforge.toml/x.h" = .ok text) ∧
      (runOn .usual ("check" :: through) ⟨2025, 2, 2, 0, 0, 0, 0⟩ written.directory).failure =
        some (.file .isAFolder)) ∧
    moved.exitCode = 0 ∧ moved.directory.locate "o.h" = .ok ["o.h"] ∧
      (runOn .usual ("check" :: named) ⟨2025, 2, 2, 0, 0, 0, 0⟩ moved.directory).failure =
        some (.file .notFound) := by
  intro through written named moved
  have hcode : written.exitCode = 0 := by decide +kernel
  have hparse : Request.parse ("generate" :: through) =
      .ok ⟨0, none, .generate ⟨none, some 1, none, none, some "vaforge.toml/x.h"⟩ false⟩ := rfl
  obtain ⟨log, found, settings, text, hopened, hsettings, hrender, hread, -⟩ :=
    runOn_generate hparse Directory.hasOnlyNullDevice_fresh hcode
  cases hopened
  have hresolved : HeaderArguments.settingsIn ⟨none, some 1, none, none, some "vaforge.toml/x.h"⟩
      .fresh = .ok ⟨{ bound := 1 }, "vaforge.toml/x.h"⟩ := by decide +kernel
  rw [hresolved, Except.ok.injEq] at hsettings
  subst hsettings
  refine ⟨⟨hcode, ?_, ?_, ⟨text, hrender, hread⟩, ?_⟩, ?_, ?_, ?_⟩ <;> decide +kernel

end VariadicMacros
