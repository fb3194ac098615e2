/-
**Which files a run changes.**

A run changes the file that is its log, to which it adds, and one more file if it is asked to write
a header and succeeds: the output, which then holds the whole header.  All other files stay as they
are, however the run ends, and of the file that the header is written to first nothing is left.

Main definitions:

* `VariadicMacros.Directory.SameButLog` — the file with a path is the same, or is the log with
  something added;
* `VariadicMacros.Request.temporary?` — the place of the file that a request writes first;
* `VariadicMacros.Directory.Spares` — writing a file leaves a place alone.

Main results:

* `VariadicMacros.runOn_changes` — **a run changes at most its output and its log**;
* `VariadicMacros.runOn_generate` — **what is read after a header was written**.
-/

import VariadicMacros.Proofs.Commands

set_option autoImplicit false

namespace VariadicMacros

/-! ### The log -/

namespace Directory

/-- The file with a path is the same in two directories, or it is the log and something is added to
what it held, which was nothing if there was no such file. -/
def SameButLog (log : Option Place) (d e : Directory) (path : String) : Prop :=
  e.content? path = d.content? path ∨
    (∃ p ∈ log, p.path = path) ∧
      ∃ added, e.content? path = some ((d.content? path).getD "" ++ added)

namespace SameButLog

variable {log : Option Place} {d e f : Directory} {path : String}

theorem refl (log : Option Place) (d : Directory) (path : String) : SameButLog log d d path :=
  .inl rfl

theorem trans (h : SameButLog log d e path) (h' : SameButLog log e f path) :
    SameButLog log d f path := by
  rcases h' with hf | ⟨hlog, added, hf⟩
  · unfold SameButLog
    rw [hf]
    exact h
  · rcases h with he | ⟨-, before, he⟩
    · exact .inr ⟨hlog, added, by rw [hf, he]⟩
    · exact .inr ⟨hlog, before ++ added, by rw [hf, he, Option.getD_some, String.append_assoc]⟩

/-- A run whose log is given up writes to no other log. -/
theorem of_filter {keep : Place → Bool} (h : SameButLog (log.filter keep) d e path) :
    SameButLog log d e path := by
  rcases h with he | ⟨⟨p, hp, hpath⟩, added, he⟩
  · exact .inl he
  · exact .inr ⟨⟨p, (Option.mem_filter_iff.1 hp).1, hpath⟩, added, he⟩

theorem logged (hfixed : ∀ p ∈ log, p.isFixed = false) (d : Directory) (text path : String) :
    SameButLog log d (d.logged log text) path := by
  cases log with
  | none => exact refl none d path
  | some p =>
      have hcontent := content?_append (d := d) (hfixed p rfl) text path
      unfold SameButLog Directory.logged
      rw [hcontent]
      split
      · next hpath =>
        cases hd : d.content? path with
        | none => exact .inl rfl
        | some content => exact .inr ⟨⟨p, rfl, hpath⟩, text, rfl⟩
      · exact .inl rfl

theorem opening {r : Request} (h : r.opening d = .ok (log, e)) (path : String) :
    SameButLog log d e path := by
  rcases (Request.opening_cases h).2 with rfl | ⟨p, hp, hnone, rfl⟩
  · exact refl log e path
  · by_cases hpath : p.path = path
    · refine .inr ⟨⟨p, hp, hpath⟩, "", ?_⟩
      rw [← hpath]
      simp [content?, getElem?_put, hnone]
    · refine .inl (content?_eq_of_getElem? ?_)
      rw [getElem?_put, if_neg hpath]

end SameButLog

/-! ### Replacing a file while a log is open -/

section Replace

variable {d e : Directory} {host : Host} {path content record : String} {log : Option Place}
  (hfixed : ∀ p ∈ log, p.isFixed = false)
  (hfree : ∀ t, d.temporary? host path = some t → d.isFree t = true)

include hfree in
theorem isFree_logged (log : Option Place) (record : String) {t : Place}
    (ht : (d.logged log record).temporary? host path = some t) :
    (d.logged log record).isFree t = true := by
  have hshape := sameShape_logged d log record
  rw [← hshape.temporary?_eq] at ht
  rw [← hshape.isFree_eq]
  exact hfree t ht

include hfixed hfree

/-- Where replacing a file fails, every file but the log is the same, and nothing is beside. -/
theorem changes_of_failed_replace {fault : PathFault}
    (h : (d.logged log record).replace host path content = (e, .error fault)) :
    (∀ other, SameButLog log d e other) ∧
      ∀ t, d.temporary? host path = some t → e.content? t.path = none := by
  have hsame : ∀ other, e.content? other = (d.logged log record).content? other := by
    intro other
    rcases content?_replace (fun t => isFree_logged hfree log record) h other with h | ⟨p, hp, -⟩
    · exact h
    · cases hp
  refine ⟨fun other => (SameButLog.logged hfixed d record other).trans (.inl (hsame other)),
    fun t ht => ?_⟩
  rw [(sameShape_logged d log record).temporary?_eq] at ht
  exact (hsame t.path).trans (content?_of_isFree (isFree_logged hfree log record ht))

/-- Where a file is replaced, every other file but the log is the same, also when a log at another
place goes on, and nothing is beside. -/
theorem changes_of_replace {p : Place}
    (h : (d.logged log record).replace host path content = (e, .ok p)) (after : String) :
    (∀ other, p.path ≠ other →
      SameButLog log d (e.logged (log.filter (·.path != p.path)) after) other) ∧
      ∀ t, d.temporary? host path = some t →
        (e.logged (log.filter (·.path != p.path)) after).content? t.path = none := by
  have hfree' := fun t => isFree_logged hfree log record (t := t)
  have hsame : ∀ other, p.path ≠ other →
      e.content? other = (d.logged log record).content? other := by
    intro other hother
    rcases content?_replace hfree' h other with h | ⟨q, hq, hpath⟩
    · exact h
    · cases hq
      exact absurd hpath hother
  refine ⟨fun other hother => ?_, fun t ht => ?_⟩
  · have hfixed' : ∀ q ∈ log.filter (·.path != p.path), q.isFixed = false :=
      fun q hq => hfixed q (Option.mem_filter_iff.1 hq).1
    exact ((SameButLog.logged hfixed d record other).trans (.inl (hsame other hother))).trans
      (SameButLog.logged hfixed' e after other).of_filter
  · rw [(sameShape_logged d log record).temporary?_eq] at ht
    obtain ⟨-, -, -, hbeside⟩ :=
      locate_of_replace (fun t ht => getElem?_ne_sink_of_isFree (hfree' t ht)) h
    refine (sameShape_logged e _ after).content?_eq_none ?_
    exact (hsame t.path (hbeside t ht).symm).trans (content?_of_isFree (hfree' t ht))

end Replace

end Directory

open Directory (SameButLog)

/-! ### What a command leaves -/

/-- The place of the file that a request writes before it puts a header at its place. -/
def Request.temporary? (r : Request) (host : Directory.Host) (d : Directory) : Option Place :=
  match r.command with
  | .generate a false =>
    match a.settingsIn d with
    | .ok settings => d.temporary? host settings.out
    | .error _ => none
  | _ => none

/-- A command that writes no header leaves every file but the log. -/
theorem Command.changes_of_onlyLogs {c : Command} (h : c.run.OnlyLogs) {w : World}
    (hfixed : ∀ p ∈ w.log, p.isFixed = false) :
    (Outcome.ofResult (c.run.run w)).exitCode ≠ 2 ∧
      ∀ path, SameButLog w.log w.directory (Outcome.ofResult (c.run.run w)).directory path := by
  have hw := h w
  cases hrun : c.run.run w with
  | ok a w' =>
      rw [hrun] at hw
      obtain ⟨text, output, rfl⟩ := hw
      exact ⟨by simp [Outcome.ofResult, Outcome.exitCode],
        SameButLog.logged hfixed w.directory text⟩
  | error failure w' =>
      rw [hrun] at hw
      obtain ⟨hfailure, text, output, rfl⟩ := hw
      refine ⟨?_, SameButLog.logged hfixed w.directory text⟩
      cases failure <;> simp_all [Outcome.ofResult, Outcome.exitCode, Failure.exitCode]

/-- After a run that found the directory `d`, the output of the arguments leads to a place that
holds the header of their settings. -/
def HeaderArguments.Written (a : HeaderArguments) (time : Timestamp) (d e : Directory) (p : Place) :
    Prop :=
  ∃ settings text, a.settingsIn d = .ok settings ∧ Header.render settings.options time = .ok text ∧
    e.locate settings.out = .ok p ∧ e.content? p.path = some text

/-- How writing a header changes the files: it fails and leaves every file but the log, or the
output holds the header afterwards and every other file but the log is the same.  Nothing is left
of the file beside the output. -/
theorem Action.generate_changes {a : HeaderArguments} {w : World}
    (hfixed : ∀ p ∈ w.log, p.isFixed = false)
    (hfree : ∀ settings t, a.settingsIn w.directory = .ok settings →
      w.directory.temporary? w.host settings.out = some t → w.directory.isFree t = true)
    {outcome : Outcome} (houtcome : outcome = Outcome.ofResult ((generate a false).run w)) :
    (∀ settings t, a.settingsIn w.directory = .ok settings →
      w.directory.temporary? w.host settings.out = some t →
        outcome.directory.content? t.path = none) ∧
    (outcome.exitCode = 1 ∧ (∀ path, SameButLog w.log w.directory outcome.directory path) ∨
      outcome.exitCode = 0 ∧ ∃ p, a.Written w.time w.directory outcome.directory p ∧
        ∀ path, p.path ≠ path → SameButLog w.log w.directory outcome.directory path) := by
  rcases generate_cases a w with ⟨failure, hsettings, hrun⟩ |
    ⟨settings, text, record, hsettings, hrender, hcases⟩
  · -- The settings are not resolved, and nothing happens.
    have husage := HeaderArguments.settingsIn_ne_usage hsettings
    rw [hrun] at houtcome
    subst houtcome
    refine ⟨fun s t hs => by simp [hsettings] at hs, .inl ⟨?_, fun path => .refl _ _ _⟩⟩
    cases failure <;> simp_all [Outcome.ofResult, Outcome.exitCode, Failure.exitCode]
  · have hfree' := fun t => hfree settings t hsettings
    have hsettings' : ∀ s, a.settingsIn w.directory = .ok s → s = settings := fun s hs =>
      (Except.ok.inj (hsettings.symm.trans hs)).symm
    rcases hcases with ⟨e, fault, w', hreplace, hrun, rfl⟩ | ⟨e, p, w', record', hreplace, hrun, he⟩
    · rw [hrun] at houtcome
      subst houtcome
      obtain ⟨hsame, hgone⟩ := Directory.changes_of_failed_replace hfixed hfree' hreplace
      exact ⟨fun s t hs ht => hgone t (hsettings' s hs ▸ ht), .inl ⟨rfl, hsame⟩⟩
    · rw [hrun] at houtcome
      subst houtcome
      have hsink := fun t ht => Directory.getElem?_ne_sink_of_isFree
        (Directory.isFree_logged hfree' w.log record (t := t) ht)
      obtain ⟨hsame, hgone⟩ := Directory.changes_of_replace hfixed hfree' hreplace record'
      obtain ⟨hlocate, hcontent⟩ := Directory.found_of_replace hsink hreplace w.log record'
      rw [← he] at hsame hgone hlocate hcontent
      exact ⟨fun s t hs ht => hgone t (hsettings' s hs ▸ ht), .inr ⟨rfl, p,
        ⟨settings, text, hsettings, hrender, hlocate, Directory.content?_of_getElem? hcontent⟩,
        hsame⟩⟩

/-! ### Whole runs -/

/-- Whether no file bears the name of the file that a request writes first, once its log is open;
a folder of that name makes the request fail. -/
def Request.temporaryIsFree (r : Request) (host : Directory.Host) (d : Directory) : Bool :=
  match r.opening d with
  | .error _ => true
  | .ok (_, e) => (r.temporary? host e).all e.isFree

section Opened

variable {r : Request} {d e : Directory} {log : Option Place}
  (hopening : r.opening d = .ok (log, e))

include hopening

theorem Request.isFree_temporary {host : Directory.Host}
    (hfree : r.temporaryIsFree host d = true) {t : Place} (ht : r.temporary? host e = some t) :
    e.isFree t = true := by
  rw [temporaryIsFree, hopening] at hfree
  simpa [ht] using hfree

/-- What the command of a request leaves once the log is open. -/
theorem Request.changes {w : World} (hdirectory : w.directory = e)
    (hlog : w.log = log) (hfree : r.temporaryIsFree w.host d = true) {outcome : Outcome}
    (houtcome : outcome = Outcome.ofResult (r.command.run.run w)) :
    outcome.exitCode ≠ 2 ∧
      (∀ t, r.temporary? w.host e = some t → outcome.directory.content? t.path = none) ∧
      if r.command.writesHeader ∧ outcome.exitCode = 0 then
        ∃ a p, r.command = .generate a false ∧ a.Written w.time e outcome.directory p ∧
          ∀ path, p.path ≠ path → SameButLog log d outcome.directory path
      else ∀ path, SameButLog log d outcome.directory path := by
  have hfixed := (Request.opening_cases hopening).1
  have hopened := SameButLog.opening hopening
  have hbeside := fun t => isFree_temporary hopening hfree (t := t)
  subst hdirectory hlog
  by_cases hwrites : r.command.writesHeader = true
  · obtain ⟨a, hcommand⟩ : ∃ a, r.command = .generate a false := by
      cases hc : r.command with
      | generate a toStdout =>
          rw [hc] at hwrites
          exact ⟨a, by simpa [Command.writesHeader] using hwrites⟩
      | check a => simp [hc, Command.writesHeader] at hwrites
      | expand a source definitions text => simp [hc, Command.writesHeader] at hwrites
      | surface a json => simp [hc, Command.writesHeader] at hwrites
    have htemporary : ∀ settings t, a.settingsIn w.directory = .ok settings →
        w.directory.temporary? w.host settings.out = some t →
          r.temporary? w.host w.directory = some t := by
      intro settings t hsettings ht
      simp only [temporary?, hcommand, hsettings, ht]
    rw [hcommand] at houtcome
    obtain ⟨hgone, hchanges⟩ := Action.generate_changes hfixed
      (fun settings t hs ht => hbeside t (htemporary settings t hs ht)) houtcome
    refine ⟨?_, fun t ht => ?_, ?_⟩
    · rcases hchanges with ⟨hcode, -⟩ | ⟨hcode, -⟩ <;> rw [hcode] <;> decide
    · simp only [temporary?, hcommand] at ht
      split at ht
      · next settings hsettings => exact hgone settings t hsettings ht
      · cases ht
    · rcases hchanges with ⟨hcode, hsame⟩ | ⟨hcode, p, hwritten, hsame⟩
      · rw [if_neg (by simp [hcode])]
        exact fun path => (hopened path).trans (hsame path)
      · rw [if_pos ⟨hwrites, hcode⟩]
        exact ⟨a, p, hcommand, hwritten, fun path hpath => (hopened path).trans (hsame path hpath)⟩
  · have honly := Command.onlyLogs (by simpa using hwrites : r.command.writesHeader = false)
    obtain ⟨hcode, hsame⟩ := Command.changes_of_onlyLogs honly hfixed
    rw [← houtcome] at hcode hsame
    refine ⟨hcode, fun t ht => ?_, ?_⟩
    · unfold temporary? at ht
      split at ht
      · next a hcommand => simp [hcommand, Command.writesHeader] at hwrites
      · cases ht
    · rw [if_neg (by simp [hwrites])]
      exact fun path => (hopened path).trans (hsame path)

end Opened

/-- **A run changes at most its output and its log.**  A run that is refused, that asks for help or
for the version, or whose log cannot be opened changes nothing.  Any other run leaves no file beside
the output, and it leaves all files but the log as they are, unless it writes a header and ends
well: then the output, too, is another file, which holds the header of the resolved settings. -/
theorem runOn_changes (host : Directory.Host) (arguments : List String) (time : Timestamp)
    (d : Directory)
    (hfree : ∀ r, Request.parse arguments = .ok r → r.temporaryIsFree host d = true) :
    let outcome := runOn host arguments time d
    (outcome.exitCode = 2 → outcome.directory = d) ∧
      (∀ halt, Request.parse arguments = .error halt → outcome.directory = d) ∧
      ∀ r, Request.parse arguments = .ok r →
        (∀ fault, r.opening d = .error fault → outcome.directory = d) ∧
        ∀ log e, r.opening d = .ok (log, e) →
          (∀ t, r.temporary? host e = some t → outcome.directory.content? t.path = none) ∧
          if r.command.writesHeader ∧ outcome.exitCode = 0 then
            ∃ a p, r.command = .generate a false ∧ a.Written time e outcome.directory p ∧
              ∀ path, p.path ≠ path → SameButLog log d outcome.directory path
          else ∀ path, SameButLog log d outcome.directory path := by
  intro outcome
  cases hparse : Request.parse arguments with
  | error halt =>
      have hsame : outcome.directory = d := by
        simp only [outcome, runOn, hparse]
        cases halt <;> rfl
      exact ⟨fun _ => hsame, fun _ _ => hsame, fun r hr => by cases hr⟩
  | ok r =>
      have hrun := runOn_eq hparse host time d
      cases hopening : r.opening d with
      | error fault =>
          have hsame : outcome.directory = d := by simp only [outcome, hrun, hopening]
          refine ⟨fun _ => hsame, fun _ _ => hsame, fun r' hr' => ?_⟩
          cases hr'
          exact ⟨fun _ _ => hsame, fun log e h => by simp [hopening] at h⟩
      | ok opened =>
          obtain ⟨log, e⟩ := opened
          rw [hopening] at hrun
          simp only at hrun
          obtain ⟨hcode, hchanges⟩ := Request.changes hopening
            (w := ⟨host, time, e, log, Level.ofVerbosity r.verbosity, ""⟩) rfl rfl (hfree r hparse)
            hrun
          refine ⟨fun h => absurd h hcode, fun _ h => (by cases h), fun r' hr' => ?_⟩
          cases hr'
          refine ⟨fun fault h => by simp [hopening] at h, fun log' e' h => ?_⟩
          rw [hopening, Except.ok.injEq, Prod.mk.injEq] at h
          obtain ⟨rfl, rfl⟩ := h
          exact hchanges

/-- A header that is written where nothing was, with a log: the output holds the header, and nothing
but the log changes besides. -/
theorem runOn_changes_fresh :
    let arguments := ["generate", "--max-arity", "1", "--out", "o.h", "--log-file", "l.log"]
    let outcome := runOn .usual arguments ⟨2024, 1, 1, 0, 0, 0, 0⟩ .fresh
    (∀ r, Request.parse arguments = .ok r → r.temporaryIsFree .usual .fresh = true) ∧
      outcome.exitCode = 0 ∧
      ∃ (a : HeaderArguments) (p : Place),
        a.Written ⟨2024, 1, 1, 0, 0, 0, 0⟩ (Directory.fresh.put ["l.log"] (.file ""))
          outcome.directory p ∧
        ∀ path, p.path ≠ path → SameButLog (some ["l.log"]) .fresh outcome.directory path := by
  intro arguments outcome
  have hparse : Request.parse arguments =
      .ok ⟨0, some "l.log", .generate ⟨none, some 1, none, none, some "o.h"⟩ false⟩ := rfl
  have hopening : (⟨0, some "l.log", .generate ⟨none, some 1, none, none, some "o.h"⟩ false⟩ :
      Request).opening .fresh = .ok (some ["l.log"], Directory.fresh.put ["l.log"] (.file "")) := by
    have hname : (Directory.components "l.log").getLast? = some "l.log" := by decide
    exact Request.opening_of_entry?_eq_none rfl rfl (by decide +kernel) hname (by decide)
  have hfree : ∀ r, Request.parse arguments = .ok r → r.temporaryIsFree .usual .fresh = true := by
    intro r hr
    rw [hparse, Except.ok.injEq] at hr
    subst hr
    decide +kernel
  have hcode : outcome.exitCode = 0 := by decide +kernel
  have hchanges := ((runOn_changes .usual arguments ⟨2024, 1, 1, 0, 0, 0, 0⟩ .fresh hfree).2.2 _
    hparse).2 _ _ hopening
  obtain ⟨a, p, -, hwritten, hsame⟩ := (if_pos (And.intro rfl hcode) ▸ hchanges.2)
  exact ⟨hfree, hcode, a, p, hwritten, hsame⟩

/-! ### What is read after a header was written -/

namespace Directory

/-- Replacing the file that a path names, while a log is open, leaves a place alone: the place is
not on the way of the path, and neither the file beside nor the log is there. -/
structure Spares (d : Directory) (host : Host) (log : Option Place) (path : String) (p : Place) :
    Prop where
  way : ∀ q ∈ Directory.way path, q.path ≠ p.path
  beside : ∀ t, d.temporary? host path = some t → t.path ≠ p.path
  log : ∀ q ∈ log, q.path ≠ p.path

/-- **A path that leads to a place reads the same** after a file was replaced that leaves the place
alone, also while a log at another place goes on. -/
theorem Spares.read_eq {d e : Directory} {host : Host} {log : Option Place} {path other : String}
    {p q : Place} (h : d.Spares host log path q) (hother : d.locate other = .ok q)
    {record content : String}
    (hsink : ∀ t, (d.logged log record).temporary? host path = some t →
      (d.logged log record)[t.path]? ≠ some .sink)
    (hreplace : (d.logged log record).replace host path content = (e, .ok p)) (after : String) :
    (e.logged (log.filter (·.path != p.path)) after).read other = d.read other := by
  have hbefore := sameShape_logged d log record
  obtain ⟨hkeeps, hoff⟩ := getElem?_replace_of_off hsink hreplace
  refine ((hbefore.keepsFolders.trans hkeeps).trans
    (sameShape_logged e _ after).keepsFolders).read_eq hother ?_
  have hlog : ∀ l ∈ log.filter (·.path != p.path), l.path ≠ q.path := fun l hl =>
    h.log l (Option.mem_filter_iff.1 hl).1
  rw [getElem?_logged hlog, hoff _ h.way (hbefore.temporary?_eq host path ▸ h.beside),
    getElem?_logged h.log]

theorem HasOnlyNullDevice.of_opening {d e : Directory} (h : d.HasOnlyNullDevice) {r : Request}
    {log : Option Place} (hopening : r.opening d = .ok (log, e)) : e.HasOnlyNullDevice := by
  rcases (Request.opening_cases hopening).2 with rfl | ⟨p, -, -, rfl⟩
  · exact h
  · exact h.put_file p ""

end Directory

/-- A header that was written can be read, and what it leaves alone reads as before. -/
theorem Action.read_generate {a : HeaderArguments} {w w' : World}
    (hdevices : w.directory.HasOnlyNullDevice) (h : (generate a false).run w = .ok () w') :
    ∃ settings text, a.settingsIn w.directory = .ok settings ∧
      Header.render settings.options w.time = .ok text ∧
      w'.directory.read settings.out = .ok text ∧
      ∀ path p, w.directory.locate path = .ok p →
        w.directory.Spares w.host w.log settings.out p →
          w'.directory.read path = w.directory.read path := by
  rcases generate_cases a w with ⟨failure, -, hrun⟩ | ⟨settings, text, record, hsettings, hrender,
    ⟨e, fault, w₁, -, hrun, -⟩ | ⟨e, p, w₁, record', hreplace, hrun, he⟩⟩
  · simp [h] at hrun
  · simp [h] at hrun
  · rw [h, EStateM.Result.ok.injEq] at hrun
    obtain ⟨-, rfl⟩ := hrun
    have hdevices' := hdevices.of_sameShape (Directory.sameShape_logged w.directory w.log record)
    have hsink := fun t ht => hdevices'.temporary_ne w.host settings.out t ht
    obtain ⟨-, -, hp, -⟩ := Directory.locate_of_replace hsink hreplace
    obtain ⟨hlocate, hcontent⟩ := Directory.found_of_replace hsink hreplace w.log record'
    rw [he]
    exact ⟨settings, text, hsettings, hrender, Directory.read_of_locate hlocate hp hcontent,
      fun path q hq hspares => hspares.read_eq hq hsink hreplace record'⟩

/-- **A run that writes a header and ends well** leaves the header of the settings that it found at
its output, and every path that leads to a place which it leaves alone reads as it found it. -/
theorem runOn_generate {host : Directory.Host} {arguments : List String} {verbosity : Nat}
    {logFile : Option String} {a : HeaderArguments} {time : Timestamp} {d : Directory}
    (hparse : Request.parse arguments = .ok ⟨verbosity, logFile, .generate a false⟩)
    (hdevices : d.HasOnlyNullDevice) (hcode : (runOn host arguments time d).exitCode = 0) :
    ∃ log found settings text,
      Request.opening ⟨verbosity, logFile, .generate a false⟩ d = .ok (log, found) ∧
      a.settingsIn found = .ok settings ∧ Header.render settings.options time = .ok text ∧
      (runOn host arguments time d).directory.read settings.out = .ok text ∧
      ∀ path p, found.locate path = .ok p → found.Spares host log settings.out p →
        (runOn host arguments time d).directory.read path = found.read path := by
  rw [runOn_eq hparse] at hcode ⊢
  cases hopening : Request.opening ⟨verbosity, logFile, .generate a false⟩ d with
  | error fault =>
      rw [hopening] at hcode
      cases hcode
  | ok opened =>
      obtain ⟨log, found⟩ := opened
      rw [hopening] at hcode
      simp only [Command.run] at hcode ⊢
      cases hresult : (Action.generate a false).run
          ⟨host, time, found, log, Level.ofVerbosity verbosity, ""⟩ with
      | error failure w =>
          rw [hresult] at hcode
          cases failure <;> cases hcode
      | ok _ w =>
          obtain ⟨settings, text, hread⟩ :=
            Action.read_generate (hdevices.of_opening hopening) hresult
          exact ⟨log, found, settings, text, rfl, hread⟩

end VariadicMacros
