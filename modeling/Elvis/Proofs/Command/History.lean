import Elvis.Command.Request
import Elvis.Proofs.Artifact
import Elvis.Proofs.OptionSet.Acceptance

/-!
# Histories of runs

What a run leaves behind, whatever the runs before it did. A run that is refused changes nothing, a
run that succeeds puts a whole file at its path, and a run that fails to do so leaves at most a
temporary file (`Run.Intact`).
-/

namespace Elvis.Command

open Args (CommandLine)
open Artifact (IsTemporary)
open Directive (Source)
open FileSystem (Puts)

/-! ## Requests -/

/-- What a command line with a name and two URLs asks for: a script or a completion file, and where
it goes. -/
structure Order where
  settings : Settings
  sources : List Source
  completion : Bool
  path : Bytes

def Order.ofLine? (line : CommandLine) : Option Order :=
  match line.parsed.positionals with
  | [name, baseUrl, searchUrl] =>
      let completion := line.getSwitch "--bash-completion" false
      some
        { settings := settingsOf line name baseUrl searchUrl
          sources := line.parsed.occurrences.filterMap sourceOf?
          completion
          path := outputPath line completion name }
  | _ => none

def order? (words : List Bytes) : Option Order :=
  Order.ofLine? (CommandLine.ofWords table style words)

/-- The content is the whole completion file, or the whole script behind the line that names its
interpreter. -/
def Order.Compiles (order : Order) (content : Bytes) : Prop :=
  if order.completion then compileBashCompletion order.settings order.sources = .ok content
  else ∃ script, compile order.settings order.sources = .ok script ∧
    content = "#!/bin/sh\n" ++ script

/-- Help or the version is asked for instead. -/
def asksForHelp (words : List Bytes) : Bool :=
  let line := CommandLine.ofWords table style words
  line.getSwitch "--help" false || line.getSwitch "--version" false

/-- What can become of a command line. -/
inductive Asks (words : List Bytes) : Request → Prop
  | refused {errors : Bytes} : Asks words (refused errors)
  | help {report : Report} :
      asksForHelp words → report.code = .ok → Asks words (.answer report)
  | print {order : Order} {content : Bytes} {diagnostics : Diagnostics} {errors : Bytes} :
      asksForHelp words = false → order? words = some order → order.Compiles content →
      order.path = "-" → Asks words (.print content diagnostics errors)
  | write {order : Order} {content : Bytes} {diagnostics : Diagnostics} {errors : Bytes} :
      asksForHelp words = false → order? words = some order → order.Compiles content →
      order.path ≠ "-" →
      Asks words (.write ⟨order.path, order.settings.name, content, modeOf order.completion⟩
        diagnostics errors)

variable {words : List Bytes}

theorem Order.compiles_of_generate {order : Order} {content : Bytes}
    (h : generate order.completion order.settings order.sources = .ok content) :
    order.Compiles content := by
  unfold generate at h
  unfold Order.Compiles
  split at h
  · next hcompletion => rwa [if_pos hcompletion]
  · next hcompletion =>
    rw [if_neg hcompletion]
    obtain ⟨script, hscript, hcontent⟩ := map_eq_ok_iff.mp h
    exact ⟨script, hscript, hcontent.symm⟩

theorem asks_compileRequest {name baseUrl searchUrl : Bytes} (diagnostics : Diagnostics)
    (hhelp : asksForHelp words = false)
    (hpositionals : (CommandLine.ofWords table style words).parsed.positionals =
      [name, baseUrl, searchUrl]) :
    Asks words (compileRequest diagnostics (CommandLine.ofWords table style words)
      name baseUrl searchUrl) := by
  let line := CommandLine.ofWords table style words
  let order : Order :=
    { settings := settingsOf line name baseUrl searchUrl
      sources := line.parsed.occurrences.filterMap sourceOf?
      completion := line.getSwitch "--bash-completion" false
      path := outputPath line (line.getSwitch "--bash-completion" false) name }
  have horder : order? words = some order := by
    unfold order? Order.ofLine?
    rw [hpositionals]
  unfold compileRequest
  dsimp only
  split
  · exact .refused
  · next content hcontent =>
    have hcompiles : order.Compiles content := Order.compiles_of_generate hcontent
    split
    · next hpath => exact .print hhelp horder hcompiles hpath
    · next hpath => exact .write hhelp horder hcompiles hpath

theorem asks_lineRequest (diagnostics : Diagnostics) :
    Asks words (lineRequest diagnostics (CommandLine.ofWords table style words)) := by
  unfold lineRequest
  split
  · next hhelp => exact .help (Bool.or_eq_true_iff.mpr (.inl hhelp)) rfl
  · next hhelp =>
    split
    · next hversion => exact .help (Bool.or_eq_true_iff.mpr (.inr hversion)) rfl
    · next hversion =>
      rw [Bool.not_eq_true] at hhelp hversion
      have hneither : asksForHelp words = false := Bool.or_eq_false_iff.mpr ⟨hhelp, hversion⟩
      split
      · next name baseUrl searchUrl hpositionals =>
        exact asks_compileRequest diagnostics hneither hpositionals
      · exact .refused

theorem asks_request (terminal : Terminal) (words : List Bytes) :
    Asks words (request terminal words) := by
  unfold request
  dsimp only
  split
  · exact .refused
  · split
    · exact .refused
    · exact asks_lineRequest _

/-- A script or a completion file is made only for a name that can be the name of a file. -/
theorem Order.Compiles.slash_not_mem {order : Order} {content : Bytes}
    (h : order.Compiles content) : Byte.slash ∉ order.settings.name := by
  have hset : ∃ set, optionSet order.settings order.sources = .ok set := by
    unfold Order.Compiles at h
    split at h
    · obtain ⟨set, hset, _⟩ := map_eq_ok_iff.mp h
      exact ⟨set, hset⟩
    · obtain ⟨script, hscript, _⟩ := h
      obtain ⟨set, hset, _⟩ := map_eq_ok_iff.mp hscript
      exact ⟨set, hset⟩
  obtain ⟨set, hset⟩ := hset
  obtain ⟨ds, _, hbuild⟩ := bind_eq_ok_iff.mp hset
  obtain ⟨hwellFormed, _⟩ := OptionSet.build_eq_ok_iff.mp hbuild
  exact hwellFormed.settings.name.2

/-! ## Runs -/

/-- A run of a command line, and how the system answers its calls. -/
structure Invocation where
  calls : SystemCalls
  terminal : Terminal
  outputWorks : Bool
  words : List Bytes

structure Run where
  words : List Bytes
  before : FileSystem
  report : Report
  after : FileSystem

def Invocation.runIn (invocation : Invocation) (fs : FileSystem) : Run :=
  let (report, after) :=
    runWith invocation.calls invocation.terminal invocation.outputWorks fs invocation.words
  ⟨invocation.words, fs, report, after⟩

/-- Each run finds the files as the run before it leaves them. -/
def history (fs : FileSystem) : List Invocation → List Run
  | [] => []
  | invocation :: rest =>
      invocation.runIn fs :: history (invocation.runIn fs).after rest

/-- The run does not damage any file. -/
structure Run.Intact (run : Run) : Prop where
  /-- A run that is refused or that answers at once changes nothing. -/
  usage : run.report.code = .usage → run.report.output = [] ∧ run.after = run.before
  help : asksForHelp run.words → run.after = run.before
  /-- A run that fails leaves at most a temporary file that was not there. -/
  systemError : run.report.code = .systemError → ∃ order, order? run.words = some order ∧
    run.report.output = [] ∧
    (run.after = run.before ∨ order.path ≠ "-" ∧ ∃ location file,
      IsTemporary run.before order.path order.settings.name location ∧
      run.before.file? location = none ∧ Puts run.before run.after location (some file))
  /-- A run that succeeds gives the whole text, in a file unless the path is a dash. -/
  ok : run.report.code = .ok → asksForHelp run.words = false →
    ∃ order content, order? run.words = some order ∧ order.Compiles content ∧
      (order.path = "-" → run.after = run.before) ∧
      (order.path ≠ "-" → run.report.output = [] ∧ ∃ location,
        run.after.location? order.path = some location ∧
        Puts run.before run.after location
          (some ⟨if order.completion then 0o644 else 0o755, content⟩))

/-- No path that a call is given has a zero byte. -/
def Invocation.Nameable (invocation : Invocation) : Prop :=
  ∀ order ∈ order? invocation.words, 0 ∉ order.settings.name ∧ 0 ∉ order.path

instance (invocation : Invocation) : Decidable invocation.Nameable :=
  inferInstanceAs (Decidable (∀ order ∈ order? invocation.words, _))

section Runs

variable {invocation : Invocation} {fs : FileSystem} {order : Order} {content errors : Bytes}
  {diagnostics : Diagnostics} {report : Report}

theorem intact_refused : (⟨words, fs,
    if invocation.outputWorks then ⟨.usage, [], errors⟩ else ⟨.usage, [], errors⟩, fs⟩ :
      Run).Intact := by
  rw [ite_self]
  exact
    { usage := fun _ => ⟨rfl, rfl⟩
      help := fun _ => rfl
      systemError := nofun
      ok := nofun }

theorem intact_help (hhelp : asksForHelp words) (hcode : report.code = .ok) :
    (⟨words, fs, report, fs⟩ : Run).Intact where
  usage husage := by
    rw [hcode] at husage
    cases husage
  help _ := rfl
  systemError herror := by
    rw [hcode] at herror
    cases herror
  ok _ hneither := by
    rw [hhelp] at hneither
    cases hneither

theorem intact_print (horder : order? words = some order) (hcompiles : order.Compiles content)
    (hpath : order.path = "-") (outputWorks : Bool) :
    (⟨words, fs, printed outputWorks content diagnostics errors, fs⟩ : Run).Intact := by
  cases outputWorks with
  | false =>
    exact
      { usage := nofun
        help := fun _ => rfl
        systemError := fun _ => ⟨order, horder, rfl, .inl rfl⟩
        ok := nofun }
  | true =>
    exact
      { usage := nofun
        help := fun _ => rfl
        systemError := nofun
        ok := fun _ _ =>
          ⟨order, content, horder, hcompiles, fun _ => rfl, fun hfile => absurd hpath hfile⟩ }

theorem intact_write {calls : SystemCalls} {after : FileSystem} {failure : Option WriteFailure}
    (hlawful : calls.Lawful) (hhelp : asksForHelp words = false)
    (horder : order? words = some order) (hcompiles : order.Compiles content)
    (hpath : order.path ≠ "-") (hname : 0 ∉ order.settings.name) (hzero : 0 ∉ order.path)
    (hwrite : Artifact.write calls fs
      ⟨order.path, order.settings.name, content, modeOf order.completion⟩ = (after, failure)) :
    (⟨words, fs, written ⟨order.path, order.settings.name, content, modeOf order.completion⟩
      diagnostics errors failure, after⟩ : Run).Intact := by
  have hnameable : Artifact.Nameable
      ⟨order.path, order.settings.name, content, modeOf order.completion⟩ :=
    ⟨hzero, hname, hcompiles.slash_not_mem⟩
  have hneither (h : asksForHelp words) : after = fs := by
    rw [hhelp] at h
    cases h
  cases failure with
  | some failure =>
    have hleft := Artifact.write_eq_some hlawful hnameable hwrite
    exact
      { usage := nofun
        help := hneither
        systemError := fun _ => ⟨order, horder, rfl, hleft.imp_right fun h => ⟨hpath, h⟩⟩
        ok := nofun }
  | none =>
    obtain ⟨location, hlocation, hputs⟩ := Artifact.write_eq_none hlawful hnameable hwrite
    exact
      { usage := nofun
        help := hneither
        systemError := nofun
        ok := fun _ _ =>
          ⟨order, content, horder, hcompiles, fun hdash => absurd hdash hpath, fun _ =>
            ⟨rfl, location, hputs.location?.trans hlocation, hputs⟩⟩ }

/-- One run. -/
theorem intact_runIn (fs : FileSystem) (hlawful : invocation.calls.Lawful)
    (hnameable : invocation.Nameable) : (invocation.runIn fs).Intact := by
  have hasks := asks_request invocation.terminal invocation.words
  unfold Invocation.runIn runWith
  generalize request invocation.terminal invocation.words = asked at hasks
  cases hasks with
  | refused => exact intact_refused
  | help hhelp hcode =>
    refine intact_help hhelp ?_
    split
    · exact hcode
    · exact hcode
  | print _ horder hcompiles hpath => exact intact_print horder hcompiles hpath _
  | write hhelp horder hcompiles hpath =>
    obtain ⟨hname, hzero⟩ := hnameable _ horder
    exact intact_write hlawful hhelp horder hcompiles hpath hname hzero rfl

end Runs

/-! ## Histories -/

/-- The files after all runs. -/
def afterAll (fs : FileSystem) : List Invocation → FileSystem
  | [] => fs
  | invocation :: rest => afterAll (invocation.runIn fs).after rest

/-- The run succeeds in writing a file to the location. -/
def Run.Writes (run : Run) (location : Location) : Prop :=
  run.report.code = .ok ∧ ∃ order, order? run.words = some order ∧ order.path ≠ "-" ∧
    run.after.location? order.path = some location

theorem Run.Intact.file?_eq {run : Run} (h : run.Intact) {location : Location}
    (hthere : (run.before.file? location).isSome) (hwrites : ¬ run.Writes location) :
    run.after.file? location = run.before.file? location := by
  cases hcode : run.report.code with
  | usage => rw [(h.usage hcode).2]
  | systemError =>
    obtain ⟨order, _, _, hafter | ⟨_, temporary, file, _, hnone, hputs⟩⟩ := h.systemError hcode
    · rw [hafter]
    · refine hputs.elsewhere location fun heq => ?_
      rw [heq, hnone] at hthere
      cases hthere
  | ok =>
    cases hhelp : asksForHelp run.words with
    | true => rw [h.help hhelp]
    | false =>
      obtain ⟨order, content, horder, _, hdash, hfile⟩ := h.ok hcode hhelp
      by_cases hpath : order.path = "-"
      · rw [hdash hpath]
      · obtain ⟨_, target, htarget, hputs⟩ := hfile hpath
        refine hputs.elsewhere location fun heq => hwrites ?_
        exact ⟨hcode, order, horder, hpath, heq ▸ htarget⟩

/-- A file stays as it is until a run succeeds in writing to its location. -/
theorem file?_afterAll (fs : FileSystem) {invocations : List Invocation} {location : Location}
    (hlawful : ∀ invocation ∈ invocations, invocation.calls.Lawful)
    (hnameable : ∀ invocation ∈ invocations, invocation.Nameable)
    (hthere : (fs.file? location).isSome)
    (hwrites : ∀ run ∈ history fs invocations, ¬ run.Writes location) :
    (afterAll fs invocations).file? location = fs.file? location := by
  induction invocations generalizing fs with
  | nil => rfl
  | cons invocation rest ih =>
    rw [List.forall_mem_cons] at hlawful hnameable
    unfold history at hwrites
    rw [List.forall_mem_cons] at hwrites
    have hrun : (invocation.runIn fs).after.file? location = fs.file? location :=
      (intact_runIn fs hlawful.1 hnameable.1).file?_eq hthere hwrites.1
    have hstays := ih (invocation.runIn fs).after hlawful.2 hnameable.2 (hrun ▸ hthere) hwrites.2
    exact hstays.trans hrun

/-- No run of a history damages a file, whatever the runs before it left behind. -/
theorem history_intact (fs : FileSystem) {invocations : List Invocation}
    (hlawful : ∀ invocation ∈ invocations, invocation.calls.Lawful)
    (hnameable : ∀ invocation ∈ invocations, invocation.Nameable) :
    ∀ run ∈ history fs invocations, run.Intact := by
  induction invocations generalizing fs with
  | nil => exact List.forall_mem_nil _
  | cons invocation rest ih =>
    rw [List.forall_mem_cons] at hlawful hnameable
    unfold history
    exact List.forall_mem_cons.mpr
      ⟨intact_runIn fs hlawful.1 hnameable.1, ih _ hlawful.2 hnameable.2⟩

def sampleFiles : FileSystem := ⟨[["site"]], [(["demo"], ⟨0o600, "old"⟩)], []⟩

def sampleSettings : Settings :=
  { name := "demo"
    baseUrl := "example.org"
    searchUrl := "example.org/?q="
    description := none
    queryParameter := none
    appendSearchArgs := true
    enableCompletions := true
    insecure := false
    numTabs := 1
    generator := "mkelvis" }

/-- Signals come between the writes, which are short. -/
def haltingCalls : SystemCalls :=
  { FileSystem.calls with
    writes := [.interrupted, .accepted 7, .accepted 0, .interrupted, .accepted 300] }

/-- There is no room for more than the first line. -/
def fullCalls : SystemCalls :=
  { FileSystem.calls with
    writes := [.accepted 10, .failed (.other "No space left on device")] }

def failingSync : SystemCalls :=
  { FileSystem.calls with sync := some (.other "Input/output error") }

/-- The second run finds no room, the third cannot replace a directory, and the fifth does not come
to rename its file. -/
def sampleInvocations : List Invocation :=
  ([(haltingCalls, ["demo", "example.org", "example.org/?q="]),
    (fullCalls, ["--output=site/other", "demo", "example.org", "example.org/?q="]),
    (FileSystem.calls, ["--output=site", "demo", "example.org", "example.org/?q="]),
    (haltingCalls, ["--yes-no=safe", "demo", "example.org", "example.org/?q="]),
    (failingSync, ["--bash-completion", "demo", "example.org", "example.org/?q="]),
    (haltingCalls,
      ["--bash-completion", "-o", "site/demo", "demo", "example.org", "example.org/?q="])] :
    List (SystemCalls × List Bytes)).map fun (calls, words) =>
      ⟨calls, ⟨false, false, false⟩, true, words⟩

theorem history_intact_sample :
    (∀ run ∈ history sampleFiles sampleInvocations, run.Intact) ∧
      (history sampleFiles sampleInvocations).map (·.report.code) =
        [.ok, .systemError, .systemError, .usage, .systemError, .ok] ∧
      ∃ script completionFile, compile sampleSettings [] = .ok script ∧
        compileBashCompletion sampleSettings [] = .ok completionFile ∧
        (afterAll sampleFiles sampleInvocations).files =
          ([(["demo"], ⟨0o755, "#!/bin/sh\n" ++ script⟩),
            (["site", "demo.000000.mkelvis.tmp"], ⟨0o600, "#!/bin/sh\n"⟩),
            (["demo.000000.mkelvis.tmp"], ⟨0o755, "#!/bin/sh\n" ++ script⟩),
            (["demo.000001.mkelvis.tmp"], ⟨0o600, completionFile⟩),
            (["site", "demo"], ⟨0o644, completionFile⟩)] : List (Location × File)) := by
  have hlawful : ∀ invocation ∈ sampleInvocations, invocation.calls.Lawful := by
    simp only [sampleInvocations, List.map_cons, List.map_nil, List.forall_mem_cons]
    exact ⟨FileSystem.calls_lawful rfl rfl, FileSystem.calls_lawful rfl rfl,
      FileSystem.calls_lawful rfl rfl, FileSystem.calls_lawful rfl rfl,
      FileSystem.calls_lawful rfl rfl, FileSystem.calls_lawful rfl rfl, List.forall_mem_nil _⟩
  have hnameable : ∀ invocation ∈ sampleInvocations, invocation.Nameable := by decide
  exact ⟨history_intact sampleFiles hlawful hnameable, by decide, _, _, rfl, rfl,
    by decide +kernel⟩

end Elvis.Command
