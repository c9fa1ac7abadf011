import Elvis.Proofs.Command.Words

/-!
# Flags for the diagnostics alone

Words that ask for more or less output, or for colours, may stand before any command line. It is
then read as before, up to these flags (`agree_ambientWords`). No other answer is taken from them,
so the two command lines make the same request, and a run differs in its diagnostics alone
(`runWith_ambientWords`).
-/

namespace Elvis.Command

open Args (Occurrence CommandLine Gives Reads)

/-! ## Words -/

def ambientWords : List Bytes :=
  ["-v", "--verbose", "-q", "--quiet", "--color=auto", "--color=always", "--color=never"]

def ambientNames : List Bytes := ambientFlags.map (·.spec.long)

/-- A flag for the diagnostics that no run is refused for. -/
structure IsAmbient (o : Occurrence) : Prop where
  name : o.name ∈ ambientNames
  color : o.name = "--color" → (ColorMode.ofName? o.value).isSome

variable {flags words : List Bytes} {o : Occurrence} {os : List Occurrence}
  {line line' : CommandLine}

theorem gives_ambientWord :
    ∀ word ∈ ambientWords, ∃ o, IsAmbient o ∧ Gives table style word o := by
  have hverbose : IsAmbient ⟨"--verbose", "1"⟩ := ⟨by decide, by decide⟩
  have hquiet : IsAmbient ⟨"--quiet", Args.switchText true⟩ := ⟨by decide, by decide⟩
  have hspec : (⟨"--color", "", .text "auto"⟩ : Args.FlagSpec) ∈ table := by decide
  have hcolor (mode : ColorMode) : IsAmbient ⟨"--color", mode.name⟩ :=
    ⟨by cases mode <;> decide, fun _ => by cases mode <;> decide⟩
  have hgiven (mode : ColorMode) :
      Gives table style (assignment "--color" mode.name) ⟨"--color", mode.name⟩ :=
    gives_assignment_long hspec nofun rfl
  intro word hword
  simp only [ambientWords, List.mem_cons, List.not_mem_nil, or_false] at hword
  rcases hword with rfl | rfl | rfl | rfl | rfl | rfl | rfl
  · exact ⟨_, hverbose, by decide, by decide, rfl⟩
  · exact ⟨_, hverbose, by decide, by decide, rfl⟩
  · exact ⟨_, hquiet, by decide, by decide, rfl⟩
  · exact ⟨_, hquiet, by decide, by decide, rfl⟩
  · exact ⟨_, hcolor .auto, hgiven .auto⟩
  · exact ⟨_, hcolor .always, hgiven .always⟩
  · exact ⟨_, hcolor .never, hgiven .never⟩

theorem reads_ambientWords (h : ∀ word ∈ flags, word ∈ ambientWords) :
    ∃ os, (∀ o ∈ os, IsAmbient o) ∧ Reads table style flags os := by
  induction flags with
  | nil => exact ⟨[], nofun, Args.reads_nil⟩
  | cons word flags ih =>
    obtain ⟨hword, hflags⟩ := List.forall_mem_cons.mp h
    obtain ⟨o, ho, hgives⟩ := gives_ambientWord word hword
    obtain ⟨os, hos, hreads⟩ := ih hflags
    exact ⟨o :: os, List.forall_mem_cons.mpr ⟨ho, hos⟩, hgives.reads.append hreads⟩

/-! ## Command lines -/

/-- The lines differ in flags for the diagnostics alone, and both name a colour mode or neither
does. -/
structure Agree (line line' : CommandLine) : Prop where
  tables : line.table = table ∧ line'.table = table
  positionals : line.parsed.positionals = line'.parsed.positionals
  error : line.parsed.error = line'.parsed.error
  occurrences : line.parsed.occurrences.filter (·.name ∉ ambientNames) =
    line'.parsed.occurrences.filter (·.name ∉ ambientNames)
  color : (ColorMode.ofName? (line.getText "--color" "auto")).isSome =
    (ColorMode.ofName? (line'.getText "--color" "auto")).isSome

theorem getText_color_eq (parsed : Args.Parsed) :
    CommandLine.getText ⟨table, parsed⟩ "--color" "auto" =
      (CommandLine.values ⟨table, parsed⟩ "--color").getLast?.getD "auto" := by
  have hdefault : (((table.resolve? "--color").bind table.default?).bind some).getD "auto" =
      "auto" := by
    decide
  unfold CommandLine.getText CommandLine.get
  split
  · next h => rw [h, Option.getD_some]
  · next h => rwa [h]

/-- The last colour mode counts, and one that is given in front is a known one, as the default. -/
theorem isSome_color_after (hos : ∀ o ∈ os, IsAmbient o) (parsed : Args.Parsed) :
    (ColorMode.ofName? (CommandLine.getText ⟨table, parsed.after os⟩ "--color" "auto")).isSome =
      (ColorMode.ofName? (CommandLine.getText ⟨table, parsed⟩ "--color" "auto")).isSome := by
  have hresolve : table.resolve? "--color" = some ("--color" : Bytes) :=
    (resolve?_otherName _ (by decide)).1
  have hauto : (ColorMode.ofName? "auto").isSome := by decide
  obtain ⟨modes, hmodes, hvalues⟩ : ∃ modes : List Bytes,
      (∀ mode ∈ modes, (ColorMode.ofName? mode).isSome) ∧
      CommandLine.values ⟨table, parsed.after os⟩ "--color" =
        modes ++ CommandLine.values ⟨table, parsed⟩ "--color" := by
    refine ⟨(os.filter (·.name = ("--color" : Bytes))).map (·.value),
      fun mode hmode => ?_, ?_⟩
    · obtain ⟨o, ho, rfl⟩ := List.mem_map.mp hmode
      obtain ⟨ho, hname⟩ := List.mem_filter.mp ho
      exact (hos o ho).color (of_decide_eq_true hname)
    · simp [CommandLine.values_eq, hresolve, Args.Parsed.after]
  rw [getText_color_eq, getText_color_eq, hvalues, List.getLast?_append]
  cases (CommandLine.values ⟨table, parsed⟩ "--color").getLast? with
  | some last => rfl
  | none =>
    cases hlast : modes.getLast? with
    | none => rfl
    | some mode =>
      have hmode := hmodes mode (List.mem_of_getLast? hlast)
      exact hmode.trans hauto.symm

theorem agree_after (hos : ∀ o ∈ os, IsAmbient o) (parsed : Args.Parsed) :
    Agree ⟨table, parsed.after os⟩ ⟨table, parsed⟩ where
  tables := ⟨rfl, rfl⟩
  positionals := rfl
  error := rfl
  occurrences := by
    have hnone : os.filter (·.name ∉ ambientNames) = [] :=
      List.filter_eq_nil_iff.mpr fun o ho => by simp [(hos o ho).name]
    show (os ++ parsed.occurrences).filter _ = _
    rw [List.filter_append, hnone, List.nil_append]
  color := isSome_color_after hos parsed

theorem agree_ambientWords (h : ∀ word ∈ flags, word ∈ ambientWords) (words : List Bytes) :
    Agree (CommandLine.ofWords table style (flags ++ words))
      (CommandLine.ofWords table style words) := by
  obtain ⟨os, hos, hreads⟩ := reads_ambientWords h
  unfold CommandLine.ofWords
  rw [hreads words]
  exact agree_after hos _

namespace Agree

theorem values {name : Bytes} (h : Agree line line') (hname : name ∈ otherNames)
    (hambient : name ∉ ambientNames) : line.values name = line'.values name := by
  have hfilter (os : List Occurrence) : os.filter (·.name = name) =
      (os.filter (·.name ∉ ambientNames)).filter (·.name = name) := by
    rw [List.filter_filter]
    refine List.filter_congr fun o _ => ?_
    by_cases ho : o.name = name
    · simp [ho, hambient]
    · simp [ho]
  rw [CommandLine.values_eq, CommandLine.values_eq, h.tables.1, h.tables.2,
    (resolve?_otherName name hname).1]
  dsimp only
  rw [hfilter, h.occurrences, ← hfilter]

theorem get {α : Type} {read? : Bytes → Option α} {default : α} (h : Agree line line')
    (name : Bytes) (hname : name ∈ otherNames) (hambient : name ∉ ambientNames) :
    line.get read? name default = line'.get read? name default := by
  unfold CommandLine.get
  rw [h.values hname hambient, h.tables.1, h.tables.2]

theorem given? (h : Agree line line') (name : Bytes) (hname : name ∈ otherNames)
    (hambient : name ∉ ambientNames) : Command.given? line name = Command.given? line' name := by
  rw [given?_eq, given?_eq, h.values hname hambient]

/-- Flags for the diagnostics are no directives. -/
theorem sources (h : Agree line line') : line.parsed.occurrences.filterMap sourceOf? =
    line'.parsed.occurrences.filterMap sourceOf? := by
  have hnone (o : Occurrence) (ho : o.name ∈ ambientNames) : sourceOf? o = none := by
    obtain ⟨name, value⟩ := o
    simp only [ambientNames, ambientFlags, List.map_cons, List.map_nil, List.mem_cons,
      List.not_mem_nil, or_false] at ho
    rcases ho with rfl | rfl | rfl <;> rfl
  have hfilter (os : List Occurrence) : os.filterMap sourceOf? =
      (os.filter (·.name ∉ ambientNames)).filterMap sourceOf? := by
    rw [List.filterMap_filter]
    refine List.filterMap_congr fun o _ => ?_
    by_cases ho : o.name ∈ ambientNames
    · simp [ho, hnone o ho]
    · simp [ho]
  rw [hfilter, h.occurrences, ← hfilter]

theorem settings (h : Agree line line') (name baseUrl searchUrl : Bytes) :
    settingsOf line name baseUrl searchUrl = settingsOf line' name baseUrl searchUrl := by
  unfold settingsOf CommandLine.getSwitch CommandLine.getNumber
  rw [h.given? "--description" (by decide) (by decide),
    h.given? "--query-parameter" (by decide) (by decide),
    h.get "--no-append-args" (by decide) (by decide),
    h.get "--no-completions" (by decide) (by decide),
    h.get "--insecure" (by decide) (by decide),
    h.get "--num-tabs" (by decide) (by decide)]

theorem outputPath (h : Agree line line') (completion : Bool) (name : Bytes) :
    Command.outputPath line completion name = Command.outputPath line' completion name := by
  unfold Command.outputPath
  rw [h.given? "--output" (by decide) (by decide)]

end Agree

/-! ## Requests -/

/-- The requests differ in diagnostics alone. -/
inductive Request.Agree : Request → Request → Prop
  | answer {report report' : Report} : report.code = report'.code →
      report.output = report'.output → Agree (.answer report) (.answer report')
  | print {content errors errors' : Bytes} {diagnostics diagnostics' : Diagnostics} :
      Agree (.print content diagnostics errors) (.print content diagnostics' errors')
  | write {artifact : Artifact} {errors errors' : Bytes} {diagnostics diagnostics' : Diagnostics} :
      Agree (.write artifact diagnostics errors) (.write artifact diagnostics' errors')

theorem Request.Agree.refused (errors errors' : Bytes) :
    Request.Agree (refused errors) (refused errors') :=
  .answer rfl rfl

theorem Agree.compileRequest (h : Agree line line') (diagnostics diagnostics' : Diagnostics)
    (name baseUrl searchUrl : Bytes) :
    Request.Agree (Command.compileRequest diagnostics line name baseUrl searchUrl)
      (Command.compileRequest diagnostics' line' name baseUrl searchUrl) := by
  have hcompletion : line.getSwitch "--bash-completion" false =
      line'.getSwitch "--bash-completion" false :=
    h.get _ (by decide) (by decide)
  unfold Command.compileRequest
  dsimp only
  rw [h.settings, h.sources, hcompletion, h.outputPath]
  split
  · exact .refused _ _
  · split
    · exact .print
    · exact .write

theorem Agree.lineRequest (h : Agree line line') (diagnostics diagnostics' : Diagnostics) :
    Request.Agree (Command.lineRequest diagnostics line)
      (Command.lineRequest diagnostics' line') := by
  have hhelp : line.getSwitch "--help" false = line'.getSwitch "--help" false :=
    h.get _ (by decide) (by decide)
  have hversion : line.getSwitch "--version" false = line'.getSwitch "--version" false :=
    h.get _ (by decide) (by decide)
  unfold Command.lineRequest
  rw [hhelp, hversion, h.positionals]
  split
  · exact .answer rfl rfl
  · split
    · exact .answer rfl rfl
    · split
      · exact h.compileRequest _ _ _ _ _
      · exact .refused _ _

theorem request_agree {words' : List Bytes} (terminal : Terminal)
    (h : Agree (CommandLine.ofWords table style words) (CommandLine.ofWords table style words')) :
    Request.Agree (request terminal words) (request terminal words') := by
  have hcolor := h.color
  unfold request
  dsimp only
  rw [h.error]
  split
  · exact .refused _ _
  · cases hmode : ColorMode.ofName? ((CommandLine.ofWords table style words).getText _ _) with
    | none =>
      rw [hmode, Option.isSome_none, eq_comm, Option.isSome_eq_false_iff,
        Option.isNone_iff_eq_none] at hcolor
      rw [hcolor]
      exact .refused _ _
    | some mode =>
      rw [hmode] at hcolor
      obtain ⟨mode', hmode'⟩ := Option.isSome_iff_exists.mp hcolor.symm
      rw [hmode']
      exact h.lineRequest _ _

/-! ## Runs -/

/-- What is said on the error stream changes neither what is printed nor what is written. -/
theorem runWith_agree {words' : List Bytes} (calls : SystemCalls) (terminal : Terminal)
    (outputWorks : Bool) (fs : FileSystem)
    (h : Request.Agree (request terminal words) (request terminal words')) :
    let run := runWith calls terminal outputWorks fs words
    let run' := runWith calls terminal outputWorks fs words'
    run.1.code = run'.1.code ∧ run.1.output = run'.1.output ∧ run.2 = run'.2 := by
  unfold runWith
  generalize request terminal words = asked at h
  generalize request terminal words' = asked' at h
  cases h with
  | answer hcode houtput =>
    cases outputWorks with
    | true => exact ⟨hcode, houtput, rfl⟩
    | false => exact ⟨hcode, rfl, rfl⟩
  | print =>
    unfold printed
    cases outputWorks <;> exact ⟨rfl, rfl, rfl⟩
  | @write artifact =>
    dsimp only
    cases (artifact.write calls fs).2 <;> exact ⟨rfl, rfl, rfl⟩

/-- Words for the diagnostics, before any others, change nothing but the error stream, however the
calls of the system go. -/
theorem runWith_ambientWords (calls : SystemCalls) (terminal : Terminal) (outputWorks : Bool)
    (fs : FileSystem) (words : List Bytes) (h : ∀ word ∈ flags, word ∈ ambientWords) :
    let run := runWith calls terminal outputWorks fs (flags ++ words)
    let plain := runWith calls terminal outputWorks fs words
    run.1.code = plain.1.code ∧ run.1.output = plain.1.output ∧ run.2 = plain.2 :=
  runWith_agree calls terminal outputWorks fs (request_agree terminal (agree_ambientWords h words))

/-- A script is written all the same, though the words in front ask for silence and colours. -/
theorem runWith_ambientWords_sample :
    let flags : List Bytes := ["-v", "--color=always", "--quiet"]
    let words : List Bytes := ["--bool=safe:yes", "-o", "here", "sample", "sample.org", "find?"]
    let run := runWith FileSystem.calls ⟨true, false, false⟩ true ⟨[], [], []⟩ (flags ++ words)
    let plain := runWith FileSystem.calls ⟨true, false, false⟩ true ⟨[], [], []⟩ words
    (∀ word ∈ flags, word ∈ ambientWords) ∧
      run.1.code = plain.1.code ∧ run.1.output = plain.1.output ∧ run.2 = plain.2 := by
  intro flags words
  have hflags : ∀ word ∈ flags, word ∈ ambientWords := by decide
  exact ⟨hflags, runWith_ambientWords _ _ _ _ words hflags⟩

end Elvis.Command
