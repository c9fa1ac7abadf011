import Elvis.Command.Request
import Elvis.Proofs.Args.Store
import Elvis.Proofs.Args.Words
import Elvis.Proofs.Integer
import Elvis.Proofs.Keyed

/-!
# The command line of an elvis

Settings and directives as words of the command line, and that reading these words and asking for
the flags gives the settings and the directives back (`sources_lineOf`, `settingsOf_lineOf`).
-/

namespace Elvis.Command

open Args (FlagSpec Kind Occurrence CommandLine Gives switchText)
open Directive (Source)

/-! ## Words -/

def assignment (flag value : Bytes) : Bytes := flag ++ "=" ++ value

/-- A special option has a switch of its own. -/
def directiveWord (source : Source) : Bytes :=
  if source.type = .special then "--use-" ++ source.text ++ "-option"
  else assignment ("--" ++ source.type.name) source.text

/-- A text that is given, even if it is empty. -/
def textWords (flag : Bytes) (value : Option Bytes) : List Bytes :=
  value.toList.map (assignment flag)

def switchWords (flag : Bytes) (on : Bool) : List Bytes := if on then [flag] else []

def settingWords (s : Settings) : List Bytes :=
  [textWords "--description" s.description,
   textWords "--query-parameter" s.queryParameter,
   switchWords "--no-append-args" !s.appendSearchArgs,
   switchWords "--insecure" s.insecure,
   switchWords "--no-completions" !s.enableCompletions,
   [assignment "--num-tabs" (Bytes.ofInt s.numTabs)],
   [assignment "--output" "-"]].flatten

/-- The words that ask for the script of the settings and the directives on the output stream. -/
def wordsOf (s : Settings) (sources : List Source) : List Bytes :=
  sources.map directiveWord ++ settingWords s ++ [("--" : Bytes), s.name, s.baseUrl, s.searchUrl]

/-! ## Flags -/

def occurrenceOf (source : Source) : Occurrence :=
  if source.type = .special then ⟨"--use-" ++ source.text ++ "-option", switchText true⟩
  else ⟨"--" ++ source.type.name, source.text⟩

def switchValues (on : Bool) : List Bytes := if on then [switchText true] else []

/-- The values that the words of the settings give to each flag. -/
def settingValues (s : Settings) : List (Bytes × List Bytes) :=
  [("--description", s.description.toList),
   ("--query-parameter", s.queryParameter.toList),
   ("--no-append-args", switchValues !s.appendSearchArgs),
   ("--insecure", switchValues s.insecure),
   ("--no-completions", switchValues !s.enableCompletions),
   ("--num-tabs", [Bytes.ofInt s.numTabs]),
   ("--output", ["-"])]

def settingOccurrences (s : Settings) : List Occurrence :=
  (settingValues s).flatMap fun entry => entry.2.map (⟨entry.1, ·⟩)

/-- The specials are the two that there are. -/
def KnownSpecial (source : Source) : Prop :=
  source.type = .special → ∃ kind : SpecialKind, source.text = kind.name

variable {s : Settings} {sources : List Source} {source : Source} {spec : FlagSpec}

/-! ## Reading the words -/

/-- Every flag is found under its name, and its name can stand in a word. -/
theorem lookup?_long : ∀ spec ∈ table,
    table.lookup? spec.long = some (spec.long, spec.default.kind) := by
  decide

theorem long_readable : ∀ spec ∈ table,
    Args.isFlagWord spec.long ∧ ¬ Args.isGroupWord spec.long ∧ spec.long ≠ Args.terminator ∧
      Byte.equals ∉ spec.long := by
  decide

theorem gives_assignment_long {value text : Bytes} (hspec : spec ∈ table)
    (hkind : spec.default.kind ≠ .count)
    (haccept : spec.default.kind.accept? value = some text) :
    Gives table style (assignment spec.long value) ⟨spec.long, text⟩ := by
  obtain ⟨hword, _, _, hequals⟩ := long_readable spec hspec
  exact Args.gives_assignment hword hequals (lookup?_long spec hspec) hkind haccept

theorem gives_switch_long (hspec : spec ∈ table) (hkind : spec.default.kind = .switch) :
    Gives table style spec.long ⟨spec.long, switchText true⟩ := by
  obtain ⟨hword, hgroup, hterminator, hequals⟩ := long_readable spec hspec
  have hlookup := lookup?_long spec hspec
  rw [hkind] at hlookup
  exact Args.gives_alone hword hgroup hterminator hequals hlookup rfl

theorem mem_table_of_mem_directiveFlags {f : Flag} (h : f ∈ directiveFlags) :
    f.spec ∈ table :=
  List.mem_map_of_mem (List.mem_append_left _ (List.mem_append_left _ h))

theorem exists_directiveFlag {type : DirectiveType} (h : type ≠ .special) :
    ∃ f ∈ directiveFlags, f.spec.long = "--" ++ type.name ∧ f.spec.default.kind = .text := by
  cases type with
  | special => exact absurd rfl h
  | _ => decide

theorem exists_specialFlag (kind : SpecialKind) :
    ∃ f ∈ directiveFlags, f.spec.long = "--use-" ++ kind.name ++ "-option" ∧
      f.spec.default.kind = .switch := by
  cases kind <;> decide

theorem gives_directiveWord (h : KnownSpecial source) :
    Gives table style (directiveWord source) (occurrenceOf source) := by
  unfold directiveWord occurrenceOf
  by_cases htype : source.type = .special
  · obtain ⟨kind, hkind⟩ := h htype
    obtain ⟨f, hf, hlong, hswitch⟩ := exists_specialFlag kind
    rw [if_pos htype, if_pos htype, hkind, ← hlong]
    exact gives_switch_long (mem_table_of_mem_directiveFlags hf) hswitch
  · obtain ⟨f, hf, hlong, htext⟩ := exists_directiveFlag htype
    rw [if_neg htype, if_neg htype, ← hlong]
    refine gives_assignment_long (mem_table_of_mem_directiveFlags hf) ?_ ?_
    · rw [htext]
      exact nofun
    · rw [htext]
      rfl

theorem reads_textWords {name short : Bytes} (hspec : ⟨name, short, .text []⟩ ∈ table)
    (value : Option Bytes) :
    Args.Reads table style (textWords name value) (value.toList.map (⟨name, ·⟩)) :=
  Args.reads_map fun _ _ => gives_assignment_long hspec nofun rfl

theorem reads_switchWords {name short : Bytes} (hspec : ⟨name, short, .switch false⟩ ∈ table)
    (on : Bool) :
    Args.Reads table style (switchWords name on) ((switchValues on).map (⟨name, ·⟩)) := by
  cases on with
  | false => exact Args.reads_nil
  | true => exact (gives_switch_long hspec rfl).reads

theorem reads_settingWords (htabs : Integer.fits 32 s.numTabs) :
    Args.Reads table style (settingWords s) (settingOccurrences s) := by
  have hdescription : ⟨"--description", "", .text []⟩ ∈ table := by decide
  have hqueryParameter : ⟨"--query-parameter", "-Q", .text []⟩ ∈ table := by decide
  have hnoAppendArgs : ⟨"--no-append-args", "", .switch false⟩ ∈ table := by decide
  have hinsecure : ⟨"--insecure", "", .switch false⟩ ∈ table := by decide
  have hnoCompletions : ⟨"--no-completions", "", .switch false⟩ ∈ table := by decide
  have hnumTabs : ⟨"--num-tabs", "", .number 1⟩ ∈ table := by decide
  have houtput : ⟨"--output", "-o", .text []⟩ ∈ table := by decide
  have haccept : Kind.number.accept? (Bytes.ofInt s.numTabs) = some (Bytes.ofInt s.numTabs) := by
    unfold Kind.accept?
    simp [Integer.read32?_ofInt htabs]
  simp only [settingWords, List.flatten_cons, settingOccurrences, settingValues,
    List.flatMap_cons]
  exact (reads_textWords hdescription _).append <|
    (reads_textWords hqueryParameter _).append <|
    (reads_switchWords hnoAppendArgs _).append <|
    (reads_switchWords hinsecure _).append <|
    (reads_switchWords hnoCompletions _).append <|
    (gives_assignment_long hnumTabs nofun haccept).reads.append <|
    (gives_assignment_long houtput nofun rfl).reads.append Args.reads_nil

/-- The command line as it is read. -/
def lineOf (s : Settings) (sources : List Source) : CommandLine :=
  ⟨table, sources.map occurrenceOf ++ settingOccurrences s, [s.name, s.baseUrl, s.searchUrl], none⟩

theorem ofWords_wordsOf (hsources : ∀ source ∈ sources, KnownSpecial source)
    (htabs : Integer.fits 32 s.numTabs) :
    CommandLine.ofWords table style (wordsOf s sources) = lineOf s sources := by
  have hflags : Args.Reads table style (sources.map directiveWord ++ settingWords s)
      (sources.map occurrenceOf ++ settingOccurrences s) :=
    (Args.reads_map fun source hs => gives_directiveWord (hsources source hs)).append
      (reads_settingWords htabs)
  have hrest : Args.parse table style [("--" : Bytes), s.name, s.baseUrl, s.searchUrl] =
      ⟨[], [s.name, s.baseUrl, s.searchUrl], none⟩ := rfl
  unfold CommandLine.ofWords wordsOf
  rw [hflags, hrest]
  simp [lineOf, Args.Parsed.after]

/-! ## Directives -/

theorem sourceOf?_occurrenceOf (h : KnownSpecial source) :
    sourceOf? (occurrenceOf source) = some source := by
  obtain ⟨type, text⟩ := source
  by_cases htype : type = .special
  · subst htype
    obtain ⟨kind, rfl⟩ := h rfl
    cases kind <;> rfl
  · unfold occurrenceOf
    rw [if_neg htype]
    cases type with
    | special => exact absurd rfl htype
    | _ => rfl

/-- The flags of the settings are no directives. -/
theorem sourceOf?_settingOccurrences : ∀ o ∈ settingOccurrences s, sourceOf? o = none := by
  intro o ho
  obtain ⟨entry, hentry, hvalue⟩ := List.mem_flatMap.mp ho
  obtain ⟨value, _, rfl⟩ := List.mem_map.mp hvalue
  simp only [settingValues, List.mem_cons, List.not_mem_nil, or_false] at hentry
  rcases hentry with rfl | rfl | rfl | rfl | rfl | rfl | rfl <;> rfl

theorem sources_lineOf (hsources : ∀ source ∈ sources, KnownSpecial source) :
    (lineOf s sources).parsed.occurrences.filterMap sourceOf? = sources := by
  have hsettings : (settingOccurrences s).filterMap sourceOf? = [] :=
    List.filterMap_eq_nil_iff.mpr sourceOf?_settingOccurrences
  show (sources.map occurrenceOf ++ settingOccurrences s).filterMap sourceOf? = sources
  rw [List.filterMap_append, hsettings, List.append_nil, List.filterMap_map]
  calc sources.filterMap (sourceOf? ∘ occurrenceOf)
    _ = sources.filterMap some :=
      List.filterMap_congr fun source hs => sourceOf?_occurrenceOf (hsources source hs)
    _ = sources := List.filterMap_some

/-! ## Settings -/

theorem name_occurrenceOf_mem (h : KnownSpecial source) :
    (occurrenceOf source).name ∈ directiveFlags.map (·.spec.long) := by
  unfold occurrenceOf
  by_cases htype : source.type = .special
  · obtain ⟨kind, hkind⟩ := h htype
    obtain ⟨f, hf, hlong, _⟩ := exists_specialFlag kind
    rw [if_pos htype, hkind, ← hlong]
    exact List.mem_map_of_mem hf
  · obtain ⟨f, hf, hlong, _⟩ := exists_directiveFlag htype
    rw [if_neg htype, ← hlong]
    exact List.mem_map_of_mem hf

/-- The names of the flags that give no directive. -/
def otherNames : List Bytes :=
  (settingFlags ++ ambientFlags).map (·.spec.long) ++ (["--help", "--version"] : List Bytes)

theorem resolve?_otherName : ∀ name ∈ otherNames,
    table.resolve? name = some name ∧ name ∉ directiveFlags.map (·.spec.long) := by
  decide

/-- The names of the flags that the settings may give. -/
def settingNames : List Bytes :=
  ["--description", "--query-parameter", "--no-append-args", "--insecure", "--no-completions",
   "--num-tabs", "--output"]

theorem map_fst_settingValues (s : Settings) : (settingValues s).map Prod.fst = settingNames := rfl

theorem settingNames_subset : settingNames ⊆ otherNames := by decide

theorem nodup_settingNames : settingNames.Nodup := by decide

theorem values_flatMap (entries : List (Bytes × List Bytes)) (name : Bytes) :
    ((entries.flatMap fun entry => entry.2.map (Occurrence.mk entry.1 ·)).filter
        (·.name = name)).map (·.value) =
      (entries.filter (·.1 = name)).flatMap Prod.snd := by
  induction entries with
  | nil => rfl
  | cons entry entries ih =>
    rw [List.flatMap_cons, List.filter_append, List.map_append, ih, List.filter_map, List.filter_cons]
    by_cases h : entry.1 = name
    · simp [h, Function.comp_def]
    · simp [h, Function.comp_def]

/-- A flag that gives no directive has the values that the settings give to it. -/
theorem values_lineOf {name : Bytes} (hsources : ∀ source ∈ sources, KnownSpecial source)
    (hname : name ∈ otherNames) :
    (lineOf s sources).values name =
      ((settingValues s).filter (·.1 = name)).flatMap Prod.snd := by
  obtain ⟨hresolve, hdirective⟩ := resolve?_otherName name hname
  have hdirectives : (sources.map occurrenceOf).filter (·.name = name) = [] := by
    refine List.filter_eq_nil_iff.mpr fun o ho honame => ?_
    obtain ⟨source, hs, rfl⟩ := List.mem_map.mp ho
    exact hdirective (of_decide_eq_true honame ▸ name_occurrenceOf_mem (hsources source hs))
  rw [CommandLine.values_eq]
  dsimp only [lineOf]
  rw [hresolve]
  dsimp only
  rw [List.filter_append, hdirectives, List.nil_append]
  exact values_flatMap (settingValues s) name

theorem values_of_mem_settingValues {entry : Bytes × List Bytes}
    (hsources : ∀ source ∈ sources, KnownSpecial source) (h : entry ∈ settingValues s) :
    (lineOf s sources).values entry.1 = entry.2 := by
  have hname : entry.1 ∈ settingNames := map_fst_settingValues s ▸ List.mem_map_of_mem h
  have hnames : ((settingValues s).map Prod.fst).Nodup := nodup_settingNames
  rw [values_lineOf hsources (settingNames_subset hname), Keyed.filter_eq_singleton hnames h]
  exact List.append_nil _

theorem values_eq_nil {name : Bytes} (hsources : ∀ source ∈ sources, KnownSpecial source)
    (hname : name ∈ otherNames) (h : name ∉ settingNames) :
    (lineOf s sources).values name = [] := by
  have hfilter : (settingValues s).filter (·.1 = name) = [] := by
    refine List.filter_eq_nil_iff.mpr fun entry hentry hentryName => h ?_
    rw [← map_fst_settingValues s, ← of_decide_eq_true hentryName]
    exact List.mem_map_of_mem hentry
  rw [values_lineOf hsources hname, hfilter]
  rfl

theorem given?_eq (line : CommandLine) (flag : Bytes) :
    given? line flag = (line.values flag).getLast? := by
  unfold given? CommandLine.has CommandLine.getText CommandLine.get
  cases h : line.values flag with
  | nil => rfl
  | cons value values => simp [List.getLast?_cons]

/-- A switch that is not given is off. -/
theorem getSwitch_lineOf {flag : Bytes} {on : Bool}
    (hvalues : (lineOf s sources).values flag = switchValues on)
    (hdefault : (((table.resolve? flag).bind table.default?).bind Args.readSwitch?).getD false =
      false) :
    (lineOf s sources).getSwitch flag false = on := by
  unfold CommandLine.getSwitch CommandLine.get
  rw [hvalues]
  cases on with
  | false => exact hdefault
  | true => rfl

theorem getLast?_toList {α : Type} (value : Option α) : value.toList.getLast? = value := by
  cases value <;> rfl

theorem settingsOf_lineOf (hsources : ∀ source ∈ sources, KnownSpecial source)
    (htabs : Integer.fits 32 s.numTabs) (hgenerator : s.generator = program) :
    settingsOf (lineOf s sources) s.name s.baseUrl s.searchUrl = s := by
  have hvalues (name : Bytes) (values : List Bytes) (h : (name, values) ∈ settingValues s) :
      (lineOf s sources).values name = values :=
    values_of_mem_settingValues hsources h
  have hdescription : given? (lineOf s sources) "--description" = s.description := by
    rw [given?_eq, hvalues _ s.description.toList (by simp [settingValues]), getLast?_toList]
  have hqueryParameter : given? (lineOf s sources) "--query-parameter" = s.queryParameter := by
    rw [given?_eq, hvalues _ s.queryParameter.toList (by simp [settingValues]), getLast?_toList]
  have hnoAppendArgs : (lineOf s sources).getSwitch "--no-append-args" false =
      !s.appendSearchArgs :=
    getSwitch_lineOf (hvalues _ _ (by simp [settingValues])) (by decide)
  have hinsecure : (lineOf s sources).getSwitch "--insecure" false = s.insecure :=
    getSwitch_lineOf (hvalues _ _ (by simp [settingValues])) (by decide)
  have hnoCompletions : (lineOf s sources).getSwitch "--no-completions" false =
      !s.enableCompletions :=
    getSwitch_lineOf (hvalues _ _ (by simp [settingValues])) (by decide)
  have hnumTabs : (lineOf s sources).getNumber "--num-tabs" 1 = s.numTabs := by
    unfold CommandLine.getNumber CommandLine.get
    rw [hvalues _ [Bytes.ofInt s.numTabs] (by simp [settingValues])]
    simp [Integer.read32?_ofInt htabs]
  unfold settingsOf
  rw [hdescription, hqueryParameter, hnoAppendArgs, hinsecure, hnoCompletions, hnumTabs,
    ← hgenerator, Bool.not_not, Bool.not_not]

/-! ## Running the command line -/

theorem getText_color (hsources : ∀ source ∈ sources, KnownSpecial source) :
    (lineOf s sources).getText "--color" "auto" = "auto" := by
  have hdefault : (((table.resolve? "--color").bind table.default?).bind some).getD "auto" =
      "auto" := by
    decide
  unfold CommandLine.getText CommandLine.get
  rw [values_eq_nil hsources (by decide) (by decide)]
  exact hdefault

/-- The switches that no word of the settings gives. -/
def unsetSwitches : List Bytes := ["--help", "--version", "--bash-completion", "--quiet"]

theorem unset_of_mem : ∀ flag ∈ unsetSwitches, flag ∈ otherNames ∧ flag ∉ settingNames ∧
    (((table.resolve? flag).bind table.default?).bind Args.readSwitch?).getD false = false := by
  decide

theorem getSwitch_unset {flag : Bytes} (hsources : ∀ source ∈ sources, KnownSpecial source)
    (hflag : flag ∈ unsetSwitches) : (lineOf s sources).getSwitch flag false = false := by
  obtain ⟨hother, hsetting, hdefault⟩ := unset_of_mem flag hflag
  have hvalues : (lineOf s sources).values flag = switchValues false :=
    values_eq_nil hsources hother hsetting
  exact getSwitch_lineOf hvalues hdefault

/-- How a run speaks that was asked for nothing else. -/
def plain : Diagnostics := ⟨program, .warning, false⟩

theorem debug_plain (message : Bytes) : plain.debug message = [] := rfl

theorem error_plain (message : Bytes) : plain.error message = "mkelvis: " ++ message ++ "\n" := rfl

theorem diagnosticsOf_lineOf {terminal : Terminal}
    (hsources : ∀ source ∈ sources, KnownSpecial source) (hterminal : terminal.isTerminal = false) :
    diagnosticsOf terminal (lineOf s sources) .auto = plain := by
  have hquiet : (lineOf s sources).getSwitch "--quiet" false = false :=
    getSwitch_unset hsources (by decide)
  have hverbose : (lineOf s sources).count "--verbose" = 0 := by
    unfold CommandLine.count
    rw [values_eq_nil hsources (by decide) (by decide)]
    rfl
  have hcolor : ColorMode.auto.enabled terminal = false := by
    unfold ColorMode.enabled
    rw [hterminal, Bool.and_false]
  unfold diagnosticsOf
  rw [hquiet, hverbose, hcolor]
  rfl

theorem request_wordsOf {terminal : Terminal}
    (hsources : ∀ source ∈ sources, KnownSpecial source) (htabs : Integer.fits 32 s.numTabs)
    (hgenerator : s.generator = program) (hterminal : terminal.isTerminal = false) :
    request terminal (wordsOf s sources) =
      match compile s sources with
      | .ok script => .print (interpreterLine ++ script) plain []
      | .error e => refused ("mkelvis: " ++ e.describe ++ "\n") := by
  have hhelp : (lineOf s sources).getSwitch "--help" false = false :=
    getSwitch_unset hsources (by decide)
  have hversion : (lineOf s sources).getSwitch "--version" false = false :=
    getSwitch_unset hsources (by decide)
  have hcompletion : (lineOf s sources).getSwitch "--bash-completion" false = false :=
    getSwitch_unset hsources (by decide)
  have houtput : outputPath (lineOf s sources) false s.name = "-" := by
    have hmem : (("--output", ["-"]) : Bytes × List Bytes) ∈ settingValues s := by
      simp [settingValues]
    unfold outputPath
    rw [given?_eq, values_of_mem_settingValues hsources hmem]
    rfl
  have hgenerate : generate false s sources = (compile s sources).map (interpreterLine ++ ·) :=
    rfl
  have hauto : ColorMode.ofName? "auto" = some .auto := by decide
  unfold request
  rw [ofWords_wordsOf hsources htabs]
  dsimp only
  have herror : (lineOf s sources).parsed.error = none := rfl
  rw [herror]
  dsimp only
  rw [getText_color hsources, hauto]
  dsimp only
  rw [diagnosticsOf_lineOf hsources hterminal]
  unfold lineRequest
  rw [hhelp, hversion, if_neg Bool.false_ne_true, if_neg Bool.false_ne_true]
  show compileRequest _ _ s.name s.baseUrl s.searchUrl = _
  unfold compileRequest
  rw [settingsOf_lineOf hsources htabs hgenerator, sources_lineOf hsources, hcompletion]
  dsimp only
  rw [hgenerate, houtput]
  cases compile s sources with
  | ok script => rfl
  | error e =>
    show refused (Diagnostics.debug _ _ ++ Diagnostics.error _ _ ++ Diagnostics.debug _ _) = _
    rw [debug_plain, error_plain, debug_plain, List.nil_append, List.append_nil]

/-- Settings and directives given as words reach the compiler as they are: the run prints the
script or says why there is none. -/
theorem run_wordsOf {terminal : Terminal} (fs : FileSystem)
    (hsources : ∀ source ∈ sources, KnownSpecial source)
    (htabs : -2147483648 ≤ s.numTabs ∧ s.numTabs ≤ 2147483647)
    (hgenerator : s.generator = "mkelvis") (hterminal : terminal.isTerminal = false) :
    run terminal true fs (wordsOf s sources) =
      (match compile s sources with
        | .ok script => ⟨.ok, "#!/bin/sh\n" ++ script, []⟩
        | .error e => ⟨.usage, [], "mkelvis: " ++ e.describe ++ "\n"⟩,
      fs) := by
  have htabs : Integer.fits 32 s.numTabs := by
    have hbound : Integer.bound 32 = 2147483648 := rfl
    unfold Integer.fits
    rw [hbound]
    simp only [Bool.and_eq_true, decide_eq_true_eq]
    omega
  unfold run runWith
  rw [request_wordsOf hsources htabs hgenerator hterminal]
  cases compile s sources with
  | ok script => rfl
  | error e => rfl

/-- An elvis whose name and URLs look like flags. -/
def dashedSettings : Settings :=
  { name := "--output"
    baseUrl := "--"
    searchUrl := "-o=?"
    description := some []
    queryParameter := none
    appendSearchArgs := false
    enableCompletions := false
    insecure := true
    numTabs := 3
    generator := "mkelvis" }

/-- A description that looks like a flag, before the option that it describes. -/
def dashedSources : List Source :=
  [⟨.describe, "near:--near=x\n--"⟩, ⟨.special, "language"⟩, ⟨.anything, "near:-=--"⟩]

/-- A directive of a second special makes the run fail. -/
theorem run_wordsOf_dashed :
    (∃ script, compile dashedSettings dashedSources = .ok script ∧
      run ⟨false, false, false⟩ true ⟨[], [], []⟩ (wordsOf dashedSettings dashedSources) =
        (⟨.ok, "#!/bin/sh\n" ++ script, []⟩, ⟨[], [], []⟩)) ∧
    (run ⟨false, false, false⟩ true ⟨[], [], []⟩
      (wordsOf dashedSettings (dashedSources ++ [⟨.special, "language"⟩]))).1.code = .usage := by
  have hsources : ∀ source ∈ dashedSources, KnownSpecial source :=
    List.forall_mem_cons.mpr ⟨nofun, List.forall_mem_cons.mpr ⟨fun _ => ⟨.language, rfl⟩,
      List.forall_mem_singleton.mpr nofun⟩⟩
  have htwice : ∀ source ∈ dashedSources ++ [⟨.special, "language"⟩], KnownSpecial source :=
    List.forall_mem_append.mpr
      ⟨hsources, List.forall_mem_singleton.mpr fun _ => ⟨.language, rfl⟩⟩
  constructor
  · obtain ⟨script, hscript⟩ : ∃ script, compile dashedSettings dashedSources = .ok script :=
      ⟨_, rfl⟩
    refine ⟨script, hscript, ?_⟩
    rw [run_wordsOf _ hsources (by decide) rfl rfl, hscript]
  · rw [run_wordsOf _ htwice (by decide) rfl rfl]
    rfl

end Elvis.Command
