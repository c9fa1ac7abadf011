import Elvis.Proofs.Script.CleanTexts
import Elvis.Script

/-!
# Sections without lists

The sections of the script that say what an elvis is and what can be typed for it mention no list
function, whatever options the elvis has.
-/

namespace Elvis

open Script (Clean Opens)

variable {set : OptionSet} {v : Variable} {f : Flag} {form : Form} {name metavar text : Bytes}

namespace Script

/-! ## Padding -/

theorem Clean.replicate_append {b : UInt8} (hb : Opens [b]) (h : Clean text) (n : Nat) :
    Clean (List.replicate n b ++ text) := by
  induction n with
  | zero => exact h
  | succ n ih =>
    rw [List.replicate_succ, List.cons_append]
    exact hb.append ih

theorem Clean.append_replicate {b : UInt8} (hb : Closes [b]) (h : Clean text) (n : Nat) :
    Clean (text ++ List.replicate n b) := by
  induction n with
  | zero => rwa [List.replicate_zero, List.append_nil]
  | succ n ih =>
    rw [List.replicate_succ', ← List.append_assoc]
    exact ih.append hb

theorem Clean.indent (h : Clean text) : Clean (indent text) := Opens.append (by decide) h

end Script

/-! ## Spellings -/

namespace Form

theorem clean_word (h : LowerWord name) : Clean (form.word name) := by
  have hname := Clean.of_lowerWord h
  unfold word
  cases form.verb with
  | set => exact hname
  | add => exact Opens.append (by decide) hname
  | remove => exact Opens.append (by decide) hname
  | clear => exact Opens.append (by decide) hname

theorem clean_stem (h : LowerWord name) : Clean (form.stem name) :=
  Opens.append (a := [Byte.dash]) (by decide) (clean_word h)

theorem clean_label (h : LowerWord name) : Clean (form.label name) := by
  unfold label
  split
  · exact (clean_stem h).append (by decide)
  · exact (List.append_nil _).symm ▸ clean_stem h

theorem clean_completion (h : LowerWord name) : Clean (form.completion name) := by
  unfold completion
  split
  · exact (clean_word h).append (by decide)
  · exact (List.append_nil _).symm ▸ clean_word h

theorem clean_cell (h : LowerWord name) (hmetavar : Clean metavar) :
    Clean (form.cell metavar name) := by
  unfold cell
  split
  · rw [← List.append_assoc]
    exact (clean_stem h).fence (by decide) hmetavar
  · exact (List.append_nil _).symm ▸ clean_stem h

end Form

/-! ## The help table -/

namespace Help

structure CleanSource (source : Source) : Prop where
  ownVariable : Clean source.ownVariable
  globalVariable : ∀ name ∈ source.globalVariable, Clean name

structure CleanEntry (entry : Entry) : Prop where
  headers : ∀ cells ∈ entry.headers, ∀ cell ∈ cells, Clean cell
  values : ∀ value ∈ entry.values, Clean value
  description : Clean entry.description
  source : ∀ source ∈ entry.source, CleanSource source

variable {entry : Entry} {source : Source}

theorem clean_of_mem_lines (h : CleanEntry entry) : ∀ line ∈ entry.lines, Clean line := by
  refine List.forall_mem_append.mpr ⟨?_, ?_⟩
  · refine List.forall_mem_map.mpr fun cells hcells => ?_
    exact Opens.append (by decide) (.join (by decide) (h.headers cells hcells))
  · refine List.forall_mem_map.mpr fun value hvalue => ?_
    exact (h.values value hvalue).replicate_append (by decide) _

theorem clean_of_mem_tableRows (width : Nat) {lines : List Bytes}
    (hlines : ∀ line ∈ lines, Clean line) (htext : Clean text) :
    ∀ row ∈ Entry.tableRows width text lines, Clean row := by
  have hpadded : ∀ line ∈ lines, Clean (line.padTo width) := fun line hline =>
    (hlines line hline).append_replicate (by decide) _
  cases lines with
  | nil => exact List.forall_mem_nil _
  | cons first rest =>
    obtain ⟨hfirst, hrest⟩ := List.forall_mem_cons.mp hpadded
    refine List.forall_mem_cons.mpr ⟨hfirst.fence (by decide) htext.hereDocText, ?_⟩
    exact List.forall_mem_map.mpr fun line hline => (hrest line hline).append (by decide)

theorem clean_of_mem_sourceRows (width : Nat) (h : CleanSource source) :
    ∀ row ∈ Entry.sourceRows width source, Clean row := by
  have hindent {text : Bytes} (htext : Clean text) : Clean (Bytes.spaces (width + 4) ++ text) :=
    htext.replicate_append (by decide) _
  have henvironment : Clean ("Environment: " ++ source.ownVariable) :=
    Opens.append (by decide) h.ownVariable
  unfold Entry.sourceRows
  refine List.forall_mem_cons.mpr ⟨?_, List.forall_mem_singleton.mpr ?_⟩
  · rw [List.append_assoc]
    exact hindent (Opens.append (by decide) h.ownVariable)
  · rw [List.append_assoc _ _ source.ownVariable, List.append_assoc]
    refine hindent ?_
    cases hglobal : source.globalVariable with
    | none => exact (List.append_nil _).symm ▸ henvironment
    | some name =>
      dsimp only
      rw [← List.append_assoc]
      exact henvironment.fence (by decide) (h.globalVariable name hglobal)

theorem clean_of_mem_rows (width : Nat) (h : CleanEntry entry) :
    ∀ row ∈ entry.rows width, Clean row := by
  refine List.forall_mem_append.mpr
    ⟨clean_of_mem_tableRows width (clean_of_mem_lines h) h.description, ?_⟩
  cases hsource : entry.source with
  | none => exact List.forall_mem_nil _
  | some source => exact clean_of_mem_sourceRows width (h.source source hsource)

theorem clean_of_mem_headers {names : List Bytes} (hnames : ∀ name ∈ names, LowerWord name)
    (hmetavar : Clean metavar) (forms : List Form) :
    ∀ header ∈ forms.map (fun form => cells form metavar names), ∀ cell ∈ header, Clean cell := by
  refine List.forall_mem_map.mpr fun form _ => List.forall_mem_map.mpr fun name hname => ?_
  exact Form.clean_cell (hnames name ((Bytes.sort_perm names).mem_iff.mp hname)) hmetavar

theorem cleanEntry_variable (h : CleanSet set) (hv : v ∈ set.vars) :
    CleanEntry (variableEntry set v) where
  headers := clean_of_mem_headers (h.vars v hv).names (h.vars v hv).metavar _
  values := by
    show ∀ value ∈ v.declaration.values?.getD [], Clean value
    cases hvalues : v.declaration.values? with
    | none => exact List.forall_mem_nil _
    | some values => exact (h.vars v hv).values values hvalues
  description := (h.vars v hv).description
  source source hsource := by
    cases hsource
    refine ⟨.variableName_of_lowerWord h.name ((h.vars v hv).names _ List.mem_cons_self), ?_⟩
    intro name hname
    cases hd : v.declaration with
    | special kind =>
      simp only [hd] at hname
      cases hname
      cases kind <;> decide
    | bool | enum | anything | list =>
      simp only [hd] at hname
      cases hname

theorem clean_flagDescription (h : CleanFlag f) : Clean (set.flagDescription f) := by
  have htarget := Clean.of_lowerWord h.target
  unfold OptionSet.flagDescription
  split
  · have hitems : Clean (Bytes.joinCommas f.items) := .join (by decide) h.items
    dsimp only
    refine Clean.append (Clean.fence (Clean.fence ?_ (by decide) htarget) (by decide) hitems)
      (by decide)
    exact Opens.append (by decide) (clean_typeName _)
  · exact (Opens.append (by decide) htarget).fence (by decide) h.value

theorem cleanEntry_flag (h : CleanFlag f) : CleanEntry (flagEntry set f) where
  headers := clean_of_mem_headers h.names .nil _
  values := List.forall_mem_nil _
  description := clean_flagDescription h
  source := nofun

theorem clean_of_mem_table (h : CleanSet set) : ∀ line ∈ lines set, Clean line := by
  unfold lines
  split
  · refine List.forall_mem_flatMap.mpr fun entry hentry => clean_of_mem_rows _ ?_
    rcases mem_entries_iff.mp hentry with ⟨v, hv, rfl⟩ | ⟨f, hf, rfl⟩
    · exact cleanEntry_variable h hv
    · exact cleanEntry_flag (h.flags f hf).1
  · exact List.forall_mem_nil _

end Help

/-! ## Sections -/

namespace Script

theorem clean_of_mem_header (h : CleanSet set) : ∀ line ∈ header set, Clean line := by
  have hopening : Clean ("# elvis: " ++ set.settings.name) :=
    Opens.append (by decide) h.name.clean
  have htitle := (hopening.append_replicate (b := Byte.tab) (by decide)
    set.settings.numTabs.toNat).fence (s := "-- ") (by decide) h.description.oneLined
  have hgenerator : Clean (generatedBy set.settings.generator) :=
    Opens.append (by decide) (h.generator.append (by decide))
  unfold header
  simp only [List.forall_mem_cons]
  exact ⟨htitle, hgenerator, by decide, by decide, .between (by decide) h.base (by decide),
    .between (by decide) h.search (by decide), by decide, List.forall_mem_nil _⟩

theorem clean_of_mem_usageHook (h : CleanSet set) : ∀ line ∈ usageHook set, Clean line := by
  have hoptions : ∀ line ∈ usageOptions set, Clean line := by
    unfold usageOptions
    split
    · exact List.forall_mem_cons.mpr ⟨by decide, Help.clean_of_mem_table h⟩
    · exact List.forall_mem_nil _
  unfold usageHook
  simp only [List.forall_mem_append, List.forall_mem_cons]
  exact ⟨⟨⟨by decide, by decide, by decide, by decide,
    Opens.append (by decide) h.description.hereDocText, List.forall_mem_nil _⟩, hoptions⟩,
    by decide, by decide, by decide, by decide, List.forall_mem_nil _⟩

theorem clean_defaultWord (h : CleanVariable v) : Clean (defaultWord v.declaration) := by
  have htext := h.defaultText
  unfold defaultWord
  split
  · next kind heq => cases kind <;> decide
  · exact htext.singleQuoted

theorem clean_exampleLine (h : CleanSet set) (type : VariableType) :
    Clean (exampleLine set type) := by
  have hopening : Opens ("# " ++ defaultCommand type ++ " ") := by cases type <;> decide
  have hclosing : Closes (" " ++ exampleDefault type) := by cases type <;> decide
  have hname : Clean (set.variableName (if type = .special then "results" else "NAME" : Bytes)) :=
    .variableName h.name (by cases type <;> decide) (by cases type <;> decide)
  unfold exampleLine
  dsimp only
  rw [List.append_assoc _ _ (exampleDefault type)]
  exact (Clean.between hopening hname hclosing).indent

theorem clean_of_mem_defaultLines (h : CleanSet set) (type : VariableType) :
    ∀ line ∈ defaultLines set type, Clean line := by
  have hcommand (type : VariableType) : Opens (defaultCommand type ++ " ") := by
    cases type <;> decide
  unfold defaultLines
  split
  · exact List.forall_mem_singleton.mpr (clean_exampleLine h type)
  · refine List.forall_mem_map.mpr fun v hv => Clean.indent ?_
    have hv : v ∈ set.vars := List.mem_of_mem_filter hv
    refine Clean.fence ?_ (by decide) (clean_defaultWord (h.vars v hv))
    exact (hcommand v.type).append
      (.variableName_of_lowerWord h.name ((h.vars v hv).names _ List.mem_cons_self))

theorem clean_of_mem_configHook (h : CleanSet set) : ∀ line ∈ configHook set, Clean line := by
  have hdefaults : ∀ line ∈ VariableType.buckets.flatMap (defaultLines set), Clean line :=
    List.forall_mem_flatMap.mpr fun type _ => clean_of_mem_defaultLines h type
  unfold configHook
  simp only [List.forall_mem_append]
  refine ⟨⟨⟨by decide, hdefaults⟩, ?_⟩, by decide⟩
  cases set.hasOptions <;> decide

theorem clean_valueArm (h : CleanVariable v) {completion : ValueCompletion}
    (hcompletion : Completions.valueCompletion? v = some completion) :
    Clean (valueArm completion) := by
  have hlabels : ∀ label ∈ Completions.valueLabels v, Clean label := by
    refine List.forall_mem_flatMap.mpr fun name hname => List.forall_mem_map.mpr fun form _ => ?_
    exact Form.clean_label (h.names name hname)
  have hvalues : ∀ value ∈ Completions.offeredValues v.declaration, Clean value := by
    unfold Completions.offeredValues
    split
    · decide
    · cases hvalues : v.declaration.values? with
      | none => exact List.forall_mem_nil _
      | some values => exact h.values values hvalues
  unfold Completions.valueCompletion? at hcompletion
  dsimp only at hcompletion
  split at hcompletion
  · cases hcompletion
  · cases hcompletion
    have harm := Clean.fence (s := ") echo ") (.join (s := "|") (by decide) hlabels) (by decide)
      (.join (s := " ") (by decide) hvalues)
    exact (harm.append (by decide)).indent.indent

theorem clean_of_mem_words (h : CleanSet set) :
    ∀ word ∈ (Completions.ofOptions set).words, Clean word := by
  refine List.forall_mem_append.mpr ⟨?_, ?_⟩
  · refine List.forall_mem_flatMap.mpr fun v hv => List.forall_mem_flatMap.mpr fun name hname => ?_
    have hv := h.vars v (set.bucketedVariables_perm.mem_iff.mp hv)
    exact List.forall_mem_map.mpr fun form _ => Form.clean_completion (hv.names name hname)
  · refine List.forall_mem_flatMap.mpr fun f hf => List.forall_mem_flatMap.mpr fun name hname => ?_
    have hf := (h.flags f (set.bucketedFlags_perm.mem_iff.mp hf)).1
    exact List.forall_mem_map.mpr fun form _ => Form.clean_completion (hf.names name hname)

theorem clean_of_mem_completionHook (h : CleanSet set) :
    ∀ line ∈ completionHook set, Clean line := by
  have harms : ∀ line ∈ (Completions.ofOptions set).values.map valueArm, Clean line := by
    refine List.forall_mem_map.mpr fun completion hcompletion => ?_
    obtain ⟨v, hv, hcompletion⟩ := List.mem_filterMap.mp hcompletion
    exact clean_valueArm (h.vars v (set.bucketedVariables_perm.mem_iff.mp hv)) hcompletion
  have hwords : Clean ("*) mkopts " ++ Bytes.join " " (Completions.ofOptions set).words ++ " ;;") :=
    .between (by decide) (.join (by decide) (clean_of_mem_words h)) (by decide)
  unfold completionHook
  simp only [List.forall_mem_append, List.forall_mem_cons]
  exact ⟨⟨⟨by decide, by decide, by decide, List.forall_mem_nil _⟩, harms⟩,
    hwords.indent.indent, by decide, by decide, by decide, List.forall_mem_nil _⟩

theorem clean_of_mem_parseArguments : ∀ line ∈ parseArguments, Clean line := by
  decide

theorem clean_searchQuery (h : CleanSet set) : Clean (searchQuery set) := by
  unfold searchQuery
  dsimp only
  split
  · split
    · next parameter hparameter =>
      have hkey := (h.queryParameter parameter hparameter).percentEncode
      rw [List.append_assoc]
      cases set.mappings.isEmpty with
      | false => exact hkey.append (by decide)
      | true => exact hkey.append (by decide)
    · decide
  · cases set.mappings.isEmpty <;> decide

theorem clean_of_mem_dispatch (h : CleanSet set) : ∀ line ∈ dispatch set, Clean line := by
  have hquery : Clean ("w3_browse_url \"$\x7bsearch_url\x7d" ++ searchQuery set ++ "\"") :=
    .between (by decide) (clean_searchQuery h) (by decide)
  unfold dispatch
  simp only [List.forall_mem_append, List.forall_mem_cons]
  refine ⟨⟨⟨by decide, by decide, by decide, List.forall_mem_nil _⟩, ?_⟩,
    hquery.indent, by decide, List.forall_mem_nil _⟩
  split
  · cases set.inlinings.isEmpty <;> decide
  · exact List.forall_mem_nil _

end Script

end Elvis
