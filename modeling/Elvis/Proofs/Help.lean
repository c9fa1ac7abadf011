import Elvis.Proofs.Help.Rows
import Elvis.Proofs.Script.OptionHook

/-!
# The help table

The table shows the spellings that the option parser accepts, each once. All spellings of an option
with one verb stand in one header of its entry, by name. The entries of options come before those of
flags, each by type and in declaration order.
-/

namespace Elvis

/-- The forms of an option that the table shows. The bare name of a bool is not among them. -/
def VariableType.shownForms (type : VariableType) : List Form :=
  type.forms.filter fun form => type ≠ .bool || form.takesValue

/-- The labels of the option parser that the table does not show. -/
def OptionSet.bareLabels (set : OptionSet) : List Bytes :=
  (set.vars.filter (·.type = .bool)).flatMap fun v => v.names.map (Byte.dash :: ·)

namespace Help

/-- The headers of an entry: one for each form, with all names in ascending byte order. -/
def ShowsNames (forms : List Form) (metavar : Bytes) (names : List Bytes)
    (headers : List (List Bytes)) : Prop :=
  ∃ (shown : List Form) (ordered : List Bytes), shown.Perm forms ∧ (shown.map (·.verb)).Nodup ∧
    ordered.Perm names ∧ ordered.Pairwise (· < ·) ∧
    headers = shown.map fun form => ordered.map (form.cell metavar)

/-- The spellings in the headers of a table document an option parser with the given labels. -/
structure Documents (set : OptionSet) (labels : List Bytes) (table : List (List (List Bytes))) :
    Prop where
  spellings : (table.flatten.flatten.map labelOf ++ set.bareLabels).Perm labels
  once : (table.flatten.flatten.map labelOf ++ set.bareLabels).Nodup
  entries : ∃ ofOptions ofFlags, table = ofOptions ++ ofFlags ∧
    List.Forall₂ (fun v => ShowsNames v.type.shownForms v.metavar v.names)
      ([.bool, .enum, .anything, .special, .list].flatMap fun type =>
        set.vars.filter (·.type = type)) ofOptions ∧
    List.Forall₂ (fun f => ShowsNames f.targetType.flagForms [] f.names)
      ([.bool, .enum, .anything, .special, .list].flatMap fun type =>
        set.flags.filter (·.targetType = type)) ofFlags

variable {set : OptionSet} {s : Settings} {urls : Urls} {ds : List Directive} {v : Variable}
  {f : Flag} {names : List Bytes}

/-! ## The labels of the spellings -/

theorem labels_headers_perm (forms : List Form) (metavar : Bytes)
    (h : ∀ name ∈ names, LowerWord name) :
    ((forms.map fun form => cells form metavar names).flatten.map labelOf).Perm
      (names.flatMap fun name => forms.map (·.label name)) := by
  have hcells (form : Form) : ((cells form metavar names).map labelOf).Perm
      (names.map form.label) := by
    unfold cells
    rw [List.map_map]
    refine List.Perm.trans (List.Perm.of_eq ?_) ((Bytes.sort_perm names).map _)
    exact List.map_congr_left fun name hname =>
      labelOf_cell (h name ((Bytes.sort_perm names).mem_iff.mp hname)) metavar
  rw [← List.flatMap_def, List.map_flatMap]
  refine (List.Perm.flatMap_left _ fun form _ => hcells form).trans ?_
  exact Keyed.flatMap_map_swap_perm

/-- The forms that the table leaves out. -/
def bareForms (type : VariableType) : List Form := if type = .bool then [⟨.set, false⟩] else []

theorem helpForms_append_perm (type : VariableType) :
    (type.helpForms ++ bareForms type).Perm type.forms := by
  cases type <;> decide

theorem bareLabels_eq (set : OptionSet) :
    set.bareLabels = set.vars.flatMap fun v =>
      v.names.flatMap fun name => (bareForms v.type).map (·.label name) := by
  unfold OptionSet.bareLabels
  rw [← Keyed.flatMap_if]
  refine List.flatMap_congr fun v _ => ?_
  unfold bareForms
  split
  · next hbool =>
    rw [if_pos (of_decide_eq_true hbool), List.map_eq_flatMap]
    have hlabel (name : Bytes) : Form.label ⟨.set, false⟩ name = Byte.dash :: name :=
      Form.label_of_not_takesValue rfl
    exact List.flatMap_congr fun name _ => congrArg ([·]) (hlabel name).symm
  · next hbool =>
    rw [if_neg (by simpa using hbool)]
    simp

theorem labels_variable_perm (h : ∀ name ∈ v.names, LowerWord name) :
    ((variableEntry set v).headers.flatten.map labelOf ++
      v.names.flatMap fun name => (bareForms v.type).map (·.label name)).Perm
        (v.optionNames.flatMap OptionName.labels) := by
  refine ((labels_headers_perm _ _ h).append_right _).trans ?_
  refine (List.flatMap_append_perm _ _ _).trans ?_
  unfold Variable.optionNames
  rw [List.flatMap_map]
  refine List.Perm.flatMap_left _ fun name _ => ?_
  rw [← List.map_append]
  exact (helpForms_append_perm v.type).map _

theorem labels_flag_perm (h : ∀ name ∈ f.names, LowerWord name) :
    ((flagEntry set f).headers.flatten.map labelOf).Perm
      (f.optionNames.flatMap OptionName.labels) := by
  refine (labels_headers_perm _ _ h).trans (List.Perm.of_eq ?_)
  unfold Flag.optionNames
  rw [f.targetType.helpFlagForms_eq, List.flatMap_map]
  rfl

/-- What the table shows and what it leaves out are all spellings. -/
theorem labels_perm (h : set.WordNames) :
    (((entries set).map (·.headers)).flatten.flatten.map labelOf ++ set.bareLabels).Perm
      (set.optionNames.flatMap OptionName.labels) := by
  have hentries : ((entries set).map (·.headers)).flatten.flatten.map labelOf =
      (entries set).flatMap fun entry => entry.headers.flatten.map labelOf := by
    simp only [List.flatMap_def, List.map_flatten, List.map_map, List.flatten_flatten,
      Function.comp_def]
  unfold OptionSet.optionNames
  rw [List.flatMap_append, List.flatMap_assoc, List.flatMap_assoc, hentries, entries_eq,
    bareLabels_eq, List.flatMap_append, List.flatMap_map, List.flatMap_map]
  have hvariables : ((VariableType.helpOrder.flatMap set.variablesOfType).flatMap
      fun v => (variableEntry set v).headers.flatten.map labelOf).Perm
        (set.vars.flatMap fun v => (variableEntry set v).headers.flatten.map labelOf) :=
    (tableVariables_perm set).flatMap_right _
  have hflags : ((VariableType.helpOrder.flatMap set.flagsOfType).flatMap
      fun f => (flagEntry set f).headers.flatten.map labelOf).Perm
        (set.flags.flatMap fun f => f.optionNames.flatMap OptionName.labels) :=
    ((tableFlags_perm set).flatMap_right _).trans
      (List.Perm.flatMap_left _ fun f hf => labels_flag_perm (h.flag hf))
  -- the labels left out belong to options, which the table shows before the flags
  refine ((hvariables.append hflags).append_right _).trans ?_
  rw [List.append_assoc]
  refine (List.perm_append_comm.append_left _).trans ?_
  rw [← List.append_assoc]
  refine List.Perm.append_right _ ((List.flatMap_append_perm _ _ _).trans ?_)
  exact List.Perm.flatMap_left _ fun v hv => labels_variable_perm (h.variable hv)

/-! ## The entries -/

theorem helpForms_perm (type : VariableType) : type.helpForms.Perm type.shownForms := by
  cases type <;> decide

theorem showsNames_cells {shown forms : List Form} (hforms : shown.Perm forms)
    (hverbs : (shown.map (·.verb)).Nodup) (hnames : names.Nodup) (metavar : Bytes) :
    ShowsNames forms metavar names (shown.map fun form => cells form metavar names) :=
  ⟨shown, Bytes.sort names, hforms, hverbs, Bytes.sort_perm names, Bytes.pairwise_sort hnames, rfl⟩

theorem documents (h : set.WordNames)
    (honce : (set.optionNames.flatMap OptionName.labels).Nodup) {labels : List Bytes}
    (hlabels : labels.Perm (set.optionNames.flatMap OptionName.labels)) :
    Documents set labels ((entries set).map (·.headers)) where
  spellings := (labels_perm h).trans hlabels.symm
  once := (labels_perm h).nodup_iff.mpr honce
  entries := by
    rw [entries_eq, List.map_append, List.map_map, List.map_map]
    refine ⟨_, _, rfl, List.forall₂_map_right_iff.mpr (List.forall₂_same.mpr fun v hv => ?_),
      List.forall₂_map_right_iff.mpr (List.forall₂_same.mpr fun f hf => ?_)⟩
    · have hv := (tableVariables_perm set).mem_iff.mp hv
      exact showsNames_cells (helpForms_perm v.type) (by cases v.type <;> decide)
        (OptionSet.nodup_names_vars honce v hv) _
    · have hf := (tableFlags_perm set).mem_iff.mp hf
      exact showsNames_cells (List.Perm.of_eq f.targetType.helpFlagForms_eq)
        (by cases f.targetType <;> decide)
        (OptionSet.nodup_names_flags honce f hf) _

/-- The lines of the table document the labels of the option parser. -/
theorem lines_documents {sources : List Directive.Source}
    (hread : Directive.parseAll sources = .ok ds) (hbuild : OptionSet.build s ds = .ok set) :
    Documents set (Script.caseLabels (Script.optionHook set)).flatten
      (readEntries (tableWidth set) (lines set)) := by
  obtain ⟨hw, urls, _, rfl⟩ := OptionSet.build_eq_ok_iff.mp hbuild
  have hdirectives := Directive.wellFormed_of_parseAll hread
  have hnames : (OptionSet.ofDirectives s urls ds).WordNames :=
    OptionSet.wordNames_ofDirectives hw.resolved hdirectives
  have honce : ((OptionSet.ofDirectives s urls ds).optionNames.flatMap OptionName.labels).Nodup :=
    (OptionSet.nodup_labels_iff hw.resolved).mpr hw.spellings
  rw [Script.caseLabels_optionHook_ofDirectives hw.resolved hdirectives,
    lines_ofDirectives hw.resolved,
    readEntries_rows (fun _ => readable_of_mem_entries hw.resolved hdirectives)
      fun _ => width_le_tableWidth]
  exact documents hnames honce (Script.arms_labels_perm _)

theorem lines_documents_sample :
    ∃ ds set, Directive.parseAll OptionSet.sampleSources = .ok ds ∧
      OptionSet.build OptionSet.sampleSettings ds = .ok set ∧ set.vars ≠ [] ∧
      Documents set (Script.caseLabels (Script.optionHook set)).flatten
        (readEntries (tableWidth set) (lines set)) := by
  obtain ⟨set, hbuild, hvars⟩ : ∃ set,
      OptionSet.build OptionSet.sampleSettings OptionSet.sampleDirectives = .ok set ∧
        set.vars ≠ [] :=
    ⟨_, rfl, List.cons_ne_nil _ _⟩
  have hread : Directive.parseAll OptionSet.sampleSources = .ok OptionSet.sampleDirectives := rfl
  exact ⟨_, set, hread, hbuild, hvars, lines_documents hread hbuild⟩

end Help

end Elvis
