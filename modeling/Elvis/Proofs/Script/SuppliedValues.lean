import Elvis.Proofs.Completion
import Elvis.Script

/-!
# Values that an elvis supplies itself

A script checks the values of enums and enum lists before it uses them. Some of these values it
gives to the options by itself: defaults, the values of flags, and what completion offers. The
parser, two passes of the builder and the completions each look at them in their own way; in the end
the check of the script lets all of them through.
-/

namespace Elvis

/-- The values of a default: the items of a list, otherwise the default alone. -/
def Declaration.defaultValues : Declaration → List Bytes
  | list _ _ defaults => defaults
  | d => [d.defaultText]

/-- The values of a flag: its items for a list, otherwise the value as a whole. -/
def Flag.values (f : Flag) : List Bytes := if f.targetType = .list then f.items else [f.value]

namespace Script

/-- What a script gives to an option without being asked for a value. -/
inductive Supplies (set : OptionSet) (v : Variable) : Bytes → Prop
  | default {value : Bytes} : value ∈ v.declaration.defaultValues → Supplies set v value
  | flag {f : Flag} {value : Bytes} :
      f ∈ set.flags → f.target = v.name → value ∈ f.values → Supplies set v value
  | completion {entry : ValueCompletion} {label value : Bytes} :
      entry ∈ (Completions.ofOptions set).values → label ∈ entry.labels →
      label ∈ v.names.flatMap ((OptionType.var v.type).labels false) → value ∈ entry.values →
      Supplies set v value

variable {s : Settings} {urls : Urls} {ds : List Directive} {set : OptionSet} {v : Variable}
  {value : Bytes}

/-! ## The check -/

theorem variableCheck_ne_nil {allowed : List Bytes} (h : v.declaration.values? = some allowed) :
    variableCheck set v ≠ [] := by
  unfold variableCheck
  rw [h]
  dsimp only
  split <;> exact List.cons_ne_nil _ _

/-- The check of a variable stands in the script as it is. -/
theorem variableCheck_infix_lines {allowed : List Bytes} (hv : v ∈ set.vars)
    (h : v.declaration.values? = some allowed) : variableCheck set v <:+: lines set := by
  have hchecks : variableCheck set v <:+: set.bucketedVariables.flatMap (variableCheck set) := by
    rw [List.flatMap_def]
    exact List.infix_of_mem_flatten
      (List.mem_map_of_mem (set.bucketedVariables_perm.mem_iff.mpr hv))
  have hsection : set.bucketedVariables.flatMap (variableCheck set) <:+: valueChecks set := by
    unfold valueChecks
    split
    · next hnil =>
      rw [hnil] at hchecks
      exact absurd (List.infix_nil.mp hchecks) (variableCheck_ne_nil h)
    · exact (List.prefix_append _ _).isInfix
  have hlines : valueChecks set <:+: lines set :=
    ⟨header set ++ usageHook set ++ configHook set ++ (if set.hasLists then listHelpers else []) ++
        optionHook set ++
        (if set.settings.enableCompletions && set.hasOptions then completionHook set else []) ++
        parseArguments,
      collapses set ++ urlParameters set ++ inlinedTerms set ++ dispatch set,
      by simp only [lines, List.append_assoc]⟩
  exact (hchecks.trans hsection).trans hlines

/-! ## Where supplied values come from -/

theorem mem_values_of_default {allowed : List Bytes} (hfits : v.declaration.DefaultFits)
    (h : v.declaration.values? = some allowed) (hvalue : value ∈ v.declaration.defaultValues) :
    value ∈ allowed := by
  cases hd : v.declaration with
  | bool | anything | special =>
    rw [hd] at h
    cases h
  | enum name default values =>
    rw [hd] at h hfits hvalue
    cases h
    obtain rfl := List.mem_singleton.mp hvalue
    exact hfits
  | list name elements defaults =>
    cases elements with
    | anything =>
      rw [hd] at h
      cases h
    | enum values =>
      rw [hd] at h hfits hvalue
      cases h
      exact hfits value hvalue

/-- The values of a flag were each held against those of its target. -/
theorem mem_values_of_flag {f : Flag} {allowed : List Bytes}
    (haccepts : v.declaration.Accepts f.value) (htype : f.targetType = v.type)
    (h : v.declaration.values? = some allowed) (hvalue : value ∈ f.values) : value ∈ allowed := by
  unfold Flag.values at hvalue
  rw [htype] at hvalue
  unfold Variable.type at hvalue
  cases hd : v.declaration with
  | bool | anything | special =>
    rw [hd] at h
    cases h
  | enum name default values =>
    rw [hd] at h haccepts hvalue
    cases h
    obtain rfl := List.mem_singleton.mp hvalue
    exact haccepts
  | list name elements defaults =>
    cases elements with
    | anything =>
      rw [hd] at h
      cases h
    | enum values =>
      rw [hd] at h haccepts hvalue
      cases h
      exact haccepts value hvalue

theorem yes_or_no_of_default (h : v.type = .bool)
    (hvalue : value ∈ v.declaration.defaultValues) : value = "yes" ∨ value = "no" := by
  unfold Variable.type at h
  cases hd : v.declaration with
  | bool name default =>
    rw [hd] at hvalue
    obtain rfl := List.mem_singleton.mp hvalue
    cases default with
    | true => exact .inl rfl
    | false => exact .inr rfl
  | enum | anything | list | special =>
    rw [hd] at h
    cases h

theorem yes_or_no_of_flag {f : Flag} (haccepts : v.declaration.Accepts f.value)
    (htype : f.targetType = v.type) (h : v.type = .bool) (hvalue : value ∈ f.values) :
    value = "yes" ∨ value = "no" := by
  unfold Flag.values at hvalue
  rw [htype, h] at hvalue
  obtain rfl := List.mem_singleton.mp hvalue
  unfold Variable.type at h
  cases hd : v.declaration with
  | bool name default =>
    rw [hd] at haccepts
    exact haccepts
  | enum | anything | list | special =>
    rw [hd] at h
    cases h

/-- A completion that stands under a label of an option offers the values of that option. -/
theorem values_of_completion (hnames : set.WordNames)
    (honce : (set.optionNames.flatMap OptionName.labels).Nodup) (hv : v ∈ set.vars)
    {entry : ValueCompletion} {label : Bytes} (hentry : entry ∈ (Completions.ofOptions set).values)
    (hlabel : label ∈ entry.labels)
    (hown : label ∈ v.names.flatMap ((OptionType.var v.type).labels false)) :
    entry.values = Completions.offeredValues v.declaration := by
  obtain ⟨w, hw, _, rfl⟩ := Completions.exists_of_mem_values hnames hentry
  have hlabels : (set.vars.flatMap fun w => w.optionNames.flatMap OptionName.labels).Nodup := by
    rw [OptionSet.optionNames, List.flatMap_append, List.flatMap_assoc] at honce
    exact honce.of_append_left
  have hv' : label ∈ v.optionNames.flatMap OptionName.labels := by
    unfold Variable.optionNames
    rwa [List.flatMap_map]
  -- no label belongs to two options
  have hsame := Keyed.filter_mem_eq_singleton hlabels hv hv'
  rw [Keyed.filter_mem_eq_singleton hlabels hw (Completions.starredLabels_subset hlabel)] at hsame
  obtain rfl : w = v := List.singleton_injective hsame
  rfl

/-- The variable that a flag targets accepts the value of the flag. -/
theorem accepts_of_mem_flags (h : OptionSet.WellFormed s ds) {f : Flag}
    (hf : f ∈ (OptionSet.ofDirectives s urls ds).flags)
    (hv : v ∈ (OptionSet.ofDirectives s urls ds).vars) (htarget : f.target = v.name) :
    v.declaration.Accepts f.value ∧ f.targetType = v.type := by
  obtain ⟨g, d, hg, hd, rfl⟩ := (OptionSet.mem_flags_iff h.resolved).mp hf
  obtain ⟨e, he, rfl⟩ := OptionSet.mem_vars_iff.mp hv
  obtain ⟨d', hd', haccepts⟩ := h.flags g hg
  have hnodup : ((Declared.declarations ds).map (·.name)).Nodup := h.variableNames
  have heq : ∀ d, Declares ds g.target d → d = e := fun d hd =>
    List.inj_on_of_nodup_map hnodup (Declared.mem_declarations.mpr hd.1)
      (Declared.mem_declarations.mpr he) (hd.2.trans htarget)
  obtain rfl := heq d hd
  obtain rfl := heq d' hd'
  exact ⟨haccepts, rfl⟩

/-- The script never refuses a value that it gives to an option by itself: each is a label of the
check of the option, and `yes` or `no` for a bool. -/
theorem supplied_values_pass {sources : List Directive.Source}
    (hread : Directive.parseAll sources = .ok ds) (hbuild : OptionSet.build s ds = .ok set)
    (hv : v ∈ set.vars) :
    (v.declaration.values?.isSome → variableCheck set v <:+: lines set ∧
      ∃ labels, checkedValues? (variableCheck set v) = some labels ∧ labels ≠ [] ∧
        ∀ value, Supplies set v value → value ∈ labels) ∧
      (v.type = .bool → ∀ value, Supplies set v value → value = "yes" ∨ value = "no") := by
  obtain ⟨hw, urls, _, rfl⟩ := OptionSet.build_eq_ok_iff.mp hbuild
  have hdirectives := Directive.wellFormed_of_parseAll hread
  have hnames : (OptionSet.ofDirectives s urls ds).WordNames :=
    OptionSet.wordNames_ofDirectives hw.resolved hdirectives
  have honce : ((OptionSet.ofDirectives s urls ds).optionNames.flatMap OptionName.labels).Nodup :=
    (OptionSet.nodup_labels_iff hw.resolved).mpr hw.spellings
  obtain ⟨d, hd, hvd⟩ := OptionSet.mem_vars_iff.mp hv
  have hfits : v.declaration.DefaultFits := hvd ▸ hw.defaults d hd
  have hwell : v.declaration.WellFormed := hvd ▸ hdirectives _ hd
  constructor
  · intro hsome
    obtain ⟨allowed, hvalues⟩ := Option.isSome_iff_exists.mp hsome
    obtain ⟨hne, _⟩ := values_of_wellFormed hwell hfits hvalues
    refine ⟨variableCheck_infix_lines hv hvalues, allowed,
      checkedValues?_variableCheck hvalues hne, hne, fun value hsupplies => ?_⟩
    cases hsupplies with
    | default hvalue => exact mem_values_of_default hfits hvalues hvalue
    | flag hf htarget hvalue =>
      obtain ⟨haccepts, htype⟩ := accepts_of_mem_flags hw hf hv htarget
      exact mem_values_of_flag haccepts htype hvalues hvalue
    | completion hentry hlabel hown hvalue =>
      rwa [values_of_completion hnames honce hv hentry hlabel hown,
        Completions.offeredValues_of_values hvalues] at hvalue
  · intro hbool value hsupplies
    cases hsupplies with
    | default hvalue => exact yes_or_no_of_default hbool hvalue
    | flag hf htarget hvalue =>
      obtain ⟨haccepts, htype⟩ := accepts_of_mem_flags hw hf hv htarget
      exact yes_or_no_of_flag haccepts htype hbool hvalue
    | completion hentry hlabel hown hvalue =>
      rw [values_of_completion hnames honce hv hentry hlabel hown,
        Completions.offeredValues_of_bool hbool] at hvalue
      exact List.mem_pair.mp hvalue

/-- A flag adds an item to a list, another one clears a bool. -/
theorem supplied_values_pass_sample :
    ∃ ds set tags safe, Directive.parseAll OptionSet.sampleSources = .ok ds ∧
      OptionSet.build OptionSet.sampleSettings ds = .ok set ∧
      tags ∈ set.vars ∧ safe ∈ set.vars ∧ safe.type = .bool ∧
      (∃ labels, checkedValues? (variableCheck set tags) = some labels ∧ ("c" : Bytes) ∈ labels) ∧
      ∀ value, Supplies set safe value → value = "yes" ∨ value = "no" := by
  obtain ⟨set, tags, safe, hbuild, htags, hlist, hsafe, hbool, f, hf, htarget, hc⟩ :
      ∃ set tags safe,
        OptionSet.build OptionSet.sampleSettings OptionSet.sampleDirectives = .ok set ∧
        tags ∈ set.vars ∧ tags.declaration = .list "tags" (.enum ["a", "b", "c"]) ["a", "b"] ∧
        safe ∈ set.vars ∧ safe.type = .bool ∧
        ∃ f ∈ set.flags, f.target = tags.name ∧ ("c" : Bytes) ∈ f.values :=
    ⟨_, _, _, rfl, List.mem_of_getElem? (i := 3) rfl, rfl, List.mem_of_getElem? (i := 0) rfl, rfl,
      _, List.mem_of_getElem? (i := 1) rfl, rfl, List.mem_cons_self⟩
  have hread : Directive.parseAll OptionSet.sampleSources = .ok OptionSet.sampleDirectives := rfl
  have hsome : tags.declaration.values?.isSome := by rw [hlist]; rfl
  obtain ⟨_, labels, hlabels, _, hall⟩ := (supplied_values_pass hread hbuild htags).1 hsome
  exact ⟨_, set, tags, safe, hread, hbuild, htags, hsafe, hbool,
    ⟨labels, hlabels, hall "c" (.flag hf htarget hc)⟩,
    (supplied_values_pass hread hbuild hsafe).2 hbool⟩

end Script

end Elvis
