import Elvis.Proofs.Completion.Reading
import Elvis.Proofs.Script.OptionHook

/-!
# Completion

Completion offers what the option parser accepts: the words are its labels up to the value, and the
values are those that the script lets through. Both the script and the file for bash show the words
as they are.
-/

namespace Elvis

/-! ## What is offered -/

/-- The label without the star that stands for a value. -/
def withoutStar (label : Bytes) : Bytes :=
  if label.getLast? = some Byte.star then label.dropLast else label

/-- The labels of an option and its aliases that take a value. -/
def Variable.starredLabels (v : Variable) : List Bytes :=
  (v.names.flatMap ((OptionType.var v.type).labels false)).filter
    ([Byte.equals, Byte.star].isSuffixOf ·)

/-- A text that matches `[a-z-]+=?`. -/
def IsOptionWord (word : Bytes) : Prop :=
  ∃ stem, stem ≠ [] ∧ (∀ b ∈ stem, Byte.Lower b ∨ b = Byte.dash) ∧
    (word = stem ∨ word = stem ++ [Byte.equals])

/-- The completions fit an option parser with the given labels. -/
structure Completions.Fits (set : OptionSet) (labels : List Bytes) (completions : Completions) :
    Prop where
  words : (completions.words.map (Byte.dash :: ·)).Perm (labels.map withoutStar)
  once : completions.words.Nodup
  valueLabels : ∀ entry ∈ completions.values, ∀ label ∈ entry.labels, label ∈ labels
  boolValues : ∀ v ∈ set.vars, v.type = .bool → ∀ label ∈ v.starredLabels,
    ∃ entry, completions.values.filter (label ∈ ·.labels) = [entry] ∧ entry.values = ["yes", "no"]
  /-- The values of an enum or an enum list are those that the script checks for. -/
  enumValues : ∀ v ∈ set.vars, v.declaration.values?.isSome → ∀ label ∈ v.starredLabels,
    ∃ entry, completions.values.filter (label ∈ ·.labels) = [entry] ∧
      checkedValues? (Script.variableCheck set v) = some entry.values
  /-- No other option has values. -/
  onlyValues : ∀ entry ∈ completions.values, ∀ label ∈ entry.labels,
    ∃ v ∈ set.vars, (v.type = .bool ∨ v.declaration.values?.isSome) ∧ label ∈ v.starredLabels
  wordShape : ∀ word ∈ completions.words, IsOptionWord word
  valueShape : ∀ entry ∈ completions.values, ∀ value ∈ entry.values,
    value ≠ [] ∧ ∀ b ∈ value, Byte.InEnum b
  hook : set.vars ≠ [] → hookWords? (Script.completionHook set) = some completions.words
  bash : set.vars ≠ [] →
    bashWords? (Completion.Bash.lines set) = some (completions.words.map (Byte.dash :: ·))

variable {s : Settings} {urls : Urls} {ds : List Directive} {set : OptionSet} {form : Form}
  {name label : Bytes} {v : Variable}

/-! ## Words and labels -/

theorem withoutStar_label (h : LowerWord name) :
    withoutStar (form.label name) = Byte.dash :: form.completion name := by
  unfold withoutStar
  cases hv : form.takesValue with
  | true =>
    have hlast : (form.label name).getLast? = some Byte.star := by
      rw [Form.label_of_takesValue hv]
      simp
    have hcompletion : Byte.dash :: form.completion name = form.stem name ++ [Byte.equals] := by
      unfold Form.completion
      rw [hv]
      rfl
    rw [if_pos hlast, Form.label_of_takesValue hv, hcompletion]
    simp
  | false =>
    have hstar : Byte.star ∉ form.stem name := form.not_mem_stem h (by decide) (by decide)
    have hcompletion : Byte.dash :: form.completion name = form.stem name := by
      unfold Form.completion
      rw [hv]
      exact congrArg (Byte.dash :: ·) (List.append_nil _)
    rw [Form.label_of_not_takesValue hv, hcompletion]
    exact if_neg fun hlast => hstar (List.mem_of_getLast? hlast)

/-- A label matches itself without the star, so no two labels differ in the star only. -/
theorem labelOf_withoutStar (h : IsLabel label) : labelOf (withoutStar label) = label := by
  refine (LabelMatches.eq_labelOf h ?_).symm
  unfold LabelMatches withoutStar
  split
  · exact List.prefix_rfl
  · rfl

theorem isOptionWord_completion (h : LowerWord name) : IsOptionWord (form.completion name) := by
  refine ⟨form.word name, ?_, fun b hb => form.mem_stem h (List.mem_cons_of_mem _ hb), ?_⟩
  · exact List.append_ne_nil_of_right_ne_nil _ h.1
  · unfold Form.completion
    split
    · exact .inr rfl
    · exact .inl (List.append_nil _)

theorem map_completion_eq {forms : List Form} (h : LowerWord name) :
    (forms.map (·.completion name)).map (Byte.dash :: ·) =
      (forms.map (·.label name)).map withoutStar := by
  rw [List.map_map, List.map_map]
  exact List.map_congr_left fun form _ => (withoutStar_label h).symm

namespace Completions

theorem variableWords_perm (h : ∀ name ∈ v.names, LowerWord name) :
    ((variableWords v).map (Byte.dash :: ·)).Perm
      ((v.optionNames.flatMap OptionName.labels).map withoutStar) := by
  unfold variableWords Variable.optionNames
  rw [List.map_flatMap, List.flatMap_map, List.map_flatMap]
  refine List.Perm.flatMap_left _ fun name hname => ?_
  rw [map_completion_eq (h name hname)]
  exact (v.type.completionForms_perm.map _).map _

theorem flagWords_eq {f : Flag} (h : ∀ name ∈ f.names, LowerWord name) :
    (flagWords f).map (Byte.dash :: ·) =
      (f.optionNames.flatMap OptionName.labels).map withoutStar := by
  unfold flagWords Flag.optionNames
  rw [f.targetType.completionFlagForms_eq, List.map_flatMap, List.flatMap_map, List.map_flatMap]
  exact List.flatMap_congr fun name hname => map_completion_eq (h name hname)

theorem words_perm (h : set.WordNames) :
    ((ofOptions set).words.map (Byte.dash :: ·)).Perm
      ((set.optionNames.flatMap OptionName.labels).map withoutStar) := by
  unfold ofOptions OptionSet.optionNames
  simp only [List.map_append, List.flatMap_append, List.map_flatMap, List.flatMap_assoc]
  refine List.Perm.append ?_ ?_
  · refine (set.bucketedVariables_perm.flatMap_right _).trans ?_
    refine List.Perm.flatMap_left _ fun v hv => ?_
    simpa only [List.map_flatMap] using variableWords_perm (h.variable hv)
  · refine (set.bucketedFlags_perm.flatMap_right _).trans (List.Perm.of_eq ?_)
    refine List.flatMap_congr fun f hf => ?_
    simpa only [List.map_flatMap] using flagWords_eq (h.flag hf)

theorem isOptionWord_of_mem_words (h : set.WordNames) {word : Bytes}
    (hw : word ∈ (ofOptions set).words) : IsOptionWord word := by
  rcases List.mem_append.mp hw with hw | hw
  · obtain ⟨v, hv, hw⟩ := List.mem_flatMap.mp hw
    obtain ⟨name, hname, hw⟩ := List.mem_flatMap.mp hw
    obtain ⟨form, _, rfl⟩ := List.mem_map.mp hw
    exact isOptionWord_completion
      (h.variable (set.bucketedVariables_perm.mem_iff.mp hv) name hname)
  · obtain ⟨f, hf, hw⟩ := List.mem_flatMap.mp hw
    obtain ⟨name, hname, hw⟩ := List.mem_flatMap.mp hw
    obtain ⟨form, _, rfl⟩ := List.mem_map.mp hw
    exact isOptionWord_completion (h.flag (set.bucketedFlags_perm.mem_iff.mp hf) name hname)

/-! ## Values -/

theorem isSuffixOf_label_iff (h : LowerWord name) :
    [Byte.equals, Byte.star].isSuffixOf (form.label name) ↔ form.takesValue = true := by
  rw [List.isSuffixOf_iff_suffix]
  cases hv : form.takesValue with
  | true =>
    rw [Form.label_of_takesValue hv]
    exact iff_of_true (List.suffix_append _ _) rfl
  | false =>
    have hstar : Byte.star ∉ form.stem name := form.not_mem_stem h (by decide) (by decide)
    rw [Form.label_of_not_takesValue hv]
    exact iff_of_false (fun hs => hstar (hs.subset (by simp))) Bool.false_ne_true

theorem valueLabels_eq (h : ∀ name ∈ v.names, LowerWord name) :
    valueLabels v = v.starredLabels := by
  unfold valueLabels Variable.starredLabels
  rw [v.type.valueForms_eq, List.filter_flatMap]
  refine List.flatMap_congr fun name hname => ?_
  unfold OptionType.labels
  rw [List.filter_map]
  refine congrArg (List.map fun form : Form => form.label name) (List.filter_congr fun form _ => ?_)
  rw [Bool.eq_iff_iff]
  exact (isSuffixOf_label_iff (h name hname)).symm

theorem starredLabels_subset : v.starredLabels ⊆ v.optionNames.flatMap OptionName.labels := by
  unfold Variable.starredLabels Variable.optionNames
  rw [List.flatMap_map]
  exact List.filter_sublist.subset

theorem offeredValues_of_bool (h : v.type = .bool) :
    offeredValues v.declaration = ["yes", "no"] := by
  unfold Variable.type at h
  cases hd : v.declaration with
  | bool => rfl
  | enum | anything | list | special =>
    rw [hd] at h
    cases h

theorem offeredValues_of_values {d : Declaration} {values : List Bytes}
    (h : d.values? = some values) : offeredValues d = values := by
  cases d with
  | bool => cases h
  | enum | anything | list | special => exact congrArg (·.getD []) h

/-- Values are offered for no other option. -/
theorem offers_of_offeredValues_ne_nil (h : offeredValues v.declaration ≠ []) :
    v.type = .bool ∨ v.declaration.values?.isSome := by
  cases hvalues : v.declaration.values? with
  | some values => exact .inr rfl
  | none =>
    refine .inl ?_
    unfold Variable.type
    cases hd : v.declaration with
    | bool => rfl
    | enum | anything | list | special =>
      rw [hd] at h hvalues
      exact absurd (congrArg (·.getD []) hvalues) h

theorem valueCompletion?_eq_some_iff {entry : ValueCompletion} :
    valueCompletion? v = some entry ↔
      offeredValues v.declaration ≠ [] ∧ ⟨valueLabels v, offeredValues v.declaration⟩ = entry := by
  unfold valueCompletion?
  dsimp only
  split
  · next h => simp [List.isEmpty_iff.mp h]
  · next h => simp [List.isEmpty_iff] at h; simp [h]

theorem filter_filterMap_valueCompletion? {vs : List Variable} :
    (vs.filterMap valueCompletion?).filter (label ∈ ·.labels) =
      (vs.filter (label ∈ valueLabels ·)).filterMap valueCompletion? := by
  rw [List.filter_filterMap, List.filterMap_filter]
  refine congrArg (vs.filterMap ·) (funext fun v => ?_)
  cases hv : valueCompletion? v with
  | none => simp
  | some entry =>
    obtain ⟨_, rfl⟩ := valueCompletion?_eq_some_iff.mp hv
    simp [Option.filter]

/-- Labels of different options differ, so a label tells which option it belongs to. -/
theorem filter_mem_valueLabels (h : set.WordNames)
    (honce : (set.optionNames.flatMap OptionName.labels).Nodup) (hv : v ∈ set.vars)
    (hlabel : label ∈ v.starredLabels) :
    set.bucketedVariables.filter (label ∈ valueLabels ·) = [v] := by
  have hvars : (set.bucketedVariables.flatMap fun w =>
      w.optionNames.flatMap OptionName.labels).Nodup := by
    refine ((set.bucketedVariables_perm.flatMap_right _).nodup_iff).mpr ?_
    rw [OptionSet.optionNames, List.flatMap_append, List.flatMap_assoc] at honce
    exact honce.of_append_left
  rw [← Keyed.filter_mem_eq_singleton hvars (set.bucketedVariables_perm.mem_iff.mpr hv)
    (starredLabels_subset hlabel)]
  refine List.filter_congr fun w hw => ?_
  rw [decide_eq_decide, valueLabels_eq (h.variable (set.bucketedVariables_perm.mem_iff.mp hw))]
  constructor
  · exact fun hm => starredLabels_subset hm
  · intro hm
    unfold Variable.optionNames at hm
    rw [List.flatMap_map] at hm
    exact List.mem_filter.mpr ⟨hm, (List.mem_filter.mp hlabel).2⟩

theorem filter_values (h : set.WordNames)
    (honce : (set.optionNames.flatMap OptionName.labels).Nodup) (hv : v ∈ set.vars)
    (hlabel : label ∈ v.starredLabels) (hoffers : offeredValues v.declaration ≠ []) :
    (ofOptions set).values.filter (label ∈ ·.labels) =
      [⟨valueLabels v, offeredValues v.declaration⟩] := by
  unfold ofOptions
  rw [filter_filterMap_valueCompletion?, filter_mem_valueLabels h honce hv hlabel]
  exact List.filterMap_cons_some (valueCompletion?_eq_some_iff.mpr ⟨hoffers, rfl⟩)

theorem exists_of_mem_values (h : set.WordNames) {entry : ValueCompletion}
    (he : entry ∈ (ofOptions set).values) :
    ∃ v ∈ set.vars, (v.type = .bool ∨ v.declaration.values?.isSome) ∧
      entry = ⟨v.starredLabels, offeredValues v.declaration⟩ := by
  obtain ⟨v, hv, hentry⟩ := List.mem_filterMap.mp he
  obtain ⟨hoffers, rfl⟩ := valueCompletion?_eq_some_iff.mp hentry
  have hvars := set.bucketedVariables_perm.mem_iff.mp hv
  exact ⟨v, hvars, offers_of_offeredValues_ne_nil hoffers, by rw [valueLabels_eq (h.variable hvars)]⟩

end Completions

/-! ## The completions of a set that was built -/

/-- Every variable of the set is declared as directives declare it, with a default that fits. -/
def ValidDeclarations (set : OptionSet) : Prop :=
  ∀ v ∈ set.vars, v.declaration.WellFormed ∧ v.declaration.DefaultFits

theorem values_of_wellFormed {d : Declaration} {values : List Bytes} (h : d.WellFormed)
    (hdefault : d.DefaultFits) (hvalues : d.values? = some values) :
    values ≠ [] ∧ EnumValues values := by
  refine ⟨?_, h.enumValues hvalues⟩
  cases d with
  | bool | anything | special => cases hvalues
  | enum name default values =>
    cases hvalues
    exact List.ne_nil_of_mem hdefault
  | list name elements defaults =>
    cases elements with
    | anything => cases hvalues
    | enum values =>
      cases hvalues
      exact h.2.1.1

theorem space_not_mem_of_isOptionWord {word : Bytes} (h : IsOptionWord word) :
    Byte.space ∉ word := by
  obtain ⟨stem, _, hstem, hword⟩ := h
  have hspace : Byte.space ∉ stem := fun hm => absurd (hstem _ hm) (by decide)
  rcases hword with rfl | rfl
  · exact hspace
  · rw [List.mem_append, not_or]
    exact ⟨hspace, by decide⟩

namespace Completions

theorem optionLabels_subset (hv : v ∈ set.vars) :
    v.optionNames.flatMap OptionName.labels ⊆ set.optionNames.flatMap OptionName.labels := by
  intro label hl
  obtain ⟨o, ho, hl⟩ := List.mem_flatMap.mp hl
  exact List.mem_flatMap.mpr
    ⟨o, List.mem_append_left _ (List.mem_flatMap.mpr ⟨v, hv, ho⟩), hl⟩

theorem starredLabels_ne_nil (h : ∀ name ∈ v.names, LowerWord name) : v.starredLabels ≠ [] := by
  obtain ⟨form, hform⟩ : ∃ form, form ∈ v.type.valueForms := by
    cases v.type <;> exact ⟨_, List.mem_cons_self⟩
  rw [← valueLabels_eq h]
  exact List.ne_nil_of_mem
    (List.mem_flatMap.mpr ⟨v.name, List.mem_cons_self, List.mem_map_of_mem hform⟩)

theorem labelledBySpellings (h : set.WordNames) {entry : ValueCompletion}
    (he : entry ∈ (ofOptions set).values) : LabelledBySpellings entry := by
  obtain ⟨v, hv, _, rfl⟩ := exists_of_mem_values h he
  refine ⟨starredLabels_ne_nil (h.variable hv), fun label hl => ?_⟩
  exact h.isLabel (optionLabels_subset hv (starredLabels_subset hl))

theorem words_ne_nil (h : set.vars ≠ []) : (ofOptions set).words ≠ [] := by
  obtain ⟨v, hv⟩ := List.exists_mem_of_ne_nil _ h
  obtain ⟨form, hform⟩ : ∃ form, form ∈ v.type.completionForms := by
    cases v.type <;> exact ⟨_, List.mem_cons_self⟩
  have hword : form.completion v.name ∈ variableWords v :=
    List.mem_flatMap.mpr ⟨v.name, List.mem_cons_self, List.mem_map_of_mem hform⟩
  exact List.ne_nil_of_mem (List.mem_append_left _
    (List.mem_flatMap.mpr ⟨v, set.bucketedVariables_perm.mem_iff.mpr hv, hword⟩))

/-- The dash and the star make no difference between labels, so no word occurs twice. -/
theorem nodup_words (h : set.WordNames)
    (honce : (set.optionNames.flatMap OptionName.labels).Nodup) : (ofOptions set).words.Nodup := by
  refine List.Nodup.of_map (Byte.dash :: ·) ((words_perm h).nodup_iff.mpr ?_)
  refine honce.map_on fun label hl label' hl' heq => ?_
  rw [← labelOf_withoutStar (h.isLabel hl), heq,
    labelOf_withoutStar (h.isLabel hl')]

theorem enumWord_of_mem_offeredValues (hvalid : ValidDeclarations set) (hv : v ∈ set.vars)
    (hoffers : v.type = .bool ∨ v.declaration.values?.isSome) {value : Bytes}
    (hvalue : value ∈ offeredValues v.declaration) : EnumWord value := by
  rcases hoffers with hbool | hsome
  · rw [offeredValues_of_bool hbool] at hvalue
    rcases List.mem_pair.mp hvalue with rfl | rfl
    · exact isEnumValue_iff.mp rfl
    · exact isEnumValue_iff.mp rfl
  · obtain ⟨values, hvalues⟩ := Option.isSome_iff_exists.mp hsome
    obtain ⟨_, hwords, _⟩ := values_of_wellFormed (hvalid v hv).1 (hvalid v hv).2 hvalues
    rw [offeredValues_of_values hvalues] at hvalue
    exact hwords value hvalue

theorem fits (h : set.WordNames) (hvalid : ValidDeclarations set)
    (honce : (set.optionNames.flatMap OptionName.labels).Nodup) {labels : List Bytes}
    (hlabels : labels.Perm (set.optionNames.flatMap OptionName.labels)) :
    Fits set labels (ofOptions set) where
  words := (words_perm h).trans (hlabels.symm.map _)
  once := nodup_words h honce
  valueLabels entry he label hl := by
    obtain ⟨v, hv, _, rfl⟩ := exists_of_mem_values h he
    exact hlabels.mem_iff.mpr (optionLabels_subset hv (starredLabels_subset hl))
  boolValues v hv hbool label hl := by
    have hvalues := offeredValues_of_bool hbool
    exact ⟨_, filter_values h honce hv hl (hvalues ▸ List.cons_ne_nil _ _), hvalues⟩
  enumValues v hv hsome label hl := by
    obtain ⟨values, hvalues⟩ := Option.isSome_iff_exists.mp hsome
    obtain ⟨hne, _⟩ := values_of_wellFormed (hvalid v hv).1 (hvalid v hv).2 hvalues
    have hoffered := offeredValues_of_values hvalues
    refine ⟨_, filter_values h honce hv hl (hoffered ▸ hne), ?_⟩
    rw [hoffered]
    exact checkedValues?_variableCheck hvalues hne
  onlyValues entry he label hl := by
    obtain ⟨v, hv, hoffers, rfl⟩ := exists_of_mem_values h he
    exact ⟨v, hv, hoffers, hl⟩
  wordShape _ := isOptionWord_of_mem_words h
  valueShape entry he value hvalue := by
    obtain ⟨v, hv, hoffers, rfl⟩ := exists_of_mem_values h he
    have hword := enumWord_of_mem_offeredValues hvalid hv hoffers hvalue
    refine ⟨?_, hword.inEnum⟩
    rintro rfl
    exact hword
  hook hne := hookWords?_completionHook (words_ne_nil hne)
    (fun _ hw => space_not_mem_of_isOptionWord (isOptionWord_of_mem_words h hw))
    fun _ => labelledBySpellings h
  bash hne := bashWords?_lines (words_ne_nil hne)
    (fun _ hw => space_not_mem_of_isOptionWord (isOptionWord_of_mem_words h hw))
    fun _ => labelledBySpellings h

end Completions

/-- Completion and the option parser go by the same spellings: every word that is offered is
parsed, every spelling is offered, and so are the values that the script lets through. -/
theorem completions_fits {sources : List Directive.Source}
    (hread : Directive.parseAll sources = .ok ds) (hbuild : OptionSet.build s ds = .ok set) :
    Completions.Fits set (Script.caseLabels (Script.optionHook set)).flatten
      (Completions.ofOptions set) := by
  obtain ⟨hw, urls, _, rfl⟩ := OptionSet.build_eq_ok_iff.mp hbuild
  have hdirectives := Directive.wellFormed_of_parseAll hread
  have hnames : (OptionSet.ofDirectives s urls ds).WordNames :=
    OptionSet.wordNames_ofDirectives hw.resolved hdirectives
  have hvalid : ValidDeclarations (OptionSet.ofDirectives s urls ds) := by
    intro v hv
    obtain ⟨d, hd, rfl⟩ := OptionSet.mem_vars_iff.mp hv
    exact ⟨hdirectives _ hd, hw.defaults d hd⟩
  have honce : ((OptionSet.ofDirectives s urls ds).optionNames.flatMap OptionName.labels).Nodup :=
    (OptionSet.nodup_labels_iff hw.resolved).mpr hw.spellings
  have htext : Script.caseLabels (Script.optionHook (OptionSet.ofDirectives s urls ds)) =
      (Script.arms (OptionSet.ofDirectives s urls ds)).map (·.labels) :=
    Script.caseLabels_optionHook fun arm harm label hl =>
      Script.isLabel_of_mem_arms hw.resolved hdirectives
        (List.mem_flatten_of_mem (List.mem_map_of_mem harm) hl)
  rw [htext]
  exact Completions.fits hnames hvalid honce (Script.arms_labels_perm _)

theorem completions_fits_sample :
    ∃ ds set, Directive.parseAll OptionSet.sampleSources = .ok ds ∧
      OptionSet.build OptionSet.sampleSettings ds = .ok set ∧ set.vars ≠ [] ∧
      Completions.Fits set (Script.caseLabels (Script.optionHook set)).flatten
        (Completions.ofOptions set) := by
  obtain ⟨set, hbuild, hvars⟩ : ∃ set,
      OptionSet.build OptionSet.sampleSettings OptionSet.sampleDirectives = .ok set ∧
        set.vars ≠ [] :=
    ⟨_, rfl, List.cons_ne_nil _ _⟩
  have hread : Directive.parseAll OptionSet.sampleSources = .ok OptionSet.sampleDirectives := rfl
  exact ⟨_, set, hread, hbuild, hvars, completions_fits hread hbuild⟩

end Elvis
