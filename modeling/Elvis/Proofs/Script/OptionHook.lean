import Elvis.Proofs.OptionSet.CrossLinks
import Elvis.Proofs.Script.Arms
import Elvis.Proofs.Script.Labels

/-!
# The option parser of the script

Every spelling of an option set is a label of one arm of the option parser, and no word on the
command line is matched by two arms.
-/

namespace Elvis.Script

/-! ## Reading the hook -/

/-- The labels of an arm: what stands before the first parenthesis, split at the bars. -/
def lineLabels (line : Bytes) : List Bytes :=
  Bytes.split Byte.bar
    ((line.dropWhile (· = Byte.space)).takeWhile (· ≠ Byte.closingParen))

/-- The labels of the arms of the `case` in a hook, up to the arm that every word matches. -/
def caseLabels (lines : List Bytes) : List (List Bytes) :=
  ((lines.dropWhile (· ≠ indent "case \"$opt\" in")).tail.map lineLabels).takeWhile
    (· ≠ [[Byte.star]])

/-- The spellings in each slot stand in one arm. -/
def SameArms (arms : List (List Bytes)) (labels labels' : List Bytes) : Prop :=
  labels.length = labels'.length ∧ ∀ (i : Nat) (x y : Bytes), labels[i]? = some x →
    labels'[i]? = some y → ∃ arm ∈ arms, x ∈ arm ∧ y ∈ arm

/-- The arms with these labels parse the options of the set. -/
structure ParsesOptions (set : OptionSet) (arms : List (List Bytes)) : Prop where
  labels : arms.flatten.Perm
    (set.vars.flatMap (fun v => v.names.flatMap ((OptionType.var v.type).labels false)) ++
      set.flags.flatMap fun f => f.names.flatMap ((OptionType.var f.targetType).labels true))
  once : arms.flatten.Nodup
  nonempty : ∀ arm ∈ arms, arm ≠ []
  /-- At most one arm matches a word. -/
  unambiguous : ∀ word, arms.Pairwise fun arm arm' =>
    ¬ ((∃ label ∈ arm, LabelMatches label word) ∧ ∃ label ∈ arm', LabelMatches label word)
  optionAliases : ∀ a ∈ set.aliases, ∀ type, a.targetType = .var type →
    ∃ v, set.findVariable? a.target = some v ∧ v.type = type ∧
      SameArms arms ((OptionType.var type).labels false a.name)
        ((OptionType.var type).labels false v.name)
  flagAliases : ∀ a ∈ set.aliases, a.targetType = .flag →
    ∃ f, set.findFlag? a.target = some f ∧
      SameArms arms ((OptionType.var f.targetType).labels true a.name)
        ((OptionType.var f.targetType).labels true f.name)

variable {set : OptionSet} {s : Settings} {urls : Urls} {ds : List Directive}

/-! ## The labels of all arms -/

theorem variableArms_labels_perm (v : Variable) :
    ((variableArms set v).flatMap (·.labels)).Perm (v.optionNames.flatMap OptionName.labels) := by
  rw [variableArms_eq]
  unfold Variable.optionNames
  rw [List.flatMap_map, List.flatMap_map]
  exact Keyed.flatMap_map_swap_perm

theorem flagArms_labels_perm (f : Flag) :
    ((flagArms set f).flatMap (·.labels)).Perm (f.optionNames.flatMap OptionName.labels) := by
  rw [flagArms_eq]
  unfold Flag.optionNames
  rw [List.flatMap_map, List.flatMap_map]
  exact Keyed.flatMap_map_swap_perm

theorem arms_labels_perm (set : OptionSet) :
    ((arms set).map (·.labels)).flatten.Perm (set.optionNames.flatMap OptionName.labels) := by
  rw [← List.flatMap_def]
  unfold arms OptionSet.optionNames
  rw [List.flatMap_append, List.flatMap_append, List.flatMap_assoc, List.flatMap_assoc,
    List.flatMap_assoc, List.flatMap_assoc]
  refine List.Perm.append ?_ ?_
  · refine (set.bucketedVariables_perm.flatMap_right _).trans ?_
    exact List.Perm.flatMap_left _ fun v _ => variableArms_labels_perm v
  · refine (set.bucketedFlags_perm.flatMap_right _).trans ?_
    exact List.Perm.flatMap_left _ fun f _ => flagArms_labels_perm f

theorem variableArm_mem_arms {v : Variable} {form : Form} (hv : v ∈ set.vars)
    (hform : form ∈ v.type.forms) :
    ⟨v.names.map form.label, variableAction set v form⟩ ∈ arms set := by
  refine List.mem_append_left _ (List.mem_flatMap.mpr ⟨v, ?_, ?_⟩)
  · exact set.bucketedVariables_perm.mem_iff.mpr hv
  · rw [variableArms_eq]
    exact List.mem_map_of_mem hform

theorem flagArm_mem_arms {f : Flag} {form : Form} (hf : f ∈ set.flags)
    (hform : form ∈ f.targetType.flagForms) :
    ⟨f.names.map form.label, flagAction set f form⟩ ∈ arms set := by
  refine List.mem_append_right _ (List.mem_flatMap.mpr ⟨f, ?_, ?_⟩)
  · exact set.bucketedFlags_perm.mem_iff.mpr hf
  · rw [flagArms_eq]
    exact List.mem_map_of_mem hform

theorem mem_arms_variable {v : Variable} {form : Form} (hv : v ∈ set.vars)
    (hf : form ∈ v.type.forms) : v.names.map form.label ∈ (arms set).map (·.labels) :=
  List.mem_map_of_mem (f := Arm.labels) (variableArm_mem_arms hv hf)

theorem mem_arms_flag {f : Flag} {form : Form} (hf : f ∈ set.flags)
    (hform : form ∈ f.targetType.flagForms) :
    f.names.map form.label ∈ (arms set).map (·.labels) :=
  List.mem_map_of_mem (f := Arm.labels) (flagArm_mem_arms hf hform)

theorem labels_ne_nil {arm : Arm} (h : arm ∈ arms set) : arm.labels ≠ [] := by
  rcases List.mem_append.mp h with h | h
  · obtain ⟨v, _, h⟩ := List.mem_flatMap.mp h
    obtain ⟨form, _, rfl⟩ := List.mem_map.mp (variableArms_eq set v ▸ h)
    exact List.cons_ne_nil _ _
  · obtain ⟨f, _, h⟩ := List.mem_flatMap.mp h
    obtain ⟨form, _, rfl⟩ := List.mem_map.mp (flagArms_eq set f ▸ h)
    exact List.cons_ne_nil _ _

/-- Names of one option stand in the same arms, form by form. -/
theorem sameArms_of_names {arms : List (List Bytes)} {forms : List Form} {names : List Bytes}
    {name name' : Bytes} (h : ∀ form ∈ forms, names.map form.label ∈ arms) (hn : name ∈ names)
    (hn' : name' ∈ names) :
    SameArms arms (forms.map (·.label name)) (forms.map (·.label name')) := by
  refine ⟨by rw [List.length_map, List.length_map], fun i x y hx hy => ?_⟩
  rw [List.getElem?_map, Option.map_eq_some_iff] at hx hy
  obtain ⟨form, hform, rfl⟩ := hx
  obtain ⟨form', hform', rfl⟩ := hy
  obtain rfl : form = form' := Option.some.inj (hform.symm.trans hform')
  exact ⟨_, h form (List.mem_of_getElem? hform), List.mem_map_of_mem hn, List.mem_map_of_mem hn'⟩

theorem isLabel_of_mem_arms (h : Resolved ds) (hw : ∀ x ∈ ds, x.WellFormed) {label : Bytes}
    (hl : label ∈ ((arms (OptionSet.ofDirectives s urls ds)).map (·.labels)).flatten) :
    IsLabel label :=
  (OptionSet.wordNames_ofDirectives h hw).isLabel ((arms_labels_perm _).mem_iff.mp hl)

/-! ## The text of the arms -/

/-- No label holds a blank, a bar or a parenthesis, so the line shows where it ends. -/
theorem lineLabels_line {arm : Arm} (hne : arm.labels ≠ [])
    (h : ∀ label ∈ arm.labels, IsLabel label) : lineLabels arm.line = arm.labels := by
  have hbar : ∀ label ∈ arm.labels, Byte.bar ∉ label :=
    fun label hl => (h label hl).not_mem (by decide) (by decide)
  have hparen : Byte.closingParen ∉ Bytes.join [Byte.bar] arm.labels :=
    (Bytes.not_mem_join_iff (by decide)).mpr fun label hl =>
      (h label hl).not_mem (by decide) (by decide)
  -- the first label starts with a dash, so no more than the indentation is dropped
  obtain ⟨rest, hdash⟩ := join_labels_head hne h
  have hline : arm.line.dropWhile (· = Byte.space) =
      Bytes.join [Byte.bar] arm.labels ++ Byte.closingParen ::
        (Byte.space :: (arm.action.command ++ " ;;")) := by
    unfold Arm.line indent
    rw [List.append_assoc, List.append_assoc]
    show ("    " ++ ("    " ++ (Bytes.join [Byte.bar] arm.labels ++ _)) : Bytes).dropWhile _ = _
    rw [hdash]
    rfl
  unfold lineLabels
  rw [hline, Bytes.takeWhile_ne_append hparen, Bytes.split_join hne hbar]

/-- The lines of the arms of the `case` in a hook, up to the arm that every word matches. -/
def armLines (lines : List Bytes) : List Bytes :=
  (lines.dropWhile (· ≠ indent "case \"$opt\" in")).tail.takeWhile (lineLabels · ≠ [[Byte.star]])

theorem caseLabels_eq (lines : List Bytes) :
    caseLabels lines = (armLines lines).map lineLabels := by
  unfold caseLabels armLines
  rw [List.takeWhile_map]
  rfl

theorem armLines_optionHook (h : ∀ arm ∈ arms set, ∀ label ∈ arm.labels, IsLabel label) :
    armLines (optionHook set) = (arms set).map Arm.line := by
  obtain ⟨last, closing, hopening, hlast⟩ : ∃ (last : Bytes) (closing : List Bytes),
      ((optionHook set).dropWhile (· ≠ indent "case \"$opt\" in")).tail =
        (arms set).map Arm.line ++ last :: closing ∧ lineLabels last = [[Byte.star]] :=
    ⟨_, _, rfl, rfl⟩
  have hstar : ∀ line ∈ (arms set).map Arm.line,
      decide (lineLabels line ≠ [[Byte.star]]) = true := by
    intro line hline
    obtain ⟨arm, harm, rfl⟩ := List.mem_map.mp hline
    refine decide_eq_true fun heq => ?_
    rw [lineLabels_line (labels_ne_nil harm) (h arm harm)] at heq
    have hmem : [Byte.star] ∈ arm.labels := heq ▸ List.mem_cons_self
    obtain ⟨rest, hdash⟩ := (h arm harm _ hmem).head
    cases hdash
  unfold armLines
  rw [hopening, List.takeWhile_append_of_pos hstar, List.takeWhile_cons_of_neg (by simp [hlast]),
    List.append_nil]

theorem caseLabels_optionHook (h : ∀ arm ∈ arms set, ∀ label ∈ arm.labels, IsLabel label) :
    caseLabels (optionHook set) = (arms set).map (·.labels) := by
  rw [caseLabels_eq, armLines_optionHook h, List.map_map]
  exact List.map_congr_left fun arm harm => lineLabels_line (labels_ne_nil harm) (h arm harm)

theorem caseLabels_optionHook_ofDirectives (h : Resolved ds) (hw : ∀ x ∈ ds, x.WellFormed) :
    caseLabels (optionHook (OptionSet.ofDirectives s urls ds)) =
      (arms (OptionSet.ofDirectives s urls ds)).map (·.labels) :=
  caseLabels_optionHook fun _ harm _ hl =>
    isLabel_of_mem_arms h hw (List.mem_flatten_of_mem (List.mem_map_of_mem harm) hl)

/-! ## Which arms match -/

/-- A word is matched by one label at most, and arms that share no label share no word. -/
theorem unambiguous_of_nodup {arms : List (List Bytes)} (h : ∀ label ∈ arms.flatten, IsLabel label)
    (honce : arms.flatten.Nodup) (word : Bytes) :
    arms.Pairwise fun arm arm' =>
      ¬ ((∃ label ∈ arm, LabelMatches label word) ∧ ∃ label ∈ arm', LabelMatches label word) := by
  obtain ⟨_, hdisjoint⟩ := List.nodup_flatten.mp honce
  refine hdisjoint.imp_of_mem fun {arm arm'} harm harm' hd => ?_
  intro h
  obtain ⟨⟨label, hl, hm⟩, label', hl', hm'⟩ := h
  have heq : label = labelOf word := hm.eq_labelOf (h label (List.mem_flatten_of_mem harm hl))
  have heq' : label' = labelOf word := hm'.eq_labelOf (h label' (List.mem_flatten_of_mem harm' hl'))
  rw [heq, ← heq'] at hl
  exact hd hl hl'

theorem sameArms_optionAlias (h : Resolved ds) {a : Alias} {type : VariableType}
    (ha : .aliasing a ∈ ds) (ht : a.targetType = .var type) :
    ∃ v, (OptionSet.ofDirectives s urls ds).findVariable? a.target = some v ∧ v.type = type ∧
      SameArms ((arms (OptionSet.ofDirectives s urls ds)).map (·.labels))
        ((OptionType.var type).labels false a.name)
        ((OptionType.var type).labels false v.name) := by
  obtain ⟨d, hd, rfl, hfilter⟩ := OptionSet.filter_owns_vars s urls h ha ht
  obtain ⟨hv, howns⟩ := List.mem_filter.mp (hfilter ▸ List.mem_singleton_self _)
  refine ⟨_, OptionSet.findVariable?_of_declares h hd, rfl, ?_⟩
  have halias : a.name ∈ (OptionSet.variableOf ds d).aliases := by
    rw [OptionSet.aliases_of_mem_vars hv]
    exact (OptionSet.mem_map_name_filter_iff h (Declared.mem_aliases.mpr ha)).mpr howns
  exact sameArms_of_names (fun form hform => mem_arms_variable hv hform)
    (List.mem_cons_of_mem _ halias) List.mem_cons_self

theorem sameArms_flagAlias (h : Resolved ds) {a : Alias} (ha : .aliasing a ∈ ds)
    (ht : a.targetType = .flag) :
    ∃ f, (OptionSet.ofDirectives s urls ds).findFlag? a.target = some f ∧
      SameArms ((arms (OptionSet.ofDirectives s urls ds)).map (·.labels))
        ((OptionType.var f.targetType).labels true a.name)
        ((OptionType.var f.targetType).labels true f.name) := by
  obtain ⟨g, d, hg, _, hfilter⟩ := OptionSet.filter_owns_flags s urls h ha ht
  obtain ⟨hf, howns⟩ := List.mem_filter.mp (hfilter ▸ List.mem_singleton_self _)
  refine ⟨_, (OptionSet.findFlag?_eq_some_iff h).mpr ⟨hf, hg.2⟩, ?_⟩
  have halias : a.name ∈ (OptionSet.resolvedFlag ds g d).aliases := by
    rw [OptionSet.aliases_of_mem_flags h hf]
    exact (OptionSet.mem_map_name_filter_iff h (Declared.mem_aliases.mpr ha)).mpr howns
  exact sameArms_of_names (fun form hform => mem_arms_flag hf hform)
    (List.mem_cons_of_mem _ halias) List.mem_cons_self

/-! ## The hook -/

/-- The hook shows the arms as they are: every spelling of the options that are built is a label of
one, once, and no word is matched by two. -/
theorem optionHook_parsesOptions {sources : List Directive.Source}
    (hread : Directive.parseAll sources = .ok ds) (hbuild : OptionSet.build s ds = .ok set) :
    caseLabels (optionHook set) = (arms set).map (·.labels) ∧
      ParsesOptions set (caseLabels (optionHook set)) := by
  obtain ⟨hw, urls, _, rfl⟩ := OptionSet.build_eq_ok_iff.mp hbuild
  have hresolved := hw.resolved
  have hlabel : ∀ label ∈ ((arms (OptionSet.ofDirectives s urls ds)).map (·.labels)).flatten,
      IsLabel label :=
    fun _ => isLabel_of_mem_arms hresolved (Directive.wellFormed_of_parseAll hread)
  have honce : ((arms (OptionSet.ofDirectives s urls ds)).map (·.labels)).flatten.Nodup :=
    (arms_labels_perm _).nodup_iff.mpr ((OptionSet.nodup_labels_iff hresolved).mpr hw.spellings)
  have htext := caseLabels_optionHook fun arm harm label hl =>
    hlabel label (List.mem_flatten_of_mem (List.mem_map_of_mem harm) hl)
  refine ⟨htext, ?_⟩
  rw [htext]
  exact
    { labels := by
        refine (arms_labels_perm _).trans (List.Perm.of_eq ?_)
        unfold OptionSet.optionNames Variable.optionNames Flag.optionNames
        simp only [List.flatMap_append, List.flatMap_assoc, List.flatMap_map]
        rfl
      once := honce
      nonempty := fun labels hm => by
        obtain ⟨arm, harm, rfl⟩ := List.mem_map.mp hm
        exact labels_ne_nil harm
      unambiguous := unambiguous_of_nodup hlabel honce
      optionAliases := fun a ha _ => sameArms_optionAlias hresolved (Declared.mem_aliases.mp ha)
      flagAliases := fun a ha => sameArms_flagAlias hresolved (Declared.mem_aliases.mp ha) }

theorem optionHook_parsesOptions_sample :
    ∃ ds set, Directive.parseAll OptionSet.sampleSources = .ok ds ∧
      OptionSet.build OptionSet.sampleSettings ds = .ok set ∧
      caseLabels (optionHook set) = (arms set).map (·.labels) ∧
      ParsesOptions set (caseLabels (optionHook set)) := by
  obtain ⟨set, hbuild⟩ :
      ∃ set, OptionSet.build OptionSet.sampleSettings OptionSet.sampleDirectives = .ok set :=
    ⟨_, rfl⟩
  have hread : Directive.parseAll OptionSet.sampleSources = .ok OptionSet.sampleDirectives := rfl
  exact ⟨_, set, hread, hbuild, optionHook_parsesOptions hread hbuild⟩

end Elvis.Script
