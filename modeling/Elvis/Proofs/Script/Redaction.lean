import Elvis.Proofs.OptionSet.Redaction
import Elvis.Script

/-!
# What a redaction changes in a script

Literal defaults and the values of flags are looked at in three sections of a script: the usage hook
describes flags, the config hook sets defaults, and the option hook gives the values of flags to
their targets. The other sections are the same for a redacted set.
-/

namespace Elvis

namespace Redaction

variable (r : Redaction) {set : OptionSet}

/-! ## Variables and flags -/

@[simp] theorem type_setVariable (v : Variable) : (r.setVariable v).type = v.type :=
  r.type_declaration v.declaration

@[simp] theorem targetType_setFlag (f : Flag) : (r.setFlag f).targetType = f.targetType := rfl

/-- What does not look at the literal default of a variable does not see the redaction. -/
theorem unseen_setVariable {α : Type} (look : Variable → α)
    (hanything : ∀ (v : Variable) name default,
      look { v with declaration := .anything name default } =
        look { v with declaration := .anything name [] })
    (hlist : ∀ (v : Variable) name defaults,
      look { v with declaration := .list name .anything defaults } =
        look { v with declaration := .list name .anything [] })
    (v : Variable) : look (r.setVariable v) = look v :=
  r.unseen (fun d => look { v with declaration := d }) (hanything v) (hlist v) v.declaration

theorem variablesOfType_optionSet (type : VariableType) :
    (r.optionSet set).variablesOfType type = (set.variablesOfType type).map r.setVariable := by
  unfold OptionSet.variablesOfType optionSet
  simp [List.filter_map, Function.comp_def]

theorem flagsOfType_optionSet (type : VariableType) :
    (r.optionSet set).flagsOfType type = (set.flagsOfType type).map r.setFlag := by
  unfold OptionSet.flagsOfType optionSet
  rw [List.filter_map]
  rfl

theorem bucketedVariables_optionSet :
    (r.optionSet set).bucketedVariables = set.bucketedVariables.map r.setVariable := by
  unfold OptionSet.bucketedVariables
  rw [List.map_flatMap]
  exact List.flatMap_congr fun type _ => r.variablesOfType_optionSet type

theorem bucketedFlags_optionSet :
    (r.optionSet set).bucketedFlags = set.bucketedFlags.map r.setFlag := by
  unfold OptionSet.bucketedFlags
  rw [List.map_flatMap]
  exact List.flatMap_congr fun type _ => r.flagsOfType_optionSet type

theorem findVariable?_optionSet (name : Bytes) :
    (r.optionSet set).findVariable? name = (set.findVariable? name).map r.setVariable := by
  show (set.variableIndex.position? name).bind (fun position =>
    (set.vars.map r.setVariable)[position]?) = _
  simp only [List.getElem?_map]
  exact Option.map_bind.symm

@[simp] theorem hasOptions_optionSet : (r.optionSet set).hasOptions = set.hasOptions := by
  simp [OptionSet.hasOptions, optionSet]

@[simp] theorem hasLists_optionSet : (r.optionSet set).hasLists = set.hasLists := by
  simp [OptionSet.hasLists, optionSet, Function.comp_def]

end Redaction

open Redaction

variable (r : Redaction) {set : OptionSet}

/-! ## Parts that are made of one variable -/

namespace Completions

theorem valueCompletion?_setVariable (v : Variable) :
    valueCompletion? (r.setVariable v) = valueCompletion? v :=
  r.unseen_setVariable _ (fun _ _ _ => rfl) (fun _ _ _ => rfl) v

theorem variableWords_setVariable (v : Variable) :
    variableWords (r.setVariable v) = variableWords v :=
  r.unseen_setVariable _ (fun _ _ _ => rfl) (fun _ _ _ => rfl) v

theorem ofOptions_redacted : ofOptions (r.optionSet set) = ofOptions set := by
  unfold ofOptions
  rw [r.bucketedVariables_optionSet, r.bucketedFlags_optionSet, List.filterMap_map,
    List.flatMap_map, List.flatMap_map]
  simp only [Function.comp_def, valueCompletion?_setVariable, variableWords_setVariable]
  rfl

end Completions

namespace Script

theorem variableCheck_setVariable (v : Variable) :
    variableCheck (r.optionSet set) (r.setVariable v) = variableCheck set v :=
  r.unseen_setVariable (variableCheck set) (fun _ _ _ => rfl) (fun _ _ _ => rfl) v

theorem variableArms_setVariable (v : Variable) :
    variableArms (r.optionSet set) (r.setVariable v) = variableArms set v :=
  r.unseen_setVariable (variableArms set) (fun _ _ _ => rfl) (fun _ _ _ => rfl) v

end Script

theorem Help.variableEntry_setVariable (v : Variable) :
    variableEntry (r.optionSet set) (r.setVariable v) = variableEntry set v := by
  obtain ⟨d, metavar, description, aliases, flags⟩ := v
  -- a given metavar is looked at before the declaration
  cases metavar with
  | none =>
    exact r.unseen (fun d => variableEntry set ⟨d, none, description, aliases, flags⟩)
      (fun _ _ => rfl) (fun _ _ => rfl) d
  | some text =>
    exact r.unseen (fun d => variableEntry set ⟨d, some text, description, aliases, flags⟩)
      (fun _ _ => rfl) (fun _ _ => rfl) d

/-- What the items of a list may be; of any other variable, anything. -/
def Declaration.elements : Declaration → Elements
  | list _ elements _ => elements
  | _ => .anything

namespace OptionSet

variable {f : Flag} {v : Variable}

theorem flagDescription_of_list (htype : f.targetType = .list)
    (hv : set.findVariable? f.target = some v) :
    set.flagDescription f =
      "An alias for the '" ++ v.declaration.elements.type.name ++ "' list option '" ++ f.target ++
        "' with the values '" ++ Bytes.joinCommas f.items ++ "'" := by
  obtain ⟨d, _, _, _, _⟩ := v
  unfold flagDescription
  rw [htype, hv]
  cases d <;> rfl

theorem flagDescription_redacted (f : Flag) :
    (r.optionSet set).flagDescription f = set.flagDescription f := by
  have hfind : (r.optionSet set).findVariable? f.target =
      (set.findVariable? f.target).map r.setVariable := r.findVariable?_optionSet f.target
  cases htype : f.targetType with
  | list =>
    cases hv : set.findVariable? f.target with
    | none =>
      rw [hv] at hfind
      unfold flagDescription
      rw [htype, hv, hfind]
      rfl
    | some v =>
      rw [hv] at hfind
      -- of the declaration, only the type of the items is shown
      have helements : (r.declaration v.declaration).elements.type = v.declaration.elements.type :=
        r.unseen (fun d => d.elements.type) (fun _ _ => rfl) (fun _ _ => rfl) v.declaration
      rw [flagDescription_of_list htype hv, flagDescription_of_list htype hfind, ← helements]
      rfl
  | bool | enum | anything | special =>
    unfold flagDescription
    rw [htype]

end OptionSet

/-! ## Sections -/

namespace Help

theorem flagEntry_redacted : flagEntry (r.optionSet set) = flagEntry set := by
  funext f
  unfold flagEntry
  rw [OptionSet.flagDescription_redacted]

/-- Of the help table, a redaction changes the descriptions of flags only. -/
theorem entries_redacted (set : OptionSet) :
    entries set =
      VariableType.helpOrder.flatMap (fun type =>
        ((r.optionSet set).variablesOfType type).map (variableEntry (r.optionSet set))) ++
      VariableType.helpOrder.flatMap fun type =>
        (set.flagsOfType type).map (flagEntry (r.optionSet set)) := by
  rw [flagEntry_redacted]
  simp only [r.variablesOfType_optionSet, List.map_map, Function.comp_def,
    variableEntry_setVariable]
  rfl

/-- The table has the same columns. -/
theorem tableWidth_redacted : tableWidth (r.optionSet set) = tableWidth set := by
  have hwidth : ∀ f, (flagEntry (r.optionSet set) (r.setFlag f)).width =
      (flagEntry (r.optionSet set) f).width := fun _ => rfl
  unfold tableWidth
  rw [entries_redacted r set, entries]
  simp only [r.flagsOfType_optionSet, List.map_append, List.map_flatMap, List.map_map,
    Function.comp_def, hwidth]

end Help

namespace Script

theorem completionHook_redacted : completionHook (r.optionSet set) = completionHook set := by
  unfold completionHook
  rw [Completions.ofOptions_redacted]

theorem valueChecks_redacted : valueChecks (r.optionSet set) = valueChecks set := by
  unfold valueChecks
  rw [r.bucketedVariables_optionSet, List.flatMap_map]
  simp only [variableCheck_setVariable]

theorem collapses_redacted : collapses (r.optionSet set) = collapses set := by
  have hlines : collapseLines (r.optionSet set) = collapseLines set := by
    funext position c
    unfold collapseLines
    rw [r.findVariable?_optionSet, Option.map_map]
    simp only [Function.comp_def, type_setVariable]
    rfl
  unfold collapses
  rw [hlines]
  rfl

/-- Of the arms, a redaction changes those of flags only. -/
theorem arms_redacted (set : OptionSet) :
    arms set = (r.optionSet set).bucketedVariables.flatMap (variableArms (r.optionSet set)) ++
      set.bucketedFlags.flatMap (flagArms (r.optionSet set)) := by
  rw [r.bucketedVariables_optionSet, List.flatMap_map]
  simp only [variableArms_setVariable]
  rfl

/-- Where all flags keep their values, two more sections are the same. -/
theorem usageHook_redacted (hvalue : ∀ f, r.value f = f.value) :
    usageHook (r.optionSet set) = usageHook set := by
  have hflag : r.setFlag = id := funext fun f => by simp [setFlag, hvalue, Flag.declaration]
  have hentries : Help.entries (r.optionSet set) = Help.entries set := by
    rw [Help.entries_redacted r set, Help.entries]
    simp only [r.flagsOfType_optionSet, hflag, List.map_id]
  unfold usageHook usageOptions Help.lines
  rw [r.hasOptions_optionSet, Help.tableWidth_redacted, hentries]
  rfl

theorem optionHook_redacted (hvalue : ∀ f, r.value f = f.value) :
    optionHook (r.optionSet set) = optionHook set := by
  have hflag : r.setFlag = id := funext fun f => by simp [setFlag, hvalue, Flag.declaration]
  unfold optionHook
  rw [arms_redacted r set, arms, r.bucketedFlags_optionSet, hflag, List.map_id]

theorem configHook_redacted (hdeclaration : ∀ d, r.declaration d = d) :
    configHook (r.optionSet set) = configHook set := by
  have hvariable : r.setVariable = id := funext fun v => by simp [setVariable, hdeclaration]
  have hlines : defaultLines (r.optionSet set) = defaultLines set := by
    funext type
    unfold defaultLines
    rw [r.variablesOfType_optionSet, hvariable, List.map_id]
    rfl
  unfold configHook
  rw [r.hasOptions_optionSet, hlines]

/-- The script of a set, with all sections of the redacted set but three. -/
theorem lines_redacted (set : OptionSet) :
    lines set =
      header (r.optionSet set) ++ usageHook set ++ configHook set ++
        (if (r.optionSet set).hasLists then listHelpers else []) ++
        optionHook set ++
        (if (r.optionSet set).settings.enableCompletions && (r.optionSet set).hasOptions then
          completionHook (r.optionSet set) else []) ++
        parseArguments ++ valueChecks (r.optionSet set) ++ collapses (r.optionSet set) ++
        urlParameters (r.optionSet set) ++ inlinedTerms (r.optionSet set) ++
        dispatch (r.optionSet set) := by
  rw [completionHook_redacted, valueChecks_redacted, collapses_redacted, hasLists_optionSet,
    hasOptions_optionSet]
  rfl

end Script

end Elvis
