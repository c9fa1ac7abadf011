import Elvis.Proofs.Bytes.Slot
import Elvis.Proofs.Script.Arms
import Elvis.Proofs.Script.Redaction
import Elvis.Proofs.Script.Usage

/-!
# Literal texts

The default of an unchecked option and the value of a flag that sets one may be any text. A script
with such a text is fixed but for the places that show it, and there it stands quoted: a default
once in the config hook, the value of a flag once in the usage text and once in the option hook.
-/

namespace Elvis

/-- A declaration with any text for its default. -/
inductive Declaration.OfDefault : (Bytes → Declaration) → Prop
  | anything (name : Bytes) : OfDefault (.anything name)
  | list (name : Bytes) : OfDefault fun text => .list name .anything text.commaItems

namespace Redaction

/-- Blanks the defaults that could be any text. -/
def ofDefaults : Redaction where
  declaration := Declaration.withoutDefault
  value := FlagDeclaration.value
  withoutDefault d := by
    rcases d with _ | _ | _ | ⟨_, _ | _, _⟩ | _ <;> rfl

/-- Blanks the values of the flags of a variable. -/
def ofValues (target : Bytes) : Redaction where
  declaration := id
  value f := if f.target = target then [] else f.value
  withoutDefault _ := rfl

end Redaction

namespace Script

variable {S : Bytes → OptionSet} {E : OptionSet}

/-! ## Defaults -/

/-- The lines for the variables of a type, of which there may be none. -/
def groupLines (set : OptionSet) (type : VariableType) : List Variable → List Bytes
  | [] => [exampleLine set type]
  | vars => vars.map (defaultLine set)

theorem groupLines_of_ne_nil {vars : List Variable} (type : VariableType) (h : vars ≠ []) :
    groupLines E type vars = vars.map (defaultLine E) := by
  cases vars with
  | nil => exact absurd rfl h
  | cons => rfl

theorem hasSlot_configHook {v : Bytes → Variable} (type : VariableType)
    (hsettings : ∀ text, (S text).settings = E.settings)
    (hoptions : ∀ text, (S text).hasOptions = E.hasOptions)
    (hvars : HasSlot (fun text => (S text).vars) fun text => [v text])
    (htype : ∀ text, (v text).type = type) :
    HasSlot (fun text => configHook (S text)) fun text => [defaultLine E (v text)] := by
  have hlines : ∀ text type', defaultLines (S text) type' =
      groupLines E type' ((S text).vars.filter (·.type = type')) := by
    intro text type'
    have hdefault : defaultLine (S text) = defaultLine E := by
      funext v
      unfold defaultLine OptionSet.variableName
      rw [hsettings]
    have hexample : exampleLine (S text) type' = exampleLine E type' := by
      unfold exampleLine OptionSet.variableName
      rw [hsettings]
    unfold defaultLines groupLines OptionSet.variablesOfType
    cases (S text).vars.filter (·.type = type') with
    | nil => exact congrArg ([·]) hexample
    | cons v vars => exact congrArg (List.map · (v :: vars)) hdefault
  have hgroups : HasSlot (fun text => VariableType.buckets.flatMap (defaultLines (S text)))
      fun text => [defaultLine E (v text)] := by
    simp only [funext (hlines _)]
    refine hvars.flatMap_filter _ (by decide) type.mem_buckets htype ?_
    intro before after
    have hne : ∀ text, before ++ [v text] ++ after ≠ [] := by simp
    simp only [groupLines_of_ne_nil _ (hne _)]
    exact HasSlot.map _ ⟨before, after, fun _ => rfl⟩
  unfold configHook
  simp only [hoptions]
  exact ((hgroups.append_left _).append_right _).append_right _

/-- A script shows a default that may be any text once, as a quoted word. -/
theorem hasSlot_render_default {v : Bytes → Variable} {d : Bytes → Declaration}
    (hE : ∀ text, Redaction.ofDefaults.optionSet (S text) = E)
    (hvars : HasSlot (fun text => (S text).vars) fun text => [v text])
    (hv : ∀ text, (v text).declaration = d text) (hd : Declaration.OfDefault d) :
    HasSlot (fun text => render (S text)) Shell.singleQuoted := by
  obtain ⟨name, type, hname, htype, hword⟩ : ∃ name type, (∀ text, (d text).name = name) ∧
      (∀ text, (d text).type = type) ∧ ∀ text, defaultWord (d text) = Shell.singleQuoted text := by
    cases hd with
    | anything => exact ⟨_, _, fun _ => rfl, fun _ => rfl, fun _ => rfl⟩
    | list =>
      refine ⟨_, _, fun _ => rfl, fun _ => rfl, fun text => congrArg Shell.singleQuoted ?_⟩
      exact (Bytes.commaItems_eq_iff.mp (Eq.refl text.commaItems)).2.2.symm
  have hline : HasSlot (fun text => defaultLine E (v text)) Shell.singleQuoted := by
    unfold defaultLine indent Variable.type Variable.name
    simp only [hv, hname, htype, hword]
    exact ((HasSlot.refl _).append_left _).append_left _
  have hconfig : HasSlot (fun text => configHook (S text))
      fun text => [defaultLine E (v text)] := by
    refine hasSlot_configHook type (fun text => ?_) (fun text => ?_) hvars fun text => ?_
    · rw [← hE text]
      rfl
    · rw [← hE text, Redaction.hasOptions_optionSet]
    · unfold Variable.type
      rw [hv, htype]
  have hlines : HasSlot (fun text => lines (S text)) fun text => [defaultLine E (v text)] := by
    have husage : ∀ text, usageHook (S text) = usageHook E := fun text => by
      rw [← hE text, usageHook_redacted _ fun _ => rfl]
    have hoption : ∀ text, optionHook (S text) = optionHook E := fun text => by
      rw [← hE text, optionHook_redacted _ fun _ => rfl]
    simp only [lines_redacted Redaction.ofDefaults, hE, husage, hoption, List.append_assoc]
    exact ((hconfig.append_right _).append_left _).append_left _
  exact hlines.unlines hline

/-! ## Values of flags -/

variable {g : Flag}

theorem flagForms_of_ne_list {type : VariableType} (h : type ≠ .list) :
    type.flagForms = [⟨.set, false⟩] := by
  cases type with
  | list => exact absurd rfl h
  | bool | enum | anything | special => rfl

theorem flagDescription_of_ne_list (h : g.targetType ≠ .list) :
    E.flagDescription g = "An alias for -" ++ g.target ++ "=" ++ g.value := by
  unfold OptionSet.flagDescription
  cases htype : g.targetType with
  | list => exact absurd htype h
  | bool | enum | anything | special => rfl

/-- In the help table, the value of a flag stands in one row. -/
theorem hasSlot_helpLines (hE : ∀ text, (Redaction.ofValues g.target).optionSet (S text) = E)
    (hflags : HasSlot (fun text => (S text).flags) fun text => [{ g with value := text }])
    (hoptions : E.hasOptions) (hlist : g.targetType ≠ .list) :
    ∃ row, HasSlot (fun text => Help.lines (S text)) (fun text => [row text]) ∧
      HasSlot row Shell.hereDocText := by
  have hentries : HasSlot (fun text => Help.entries (S text))
      fun text => [Help.flagEntry E { g with value := text }] := by
    simp only [Help.entries_redacted (Redaction.ofValues g.target), hE]
    refine HasSlot.append_left _ ?_
    refine hflags.flatMap_filter (fun _ flags => flags.map (Help.flagEntry E)) (by decide)
      (Help.mem_helpOrder g.targetType) (fun _ => rfl) fun before after => ?_
    exact HasSlot.map _ ⟨before, after, fun _ => rfl⟩
  have hlines : ∀ text, Help.lines (S text) =
      (Help.entries (S text)).flatMap (Help.Entry.rows (Help.tableWidth E)) := by
    intro text
    have hwidth : Help.tableWidth E = Help.tableWidth (S text) := by
      rw [← hE text, Help.tableWidth_redacted]
    have hoptions : (S text).hasOptions := by
      rw [← Redaction.hasOptions_optionSet, hE text]
      exact hoptions
    rw [Help.lines, if_pos hoptions, hwidth]
  obtain ⟨before, hrows⟩ : ∃ before, ∀ text, Help.Entry.rows (Help.tableWidth E)
      (Help.flagEntry E { g with value := text }) =
        [before ++ (Shell.hereDocText ("An alias for -" ++ g.target ++ "=") ++
          Shell.hereDocText text)] := by
    refine ⟨(Help.headerText (Help.cells ⟨.set, false⟩ [] g.names)).padTo (Help.tableWidth E) ++
      "    ", fun text => ?_⟩
    unfold Help.flagEntry
    rw [VariableType.helpFlagForms_eq, flagForms_of_ne_list hlist, ← Shell.hereDocText_append,
      flagDescription_of_ne_list (g := { g with value := text }) hlist]
    rfl
  have hslot := hentries.flatMap (Help.Entry.rows (Help.tableWidth E))
  simp only [hrows, ← hlines] at hslot
  exact ⟨_, hslot, ((HasSlot.refl _).append_left _).append_left _⟩

/-- In the option hook, the value of a flag stands in one arm. -/
theorem hasSlot_optionHook (hE : ∀ text, (Redaction.ofValues g.target).optionSet (S text) = E)
    (hflags : HasSlot (fun text => (S text).flags) fun text => [{ g with value := text }])
    (hlist : g.targetType ≠ .list) :
    ∃ line, HasSlot (fun text => optionHook (S text)) (fun text => [line text]) ∧
      HasSlot line Shell.singleQuoted := by
  obtain ⟨command, harms⟩ : ∃ command : Bytes, ∀ text,
      (flagArms E { g with value := text }).map Arm.line =
        [indent (indent (Bytes.join "|" (g.names.map (Form.label ⟨.set, false⟩)) ++ ") " ++
          (command ++ Shell.singleQuoted text) ++ " ;;"))] := by
    by_cases hbool : g.targetType = .bool
    · refine ⟨"setoptyn " ++ E.variableName g.target ++ " ", fun text => ?_⟩
      rw [flagArms_eq, flagForms_of_ne_list hlist]
      unfold flagAction Action.ofForm
      simp only [if_pos hbool]
      rfl
    · refine ⟨"setopt " ++ E.variableName g.target ++ " ", fun text => ?_⟩
      rw [flagArms_eq, flagForms_of_ne_list hlist]
      unfold flagAction Action.ofForm
      simp only [if_neg hbool]
      rfl
  have hbuckets : HasSlot (fun text => (S text).bucketedFlags)
      fun text => [{ g with value := text }] :=
    hflags.regroup (by decide) g.targetType.mem_buckets fun _ => rfl
  have harm : HasSlot (fun text => (arms (S text)).map Arm.line) fun text =>
      (flagArms E { g with value := text }).map Arm.line := by
    simp only [arms_redacted (Redaction.ofValues g.target), hE, List.map_append, List.map_flatMap]
    exact (hbuckets.flatMap fun f => (flagArms E f).map Arm.line).append_left _
  simp only [harms] at harm
  refine ⟨_, (harm.append_left _).append_right _, ?_⟩
  unfold indent
  exact (((((HasSlot.refl _).append_left _).append_left _).append_right _).append_left
    _).append_left _

theorem hasSlot_usageHook (hE : ∀ text, (Redaction.ofValues g.target).optionSet (S text) = E)
    (hflags : HasSlot (fun text => (S text).flags) fun text => [{ g with value := text }])
    (hoptions : E.hasOptions) (hlist : g.targetType ≠ .list) :
    ∃ row, HasSlot (fun text => usageHook (S text)) (fun text => [row text]) ∧
      HasSlot row Shell.hereDocText := by
  obtain ⟨row, hlines, hrow⟩ := hasSlot_helpLines hE hflags hoptions hlist
  have hoptions' : ∀ text, (S text).hasOptions := fun text => by
    rw [← Redaction.hasOptions_optionSet, hE text]
    exact hoptions
  have hdescription : ∀ text, (S text).description = E.description := fun text => by
    rw [← hE text]
    rfl
  have husage : HasSlot (fun text => usageOptions (S text)) fun text => [row text] := by
    unfold usageOptions
    simp only [if_pos (hoptions' _)]
    exact hlines.append_left [("Local options:" : Bytes)]
  refine ⟨row, ?_, hrow⟩
  unfold usageHook
  simp only [hdescription]
  exact (husage.append_left _).append_right _

/-- A script shows the value of a flag twice, in the usage text and as a quoted word. -/
theorem hasSlots_render_value (hE : ∀ text, (Redaction.ofValues g.target).optionSet (S text) = E)
    (hflags : HasSlot (fun text => (S text).flags) fun text => [{ g with value := text }])
    (hoptions : E.hasOptions) (hlist : g.targetType ≠ .list) :
    ∃ p₀ p₁ p₂, ∀ text, render (S text) =
      p₀ ++ Shell.hereDocText text ++ p₁ ++ Shell.singleQuoted text ++ p₂ := by
  obtain ⟨row, husage, hrow⟩ := hasSlot_usageHook hE hflags hoptions hlist
  obtain ⟨line, hoption, hline⟩ := hasSlot_optionHook hE hflags hlist
  have hconfig : ∀ text, configHook (S text) = configHook E := fun text => by
    rw [← hE text, configHook_redacted _ fun _ => rfl]
  obtain ⟨p₀, p₁, p₂, hslots⟩ := HasSlot.pair (Bytes.unlines (header E))
    (Bytes.unlines (configHook E ++ (if E.hasLists then listHelpers else [])))
    (Bytes.unlines
      ((if E.settings.enableCompletions && E.hasOptions then completionHook E else []) ++
        parseArguments ++ valueChecks E ++ collapses E ++ urlParameters E ++ inlinedTerms E ++
        dispatch E))
    (husage.unlines hrow) (hoption.unlines hline)
  refine ⟨p₀, p₁, p₂, fun text => ?_⟩
  rw [← hslots, render, lines_redacted (Redaction.ofValues g.target), hE, hconfig]
  simp only [Bytes.unlines, List.flatMap_append, List.append_assoc]

end Script

end Elvis
