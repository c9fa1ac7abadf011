import Elvis.Script.OptionHook

/-!
# The arms of the option parser

An option has as many actions as labels for each of its names, so every label stands in the arm of
its form and no arm is without labels.
-/

namespace Elvis.Script

/-! ## Actions -/

/-- The action of a form on a variable of the given type. -/
def Action.ofForm (type : VariableType) (target : Bytes) (value : Operand) (form : Form) : Action :=
  match form.verb with
  | .set => if type = .bool then .setYesNo target value else .setText target value
  | .add => .addItems target value
  | .remove => .removeItems target value
  | .clear => .clearItems target

def variableAction (set : OptionSet) (v : Variable) (form : Form) : Action :=
  .ofForm v.type (set.variableName v.name) (if form.takesValue then .given else .yes) form

/-- A flag does what its target does with the flag's value. -/
def flagAction (set : OptionSet) (f : Flag) (form : Form) : Action :=
  let withItems (items : List Bytes) : Action :=
    if items.isEmpty then .nothing
    else .ofForm f.targetType (set.variableName f.target) (.literal (Bytes.joinCommas items)) form
  match form.verb with
  | .add => withItems f.items
  | .remove => withItems (removable f.items)
  | _ => .ofForm f.targetType (set.variableName f.target) (.literal f.value) form

theorem variableActions_eq (set : OptionSet) (v : Variable) :
    variableActions set v = v.type.forms.map (variableAction set v) := by
  unfold variableActions variableAction Action.ofForm
  cases v.type <;> rfl

theorem flagActions_eq (set : OptionSet) (f : Flag) :
    flagActions set f = f.targetType.flagForms.map (flagAction set f) := by
  unfold flagActions flagAction Action.ofForm
  cases f.targetType <;> rfl

/-- There are as many actions as labels of a name. -/
theorem length_variableActions (set : OptionSet) (v : Variable) :
    (variableActions set v).length = ((OptionType.var v.type).forms false).length := by
  rw [variableActions_eq, List.length_map]
  rfl

theorem length_flagActions (set : OptionSet) (f : Flag) :
    (flagActions set f).length = ((OptionType.var f.targetType).forms true).length := by
  rw [flagActions_eq, List.length_map]
  rfl

/-! ## Labels -/

theorem addLabels_zipWith (labels : Form → List Bytes) (name : Bytes) (forms : List Form)
    (actions : List Action) :
    addLabels (List.zipWith (fun form action => ⟨labels form, action⟩) forms actions)
        (forms.map (·.label name)) =
      List.zipWith (fun form action => ⟨labels form ++ [form.label name], action⟩) forms
        actions := by
  induction forms generalizing actions with
  | nil => rfl
  | cons form forms ih =>
    cases actions with
    | nil => rfl
    | cons action actions => exact congrArg (_ :: ·) (ih actions)

theorem foldl_addLabels_zipWith (labels : Form → List Bytes) (forms : List Form)
    (actions : List Action) (names : List Bytes) :
    names.foldl (fun arms name => addLabels arms (forms.map (·.label name)))
        (List.zipWith (fun form action => ⟨labels form, action⟩) forms actions) =
      List.zipWith (fun form action => ⟨labels form ++ names.map form.label, action⟩) forms
        actions := by
  induction names generalizing labels with
  | nil => simp only [List.foldl_nil, List.map_nil, List.append_nil]
  | cons name names ih =>
    rw [List.foldl_cons, addLabels_zipWith, ih]
    simp only [List.append_assoc, List.singleton_append, List.map_cons]

/-- No label is dropped, and no arm is left without labels: the form and the action at a position
make the arm. -/
theorem armsFor_eq {type : VariableType} {asFlag : Bool} {actions : List Action}
    (h : actions.length = ((OptionType.var type).forms asFlag).length) (names : List Bytes) :
    armsFor type asFlag names actions =
      List.zipWith (fun form action => ⟨names.map form.label, action⟩)
        ((OptionType.var type).forms asFlag) actions := by
  let blank (action : Action) : Arm := ⟨[], action⟩
  have hblank : actions.map blank =
      List.zipWith (fun _ => blank) ((OptionType.var type).forms asFlag) actions :=
    calc actions.map blank
        = ((((OptionType.var type).forms asFlag).zip actions).map Prod.snd).map blank := by
          rw [List.map_snd_zip (Nat.le_of_eq h)]
      _ = _ := by
          rw [List.map_map, List.map_zip_eq_zipWith]
          rfl
  unfold armsFor OptionType.labels
  rw [hblank, foldl_addLabels_zipWith]
  rfl

theorem variableArms_eq (set : OptionSet) (v : Variable) :
    variableArms set v =
      v.type.forms.map fun form => ⟨v.names.map form.label, variableAction set v form⟩ := by
  unfold variableArms
  rw [armsFor_eq (length_variableActions set v), variableActions_eq]
  exact (List.zipWith_map_right ..).trans (List.zipWith_self ..)

theorem flagArms_eq (set : OptionSet) (f : Flag) :
    flagArms set f =
      f.targetType.flagForms.map fun form => ⟨f.names.map form.label, flagAction set f form⟩ := by
  unfold flagArms
  rw [armsFor_eq (length_flagActions set f), flagActions_eq]
  exact (List.zipWith_map_right ..).trans (List.zipWith_self ..)

end Elvis.Script
