import Elvis.Proofs.Script.OptionHook
import Mathlib.Data.List.DropRight

/-!
# What flags do

The arm of a flag does what the arm of its target does with a value, with the flag's own value in
the place of the argument (`flags_applyValue`). A flag that has nothing to add to a list, or nothing
to remove from it, does nothing there.
-/

namespace Elvis.Script

/-! ## Reading the arms -/

/-- The command of an arm: what stands between the labels and the two semicolons. -/
def lineCommand (line : Bytes) : Bytes :=
  ((line.dropWhile (· ≠ Byte.closingParen)).drop 2).rdrop 3

/-- The command of the arm with the label. -/
def commandOf? (lines : List Bytes) (label : Bytes) : Option Bytes :=
  ((armLines lines).find? fun line => (lineLabels line).contains label).map lineCommand

/-- The arm of the one label does with the value what that of the other does with its argument. -/
def GivesValue (lines : List Bytes) (label target value : Bytes) : Prop :=
  ∃ command : Bytes, commandOf? lines target = some (command ++ "\"$optarg\"") ∧
    commandOf? lines label = some (command ++ Shell.singleQuoted value)

/-- It does so, except that it does nothing where there is nothing to give. -/
def GivesUnless (nothing : Prop) (lines : List Bytes) (label target value : Bytes) : Prop :=
  (commandOf? lines label = some ":" ↔ nothing) ∧
    (¬ nothing → GivesValue lines label target value)

/-- Under each of its names the flag does what its target does under each of its own. -/
structure AppliesValue (lines : List Bytes) (f : Flag) (v : Variable) : Prop where
  scalar : v.type ≠ .list → ∀ name ∈ f.names, ∀ target ∈ v.names,
    GivesValue lines ("-" ++ name) ("-" ++ target ++ "=*") f.value
  add : v.type = .list → ∀ name ∈ f.names, ∀ target ∈ v.names,
    GivesUnless (f.value = []) lines ("-add-" ++ name) ("-add-" ++ target ++ "=*") f.value
  /-- Of the items only those that are not empty can be removed. -/
  remove : v.type = .list → ∀ name ∈ f.names, ∀ target ∈ v.names,
    let items := (Bytes.split Byte.comma f.value).filter (· ≠ [])
    GivesUnless (items = []) lines ("-remove-" ++ name) ("-remove-" ++ target ++ "=*")
      (Bytes.joinCommas items)

variable {set : OptionSet} {s : Settings} {ds : List Directive} {f : Flag} {v : Variable}
  {arm : Arm} {form own : Form} {label name target value : Bytes} {lines : List Bytes}

/-- No label holds a parenthesis, so the command begins behind the first. -/
theorem lineCommand_line (h : ∀ label ∈ arm.labels, IsLabel label) :
    lineCommand arm.line = arm.action.command := by
  have hlabels : Byte.closingParen ∉ Bytes.join [Byte.bar] arm.labels :=
    (Bytes.not_mem_join_iff (by decide)).mpr fun label hl =>
      (h label hl).not_mem (by decide) (by decide)
  have hfront : ∀ b ∈ Bytes.spaces 8 ++ Bytes.join [Byte.bar] arm.labels,
      decide (b ≠ Byte.closingParen) = true := by
    intro b hb
    refine decide_eq_true fun heq => ?_
    rcases List.mem_append.mp (heq ▸ hb) with hspace | hlabel
    · exact absurd (List.eq_of_mem_replicate hspace) (by decide)
    · exact hlabels hlabel
  have hline : arm.line = (Bytes.spaces 8 ++ Bytes.join [Byte.bar] arm.labels) ++
      Byte.closingParen :: (Byte.space :: (arm.action.command ++ " ;;")) := by
    unfold Arm.line indent
    simp only [List.append_assoc]
    rfl
  unfold lineCommand
  rw [hline, List.dropWhile_append_of_pos hfront, List.dropWhile_cons_of_neg (by simp)]
  exact List.rdrop_append_length

theorem commandOf?_optionHook (h : ∀ arm ∈ arms set, ∀ label ∈ arm.labels, IsLabel label)
    (honce : ((arms set).flatMap (·.labels)).Nodup) (harm : arm ∈ arms set)
    (hl : label ∈ arm.labels) : commandOf? (optionHook set) label = some arm.action.command := by
  have hfilter : (arms set).filter (fun arm => (lineLabels arm.line).contains label) = [arm] := by
    rw [← Keyed.filter_mem_eq_singleton honce harm hl]
    refine List.filter_congr fun arm' harm' => ?_
    rw [lineLabels_line (labels_ne_nil harm') (h arm' harm')]
    simp
  have hfind : (arms set).find? (fun arm => (lineLabels arm.line).contains label) = some arm := by
    rw [← List.head?_filter, hfilter, List.head?_cons]
  unfold commandOf?
  rw [armLines_optionHook h, List.find?_map]
  show (((arms set).find? fun arm => (lineLabels arm.line).contains label).map Arm.line).map
    lineCommand = _
  rw [hfind]
  exact congrArg some (lineCommand_line (h arm harm))

/-! ## Commands -/

/-- Actions on one variable with forms of one verb differ in their operands alone. -/
theorem exists_command_ofForm (type : VariableType) (variableName : Bytes) {verb : Verb}
    (hverb : verb ≠ .clear) : ∃ command, ∀ form : Form, form.verb = verb → ∀ operand,
      (Action.ofForm type variableName operand form).command = command ++ operand.word := by
  cases verb with
  | clear => exact absurd rfl hverb
  | set =>
    by_cases hbool : type = .bool
    · refine ⟨"setoptyn " ++ variableName ++ " ", fun form hform operand => ?_⟩
      unfold Action.ofForm
      rw [hform]
      dsimp only
      rw [if_pos hbool]
      rfl
    · refine ⟨"setopt " ++ variableName ++ " ", fun form hform operand => ?_⟩
      unfold Action.ofForm
      rw [hform]
      dsimp only
      rw [if_neg hbool]
      rfl
  | add =>
    refine ⟨"_sr_list_add " ++ variableName ++ " ", fun form hform operand => ?_⟩
    unfold Action.ofForm
    rw [hform]
    rfl
  | remove =>
    refine ⟨"_sr_list_remove " ++ variableName ++ " ", fun form hform operand => ?_⟩
    unfold Action.ofForm
    rw [hform]
    rfl

theorem GivesValue.ne_nothing (h : GivesValue lines label target value) :
    commandOf? lines label ≠ some ":" := by
  obtain ⟨command, _, hown⟩ := h
  rw [hown]
  intro heq
  have hlength := congrArg List.length (Option.some.inj heq)
  rw [List.length_append] at hlength
  have hquotes : 2 ≤ (Shell.singleQuoted value).length := by
    unfold Shell.singleQuoted
    rw [List.length_cons, List.length_append, List.length_singleton]
    omega
  have hone : (":" : Bytes).length = 1 := rfl
  omega

/-! ## Items -/

theorem removable_items (f : Flag) :
    removable f.items = (Bytes.split Byte.comma f.value).filter (· ≠ []) := by
  have hempty (items : List Bytes) : removable items = items.filter (· ≠ []) := by
    refine List.filter_congr fun item _ => ?_
    cases item <;> rfl
  rw [hempty]
  unfold Flag.items Bytes.commaItems
  split
  · next hvalue =>
    rw [List.isEmpty_iff.mp hvalue]
    rfl
  · rfl

theorem items_eq_nil_iff (f : Flag) : f.items = [] ↔ f.value = [] := by
  unfold Flag.items Bytes.commaItems
  split
  · next hvalue => exact iff_of_true rfl (List.isEmpty_iff.mp hvalue)
  · next hvalue =>
    exact iff_of_false (Bytes.split_ne_nil _ _) fun hnil => hvalue (List.isEmpty_iff.mpr hnil)

/-! ## The arms of a flag and its target -/

section

variable (h : ∀ arm ∈ arms set, ∀ label ∈ arm.labels, IsLabel label)
  (honce : ((arms set).flatMap (·.labels)).Nodup) (hf : f ∈ set.flags) (hv : v ∈ set.vars)
  (htarget : v.name = f.target) (htype : v.type = f.targetType)

include h honce hf hv htarget htype

/-- The action of the flag is that of the target for a value of its own. -/
theorem givesValue_of_action (hform : form ∈ v.type.forms) (hvalue : form.takesValue = true)
    (hown : own ∈ f.targetType.flagForms) (hverb : own.verb = form.verb)
    (hclear : form.verb ≠ .clear)
    (haction : flagAction set f own =
      .ofForm f.targetType (set.variableName f.target) (.literal value) own)
    (hname : name ∈ f.names) (htargetName : target ∈ v.names) :
    GivesValue (optionHook set) (own.label name) (form.label target) value := by
  obtain ⟨command, hcommand⟩ :=
    exists_command_ofForm f.targetType (set.variableName f.target) hclear
  have hgiven : variableAction set v form =
      .ofForm f.targetType (set.variableName f.target) .given form := by
    unfold variableAction
    rw [hvalue, htarget, htype, if_pos rfl]
  refine ⟨command, ?_, ?_⟩
  · rw [commandOf?_optionHook h honce (variableArm_mem_arms hv hform)
      (List.mem_map_of_mem htargetName), hgiven, hcommand form rfl]
    rfl
  · rw [commandOf?_optionHook h honce (flagArm_mem_arms hf hown) (List.mem_map_of_mem hname),
      haction, hcommand own hverb]
    rfl

/-- The action of the flag is that of the target for a list of items, or nothing. -/
theorem givesUnless_of_action (items : List Bytes) (hform : form ∈ v.type.forms)
    (hvalue : form.takesValue = true) (hown : own ∈ f.targetType.flagForms)
    (hverb : own.verb = form.verb) (hclear : form.verb ≠ .clear)
    (haction : flagAction set f own = if items.isEmpty then .nothing else
      .ofForm f.targetType (set.variableName f.target) (.literal (Bytes.joinCommas items)) own)
    (hname : name ∈ f.names) (htargetName : target ∈ v.names) :
    GivesUnless (items = []) (optionHook set) (own.label name) (form.label target)
      (Bytes.joinCommas items) := by
  by_cases hitems : items = []
  · rw [hitems] at haction
    refine ⟨iff_of_true ?_ hitems, absurd hitems⟩
    rw [commandOf?_optionHook h honce (flagArm_mem_arms hf hown) (List.mem_map_of_mem hname),
      haction]
    rfl
  · rw [if_neg (by simpa using hitems)] at haction
    have hgives := givesValue_of_action h honce hf hv htarget htype hform hvalue hown hverb hclear
      haction hname htargetName
    exact ⟨iff_of_false hgives.ne_nothing hitems, fun _ => hgives⟩

theorem applyValue : AppliesValue (optionHook set) f v where
  scalar hlist name hname target htargetName := by
    have hform : ⟨.set, true⟩ ∈ v.type.forms ∧ ⟨.set, false⟩ ∈ f.targetType.flagForms := by
      rw [← htype]
      revert hlist
      cases v.type <;> decide
    have hlabel : Form.label ⟨.set, false⟩ name = "-" ++ name := Form.label_of_not_takesValue rfl
    rw [← hlabel]
    exact givesValue_of_action h honce hf hv htarget htype hform.1 rfl hform.2 rfl nofun rfl hname
      htargetName
  add hlist name hname target htargetName := by
    have hform : ⟨.add, true⟩ ∈ v.type.forms ∧ ⟨.add, false⟩ ∈ f.targetType.flagForms := by
      rw [← htype, hlist]
      decide
    have hlabel : Form.label ⟨.add, false⟩ name = "-add-" ++ name :=
      Form.label_of_not_takesValue rfl
    have hitems : Bytes.joinCommas f.items = f.value :=
      (Bytes.commaItems_eq_iff.mp rfl).2.2.symm
    have hgives := givesUnless_of_action h honce hf hv htarget htype f.items hform.1 rfl hform.2 rfl
      nofun rfl hname htargetName
    rw [hlabel, hitems, items_eq_nil_iff] at hgives
    exact hgives
  remove hlist name hname target htargetName := by
    have hform : ⟨.remove, true⟩ ∈ v.type.forms ∧ ⟨.remove, false⟩ ∈ f.targetType.flagForms := by
      rw [← htype, hlist]
      decide
    have hlabel : Form.label ⟨.remove, false⟩ name = "-remove-" ++ name :=
      Form.label_of_not_takesValue rfl
    have hgives := givesUnless_of_action h honce hf hv htarget htype (removable f.items) hform.1 rfl
      hform.2 rfl nofun rfl hname htargetName
    rw [hlabel, removable_items] at hgives
    exact hgives

end

/-- In every hook that is built the flags do what their targets do. -/
theorem flags_applyValue {sources : List Directive.Source}
    (hread : Directive.parseAll sources = .ok ds) (hbuild : OptionSet.build s ds = .ok set)
    (hf : f ∈ set.flags) :
    ∃ v, set.findVariable? f.target = some v ∧ AppliesValue (optionHook set) f v := by
  obtain ⟨hw, urls, _, rfl⟩ := OptionSet.build_eq_ok_iff.mp hbuild
  obtain ⟨v, hfind, htype⟩ := OptionSet.findVariable?_target hw.resolved hf
  obtain ⟨hv, hname⟩ := (OptionSet.findVariable?_eq_some_iff hw.resolved).mp hfind
  have hlabel : ∀ arm ∈ arms (OptionSet.ofDirectives s urls ds), ∀ label ∈ arm.labels,
      IsLabel label :=
    fun _ harm _ hl => isLabel_of_mem_arms hw.resolved (Directive.wellFormed_of_parseAll hread)
      (List.mem_flatten_of_mem (List.mem_map_of_mem harm) hl)
  have honce : ((arms (OptionSet.ofDirectives s urls ds)).flatMap (·.labels)).Nodup := by
    rw [List.flatMap_def]
    exact (arms_labels_perm _).nodup_iff.mpr
      ((OptionSet.nodup_labels_iff hw.resolved).mpr hw.spellings)
  exact ⟨v, hfind, applyValue hlabel honce hf hv hname htype⟩

/-- A list with two flags, one of them without an item that could be removed. -/
def listedSources : List Directive.Source :=
  [⟨.list, "tags:anything:"⟩,
   ⟨.flag, "both:tags:,it's,,b"⟩,
   ⟨.flag, "comma:tags:,"⟩,
   ⟨.aliasing, "pair:both:flag"⟩,
   ⟨.aliasing, "label:tags:list"⟩]

/-- The aliases of the flag and of its target, and the flag with a quote in its value. -/
theorem flags_applyValue_listed :
    ∃ ds set, Directive.parseAll listedSources = .ok ds ∧
      OptionSet.build OptionSet.sampleSettings ds = .ok set ∧
      set.flags.map (·.value) = [",it's,,b", ","] ∧
      GivesValue (optionHook set) "-add-pair" "-add-label=*" ",it's,,b" ∧
      GivesValue (optionHook set) "-remove-pair" "-remove-label=*" "it's,b" ∧
      commandOf? (optionHook set) "-remove-comma" = some ":" := by
  obtain ⟨ds, set, v, hread, hbuild, hflags, hfind, hlist, hlabel⟩ : ∃ ds set v,
      Directive.parseAll listedSources = .ok ds ∧
      OptionSet.build OptionSet.sampleSettings ds = .ok set ∧
      set.flags =
        [⟨"both", "tags", .list, ",it's,,b", ["pair"]⟩, ⟨"comma", "tags", .list, ",", []⟩] ∧
      set.findVariable? "tags" = some v ∧ v.type = .list ∧ ("label" : Bytes) ∈ v.names :=
    ⟨_, _, _, rfl, rfl, rfl, rfl, rfl, by decide⟩
  have hboth : ⟨"both", "tags", .list, ",it's,,b", ["pair"]⟩ ∈ set.flags := by
    rw [hflags]
    exact List.mem_cons_self
  have hcomma : ⟨"comma", "tags", .list, ",", []⟩ ∈ set.flags := by
    rw [hflags]
    exact List.mem_cons_of_mem _ List.mem_cons_self
  obtain ⟨w, hfindBoth, hgives⟩ := flags_applyValue hread hbuild hboth
  obtain ⟨w', hfindComma, hnothing⟩ := flags_applyValue hread hbuild hcomma
  obtain rfl := Option.some.inj (hfindBoth.symm.trans hfind)
  obtain rfl := Option.some.inj (hfindComma.symm.trans hfind)
  refine ⟨ds, set, hread, hbuild, by rw [hflags]; rfl, ?_, ?_, ?_⟩
  · exact (hgives.add hlist "pair" (by decide) "label" hlabel).2 (by decide)
  · exact (hgives.remove hlist "pair" (by decide) "label" hlabel).2 (by decide)
  · exact (hnothing.remove hlist "comma" (by decide) "label" hlabel).1.mpr (by decide)

end Elvis.Script
