import Elvis.Proofs.Directive.PrintParse
import Elvis.Proofs.OptionSet.Names
import Elvis.Spelling

/-!
# Labels of the option parser

A label of the option parser is a shell pattern: a star at its end stands for any text. Names are
words, so the label is known from any word that it matches.
-/

namespace Elvis

/-- The shell matches a word against a label. -/
def LabelMatches (label word : Bytes) : Prop :=
  if label.getLast? = some Byte.star then label.dropLast <+: word else word = label

instance (label word : Bytes) : Decidable (LabelMatches label word) :=
  inferInstanceAs (Decidable
    (if label.getLast? = some Byte.star then label.dropLast <+: word else word = label))

/-- A spelling of a name that is a word. -/
def IsLabel (label : Bytes) : Prop :=
  ∃ (form : Form) (name : Bytes), LowerWord name ∧ form.label name = label

/-- The only label that may match a word. -/
def labelOf (word : Bytes) : Bytes :=
  if Byte.equals ∈ word then word.takeWhile (· ≠ Byte.equals) ++ [Byte.equals, Byte.star] else word

variable {form : Form} {name label word : Bytes}

/-! ## The lists of forms -/

namespace VariableType

theorem completionForms_perm (type : VariableType) : type.completionForms.Perm type.forms := by
  cases type with
  | bool => exact List.Perm.swap _ _ _
  | enum | list | anything | special => exact List.Perm.refl _

theorem completionFlagForms_eq (type : VariableType) :
    type.completionFlagForms = type.flagForms := by
  cases type <;> rfl

theorem helpFlagForms_eq (type : VariableType) : type.helpFlagForms = type.flagForms := by
  cases type <;> rfl

theorem valueForms_eq (type : VariableType) :
    type.valueForms = type.forms.filter (·.takesValue) := by
  cases type <;> rfl

end VariableType

/-! ## The bytes of a label -/

theorem Form.mem_stem {b : UInt8} (h : LowerWord name) (hb : b ∈ form.stem name) :
    Byte.Lower b ∨ b = Byte.dash := by
  have hlead : form.verb.lead.all (fun c => Byte.Lower c ∨ c = Byte.dash) := by
    cases form.verb <;> rfl
  rcases List.mem_cons.mp hb with rfl | hb
  · exact Or.inr rfl
  · rcases List.mem_append.mp hb with hb | hb
    · exact of_decide_eq_true (List.all_eq_true.mp hlead b hb)
    · exact Or.inl (h.2 b hb)

theorem Form.not_mem_stem {b : UInt8} (h : LowerWord name) (hlower : ¬ Byte.Lower b)
    (hdash : b ≠ Byte.dash) : b ∉ form.stem name := by
  intro hb
  exact (form.mem_stem h hb).elim hlower hdash

theorem Form.label_of_takesValue (h : form.takesValue = true) :
    form.label name = form.stem name ++ [Byte.equals, Byte.star] := by
  rw [label, h]
  rfl

theorem Form.label_of_not_takesValue (h : form.takesValue = false) :
    form.label name = form.stem name := by
  rw [label, h]
  exact List.append_nil _

theorem IsLabel.not_mem {b : UInt8} (h : IsLabel label) (hlower : ¬ Byte.Lower b)
    (hb : b ∉ [Byte.dash, Byte.equals, Byte.star]) : b ∉ label := by
  obtain ⟨form, name, hname, rfl⟩ := h
  simp only [List.mem_cons, List.not_mem_nil, or_false, not_or] at hb
  have hstem := form.not_mem_stem hname hlower hb.1
  cases hv : form.takesValue with
  | true =>
    rw [Form.label_of_takesValue hv]
    simp [hstem, hb]
  | false => rwa [Form.label_of_not_takesValue hv]

theorem IsLabel.head (h : IsLabel label) : ∃ rest, label = Byte.dash :: rest := by
  obtain ⟨form, name, _, rfl⟩ := h
  exact ⟨_, rfl⟩

theorem join_labels_head {labels : List Bytes} (hne : labels ≠ [])
    (h : ∀ label ∈ labels, IsLabel label) :
    ∃ rest, Bytes.join [Byte.bar] labels = Byte.dash :: rest := by
  cases labels with
  | nil => exact absurd rfl hne
  | cons label labels =>
    obtain ⟨tail, rfl⟩ := (h label List.mem_cons_self).head
    cases labels with
    | nil => exact ⟨tail, Bytes.join_singleton _ _⟩
    | cons next labels => exact ⟨_, Bytes.join_cons_cons _ _ _ _⟩

/-! ## Matching -/

/-- A label that takes a value matches the words with its stem before the first `=`, and any other
label a word without `=`. -/
theorem LabelMatches.eq_labelOf (h : IsLabel label) (hm : LabelMatches label word) :
    label = labelOf word := by
  obtain ⟨form, name, hname, rfl⟩ := h
  have hequals : Byte.equals ∉ form.stem name :=
    form.not_mem_stem hname (by decide) (by decide)
  have hstar : Byte.star ∉ form.stem name := form.not_mem_stem hname (by decide) (by decide)
  unfold LabelMatches at hm
  unfold labelOf
  cases hv : form.takesValue with
  | true =>
    rw [Form.label_of_takesValue hv] at hm ⊢
    have hlast : (form.stem name ++ [Byte.equals, Byte.star]).getLast? = some Byte.star := by simp
    have hinit : (form.stem name ++ [Byte.equals, Byte.star]).dropLast =
        form.stem name ++ [Byte.equals] := by simp
    -- the stem has no `=`, so the word shows where it ends
    rw [if_pos hlast, hinit] at hm
    obtain ⟨rest, rfl⟩ := hm
    rw [List.append_assoc, List.singleton_append, Bytes.takeWhile_ne_append hequals,
      if_pos (by simp)]
  | false =>
    rw [Form.label_of_not_takesValue hv] at hm ⊢
    have hlast : (form.stem name).getLast? ≠ some Byte.star :=
      fun h => hstar (List.mem_of_getLast? h)
    rw [if_neg hlast] at hm
    rw [hm, if_neg hequals]

example : LabelMatches (.ofString "-sort=*") "-sort=new" ∧
    ¬ LabelMatches (.ofString "-sort=*") "-sort" := by decide

/-! ## Names are words -/

variable {s : Settings} {urls : Urls} {ds : List Directive} {set : OptionSet} {v : Variable}
  {f : Flag}

theorem lowerWord_of_names {x : Directive} {o : OptionName} (hw : x.WellFormed)
    (hn : Names ds x o) : LowerWord o.name := by
  cases hn with
  | @option d =>
    cases d with
    | bool name default => exact hw.1
    | enum name default values => exact hw.1.1
    | anything name default => exact hw.1.1
    | list name elements defaults => exact hw.1.1
    | special kind => cases kind <;> exact isWord_iff.mp (by decide)
  | flag => exact hw.1.1
  | optionAlias => exact hw.1.1
  | flagAlias => exact hw.1.1

namespace OptionSet

/-- Every name of the set is a word, as the names of directives are. -/
def WordNames (set : OptionSet) : Prop := ∀ o ∈ set.optionNames, LowerWord o.name

theorem wordNames_ofDirectives (h : Resolved ds) (hw : ∀ x ∈ ds, x.WellFormed) :
    (ofDirectives s urls ds).WordNames := by
  intro o ho
  obtain ⟨x, hx, hname⟩ := List.mem_filterMap.mp ((optionNames_perm h).mem_iff.mp ho)
  exact lowerWord_of_names (hw x hx) ((optionName?_eq_some_iff h).mp hname)

theorem WordNames.variable (h : set.WordNames) (hv : v ∈ set.vars) :
    ∀ name ∈ v.names, LowerWord name :=
  fun _ hname => h _ (List.mem_append_left _
    (List.mem_flatMap.mpr ⟨v, hv, List.mem_map_of_mem hname⟩))

theorem WordNames.flag (h : set.WordNames) (hf : f ∈ set.flags) :
    ∀ name ∈ f.names, LowerWord name :=
  fun _ hname => h _ (List.mem_append_right _
    (List.mem_flatMap.mpr ⟨f, hf, List.mem_map_of_mem hname⟩))

theorem WordNames.isLabel (h : set.WordNames)
    (hl : label ∈ set.optionNames.flatMap OptionName.labels) : IsLabel label := by
  obtain ⟨o, ho, hl⟩ := List.mem_flatMap.mp hl
  obtain ⟨form, _, rfl⟩ := List.mem_map.mp hl
  exact ⟨form, o.name, h o ho, rfl⟩

end OptionSet

end Elvis
