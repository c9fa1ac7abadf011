import Elvis.Completion.Bash
import Elvis.Proofs.Bytes.Affix
import Elvis.Proofs.Script.Labels
import Elvis.Proofs.Shell.Quoting
import Elvis.Script.CompletionHook
import Elvis.Script.ValueCheck

/-!
# Reading completions

The words that the completion hook and the file for bash offer, and the values that the script
checks for, as they can be read in the text.
-/

namespace Elvis

/-! ## Readers -/

/-- The text in the first line that has the beginning and the end, split at its spaces. -/
def wordsBetween? (opening closing : Bytes) (lines : List Bytes) : Option (List Bytes) :=
  (lines.findSome? (Bytes.between? opening closing)).map (Bytes.split Byte.space)

def hookWordsStart : Bytes := Script.indent (Script.indent "*) mkopts ")

/-- The words that a completion hook makes options of. -/
def hookWords? : List Bytes → Option (List Bytes) := wordsBetween? hookWordsStart " ;;"

def bashWordsStart : Bytes := "      COMPREPLY=( $(compgen -W \""

def bashWordsEnd : Bytes := "\" -- \"$cur\") )"

/-- The word list in a completion file for bash. -/
def bashWords? : List Bytes → Option (List Bytes) := wordsBetween? bashWordsStart bashWordsEnd

/-- The words of the label at the beginning of a line. -/
def labelWords? (line : Bytes) : Option (List Bytes) :=
  (Shell.readLabel .wordStart [] [] (line.dropWhile (· = Byte.space))).map Prod.fst

/-- The values that the first arm of a check lets through. -/
def checkedValues? (lines : List Bytes) : Option (List Bytes) := lines.findSome? labelWords?

variable {set : OptionSet} {v : Variable}

/-! ## The values that the script checks for -/

theorem labelWords?_caseLabel {items : List Bytes} (h : items ≠ []) (rest : Bytes) :
    labelWords? (Shell.caseLabel items ++ Byte.closingParen :: rest) = some items := by
  have hread : Shell.readLabel .wordStart [] [] _ = _ := Shell.readLabel_caseLabel h rest
  obtain ⟨tail, htail⟩ := Shell.caseLabel_head h
  unfold labelWords?
  rw [htail] at hread ⊢
  exact congrArg (Option.map Prod.fst) hread

theorem checkedValues?_membershipCheck {value option : Bytes} {allowed : List Bytes}
    (h : allowed ≠ []) :
    checkedValues? (Script.membershipCheck value option allowed) = some allowed := by
  have hcase : labelWords? ("case \"$" ++ value ++ "\" in") = none := rfl
  have hlabel : labelWords? (Script.indent (Shell.caseLabel allowed ++ ") ;;")) = some allowed :=
    labelWords?_caseLabel h _
  unfold checkedValues? Script.membershipCheck
  rw [List.findSome?_cons, hcase]
  dsimp only
  rw [List.findSome?_cons, hlabel]

theorem checkedValues?_forEachItem {listVariable : Bytes} {body : List Bytes} :
    checkedValues? (Script.forEachItem listVariable body) = checkedValues? body := by
  have hindent : labelWords? ∘ Script.indent = labelWords? := rfl
  have hopening : [("_sr_enter_list_context" : Bytes),
      "for _sr_elem in $" ++ listVariable ++ "; do"].findSome? labelWords? = none := rfl
  have hclosing : [("done" : Bytes), "_sr_leave_list_context"].findSome? labelWords? = none := rfl
  unfold checkedValues? Script.forEachItem
  dsimp only
  rw [List.findSome?_append, List.findSome?_append, hopening, hclosing, List.findSome?_map,
    hindent, Option.none_or, Option.or_none]

theorem checkedValues?_variableCheck {allowed : List Bytes}
    (hvalues : v.declaration.values? = some allowed) (h : allowed ≠ []) :
    checkedValues? (Script.variableCheck set v) = some allowed := by
  unfold Script.variableCheck
  rw [hvalues]
  dsimp only
  split
  · rw [checkedValues?_forEachItem]
    exact checkedValues?_membershipCheck h
  · exact checkedValues?_membershipCheck h

/-! ## The text of the word lists -/

/-- The first line that fits shows the words, when the lines before it do not fit. -/
theorem wordsBetween?_eq {opening closing : Bytes} {lines before after words : List Bytes}
    (hlines : lines =
      before ++ (opening ++ (Bytes.join [Byte.space] words ++ closing)) :: after)
    (hbefore : ∀ line ∈ before, Bytes.between? opening closing line = none) (hne : words ≠ [])
    (hwords : ∀ word ∈ words, Byte.space ∉ word) :
    wordsBetween? opening closing lines = some words := by
  unfold wordsBetween?
  rw [hlines, List.findSome?_append, List.findSome?_eq_none_iff.mpr hbefore, Option.none_or,
    List.findSome?_cons, Bytes.between?_append]
  exact congrArg some (Bytes.split_join hne hwords)

/-- An entry has labels, and they are spellings of options. -/
def LabelledBySpellings (entry : ValueCompletion) : Prop :=
  entry.labels ≠ [] ∧ ∀ label ∈ entry.labels, IsLabel label

/-- The arm of an entry starts with a label, and so with a dash. -/
theorem between?_valueArm {entry : ValueCompletion} (h : LabelledBySpellings entry)
    (closing : Bytes) :
    Bytes.between? hookWordsStart closing (Script.valueArm entry) = none := by
  obtain ⟨rest, hdash⟩ := join_labels_head h.1 h.2
  have hbar : ("|" : Bytes) = [Byte.bar] := rfl
  unfold Script.valueArm
  rw [hbar, hdash]
  rfl

theorem hookWords?_completionHook (hne : (Completions.ofOptions set).words ≠ [])
    (hwords : ∀ word ∈ (Completions.ofOptions set).words, Byte.space ∉ word)
    (hlabels : ∀ entry ∈ (Completions.ofOptions set).values, LabelledBySpellings entry) :
    hookWords? (Script.completionHook set) = some (Completions.ofOptions set).words := by
  have hbefore : ∀ line ∈ [("w3_complete_hook_opt () \x7b" : Bytes), Script.indent "opt=\"$1\"",
      Script.indent "case \"$opt\" in"] ++
        (Completions.ofOptions set).values.map Script.valueArm,
      Bytes.between? hookWordsStart " ;;" line = none := by
    intro line hline
    rcases List.mem_append.mp hline with hline | hline
    · exact List.findSome?_eq_none_iff.mp rfl line hline
    · obtain ⟨entry, he, rfl⟩ := List.mem_map.mp hline
      exact between?_valueArm (hlabels entry he) _
  have hlines : Script.completionHook set =
      ([("w3_complete_hook_opt () \x7b" : Bytes), Script.indent "opt=\"$1\"",
        Script.indent "case \"$opt\" in"] ++
          (Completions.ofOptions set).values.map Script.valueArm) ++
      (hookWordsStart ++ (Bytes.join [Byte.space] (Completions.ofOptions set).words ++ " ;;")) ::
          [Script.indent "esac", "\x7d", ""] := by
    unfold Script.completionHook Script.indent
    simp only [List.append_assoc]
    rfl
  exact wordsBetween?_eq hlines hbefore hne hwords

theorem between?_bashValueArm {entry : ValueCompletion} (h : LabelledBySpellings entry) :
    ∀ line ∈ Completion.Bash.valueArm entry,
      Bytes.between? bashWordsStart bashWordsEnd line = none := by
  obtain ⟨rest, hdash⟩ := join_labels_head h.1 h.2
  have hbar : ("|" : Bytes) = [Byte.bar] := rfl
  unfold Completion.Bash.valueArm
  rw [hbar, hdash]
  exact List.findSome?_eq_none_iff.mp rfl

theorem bashWords?_lines (hne : (Completions.ofOptions set).words ≠ [])
    (hwords : ∀ word ∈ (Completions.ofOptions set).words, Byte.space ∉ word)
    (hlabels : ∀ entry ∈ (Completions.ofOptions set).values, LabelledBySpellings entry) :
    bashWords? (Completion.Bash.lines set) =
      some ((Completions.ofOptions set).words.map (Byte.dash :: ·)) := by
  have hbefore : ∀ line ∈ Completion.Bash.opening set ++
        (Completions.ofOptions set).values.flatMap Completion.Bash.valueArm ++
          [("    -*=*)" : Bytes), "      ;;", "    -*)"],
      Bytes.between? bashWordsStart bashWordsEnd line = none := by
    intro line hline
    rcases List.mem_append.mp hline with hline | hline
    · rcases List.mem_append.mp hline with hline | hline
      · exact List.findSome?_eq_none_iff.mp rfl line hline
      · obtain ⟨entry, he, hline⟩ := List.mem_flatMap.mp hline
        exact between?_bashValueArm (hlabels entry he) line hline
    · exact List.findSome?_eq_none_iff.mp rfl line hline
  have hdashed : (Completions.ofOptions set).words.map (Byte.dash :: ·) ≠ [] := by
    simpa using hne
  have hspace : ∀ word ∈ (Completions.ofOptions set).words.map (Byte.dash :: ·),
      Byte.space ∉ word := by
    intro word hw
    obtain ⟨plain, hplain, rfl⟩ := List.mem_map.mp hw
    rw [List.mem_cons, not_or]
    exact ⟨by decide, hwords plain hplain⟩
  have hlines : Completion.Bash.lines set =
      (Completion.Bash.opening set ++
        (Completions.ofOptions set).values.flatMap Completion.Bash.valueArm ++
          [("    -*=*)" : Bytes), "      ;;", "    -*)"]) ++
      (bashWordsStart ++
        (Bytes.join [Byte.space] ((Completions.ofOptions set).words.map (Byte.dash :: ·)) ++
          bashWordsEnd)) ::
        ((Completion.Bash.wordArms
          ((Completions.ofOptions set).words.map (Byte.dash :: ·))).drop 4 ++
            Completion.Bash.closing set) := by
    unfold Completion.Bash.lines Completion.Bash.wordArms
    simp only [List.append_assoc]
    rfl
  exact wordsBetween?_eq hlines hbefore hdashed hspace

end Elvis
