import Elvis.Proofs.Script.Nested
import Elvis.Proofs.Script.Usage

/-!
# List contexts

The script enters and leaves a list context around each loop over the items of a list. Where no text
of the elvis reads like a name that the script adds, enters and leaves alternate, and the functions
for lists are defined before they are used, or not used at all if there are no lists
(`listContexts_alternate`).
-/

namespace Elvis.Script

open Byte (newline)

/-- What the lines of a script do with list contexts, given whether the elvis has lists. -/
structure ListContexts (lists : Bool) (lines : List Bytes) : Prop where
  alternate : ∃ n, marks lines = (List.replicate n [enterContext, leaveContext]).flatten ∧
    (0 < n ↔ lists)
  /-- Without lists no function for them is mentioned. -/
  unused : lists = false → ∀ line ∈ lines, ∀ f ∈ listFunctions, f ∉ words line
  /-- The first line that mentions a function is the one that begins its definition. -/
  defined : lists → ∀ f ∈ listFunctions,
    lines.find? (f ∈ words ·) = some (f ++ " () \x7b")
  /-- The definitions stand together, and nothing in front of them mentions a function. -/
  together : lists → ∃ before after, lines = before ++ listHelpers ++ after ∧
    ∀ line ∈ before, ∀ f ∈ listFunctions, f ∉ words line

variable {lists : Bool} {set : OptionSet} {settings : Settings} {sources : List Directive.Source}
  {a b : List Bytes} {script : Bytes}

/-! ## Before and behind the definitions -/

theorem clean_before_helpers (h : CleanSet set) :
    ∀ line ∈ header set ++ usageHook set ++ configHook set, Clean line :=
  List.forall_mem_append.mpr ⟨List.forall_mem_append.mpr
    ⟨clean_of_mem_header h, clean_of_mem_usageHook h⟩, clean_of_mem_configHook h⟩

/-- What stands behind the definitions of the functions for lists. -/
def afterHelpers (set : OptionSet) : List Bytes :=
  optionHook set ++
    (if set.settings.enableCompletions && set.hasOptions then completionHook set else []) ++
    parseArguments ++ valueChecks set ++ collapses set ++ urlParameters set ++ inlinedTerms set ++
    dispatch set

theorem nested_afterHelpers (h : CleanSet set) : Nested set.hasLists (afterHelpers set) := by
  have hcompletion : Nested set.hasLists
      (if set.settings.enableCompletions && set.hasOptions then completionHook set else []) := by
    split
    · exact .of_clean (clean_of_mem_completionHook h)
    · exact .nil
  exact (((((((nested_optionHook h).append hcompletion).append
    (.of_clean clean_of_mem_parseArguments)).append (nested_valueChecks h)).append
    (nested_collapses h)).append (nested_urlParameters h)).append (nested_inlinedTerms h)).append
    (.of_clean (clean_of_mem_dispatch h))

theorem find?_eq_none_of_clean (h : ∀ line ∈ a, Clean line) {function : Bytes}
    (hfunction : function ∈ listFunctions) : a.find? (function ∈ words ·) = none :=
  List.find?_eq_none.mpr fun line hline => by
    simpa using (h line hline).functions function hfunction

theorem listContexts_of_nested (ha : ∀ line ∈ a, Clean line) (hb : Nested lists b) :
    ListContexts lists (a ++ (if lists then listHelpers else []) ++ b) := by
  have hmarks : marks a = [] := marks_of_unmarked fun line hline => (ha line hline).unmarked
  obtain ⟨n, hn, hlists⟩ := hb.alternate
  cases lists with
  | false =>
    refine
      { alternate := ⟨n, ?_, hlists, nofun⟩
        unused := fun _ => ?_
        defined := nofun
        together := nofun }
    · rw [marks_append, marks_append, hmarks, hn]
      rfl
    · have hclean : ∀ line ∈ a ++ [] ++ b, Clean line :=
        List.forall_mem_append.mpr ⟨by rwa [List.append_nil], hb.clean_of_not_lists rfl⟩
      exact fun line hline => (hclean line hline).functions
  | true =>
    have hhelpers : marks listHelpers = [enterContext, leaveContext] := by decide
    have hdefined : ∀ function ∈ listFunctions,
        listHelpers.find? (function ∈ words ·) = some (function ++ " () \x7b") := by decide
    refine
      { alternate := ⟨n + 1, ?_, by simp⟩
        unused := nofun
        defined := fun _ function hfunction => ?_
        together := fun _ => ⟨a, b, rfl, fun line hline => (ha line hline).functions⟩ }
    · rw [marks_append, marks_append, hmarks, hn, List.replicate_succ, List.flatten_cons]
      exact congrArg (· ++ _) hhelpers
    · rw [if_pos rfl, List.find?_append, List.find?_append, find?_eq_none_of_clean ha hfunction,
        hdefined function hfunction]
      rfl

theorem lines_eq (set : OptionSet) :
    lines set = header set ++ usageHook set ++ configHook set ++
      (if set.hasLists then listHelpers else []) ++ afterHelpers set := by
  unfold lines afterHelpers
  simp only [List.append_assoc]

theorem split_render_of_oneLine (h : ∀ line ∈ lines set, newline ∉ line) :
    Bytes.split newline (render set) = lines set ++ [[]] := by
  have hlines : textLines (lines set) = lines set := by
    unfold textLines
    rw [List.flatMap_congr fun line hline => Bytes.split_of_not_mem (h line hline)]
    exact List.flatMap_singleton' (lines set)
  rw [render, split_unlines, hlines]

/-- Enters and leaves alternate in the script of an elvis, if its settings and directives hold
neither a line end nor the beginning of the names that a script adds. -/
theorem listContexts_alternate (h : compile settings sources = .ok script)
    (hsettings : settings.Plain) (hsources : ∀ source ∈ sources, Plain source.text) :
    ∃ set, optionSet settings sources = .ok set ∧
      ListContexts set.hasLists (Bytes.split newline script) := by
  obtain ⟨set, hset, rfl⟩ := map_eq_ok_iff.mp h
  obtain ⟨ds, hread, hbuild⟩ := bind_eq_ok_iff.mp hset
  have hclean : CleanSet set := OptionSet.cleanSet_of_build hsettings
    (Directive.wellFormed_of_parseAll hread) (Directive.plain_of_parseAll hread hsources) hbuild
  have hbefore := clean_before_helpers hclean
  have hafter := nested_afterHelpers hclean
  have hhelpers : ∀ line ∈ if set.hasLists then listHelpers else [], newline ∉ line := by
    cases set.hasLists <;> decide
  have hlines : ∀ line ∈ lines set, newline ∉ line := by
    rw [lines_eq]
    exact List.forall_mem_append.mpr ⟨List.forall_mem_append.mpr
      ⟨fun line hline => (hbefore line hline).oneLine, hhelpers⟩, hafter.oneLine⟩
  refine ⟨set, hset, ?_⟩
  rw [split_render_of_oneLine hlines, lines_eq, List.append_assoc]
  exact listContexts_of_nested hbefore (hafter.append (.of_clean (by decide)))

theorem plain_sampleSettings : OptionSet.sampleSettings.Plain where
  name := by decide
  baseUrl := by decide
  searchUrl := by decide
  description := nofun
  queryParameter := by decide
  generator := by decide

/-- An elvis with a list. -/
theorem listContexts_alternate_sample :
    ∃ script set, compile OptionSet.sampleSettings OptionSet.sampleSources = .ok script ∧
      OptionSet.sampleSettings.Plain ∧
      (∀ source ∈ OptionSet.sampleSources, Plain source.text) ∧
      optionSet OptionSet.sampleSettings OptionSet.sampleSources = .ok set ∧ set.hasLists ∧
      ListContexts true (Bytes.split newline script) := by
  obtain ⟨script, hscript⟩ :
      ∃ script, compile OptionSet.sampleSettings OptionSet.sampleSources = .ok script := ⟨_, rfl⟩
  obtain ⟨sample, hsample, hlists⟩ : ∃ set,
      optionSet OptionSet.sampleSettings OptionSet.sampleSources = .ok set ∧ set.hasLists :=
    ⟨_, rfl, by decide⟩
  have hsources : ∀ source ∈ OptionSet.sampleSources, Plain source.text := by decide
  obtain ⟨set, hset, hcontexts⟩ := listContexts_alternate hscript plain_sampleSettings hsources
  obtain rfl : sample = set := Except.ok.inj (hsample.symm.trans hset)
  exact ⟨script, sample, hscript, plain_sampleSettings, hsources, hset, hlists,
    hlists ▸ hcontexts⟩

end Elvis.Script
