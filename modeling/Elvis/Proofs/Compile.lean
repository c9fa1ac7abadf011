import Elvis.Compile
import Elvis.Proofs.OptionSet.Order

/-!
# The files do not depend on the order of the classes

Wherever the script and the file for bash go through the variables of an option set, they do so
type by type or find one by its name. So a set with the same variables in each type has the same
files, and directives may be given in any order that keeps that of each class.
-/

namespace Elvis

open Keyed

variable {set : OptionSet} {vars : List Variable}

/-! ## Variables in another order -/

namespace OptionSet

theorem variablesOfType_withVars (h : SameOrder Variable.type set.vars vars)
    (type : VariableType) : (set.withVars vars).variablesOfType type = set.variablesOfType type :=
  (h type).symm

theorem bucketedVariables_withVars (h : SameOrder Variable.type set.vars vars) :
    (set.withVars vars).bucketedVariables = set.bucketedVariables :=
  List.flatMap_congr fun type _ => variablesOfType_withVars h type

theorem hasOptions_withVars (h : SameOrder Variable.type set.vars vars) :
    (set.withVars vars).hasOptions = set.hasOptions :=
  congrArg (!·) h.perm.symm.isEmpty_eq

theorem hasLists_withVars (h : SameOrder Variable.type set.vars vars) :
    (set.withVars vars).hasLists = set.hasLists :=
  h.perm.symm.any_eq

theorem findVariable?_withVars (h : SameOrder Variable.type set.vars vars)
    (hindexed : set.Indexed) (name : Bytes) :
    (set.withVars vars).findVariable? name = set.findVariable? name := by
  have hindexed' : (vars.map (·.name)).Nodup := (h.perm.map _).nodup_iff.mp hindexed.nodup
  have hfind' : (set.withVars vars).findVariable? name = vars.find? (·.name = name) :=
    findVariable?_eq_find? rfl
  refine Option.ext fun v => ?_
  rw [findVariable?_eq_find? hindexed.index, hfind', find?_eq_some_iff hindexed.nodup,
    find?_eq_some_iff hindexed', h.perm.mem_iff]

end OptionSet

open OptionSet

/-! ## Sections -/

theorem Completions.ofOptions_withVars (h : SameOrder Variable.type set.vars vars) :
    ofOptions (set.withVars vars) = ofOptions set := by
  unfold ofOptions
  rw [bucketedVariables_withVars h]
  rfl

namespace Help

theorem entries_withVars (h : SameOrder Variable.type set.vars vars)
    (hindexed : set.Indexed) : entries (set.withVars vars) = entries set := by
  have hvariable : variableEntry (set.withVars vars) = variableEntry set := rfl
  have hflag : flagEntry (set.withVars vars) = flagEntry set := by
    funext f
    unfold flagEntry flagDescription
    rw [findVariable?_withVars h hindexed]
  unfold entries
  simp only [variablesOfType_withVars h, hvariable, hflag]
  rfl

theorem lines_withVars (h : SameOrder Variable.type set.vars vars)
    (hindexed : set.Indexed) : lines (set.withVars vars) = lines set := by
  unfold lines tableWidth
  rw [hasOptions_withVars h, entries_withVars h hindexed]

end Help

namespace Script

theorem usageHook_withVars (h : SameOrder Variable.type set.vars vars)
    (hindexed : set.Indexed) :
    usageHook (set.withVars vars) = usageHook set := by
  unfold usageHook usageOptions
  rw [hasOptions_withVars h, Help.lines_withVars h hindexed]
  rfl

theorem configHook_withVars (h : SameOrder Variable.type set.vars vars) :
    configHook (set.withVars vars) = configHook set := by
  have hlines : defaultLines (set.withVars vars) = defaultLines set := by
    funext type
    unfold defaultLines
    rw [variablesOfType_withVars h]
    rfl
  unfold configHook
  rw [hasOptions_withVars h, hlines]

theorem optionHook_withVars (h : SameOrder Variable.type set.vars vars) :
    optionHook (set.withVars vars) = optionHook set := by
  have harms : arms (set.withVars vars) = arms set := by
    unfold arms
    rw [bucketedVariables_withVars h]
    rfl
  unfold optionHook
  rw [harms]

theorem completionHook_withVars (h : SameOrder Variable.type set.vars vars) :
    completionHook (set.withVars vars) = completionHook set := by
  unfold completionHook
  rw [Completions.ofOptions_withVars h]

theorem valueChecks_withVars (h : SameOrder Variable.type set.vars vars) :
    valueChecks (set.withVars vars) = valueChecks set := by
  unfold valueChecks
  rw [bucketedVariables_withVars h]
  rfl

theorem collapses_withVars (h : SameOrder Variable.type set.vars vars)
    (hindexed : set.Indexed) :
    collapses (set.withVars vars) = collapses set := by
  have hlines : collapseLines (set.withVars vars) = collapseLines set := by
    funext position c
    unfold collapseLines
    rw [findVariable?_withVars h hindexed]
    rfl
  unfold collapses
  rw [hlines]
  rfl

/-- The other sections do not look at the variables. -/
theorem lines_withVars (h : SameOrder Variable.type set.vars vars)
    (hindexed : set.Indexed) : lines (set.withVars vars) = lines set := by
  unfold lines
  rw [usageHook_withVars h hindexed, configHook_withVars h, hasLists_withVars h,
    optionHook_withVars h, hasOptions_withVars h, completionHook_withVars h,
    valueChecks_withVars h, collapses_withVars h hindexed]
  rfl

end Script

theorem Completion.Bash.lines_withVars (h : SameOrder Variable.type set.vars vars) :
    lines (set.withVars vars) = lines set := by
  unfold lines
  rw [Completions.ofOptions_withVars h]
  rfl

/-! ## Files -/

variable {s : Settings} {sources sources' : List Directive.Source} {file : OptionSet → Bytes}

/-- A file that does not depend on the order of the variables across types does not depend on the
order of the directives across classes. -/
theorem map_optionSet_of_sameOrder {content : Bytes}
    (hfile : ∀ set vars, SameOrder Variable.type set.vars vars → set.Indexed →
      file (set.withVars vars) = file set)
    (h : SameOrder Directive.Source.orderClass sources sources')
    (hcontent : (optionSet s sources).map file = .ok content) :
    (optionSet s sources').map file = .ok content := by
  obtain ⟨set, hset, rfl⟩ := map_eq_ok_iff.mp hcontent
  obtain ⟨ds, hread, hbuild⟩ := bind_eq_ok_iff.mp hset
  obtain ⟨ds', hread', hsame⟩ := Directive.parseAll_of_sameOrder h hread
  obtain ⟨vars, hbuild', hvars, hindexed⟩ := build_of_sameOrder hsame hbuild
  have hset' : optionSet s sources' = .ok (set.withVars vars) :=
    bind_eq_ok_iff.mpr ⟨ds', hread', hbuild'⟩
  exact map_eq_ok_iff.mpr ⟨_, hset', hfile set vars hvars hindexed⟩

/-- Only the order of directives of one class matters. -/
theorem compile_of_sameOrder (s : Settings)
    (h : SameOrder Directive.Source.orderClass sources sources') :
    (∀ script, compile s sources = .ok script ↔ compile s sources' = .ok script) ∧
      ∀ completionFile, compileBashCompletion s sources = .ok completionFile ↔
        compileBashCompletion s sources' = .ok completionFile := by
  have hscript (set : OptionSet) (vars : List Variable)
      (hvars : SameOrder Variable.type set.vars vars) (hindexed : set.Indexed) :
      Script.render (set.withVars vars) = Script.render set :=
    congrArg Bytes.unlines (Script.lines_withVars hvars hindexed)
  have hbash (set : OptionSet) (vars : List Variable)
      (hvars : SameOrder Variable.type set.vars vars) (_ : set.Indexed) :
      Completion.Bash.file (set.withVars vars) = Completion.Bash.file set :=
    congrArg Bytes.unlines (Completion.Bash.lines_withVars hvars)
  constructor
  · exact fun script => ⟨map_optionSet_of_sameOrder hscript h,
      map_optionSet_of_sameOrder hscript h.symm⟩
  · exact fun completionFile => ⟨map_optionSet_of_sameOrder hbash h,
      map_optionSet_of_sameOrder hbash h.symm⟩

/-- The directives of the sample with the classes in another order: what refers to an option stands
before it, and the list stands before the enum. -/
def reorderedSources : List Directive.Source :=
  [⟨.describe, "near:Where to look"⟩,
   ⟨.collapse, "safe:yes,on:no,off"⟩,
   ⟨.map, "sort:order"⟩,
   ⟨.aliasing, "s:sort:enum"⟩,
   ⟨.list, "tags:enum:a,b:a,b,c"⟩,
   ⟨.flag, "unsafe:safe:no"⟩,
   ⟨.aliasing, "topic:tagged:flag"⟩,
   ⟨.inline, "near:place"⟩,
   ⟨.flag, "tagged:tags:c"⟩,
   ⟨.enum, "sort:new:new,old"⟩,
   ⟨.listMap, "tags:tag:no"⟩,
   ⟨.special, "results"⟩,
   ⟨.aliasing, "label:tags:list"⟩,
   ⟨.bool, "safe:yes"⟩,
   ⟨.metavar, "near:where"⟩,
   ⟨.anything, "near:"⟩]

theorem compile_of_sameOrder_sample :
    SameOrder Directive.Source.orderClass sampleSources reorderedSources ∧
      ∃ script completionFile, compile sampleSettings sampleSources = .ok script ∧
        compile sampleSettings reorderedSources = .ok script ∧
        compileBashCompletion sampleSettings reorderedSources = .ok completionFile := by
  have hsame : SameOrder Directive.Source.orderClass sampleSources reorderedSources := by
    intro k
    cases k <;> rfl
  obtain ⟨set, hset⟩ : ∃ set, optionSet sampleSettings sampleSources = .ok set := ⟨_, rfl⟩
  have hscript : compile sampleSettings sampleSources = .ok (Script.render set) :=
    map_eq_ok_iff.mpr ⟨set, hset, rfl⟩
  have hbash : compileBashCompletion sampleSettings sampleSources =
      .ok (Completion.Bash.file set) :=
    map_eq_ok_iff.mpr ⟨set, hset, rfl⟩
  obtain ⟨hscripts, hfiles⟩ := compile_of_sameOrder sampleSettings hsame
  exact ⟨hsame, _, _, hscript, (hscripts _).mp hscript, (hfiles _).mp hbash⟩

end Elvis
