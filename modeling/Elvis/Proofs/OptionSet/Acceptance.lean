import Elvis.Proofs.OptionSet.Building
import Elvis.Proofs.OptionSet.Spellings

/-!
# Acceptance

Settings and directives build an option set exactly if they are well-formed, in whatever order the
directives are given. The set is then the one that `ofDirectives` describes.
-/

namespace Elvis.OptionSet

variable {s : Settings} {ds ds' : List Directive} {set : OptionSet}

/-! ## Whole passes -/

theorem unblamed_eq_ok_iff {α : Type} {result : Except Cause α} {a : α} :
    unblamed result = .ok a ↔ result = .ok a :=
  mapError_eq_ok_iff

/-- After three passes every name is declared once and every target is there. -/
theorem resolved_of_pass (hvariables : (Declared.variableNames ds).Nodup)
    (hflags : checkEach (Check.flag ds) [] ds = .ok ())
    (haliases : checkEach (Check.aliasing ds) [] ds = .ok ()) : Resolved ds := by
  obtain ⟨hflags, hflagNames⟩ := (flags_pass_iff hvariables).mp hflags
  obtain ⟨haliases, haliasNames⟩ := (aliases_pass_iff hvariables).mp haliases
  exact
    { variableNames := hvariables
      otherNames :=
        Declared.nodup_otherNames_iff.mpr ⟨hflagNames, haliasNames, fun a ha => (haliases a ha).2⟩
      flags := fun f hf => (hflags f hf).imp fun _ => And.left
      aliases := fun a ha => (haliases a ha).1 }

theorem settings_iff :
    s.WellFormed ↔ Check.settings s = .ok () ∧ ∃ urls, Urls.resolve s = .ok urls := by
  rw [Check.settings_eq_ok_iff, Urls.exists_resolve_eq_ok_iff]
  constructor
  · intro h
    exact ⟨⟨h.name, h.numTabs, h.queryParameter⟩, h.schemes⟩
  · intro h
    obtain ⟨⟨hname, hnumTabs, hqueryParameter⟩, hschemes⟩ := h
    exact ⟨hname, hnumTabs, hqueryParameter, hschemes⟩

/-! ## Building -/

theorem build_eq_ok_iff :
    build s ds = .ok set ↔
      WellFormed s ds ∧ ∃ urls, Urls.resolve s = .ok urls ∧ ofDirectives s urls ds = set := by
  rw [build_eq_ofChecked]
  unfold ofChecked
  simp only [bind_unit_eq_ok_iff]
  rw [bind_eq_ok_iff]
  simp only [bind_unit_eq_ok_iff, unblamed_eq_ok_iff, pure_eq_ok_iff, declarations_pass_iff,
    defaults_pass_iff, Check.queryParameter_eq_ok_iff, Check.spellings_eq_ok_iff]
  constructor
  · rintro ⟨hsettings, hvariables, hflags, haliases, huses, hdefaults, hquery, urls, hurls,
      hspellings, hset⟩
    -- no variable is declared twice, so from here on a name finds the only one that has it
    have hresolved := resolved_of_pass hvariables hflags haliases
    obtain ⟨hflags, _⟩ := (flags_pass_iff hvariables).mp hflags
    refine ⟨?_, urls, hurls, hset⟩
    exact
      { settings := settings_iff.mpr ⟨hsettings, urls, hurls⟩
        variableNames := hvariables
        otherNames := hresolved.otherNames
        flags := hflags
        aliases := hresolved.aliases
        uses := (uses_pass_iff hvariables).mp huses
        defaults := hdefaults
        queryParameter := hquery
        spellings := (nodup_labels_iff hresolved).mp hspellings }
  · intro h
    obtain ⟨h, urls, hurls, hset⟩ := h
    have hvariables := h.variableNames
    obtain ⟨hflagNames, haliasNames, hfresh⟩ := Declared.nodup_otherNames_iff.mp h.otherNames
    exact ⟨(settings_iff.mp h.settings).1, hvariables,
      (flags_pass_iff hvariables).mpr ⟨h.flags, hflagNames⟩,
      (aliases_pass_iff hvariables).mpr ⟨fun a ha => ⟨h.aliases a ha, hfresh a ha⟩, haliasNames⟩,
      (uses_pass_iff hvariables).mpr h.uses, h.defaults, h.queryParameter, urls, hurls,
      (nodup_labels_iff h.resolved).mpr h.spellings, hset⟩

/-- An option set is built exactly if the settings and the directives, in any order, are
well-formed. -/
theorem build_accepts_iff (hp : ds'.Perm ds) :
    (∃ set, build s ds' = .ok set) ↔ WellFormed s ds := by
  simp only [build_eq_ok_iff, exists_and_left]
  constructor
  · intro h
    obtain ⟨h, _⟩ := h
    exact h.perm hp
  · intro h
    obtain ⟨_, urls, hurls⟩ := settings_iff.mp h.settings
    exact ⟨h.perm hp.symm, _, urls, hurls, rfl⟩

/-- The directives of a small elvis, with an option of every type and a reference of every kind. -/
def sampleSources : List Directive.Source :=
  [⟨.bool, "safe:yes"⟩,
   ⟨.enum, "sort:new:new,old"⟩,
   ⟨.anything, "near:"⟩,
   ⟨.list, "tags:enum:a,b:a,b,c"⟩,
   ⟨.special, "results"⟩,
   ⟨.flag, "unsafe:safe:no"⟩,
   ⟨.flag, "tagged:tags:c"⟩,
   ⟨.aliasing, "s:sort:enum"⟩,
   ⟨.aliasing, "topic:tagged:flag"⟩,
   ⟨.aliasing, "label:tags:list"⟩,
   ⟨.map, "sort:order"⟩,
   ⟨.listMap, "tags:tag:no"⟩,
   ⟨.inline, "near:place"⟩,
   ⟨.collapse, "safe:yes,on:no,off"⟩,
   ⟨.metavar, "near:where"⟩,
   ⟨.describe, "near:Where to look"⟩]

def sampleDirectives : List Directive :=
  [.declare (.bool "safe" true),
   .declare (.enum "sort" "new" ["new", "old"]),
   .declare (.anything "near" []),
   .declare (.list "tags" (.enum ["a", "b", "c"]) ["a", "b"]),
   .declare (.special .results),
   .flag ⟨"unsafe", "safe", "no"⟩,
   .flag ⟨"tagged", "tags", "c"⟩,
   .aliasing ⟨"s", "sort", .var .enum⟩,
   .aliasing ⟨"topic", "tagged", .flag⟩,
   .aliasing ⟨"label", "tags", .var .list⟩,
   .map ⟨"sort", "order", true, false⟩,
   .map ⟨"tags", "tag", false, true⟩,
   .inline ⟨"near", "place", false⟩,
   .collapse ⟨"safe", [⟨["yes"], "on"⟩, ⟨["no"], "off"⟩]⟩,
   .metavar "near" "WHERE",
   .describe "near" "Where to look"]

def sampleSettings : Settings :=
  { name := "sample"
    baseUrl := "https://sample.org"
    searchUrl := "sample.org/find?"
    description := none
    queryParameter := some "q"
    appendSearchArgs := true
    enableCompletions := true
    insecure := false
    numTabs := 1
    generator := "elvis" }

/-- Here flags and aliases stand before what they refer to. -/
theorem wellFormed_sampleDirectives :
    sampleDirectives.reverse.Perm sampleDirectives ∧
      WellFormed sampleSettings sampleDirectives :=
  ⟨List.reverse_perm _, (build_accepts_iff (List.reverse_perm _)).mp ⟨_, rfl⟩⟩

end Elvis.OptionSet
