import Elvis.Proofs.Script.Labels
import Elvis.Proofs.Script.UrlParameters

/-!
# The names of the variables of an elvis

The variable of an option is named after the elvis and the option. The name of an option has letters
only; that of an elvis may have every byte but the slash, as a file name may. Nothing between the
two makes a word of the shell of it, so whether the variables are shell variables is up to the name
of the elvis.
-/

namespace Elvis.Script

open Shell

variable {s : Settings} {ds : List Directive} {set : OptionSet} {v : Variable}

/-- A variable that the script assigns to and expands is named by a word of the shell exactly if the
name of the elvis is made of letters, digits and underscores. -/
theorem variableName_isName_iff {sources : List Directive.Source}
    (hread : Directive.parseAll sources = .ok ds) (hbuild : OptionSet.build s ds = .ok set)
    (hv : v ∈ set.vars) :
    isName (set.variableName v.name) ↔ ∀ b ∈ s.name, isNameByte b := by
  obtain ⟨hw, urls, _, rfl⟩ := OptionSet.build_eq_ok_iff.mp hbuild
  constructor
  · intro h b hb
    have htail : ("URFRAW_" ++ s.name ++ "_" ++ v.name : Bytes).all isNameByte :=
      (Bool.and_eq_true_iff.mp (show (true && _) = true from h)).2
    exact List.all_eq_true.mp htail b
      (List.mem_append_left _ (List.mem_append_left _ (List.mem_append_right _ hb)))
  · intro hname
    have hwords : (OptionSet.ofDirectives s urls ds).WordNames :=
      OptionSet.wordNames_ofDirectives hw.resolved (Directive.wellFormed_of_parseAll hread)
    exact isName_variableName hname (hwords.variable hv _ List.mem_cons_self)

/-- The file of an elvis may have this name. -/
def hyphenatedSettings : Settings := { OptionSet.sampleSettings with name := "my-elvis.v2" }

theorem variableName_isName_iff_sample :
    ∃ ds set hyphenated v w, Directive.parseAll OptionSet.sampleSources = .ok ds ∧
      OptionSet.build OptionSet.sampleSettings ds = .ok set ∧ v ∈ set.vars ∧
      isName (set.variableName v.name) ∧
      OptionSet.build hyphenatedSettings ds = .ok hyphenated ∧ w ∈ hyphenated.vars ∧
      ¬isName (hyphenated.variableName w.name) := by
  obtain ⟨set, v, hbuild, hv⟩ : ∃ set v,
      OptionSet.build OptionSet.sampleSettings OptionSet.sampleDirectives = .ok set ∧
        v ∈ set.vars :=
    ⟨_, _, rfl, List.mem_cons_self⟩
  obtain ⟨hyphenated, w, hbuild', hw⟩ : ∃ set v,
      OptionSet.build hyphenatedSettings OptionSet.sampleDirectives = .ok set ∧ v ∈ set.vars :=
    ⟨_, _, rfl, List.mem_cons_self⟩
  have hread : Directive.parseAll OptionSet.sampleSources = .ok OptionSet.sampleDirectives := rfl
  have hname : ∀ b ∈ OptionSet.sampleSettings.name, isNameByte b := List.all_eq_true.mp rfl
  have hhyphen : ¬∀ b ∈ hyphenatedSettings.name, isNameByte b := by
    intro h
    exact absurd (List.all_eq_true.mpr h) (by decide)
  exact ⟨_, set, hyphenated, v, w, hread, hbuild, hv,
    (variableName_isName_iff hread hbuild hv).mpr hname, hbuild', hw,
    fun h => hhyphen ((variableName_isName_iff hread hbuild' hw).mp h)⟩

/-- An elvis name that the builder accepts, and a variable that no shell can assign to. -/
theorem hyphenated_variableName_not_isName :
    ∃ ds set v, Directive.parseAll [⟨.anything, "near:here"⟩] = .ok ds ∧
      OptionSet.build hyphenatedSettings ds = .ok set ∧ v ∈ set.vars ∧
      set.variableName v.name = "SURFRAW_my-elvis.v2_near" ∧
      isName (set.variableName v.name) = false :=
  ⟨_, _, _, rfl, rfl, List.mem_cons_self, rfl, rfl⟩

end Elvis.Script
