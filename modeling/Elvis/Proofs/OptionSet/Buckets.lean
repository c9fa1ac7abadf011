import Elvis.Proofs.OptionSet.Acceptance
import Mathlib.Data.List.Flatten

/-!
# Buckets

The script goes through the variables of an option set type by type, and through its flags by the
types of their targets. No option is lost or repeated there, and those of one type stand in the
order of their directives. Further directives put their options between those that are there
already and move none of them.
-/

namespace Elvis

open Keyed

variable {s s' : Settings} {urls urls' : Urls} {ds ds' : List Directive} {set : OptionSet}
  {d : Declaration} {f : FlagDeclaration} {type : VariableType}

/-- The place of a type among the types. -/
def VariableType.rank : VariableType → Nat
  | bool => 0
  | enum => 1
  | list => 2
  | anything => 3
  | special => 4

/-- The target of the flag is declared with the type. -/
def FlagDeclaration.targets (ds : List Directive) (type : VariableType) (f : FlagDeclaration) :
    Bool :=
  (Declared.find? ds f.target).map (·.type) = some type

structure OptionSet.StablyBucketed (ds : List Directive) (set : OptionSet) : Prop where
  vars : StablyRanked VariableType.rank Variable.type set.vars set.bucketedVariables
  flags : StablyRanked VariableType.rank Flag.targetType set.flags set.bucketedFlags
  /-- The options of one type are those of the directives, in their order. -/
  declarations : ∀ type, (set.bucketedVariables.filter (·.type = type)).map (·.declaration) =
    (Declared.declarations ds).filter (·.type = type)
  flagDeclarations : ∀ type, (set.bucketedFlags.filter (·.targetType = type)).map Flag.declaration =
    (Declared.flags ds).filter (·.targets ds type)

/-! ## Targets -/

theorem FlagDeclaration.targets_of_declares (hnames : (Declared.variableNames ds).Nodup)
    (hd : Declares ds f.target d) : f.targets ds type = decide (d.type = type) := by
  unfold targets
  rw [(Declared.find?_eq_some_iff hnames).mpr hd, Option.map_some, decide_eq_decide,
    Option.some_inj]

/-- A target that is declared keeps its declaration when further directives come. -/
theorem FlagDeclaration.targets_of_subset (h : Resolved ds)
    (hnames : (Declared.variableNames ds').Nodup) (hsub : ds ⊆ ds') (hf : f ∈ Declared.flags ds) :
    f.targets ds' type = f.targets ds type := by
  obtain ⟨d, hd⟩ := h.flags f (Declared.mem_flags.mp hf)
  have hd' : Declares ds' f.target d := ⟨hsub hd.1, hd.2⟩
  rw [targets_of_declares h.variableNames hd, targets_of_declares hnames hd']

namespace OptionSet

/-! ## The options of one type -/

theorem stablyRanked_bucketedVariables (set : OptionSet) :
    StablyRanked VariableType.rank Variable.type set.vars set.bucketedVariables :=
  stablyRanked_regroup (by decide) fun v _ => v.type.mem_buckets

theorem stablyRanked_bucketedFlags (set : OptionSet) :
    StablyRanked VariableType.rank Flag.targetType set.flags set.bucketedFlags :=
  stablyRanked_regroup (by decide) fun f _ => f.targetType.mem_buckets

theorem map_declaration_variablesOfType (type : VariableType) :
    ((ofDirectives s urls ds).variablesOfType type).map (·.declaration) =
      (Declared.declarations ds).filter (·.type = type) := by
  have hvars : (ofDirectives s urls ds).vars.map (·.declaration) = Declared.declarations ds :=
    map_declaration_vars
  rw [← hvars, List.filter_map]
  rfl

theorem map_declaration_flagsOfType (h : Resolved ds) (type : VariableType) :
    ((ofDirectives s urls ds).flagsOfType type).map Flag.declaration =
      (Declared.flags ds).filter (·.targets ds type) := by
  have hflags : (ofDirectives s urls ds).flags.map Flag.declaration = Declared.flags ds :=
    map_declaration_flags h
  rw [← hflags, List.filter_map]
  refine congrArg (List.map Flag.declaration) (List.filter_congr fun f hf => ?_)
  obtain ⟨g, d, _, hd, rfl⟩ := (mem_flags_iff h).mp hf
  exact (FlagDeclaration.targets_of_declares h.variableNames hd).symm

theorem stablyBucketed_of_resolved (h : Resolved ds) :
    StablyBucketed ds (ofDirectives s urls ds) where
  vars := stablyRanked_bucketedVariables _
  flags := stablyRanked_bucketedFlags _
  declarations type := by
    rw [(stablyRanked_bucketedVariables _).sameOrder type]
    exact map_declaration_variablesOfType type
  flagDeclarations type := by
    rw [(stablyRanked_bucketedFlags _).sameOrder type]
    exact map_declaration_flagsOfType h type

/-! ## Further directives -/

/-- If what is declared in each bucket keeps its order, so do all names. -/
theorem map_name_buckets_sublist {α β : Type} {group group' : VariableType → List α}
    (declaration : α → β) (name : β → Bytes)
    (h : ∀ type, ((group type).map declaration).Sublist ((group' type).map declaration)) :
    ((VariableType.buckets.flatMap group).map fun x => name (declaration x)).Sublist
      ((VariableType.buckets.flatMap group').map fun x => name (declaration x)) := by
  rw [List.map_flatMap, List.map_flatMap]
  refine List.Sublist.flatMap_right _ fun type _ => ?_
  have hnames := (h type).map name
  rwa [List.map_map, List.map_map] at hnames

theorem map_name_bucketedVariables_sublist (hsub : ds.Sublist ds') :
    ((ofDirectives s urls ds).bucketedVariables.map (·.name)).Sublist
      ((ofDirectives s' urls' ds').bucketedVariables.map (·.name)) := by
  refine map_name_buckets_sublist Variable.declaration Declaration.name fun type => ?_
  rw [map_declaration_variablesOfType, map_declaration_variablesOfType]
  exact (hsub.filterMap _).filter _

/-- A flag stays among the flags of its type, because its target is still the same variable. -/
theorem map_name_bucketedFlags_sublist (h : Resolved ds) (h' : Resolved ds')
    (hsub : ds.Sublist ds') :
    ((ofDirectives s urls ds).bucketedFlags.map (·.name)).Sublist
      ((ofDirectives s' urls' ds').bucketedFlags.map (·.name)) := by
  refine map_name_buckets_sublist Flag.declaration FlagDeclaration.name fun type => ?_
  have htargets : (Declared.flags ds).filter (·.targets ds type) =
      (Declared.flags ds).filter (·.targets ds' type) :=
    List.filter_congr fun f hf =>
      (FlagDeclaration.targets_of_subset h h'.variableNames hsub.subset hf).symm
  rw [map_declaration_flagsOfType h, map_declaration_flagsOfType h', htargets]
  exact (hsub.filterMap _).filter _

/-! ## Building -/

/-- The buckets of an option set that is built are a stable partition of its options, and further
directives, wherever they stand and whatever the settings, leave the names in their order. -/
theorem build_stablyBucketed (h : build s ds = .ok set) :
    StablyBucketed ds set ∧ ∀ s' ds' set', ds.Sublist ds' → build s' ds' = .ok set' →
      (set.bucketedVariables.map (·.name)).Sublist (set'.bucketedVariables.map (·.name)) ∧
        (set.bucketedFlags.map (·.name)).Sublist (set'.bucketedFlags.map (·.name)) := by
  obtain ⟨hw, urls, _, rfl⟩ := build_eq_ok_iff.mp h
  refine ⟨stablyBucketed_of_resolved hw.resolved, fun s' ds' set' hsub h' => ?_⟩
  obtain ⟨hw', urls', _, rfl⟩ := build_eq_ok_iff.mp h'
  exact ⟨map_name_bucketedVariables_sublist hsub,
    map_name_bucketedFlags_sublist hw.resolved hw'.resolved hsub⟩

/-- Among the directives that come in addition are variables of types before and behind those that
are there, and a flag of another type. -/
theorem stablyBucketed_sampleDirectives :
    let ds : List Directive :=
      [.declare (.anything "near" []), .declare (.list "tags" (.enum ["a", "b", "c"]) ["a", "b"]),
        .flag ⟨"tagged", "tags", "c"⟩]
    ∃ set set', build sampleSettings ds = .ok set ∧
      build sampleSettings sampleDirectives = .ok set' ∧ ds.Sublist sampleDirectives ∧
      StablyBucketed ds set ∧
      (set.bucketedVariables.map (·.name)).Sublist (set'.bucketedVariables.map (·.name)) ∧
      (set.bucketedFlags.map (·.name)).Sublist (set'.bucketedFlags.map (·.name)) := by
  intro ds
  obtain ⟨set, h⟩ : ∃ set, build sampleSettings ds = .ok set := ⟨_, rfl⟩
  obtain ⟨set', h'⟩ : ∃ set, build sampleSettings sampleDirectives = .ok set := ⟨_, rfl⟩
  have hsub : ds.Sublist sampleDirectives := by decide
  obtain ⟨hbuckets, hmore⟩ := build_stablyBucketed h
  exact ⟨set, set', h, h', hsub, hbuckets, hmore _ _ _ hsub h'⟩

end OptionSet

end Elvis
