import Elvis.Proofs.OptionSet.Passes

/-!
# The names of an option set

An option set keeps the names of its options in three places: variables and flags have their own,
and list those of their aliases. When all references resolve, these are the names that the
directives add to the command line, each of them once.
-/

namespace Elvis

/-! ## Owners of aliases -/

/-- The alias is another name of the variable. -/
def Variable.owns (v : Variable) (a : Alias) : Bool := a.targetType ≠ .flag && a.target = v.name

/-- The alias is another name of the flag. -/
def Flag.owns (f : Flag) (a : Alias) : Bool := a.targetType = .flag && a.target = f.name

def Variable.optionNames (v : Variable) : List OptionName := v.names.map (⟨v.type, false, ·⟩)

def Flag.optionNames (f : Flag) : List OptionName := f.names.map (⟨f.targetType, true, ·⟩)

/-- What the flag's directive says. -/
def Flag.declaration (f : Flag) : FlagDeclaration := ⟨f.name, f.target, f.value⟩

/-- The names that the options of a set answer to. -/
def OptionSet.optionNames (set : OptionSet) : List OptionName :=
  set.vars.flatMap Variable.optionNames ++ set.flags.flatMap Flag.optionNames

/-- Every name is declared once, and every flag and alias has its target. -/
structure Resolved (ds : List Directive) : Prop where
  variableNames : (Declared.variableNames ds).Nodup
  otherNames : (Declared.otherNames ds).Nodup
  flags : ∀ f, .flag f ∈ ds → ∃ d, Declares ds f.target d
  aliases : ∀ a, .aliasing a ∈ ds → a.Resolves ds

variable {s : Settings} {urls : Urls} {ds : List Directive}

theorem OptionSet.WellFormed.resolved (h : WellFormed s ds) : Resolved ds where
  variableNames := h.variableNames
  otherNames := h.otherNames
  flags f hf := by
    obtain ⟨d, hd, _⟩ := h.flags f hf
    exact ⟨d, hd⟩
  aliases := h.aliases

namespace OptionSet

variable {v : Variable} {f : Flag} {a : Alias}

/-- The flag in the option set, given the variable that it targets. -/
def resolvedFlag (ds : List Directive) (g : FlagDeclaration) (d : Declaration) : Flag :=
  { name := g.name
    target := g.target
    targetType := d.type
    value := g.value
    aliases := ((Declared.aliases ds).filter fun a =>
      a.targetType = .flag && a.target = g.name).map (·.name) }

theorem flagOf?_eq_some_iff {g : FlagDeclaration} (h : (Declared.variableNames ds).Nodup) :
    flagOf? ds g = some f ↔ ∃ d, Declares ds g.target d ∧ resolvedFlag ds g d = f := by
  have hmap : flagOf? ds g = (Declared.find? ds g.target).map (resolvedFlag ds g) := rfl
  simp only [hmap, Option.map_eq_some_iff, Declared.find?_eq_some_iff h]

theorem mem_vars_iff :
    v ∈ (ofDirectives s urls ds).vars ↔ ∃ d, .declare d ∈ ds ∧ variableOf ds d = v := by
  unfold ofDirectives
  simp only [List.mem_map, Declared.mem_declarations]

theorem mem_flags_iff (h : Resolved ds) :
    f ∈ (ofDirectives s urls ds).flags ↔
      ∃ g d, .flag g ∈ ds ∧ Declares ds g.target d ∧ resolvedFlag ds g d = f := by
  unfold ofDirectives
  simp only [List.mem_filterMap, Declared.mem_flags, flagOf?_eq_some_iff h.variableNames,
    exists_and_left]

theorem map_declaration_vars :
    (ofDirectives s urls ds).vars.map (·.declaration) = Declared.declarations ds := by
  unfold ofDirectives
  rw [List.map_map]
  exact List.map_id _

theorem map_declaration_flags (h : Resolved ds) :
    (ofDirectives s urls ds).flags.map Flag.declaration = Declared.flags ds := by
  have hdeclaration : ∀ g ∈ Declared.flags ds, (flagOf? ds g).map Flag.declaration = some g := by
    intro g hg
    obtain ⟨d, hd⟩ := h.flags g (Declared.mem_flags.mp hg)
    rw [(flagOf?_eq_some_iff h.variableNames).mpr ⟨d, hd, rfl⟩]
    rfl
  unfold ofDirectives
  rw [List.map_filterMap, List.filterMap_congr hdeclaration, List.filterMap_some]

theorem map_name_vars :
    (ofDirectives s urls ds).vars.map (·.name) = Declared.variableNames ds := by
  unfold Declared.variableNames
  rw [← map_declaration_vars, List.map_map]
  rfl

theorem map_name_flags (h : Resolved ds) :
    (ofDirectives s urls ds).flags.map (·.name) = Declared.flagNames ds := by
  unfold Declared.flagNames
  rw [← map_declaration_flags h, List.map_map]
  rfl

theorem variableIndex_ofDirectives :
    (ofDirectives s urls ds).variableIndex =
      .ofNames ((ofDirectives s urls ds).vars.map (·.name)) :=
  congrArg NameIndex.ofNames map_name_vars.symm

theorem flagIndex_ofDirectives :
    (ofDirectives s urls ds).flagIndex =
      .ofNames ((ofDirectives s urls ds).flags.map (·.name)) :=
  rfl

theorem indexed_ofDirectives (h : (Declared.variableNames ds).Nodup) :
    (ofDirectives s urls ds).Indexed :=
  ⟨map_name_vars ▸ h, variableIndex_ofDirectives⟩

theorem nodup_name_vars (h : Resolved ds) :
    ((ofDirectives s urls ds).vars.map (·.name)).Nodup :=
  (indexed_ofDirectives h.variableNames).nodup

theorem nodup_name_flags (h : Resolved ds) :
    ((ofDirectives s urls ds).flags.map (·.name)).Nodup := by
  rw [map_name_flags h]
  exact (Declared.nodup_otherNames_iff.mp h.otherNames).1

theorem aliases_of_mem_vars (hv : v ∈ (ofDirectives s urls ds).vars) :
    v.aliases = ((Declared.aliases ds).filter v.owns).map (·.name) := by
  obtain ⟨d, _, rfl⟩ := mem_vars_iff.mp hv
  rfl

theorem aliases_of_mem_flags (h : Resolved ds) (hf : f ∈ (ofDirectives s urls ds).flags) :
    f.aliases = ((Declared.aliases ds).filter f.owns).map (·.name) := by
  obtain ⟨g, d, _, _, rfl⟩ := (mem_flags_iff h).mp hf
  rfl

/-- An alias of a variable has one owner among the variables. -/
theorem filter_owns_vars (s : Settings) (urls : Urls) {type : VariableType} (h : Resolved ds)
    (ha : .aliasing a ∈ ds) (ht : a.targetType = .var type) :
    ∃ d, Declares ds a.target d ∧ d.type = type ∧
      (ofDirectives s urls ds).vars.filter (·.owns a) = [variableOf ds d] := by
  have hresolves := h.aliases a ha
  unfold Alias.Resolves at hresolves
  rw [ht] at hresolves
  obtain ⟨d, hd, htype⟩ := hresolves
  refine ⟨d, hd, htype, ?_⟩
  -- the alias says that its target is a variable, so only the name decides
  have howns : (fun v : Variable => v.owns a) =
      fun v : Variable => decide (v.name = (variableOf ds d).name) := by
    funext v
    have hname : (variableOf ds d).name = a.target := hd.2
    simp [Variable.owns, ht, hname, eq_comm]
  rw [howns]
  exact Keyed.filter_eq_singleton (nodup_name_vars h) (mem_vars_iff.mpr ⟨d, hd.1, rfl⟩)

/-- An alias of a flag has one owner among the flags. -/
theorem filter_owns_flags (s : Settings) (urls : Urls) (h : Resolved ds) (ha : .aliasing a ∈ ds)
    (ht : a.targetType = .flag) :
    ∃ g d, DeclaresFlag ds a.target g ∧ Declares ds g.target d ∧
      (ofDirectives s urls ds).flags.filter (·.owns a) = [resolvedFlag ds g d] := by
  have hresolves := h.aliases a ha
  unfold Alias.Resolves at hresolves
  rw [ht] at hresolves
  obtain ⟨g, hg⟩ := hresolves
  obtain ⟨d, hd⟩ := h.flags g hg.1
  refine ⟨g, d, hg, hd, ?_⟩
  have howns : (fun f : Flag => f.owns a) =
      fun f : Flag => decide (f.name = (resolvedFlag ds g d).name) := by
    funext f
    have hname : (resolvedFlag ds g d).name = a.target := hg.2
    simp [Flag.owns, ht, hname, eq_comm]
  rw [howns]
  exact Keyed.filter_eq_singleton (nodup_name_flags h)
    ((mem_flags_iff h).mpr ⟨g, d, hg.1, hd, rfl⟩)

end OptionSet

/-! ## Names in the order of the directives -/

/-- The name that the directive adds, if what it refers to is declared. -/
def Directive.optionName? (ds : List Directive) : Directive → Option OptionName
  | declare d => some ⟨d.type, false, d.name⟩
  | flag f => (Declared.find? ds f.target).map fun d => ⟨d.type, true, f.name⟩
  | aliasing a =>
      match a.targetType with
      | .var type => some ⟨type, false, a.name⟩
      | .flag =>
          ((Declared.flags ds).find? (·.name = a.target)).bind fun f =>
            (Declared.find? ds f.target).map fun d => ⟨d.type, true, a.name⟩
  | _ => none

theorem optionName?_eq_some_iff {x : Directive} {o : OptionName} (h : Resolved ds) :
    x.optionName? ds = some o ↔ Names ds x o := by
  have hflags := (Declared.nodup_otherNames_iff.mp h.otherNames).1
  cases x with
  | declare d =>
    constructor
    · intro ho
      cases ho
      exact .option
    · intro hn
      cases hn
      rfl
  | flag f =>
    simp only [Directive.optionName?, Option.map_eq_some_iff,
      Declared.find?_eq_some_iff h.variableNames]
    constructor
    · rintro ⟨d, hd, rfl⟩
      exact .flag hd
    · intro hn
      cases hn with
      | flag hd => exact ⟨_, hd, rfl⟩
  | aliasing a =>
    simp only [Directive.optionName?]
    constructor
    · intro ho
      split at ho
      · next ht =>
        cases ho
        exact .optionAlias ht
      · next ht =>
        simp only [Option.bind_eq_some_iff, Option.map_eq_some_iff,
          Keyed.find?_eq_some_iff hflags, Declared.mem_flags,
          Declared.find?_eq_some_iff h.variableNames] at ho
        obtain ⟨f, hf, d, hd, rfl⟩ := ho
        exact .flagAlias ht hf hd
    · intro hn
      cases hn with
      | optionAlias ht => simp only [ht]
      | @flagAlias _ f d ht hf hd =>
        simp only [ht, Option.bind_eq_some_iff, Option.map_eq_some_iff,
          Keyed.find?_eq_some_iff hflags, Declared.mem_flags,
          Declared.find?_eq_some_iff h.variableNames]
        exact ⟨f, hf, d, hd, rfl⟩
  | map | inline | collapse | metavar | describe =>
    constructor
    · intro ho
      cases ho
    · intro hn
      cases hn

/-- Declarations, flags and aliases, one class after the other. -/
theorem filterMap_classes_perm {γ : Type} {f : Directive → Option γ}
    (hf : ∀ x, x.use?.isSome → f x = none) :
    ((Declared.declarations ds).filterMap (fun d => f (.declare d)) ++
      (Declared.flags ds).filterMap (fun g => f (.flag g)) ++
      (Declared.aliases ds).filterMap (fun a => f (.aliasing a))).Perm (ds.filterMap f) := by
  unfold Declared.declarations Declared.flags Declared.aliases
  simp only [List.filterMap_filterMap]
  simp only [List.filterMap_eq_flatMap_toList]
  refine ((List.flatMap_append_perm ds _ _).append_right _).trans ?_
  refine (List.flatMap_append_perm ds _ _).trans (List.Perm.of_eq ?_)
  refine List.flatMap_congr fun x _ => ?_
  have hx := hf x
  cases x with
  | declare | flag | aliasing =>
    simp [Directive.declaration?, Directive.flag?, Directive.alias?]
  | map | inline | collapse | metavar | describe =>
    simp [Directive.declaration?, Directive.flag?, Directive.alias?, hx rfl]

/-- Each owner has its own name and then the names of the aliases it owns. -/
theorem flatMap_names_perm {α γ : Type} {owners : List α} {as : List Alias}
    (owns : α → Alias → Bool) (own : α → γ) (other : α → Alias → γ) {names : α → List γ}
    {aliasNames : Alias → List γ}
    (hnames : ∀ x ∈ owners, names x = own x :: (as.filter (owns x)).map (other x))
    (howner : ∀ a ∈ as, (owners.filter (owns · a)).map (other · a) = aliasNames a) :
    (owners.flatMap names).Perm (owners.map own ++ as.flatMap aliasNames) := by
  rw [List.flatMap_congr hnames]
  refine (List.map_append_flatMap_perm owners own _).symm.trans (List.Perm.append_left _ ?_)
  simp only [List.map_eq_flatMap] at howner ⊢
  exact Keyed.flatMap_owned_perm owns fun a ha => List.Perm.of_eq (howner a ha)

namespace OptionSet

/-- The name of the alias, if its owners are variables, which the type of its target tells. -/
def variableAliasName (ds : List Directive) (a : Alias) : List OptionName :=
  if a.targetType = .flag then [] else (Directive.optionName? ds (.aliasing a)).toList

/-- The name of the alias, if its owners are flags. -/
def flagAliasName (ds : List Directive) (a : Alias) : List OptionName :=
  if a.targetType = .flag then (Directive.optionName? ds (.aliasing a)).toList else []

theorem optionNames_vars_perm (h : Resolved ds) :
    ((ofDirectives s urls ds).vars.flatMap Variable.optionNames).Perm
      ((Declared.declarations ds).filterMap (fun d => Directive.optionName? ds (.declare d)) ++
        (Declared.aliases ds).flatMap (variableAliasName ds)) := by
  have hown : (Declared.declarations ds).filterMap
        (fun d => Directive.optionName? ds (.declare d)) =
      (ofDirectives s urls ds).vars.map fun v => ⟨v.type, false, v.name⟩ := by
    unfold ofDirectives
    rw [List.map_map]
    exact congrFun List.filterMap_eq_map _
  rw [hown]
  refine flatMap_names_perm Variable.owns _ (fun v a => ⟨v.type, false, a.name⟩)
    (fun v hv => ?_) (fun a ha => ?_)
  · unfold Variable.optionNames Variable.names
    rw [List.map_cons, aliases_of_mem_vars hv, List.map_map]
    rfl
  · unfold variableAliasName
    cases ht : a.targetType with
    | flag => simp [ht, Variable.owns]
    | var type =>
      obtain ⟨d, hd, htype, hfilter⟩ :=
        filter_owns_vars s urls h (Declared.mem_aliases.mp ha) ht
      have hname : Directive.optionName? ds (.aliasing a) = some ⟨d.type, false, a.name⟩ :=
        (optionName?_eq_some_iff h).mpr (htype ▸ .optionAlias (htype ▸ ht))
      rw [hfilter, hname, if_neg (by simp)]
      rfl

theorem optionNames_flags_perm (h : Resolved ds) :
    ((ofDirectives s urls ds).flags.flatMap Flag.optionNames).Perm
      ((Declared.flags ds).filterMap (fun g => Directive.optionName? ds (.flag g)) ++
        (Declared.aliases ds).flatMap (flagAliasName ds)) := by
  have hown : (Declared.flags ds).filterMap (fun g => Directive.optionName? ds (.flag g)) =
      (ofDirectives s urls ds).flags.map fun f => ⟨f.targetType, true, f.name⟩ := by
    unfold ofDirectives flagOf? Directive.optionName?
    simp only [List.map_filterMap, Option.map_map, Function.comp_def]
  rw [hown]
  refine flatMap_names_perm Flag.owns _ (fun f a => ⟨f.targetType, true, a.name⟩)
    (fun f hf => ?_) (fun a ha => ?_)
  · unfold Flag.optionNames Flag.names
    rw [List.map_cons, aliases_of_mem_flags h hf, List.map_map]
    rfl
  · unfold flagAliasName
    cases ht : a.targetType with
    | var type => simp [ht, Flag.owns]
    | flag =>
      obtain ⟨g, d, hg, hd, hfilter⟩ :=
        filter_owns_flags s urls h (Declared.mem_aliases.mp ha) ht
      have hname : Directive.optionName? ds (.aliasing a) = some ⟨d.type, true, a.name⟩ :=
        (optionName?_eq_some_iff h).mpr (.flagAlias ht hg hd)
      rw [hfilter, hname, if_pos rfl]
      rfl

/-- The option set answers to the names that the directives add, and to each once. -/
theorem optionNames_perm (h : Resolved ds) :
    (ofDirectives s urls ds).optionNames.Perm (ds.filterMap (Directive.optionName? ds)) := by
  have haliases : ((Declared.aliases ds).flatMap (variableAliasName ds) ++
      (Declared.aliases ds).flatMap (flagAliasName ds)).Perm
      ((Declared.aliases ds).filterMap fun a => Directive.optionName? ds (.aliasing a)) := by
    refine (List.flatMap_append_perm _ _ _).trans (List.Perm.of_eq ?_)
    rw [List.filterMap_eq_flatMap_toList]
    refine List.flatMap_congr fun a _ => ?_
    unfold variableAliasName flagAliasName
    split
    · rw [List.nil_append]
    · rw [List.append_nil]
  -- variables and flags stand with their aliases, while the classes list all aliases last
  refine List.Perm.trans ?_ (filterMap_classes_perm fun x hx => ?_)
  · refine ((optionNames_vars_perm h).append (optionNames_flags_perm h)).trans ?_
    rw [List.append_assoc, List.append_assoc]
    refine List.Perm.append_left _ ((List.perm_append_comm_assoc _ _ _).trans ?_)
    exact List.Perm.append_left _ haliases
  · cases x with
    | declare | flag | aliasing => cases hx
    | map | inline | collapse | metavar | describe => rfl

end OptionSet

end Elvis
