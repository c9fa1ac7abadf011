import Elvis.Proofs.OptionSet.Passes

/-!
# What the passes build

At every moment the set under construction is a plain function of what the passes have gone through
so far (`built`). A step takes it to the next directive, or fails as the check of the directive
does. So the passes build the set that the directives describe (`build_eq_ofChecked`).
-/

namespace Elvis

namespace OptionSet

variable {s : Settings} {ds before attached : List Directive} {x : Directive} {name : Bytes}
  {declarations : List Declaration} {flags : List FlagDeclaration} {aliases : List Alias}
  {position : Nat} {v : Variable}

/-! ## The set under construction -/

/-- A variable with what the passes have come to know of it. -/
def builtVariable (flags : List FlagDeclaration) (aliases : List Alias) (attached : List Directive)
    (d : Declaration) : Variable :=
  { declaration := d
    givenMetavar := Declared.metavar? attached d.name
    givenDescription := Declared.description? attached d.name
    aliases := (aliases.filter fun a => a.targetType ≠ .flag && a.target = d.name).map (·.name)
    flags := (flags.filter (·.target = d.name)).map (·.name) }

/-- A flag whose target is declared. -/
def builtFlag? (declarations : List Declaration) (aliases : List Alias) (f : FlagDeclaration) :
    Option Flag :=
  (declarations.find? (·.name = f.target)).map fun d =>
    { name := f.name
      target := f.target
      targetType := d.type
      value := f.value
      aliases := (aliases.filter fun a => a.targetType = .flag && a.target = f.name).map (·.name) }

/-- The set after so many declarations, flags and aliases, and after what the directives attach. -/
def built (s : Settings) (declarations : List Declaration) (flags : List FlagDeclaration)
    (aliases : List Alias) (attached : List Directive) : OptionSet :=
  { settings := s
    urls := ⟨[], [], [], []⟩
    vars := declarations.map (builtVariable flags aliases attached)
    flags := flags.filterMap (builtFlag? declarations aliases)
    aliases
    collapses := Declared.collapses attached
    mappings := Declared.mappings attached
    inlinings := Declared.inlinings attached
    variableIndex := .ofNames (declarations.map (·.name))
    flagIndex := .ofNames ((flags.filterMap (builtFlag? declarations aliases)).map (·.name))
    aliasIndex := .ofNames (aliases.map (·.name)) }

theorem map_name_built :
    (built s declarations flags aliases attached).vars.map (·.name) =
      declarations.map (·.name) := by
  unfold built
  rw [List.map_map]
  rfl

theorem indexed_built (h : (declarations.map (·.name)).Nodup) :
    (built s declarations flags aliases attached).Indexed where
  nodup := map_name_built ▸ h
  index := by
    rw [map_name_built]
    rfl

/-- What is looked up in the set is what is searched for among the declarations. -/
theorem find?_of_variableAt? (h : (declarations.map (·.name)).Nodup)
    (hat : (built s declarations flags aliases attached).variableAt? name = some (position, v)) :
    ∃ d, declarations.find? (·.name = name) = some d ∧
      builtVariable flags aliases attached d = v := by
  obtain ⟨hv, hname⟩ := (indexed_built h).variableAt?_eq_some_iff.mp hat
  obtain ⟨d, hd, rfl⟩ := List.mem_map.mp (List.mem_of_getElem? hv)
  exact ⟨d, (Keyed.find?_eq_some_iff h).mpr ⟨hd, hname⟩, rfl⟩

theorem find?_of_variableAt?_eq_none (h : (declarations.map (·.name)).Nodup)
    (hat : (built s declarations flags aliases attached).variableAt? name = none) :
    declarations.find? (·.name = name) = none := by
  have hname := (indexed_built h).variableAt?_eq_none_iff.mp hat
  rw [map_name_built] at hname
  exact Keyed.find?_eq_none_iff.mpr hname

/-! ## What a directive adds -/

theorem map_filter_concat {α : Type} {p : α → Bool} {key : α → Bytes} {xs : List α} {y : α} :
    ((xs ++ [y]).filter p).map key =
      if p y then (xs.filter p).map key ++ [key y] else (xs.filter p).map key := by
  rw [List.filter_append, List.map_append]
  cases hy : p y with
  | true => rw [List.filter_cons_of_pos hy]; rfl
  | false => rw [List.filter_cons_of_neg (Bool.eq_false_iff.mp hy)]; exact List.append_nil _

/-- A flag is known to its target. -/
theorem builtVariable_flag {f : FlagDeclaration} {d : Declaration} :
    builtVariable (flags ++ [f]) aliases attached d =
      if d.name = f.target then (builtVariable flags aliases attached d).addFlag f.name
      else builtVariable flags aliases attached d := by
  unfold builtVariable Variable.addFlag
  rw [map_filter_concat]
  by_cases h : d.name = f.target
  · rw [if_pos h, if_pos (decide_eq_true h.symm)]
  · rw [if_neg h, if_neg fun hf => h (of_decide_eq_true hf).symm]

/-- An alias of a variable is known to it. -/
theorem builtVariable_alias {a : Alias} {d : Declaration} :
    builtVariable flags (aliases ++ [a]) attached d =
      if a.targetType ≠ .flag ∧ a.target = d.name then
        (builtVariable flags aliases attached d).addAlias a.name
      else builtVariable flags aliases attached d := by
  unfold builtVariable Variable.addAlias
  rw [map_filter_concat]
  simp only [Bool.and_eq_true, decide_eq_true_eq]
  split <;> rfl

/-- An alias of a flag is known to it. -/
theorem builtFlag?_alias {a : Alias} {f : FlagDeclaration} :
    builtFlag? declarations (aliases ++ [a]) f = (builtFlag? declarations aliases f).map fun g =>
      if a.targetType = .flag ∧ a.target = g.name then g.addAlias a.name else g := by
  unfold builtFlag? Flag.addAlias
  rw [Option.map_map, map_filter_concat]
  simp only [Bool.and_eq_true, decide_eq_true_eq]
  refine congrArg (Option.map · _) (funext fun d => ?_)
  simp only [Function.comp_apply]
  split <;> rfl

theorem built_declaration {d : Declaration} :
    (built s declarations [] [] []).pushVariable (.declared d) =
      built s (declarations ++ [d]) [] [] [] := by
  unfold built pushVariable
  rw [← NameIndex.insert_ofNames, List.map_append, List.length_map]
  rfl

theorem built_flag {f : FlagDeclaration} (h : (declarations.map (·.name)).Nodup)
    (hat : (built s declarations flags [] []).variableAt? f.target = some (position, v)) :
    ((built s declarations flags [] []).updateVariable position (.addFlag f.name)).pushFlag
        ⟨f.name, v.name, v.type, f.value, []⟩ =
      built s declarations (flags ++ [f]) [] [] := by
  obtain ⟨d, hd, rfl⟩ := find?_of_variableAt? h hat
  have hvars : (declarations.map (builtVariable flags [] [])).map
      (fun v => if v.name = f.target then v.addFlag f.name else v) =
        declarations.map (builtVariable (flags ++ [f]) [] []) := by
    rw [List.map_map]
    exact List.map_congr_left fun _ _ => builtVariable_flag.symm
  have hflag : builtFlag? declarations [] f =
      some ⟨f.name, d.name, d.type, f.value, []⟩ := by
    have hname : d.name = f.target := by simpa using List.find?_some hd
    unfold builtFlag?
    rw [hd, hname]
    rfl
  have hflags : (flags ++ [f]).filterMap (builtFlag? declarations []) =
      flags.filterMap (builtFlag? declarations []) ++ [⟨f.name, d.name, d.type, f.value, []⟩] := by
    rw [List.filterMap_append, List.filterMap_cons_some hflag, List.filterMap_nil]
  rw [(indexed_built h).updateVariable_eq hat]
  unfold built pushFlag
  rw [hflags, ← hvars, ← NameIndex.insert_ofNames]
  rfl

/-- The variables after an alias. -/
theorem map_builtVariable_alias {a : Alias} :
    declarations.map (builtVariable flags (aliases ++ [a]) attached) =
      (declarations.map (builtVariable flags aliases attached)).map fun v =>
        if a.targetType ≠ .flag ∧ a.target = v.name then v.addAlias a.name else v := by
  rw [List.map_map]
  exact List.map_congr_left fun _ _ => builtVariable_alias

/-- The flags after an alias. -/
theorem filterMap_builtFlag?_alias {a : Alias} :
    flags.filterMap (builtFlag? declarations (aliases ++ [a])) =
      (flags.filterMap (builtFlag? declarations aliases)).map fun g =>
        if a.targetType = .flag ∧ a.target = g.name then g.addAlias a.name else g := by
  rw [List.map_filterMap]
  exact List.filterMap_congr fun _ _ => builtFlag?_alias

theorem map_name_filterMap_builtFlag?_alias {a : Alias} :
    (flags.filterMap (builtFlag? declarations (aliases ++ [a]))).map (·.name) =
      (flags.filterMap (builtFlag? declarations aliases)).map (·.name) := by
  rw [filterMap_builtFlag?_alias, List.map_map]
  refine List.map_congr_left fun g _ => ?_
  simp only [Function.comp_apply]
  split <;> rfl

theorem built_variableAlias {a : Alias} (h : (declarations.map (·.name)).Nodup)
    (htype : a.targetType ≠ .flag)
    (hat : (built s declarations flags aliases []).variableAt? a.target = some (position, v)) :
    ((built s declarations flags aliases []).updateVariable position (.addAlias a.name)).pushAlias
        a = built s declarations flags (aliases ++ [a]) [] := by
  have hvars : declarations.map (builtVariable flags (aliases ++ [a]) []) =
      (declarations.map (builtVariable flags aliases [])).map fun v =>
        if v.name = a.target then v.addAlias a.name else v := by
    rw [map_builtVariable_alias]
    simp only [htype, eq_comm, ne_eq, not_false_eq_true, true_and]
  have hflags : flags.filterMap (builtFlag? declarations (aliases ++ [a])) =
      flags.filterMap (builtFlag? declarations aliases) := by
    rw [filterMap_builtFlag?_alias]
    simp only [htype, false_and, if_false, List.map_id']
  rw [(indexed_built h).updateVariable_eq hat]
  unfold built pushAlias
  rw [hvars, hflags, ← NameIndex.insert_ofNames]

theorem built_flagAlias {a : Alias}
    (h : ((built s declarations flags aliases []).flags.map (·.name)).Nodup)
    (htype : a.targetType = .flag)
    (hat : (built s declarations flags aliases []).flagIndex.position? a.target = some position) :
    ((built s declarations flags aliases []).updateFlag position (.addAlias a.name)).pushAlias a =
      built s declarations flags (aliases ++ [a]) [] := by
  have hvars : declarations.map (builtVariable flags (aliases ++ [a]) []) =
      declarations.map (builtVariable flags aliases []) := by
    rw [map_builtVariable_alias]
    simp only [htype, ne_eq, not_true_eq_false, false_and, if_false, List.map_id']
  have hflags : (built s declarations flags aliases []).flags.modify position
      (.addAlias a.name) = flags.filterMap (builtFlag? declarations (aliases ++ [a])) := by
    rw [NameIndex.modify_eq_map h hat, filterMap_builtFlag?_alias]
    simp only [htype, eq_comm, true_and]
    rfl
  unfold updateFlag
  rw [hflags]
  unfold built pushAlias
  rw [hvars, map_name_filterMap_builtFlag?_alias, ← NameIndex.insert_ofNames]

theorem filterMap_concat {α β : Type} {f : α → Option β} {xs : List α} {y : α} :
    (xs ++ [y]).filterMap f = xs.filterMap f ++ (f y).toList := by
  rw [List.filterMap_append]
  cases hy : f y with
  | none => rw [List.filterMap_cons_none hy]; rfl
  | some b => rw [List.filterMap_cons_some hy]; rfl

theorem getLast?_filterMap_concat {α β : Type} {f : α → Option β} {xs : List α} {y : α} :
    ((xs ++ [y]).filterMap f).getLast? = (f y).or (xs.filterMap f).getLast? := by
  rw [filterMap_concat]
  cases f y with
  | none => rw [Option.toList_none, List.append_nil]; rfl
  | some b => rw [Option.toList_some, List.getLast?_concat]; rfl

/-- What a directive says about the variable, if it is about it. -/
def describedBy : Directive → Variable → Variable
  | .metavar target text, v => if v.name = target then v.setMetavar text else v
  | .describe target text, v => if v.name = target then v.setDescription text else v
  | _, v => v

theorem builtVariable_attach {d : Declaration} :
    builtVariable flags aliases (attached ++ [x]) d =
      describedBy x (builtVariable flags aliases attached d) := by
  have hmetavar : Declared.metavar? (attached ++ [x]) d.name =
      (x.metavarOf? d.name).or (Declared.metavar? attached d.name) := getLast?_filterMap_concat
  have hdescription : Declared.description? (attached ++ [x]) d.name =
      (x.descriptionOf? d.name).or (Declared.description? attached d.name) :=
    getLast?_filterMap_concat
  unfold builtVariable
  rw [hmetavar, hdescription]
  cases x with
  | metavar target text =>
    show _ = if d.name = target then _ else _
    by_cases h : target = d.name
    · rw [if_pos h.symm, Directive.metavarOf?, if_pos h]; rfl
    · rw [if_neg (Ne.symm h), Directive.metavarOf?, if_neg h]; rfl
  | describe target text =>
    show _ = if d.name = target then _ else _
    by_cases h : target = d.name
    · rw [if_pos h.symm, Directive.descriptionOf?, if_pos h]; rfl
    · rw [if_neg (Ne.symm h), Directive.descriptionOf?, if_neg h]; rfl
  | declare | flag | aliasing | map | inline | collapse => rfl

theorem built_attach :
    built s declarations flags aliases (attached ++ [x]) =
      { built s declarations flags aliases attached with
        vars := (built s declarations flags aliases attached).vars.map (describedBy x)
        collapses := Declared.collapses attached ++ x.collapse?.toList
        mappings := Declared.mappings attached ++ x.mapping?.toList
        inlinings := Declared.inlinings attached ++ x.inlining?.toList } := by
  have hvars : declarations.map (builtVariable flags aliases (attached ++ [x])) =
      (declarations.map (builtVariable flags aliases attached)).map (describedBy x) := by
    rw [List.map_map]
    exact List.map_congr_left fun _ _ => builtVariable_attach
  unfold built Declared.collapses Declared.mappings Declared.inlinings
  rw [hvars, filterMap_concat, filterMap_concat, filterMap_concat]

theorem built_metavar {target text : Bytes} :
    built s declarations flags aliases (attached ++ [.metavar target text]) =
      { built s declarations flags aliases attached with
        vars := (built s declarations flags aliases attached).vars.map fun v =>
          if v.name = target then v.setMetavar text else v } := by
  rw [built_attach]
  simp only [Directive.collapse?, Directive.mapping?, Directive.inlining?, Option.toList_none,
    List.append_nil]
  rfl

theorem built_describe {target text : Bytes} :
    built s declarations flags aliases (attached ++ [.describe target text]) =
      { built s declarations flags aliases attached with
        vars := (built s declarations flags aliases attached).vars.map fun v =>
          if v.name = target then v.setDescription text else v } := by
  rw [built_attach]
  simp only [Directive.collapse?, Directive.mapping?, Directive.inlining?, Option.toList_none,
    List.append_nil]
  rfl

/-- What is not said about a variable leaves the variables as they are. -/
theorem built_attach_of_id (h : describedBy x = id) :
    built s declarations flags aliases (attached ++ [x]) =
      { built s declarations flags aliases attached with
        collapses := Declared.collapses attached ++ x.collapse?.toList
        mappings := Declared.mappings attached ++ x.mapping?.toList
        inlinings := Declared.inlinings attached ++ x.inlining?.toList } := by
  rw [built_attach, h, List.map_id]

/-! ## Steps -/

theorem contains_variableIndex_built :
    (built s (Declared.declarations before) [] [] []).variableIndex.contains name =
      (Declared.variableNames before).contains name :=
  NameIndex.contains_ofNames

theorem addVariable_built {d : Declaration} :
    (built s (Declared.declarations before) [] [] []).addVariable d =
      if (Declared.variableNames before).contains d.name then .error (.duplicateVariable d.name)
      else .ok (built s (Declared.declarations before ++ [d]) [] [] []) := by
  unfold addVariable
  rw [contains_variableIndex_built, built_declaration]

/-- Entering a variable is checking its declaration. -/
theorem registerVariable_built :
    (built s (Declared.declarations before) [] [] []).registerVariable x =
      (Check.declaration before x).map fun _ =>
        built s (Declared.declarations (before ++ [x])) [] [] [] := by
  have hnext : Declared.declarations (before ++ [x]) =
      Declared.declarations before ++ x.declaration?.toList := filterMap_concat
  rw [hnext]
  cases x with
  | declare d =>
    show _ = Except.map (fun _ => built s (Declared.declarations before ++ [d]) [] [] []) _
    simp only [Check.declaration]
    cases d with
    | special kind =>
      have hname : kind.name = (Declaration.special kind).name := rfl
      simp only [registerVariable, contains_variableIndex_built, addVariable_built, hname]
      -- the second look at the name finds what the first one found
      by_cases h : (Declared.variableNames before).contains (Declaration.special kind).name
      · rw [if_pos h, if_pos h]; rfl
      · rw [if_neg h, if_neg h, if_neg h]; rfl
    | bool name default | anything name default | enum name default | list name elements =>
      simp only [registerVariable, addVariable_built]
      split <;> rfl
  | flag | aliasing | map | inline | collapse | metavar | describe =>
    show _ = Except.ok (built s (Declared.declarations before ++ []) [] [] [])
    rw [List.append_nil]
    rfl

theorem unresolved_built {α : Type} {reference : Reference} :
    (built s (Declared.declarations ds) flags aliases attached).unresolved (α := α) reference name =
      Check.unresolved ds reference name := by
  unfold unresolved Check.unresolved hint? Check.hint
  rw [map_name_built]
  rfl

end OptionSet

namespace Builder

open OptionSet

variable {s : Settings} {ds before : List Directive} {x : Directive} {name : Bytes}
  {flags : List FlagDeclaration} {aliases : List Alias}

/-- The builder after so many flags and aliases. -/
def built (s : Settings) (ds : List Directive) (flags : List FlagDeclaration)
    (aliases : List Alias) : Builder :=
  ⟨OptionSet.built s (Declared.declarations ds) flags aliases [],
    flags.map (·.name) ++ aliases.map (·.name)⟩

/-- Entering a name is checking that it is new. -/
theorem enter_built {update : OptionSet → OptionSet} {flags' : List FlagDeclaration}
    {aliases' : List Alias}
    (hset : update (built s ds flags aliases).set = (built s ds flags' aliases').set)
    (htaken : (built s ds flags' aliases').taken = (built s ds flags aliases).taken ++ [name]) :
    (built s ds flags aliases).enter name update =
      (Check.freshName (built s ds flags aliases).taken name).map fun _ =>
        built s ds flags' aliases' := by
  have hnext : built s ds flags' aliases' =
      ⟨update (built s ds flags aliases).set, (built s ds flags aliases).taken ++ [name]⟩ := by
    rw [hset, ← htaken]
  unfold enter Check.freshName
  rw [hnext]
  split <;> rfl

/-- Resolving a flag is checking it. -/
theorem resolveFlag_built (h : (Declared.variableNames ds).Nodup) :
    (built s ds (Declared.flags before) []).resolveFlag (Declared.otherNames ds) x =
      (Check.flag ds before x).map fun _ => built s ds (Declared.flags (before ++ [x])) [] := by
  have hnext : Declared.flags (before ++ [x]) = Declared.flags before ++ x.flag?.toList :=
    filterMap_concat
  rw [hnext]
  cases x with
  | flag f =>
    show _ = Except.map (fun _ => built s ds (Declared.flags before ++ [f]) []) _
    simp only [resolveFlag, Check.flag]
    cases hat : (built s ds (Declared.flags before) []).set.variableAt? f.target with
    | none =>
      have hfind : Declared.find? ds f.target = none := find?_of_variableAt?_eq_none h hat
      rw [hfind]
      simp only [built, unresolved_built]
      split <;> rfl
    | some found =>
      obtain ⟨position, v⟩ := found
      obtain ⟨d, hd, rfl⟩ := find?_of_variableAt? h hat
      have hfind : Declared.find? ds f.target = some d := hd
      have hdeclaration : (builtVariable (Declared.flags before) [] [] d).declaration = d := rfl
      simp only [hfind, hdeclaration]
      cases Check.misfit? f d with
      | some reason => rfl
      | none =>
        have htaken : (built s ds (Declared.flags before) []).taken =
          Declared.flagNames before := List.append_nil _
        rw [← htaken]
        exact enter_built (built_flag h hat) (by simp [built])
  | declare | aliasing | map | inline | collapse | metavar | describe =>
    show _ = Except.ok (built s ds (Declared.flags before ++ []) [])
    rw [List.append_nil]
    rfl

theorem missingTarget_built {a : Alias} {check : Unit → Except Cause Unit} {next : Unit → Builder} :
    (built s ds flags aliases).missingTarget (Declared.aliasNames ds) a =
      (Check.aliasTargetMissing ds a >>= check).map next := by
  unfold missingTarget Check.aliasTargetMissing
  simp only [built, unresolved_built]
  split <;> rfl

/-- When all flags have their targets, no flag is missing from the set. -/
theorem map_name_flags_built
    (h : ∀ f ∈ flags, ∃ d, Declared.find? ds f.target = some d) :
    (built s ds flags aliases).set.flags.map (·.name) = flags.map (·.name) := by
  have hname : ∀ f ∈ flags,
      (builtFlag? (Declared.declarations ds) aliases f).map (·.name) = some f.name := by
    intro f hf
    obtain ⟨d, hd⟩ := h f hf
    have hd : (Declared.declarations ds).find? (·.name = f.target) = some d := hd
    unfold builtFlag?
    rw [hd]
    rfl
  show (flags.filterMap (builtFlag? (Declared.declarations ds) aliases)).map (·.name) = _
  rw [List.map_filterMap, List.filterMap_congr hname, List.filterMap_eq_map']

theorem taken_built_alias {a : Alias} :
    (built s ds flags (aliases ++ [a])).taken = (built s ds flags aliases).taken ++ [a.name] := by
  simp [built]

theorem resolveAlias_built_flag {a : Alias}
    (hflags : ∀ f ∈ Declared.flags ds, ∃ d, Declared.find? ds f.target = some d)
    (hnames : (Declared.flagNames ds).Nodup) (htype : a.targetType = .flag) :
    (built s ds (Declared.flags ds) (Declared.aliases before)).resolveAlias
        (Declared.aliasNames ds) (.aliasing a) =
      (Check.aliasing ds before (.aliasing a)).map fun _ =>
        built s ds (Declared.flags ds) (Declared.aliases before ++ [a]) := by
  have hflagNames : (built s ds (Declared.flags ds) (Declared.aliases before)).set.flags.map
      (·.name) = Declared.flagNames ds := map_name_flags_built hflags
  simp only [resolveAlias, Check.aliasing, Check.aliasTarget, htype]
  cases hat : (built s ds (Declared.flags ds) (Declared.aliases before)).set.flagIndex.position?
    a.target with
  | none =>
    have hmissing : a.target ∉ Declared.flagNames ds :=
      hflagNames ▸ NameIndex.position?_map_eq_none_iff.mp hat
    simp only [List.contains_iff_mem, hmissing, if_false]
    exact missingTarget_built
  | some position =>
    have hthere : a.target ∈ Declared.flagNames ds := by
      by_contra hmissing
      rw [← hflagNames] at hmissing
      exact Option.some_ne_none _
        (hat.symm.trans (NameIndex.position?_map_eq_none_iff.mpr hmissing))
    simp only [List.contains_iff_mem, hthere, if_true]
    exact enter_built (built_flagAlias (hflagNames ▸ hnames) htype hat) taken_built_alias

theorem resolveAlias_built_var {a : Alias} {type : VariableType}
    (hvariables : (Declared.variableNames ds).Nodup) (htype : a.targetType = .var type) :
    (built s ds (Declared.flags ds) (Declared.aliases before)).resolveAlias
        (Declared.aliasNames ds) (.aliasing a) =
      (Check.aliasing ds before (.aliasing a)).map fun _ =>
        built s ds (Declared.flags ds) (Declared.aliases before ++ [a]) := by
  have hvar : a.targetType ≠ .flag := by simp [htype]
  simp only [resolveAlias, Check.aliasing, Check.aliasTarget, htype]
  cases hat : (built s ds (Declared.flags ds) (Declared.aliases before)).set.variableAt?
    a.target with
  | none =>
    have hfind : Declared.find? ds a.target = none := find?_of_variableAt?_eq_none hvariables hat
    simp only [hfind]
    exact missingTarget_built
  | some found =>
    obtain ⟨position, v⟩ := found
    obtain ⟨d, hd, rfl⟩ := find?_of_variableAt? hvariables hat
    have hfind : Declared.find? ds a.target = some d := hd
    have hname : d.name = a.target := by simpa using List.find?_some hd
    have hvname : (builtVariable (Declared.flags ds) (Declared.aliases before) [] d).name =
      a.target := hname
    have hvtype : (builtVariable (Declared.flags ds) (Declared.aliases before) [] d).type =
      d.type := rfl
    simp only [hfind, hvname, hvtype]
    by_cases hsame : d.type = type
    · rw [if_pos hsame, if_pos hsame]
      exact enter_built (built_variableAlias hvariables hvar hat) taken_built_alias
    · rw [if_neg hsame, if_neg hsame]
      rfl

/-- Resolving an alias is checking it, once the flags are resolved. -/
theorem resolveAlias_built (hvariables : (Declared.variableNames ds).Nodup)
    (hflags : ∀ f ∈ Declared.flags ds, ∃ d, Declared.find? ds f.target = some d)
    (hnames : (Declared.flagNames ds).Nodup) :
    (built s ds (Declared.flags ds) (Declared.aliases before)).resolveAlias
        (Declared.aliasNames ds) x =
      (Check.aliasing ds before x).map fun _ =>
        built s ds (Declared.flags ds) (Declared.aliases (before ++ [x])) := by
  have hnext : Declared.aliases (before ++ [x]) =
      Declared.aliases before ++ x.alias?.toList := filterMap_concat
  rw [hnext]
  cases x with
  | aliasing a =>
    cases htype : a.targetType with
    | flag => exact resolveAlias_built_flag hflags hnames htype
    | var type => exact resolveAlias_built_var hvariables htype
  | declare | flag | map | inline | collapse | metavar | describe =>
    show _ = Except.ok (built s ds (Declared.flags ds) (Declared.aliases before ++ []))
    rw [List.append_nil]
    rfl

end Builder

namespace OptionSet

variable {s : Settings} {ds before : List Directive} {x : Directive}
  {declarations : List Declaration} {flags : List FlagDeclaration} {aliases : List Alias}

theorem resolveVariable_built {reference : Reference} {name : Bytes}
    {next : Nat × Variable → Except Cause OptionSet} {check : Declaration → Except Cause Unit}
    {state : OptionSet} (h : (Declared.variableNames ds).Nodup)
    (hnext : ∀ position d, (built s (Declared.declarations ds) flags aliases before).variableAt?
        name = some (position, builtVariable flags aliases before d) →
      next (position, builtVariable flags aliases before d) = (check d).map fun _ => state) :
    ((built s (Declared.declarations ds) flags aliases before).resolveVariable reference name >>=
        next) =
      (Check.reference.variableOf ds reference name >>= check).map fun _ => state := by
  unfold resolveVariable Check.reference.variableOf
  cases hat : (built s (Declared.declarations ds) flags aliases before).variableAt? name with
  | none =>
    have hfind : Declared.find? ds name = none := find?_of_variableAt?_eq_none h hat
    simp only [hfind, unresolved_built]
    rfl
  | some found =>
    obtain ⟨position, v⟩ := found
    obtain ⟨d, hd, rfl⟩ := find?_of_variableAt? h hat
    have hfind : Declared.find? ds name = some d := hd
    simp only [hfind]
    exact hnext position d hat

/-- Attaching what a directive says is checking what it refers to. -/
theorem attach_built (h : (Declared.variableNames ds).Nodup) :
    (built s (Declared.declarations ds) flags aliases before).attach x =
      (Check.reference ds x).map fun _ =>
        built s (Declared.declarations ds) flags aliases (before ++ [x]) := by
  cases x with
  | metavar target text =>
    refine resolveVariable_built h fun position d hat => ?_
    rw [built_metavar, ← (indexed_built h).updateVariable_eq hat]
    rfl
  | describe target text =>
    refine resolveVariable_built h fun position d hat => ?_
    rw [built_describe, ← (indexed_built h).updateVariable_eq hat]
    rfl
  | collapse c =>
    refine resolveVariable_built h fun position d _ => ?_
    rw [built_attach_of_id rfl]
    simp only [Directive.mapping?, Directive.inlining?, Option.toList_none, List.append_nil]
    rfl
  | map m =>
    refine resolveVariable_built h fun position d _ => ?_
    rw [built_attach_of_id rfl]
    simp only [Directive.collapse?, Directive.inlining?, Option.toList_none, List.append_nil]
    show (if m.perItem && d.type ≠ .list then _ else _) =
      Except.map _ (if m.perItem && d.type ≠ .list then _ else _)
    split <;> rfl
  | inline i =>
    refine resolveVariable_built h fun position d _ => ?_
    rw [built_attach_of_id rfl]
    simp only [Directive.collapse?, Directive.mapping?, Option.toList_none, List.append_nil]
    show (if i.perItem && d.type ≠ .list then _ else _) =
      Except.map _ (if i.perItem && d.type ≠ .list then _ else _)
    split <;> rfl
  | declare | flag | aliasing =>
    rw [built_attach_of_id rfl]
    simp only [Directive.collapse?, Directive.mapping?, Directive.inlining?, Option.toList_none,
      List.append_nil]
    rfl

/-! ## Passes -/

section

variable {σ : Type} {step : σ → Directive → Except Cause σ}
  {check : List Directive → Directive → Except Cause Unit}

theorem pass_after_eq (state : List Directive → σ)
    (hstep : ∀ before x, step (state before) x =
      (check before x).map fun _ => state (before ++ [x])) :
    pass step (state before) before.length ds =
      (checkEach check before ds).map fun _ => state (before ++ ds) := by
  induction ds generalizing before with
  | nil =>
    rw [List.append_nil]
    rfl
  | cons x ds ih =>
    rw [pass, hstep, checkEach]
    cases check before x with
    | error cause => rfl
    | ok _ =>
      have hlength : before.length + 1 = (before ++ [x]).length := by simp
      have hsplit : before ++ x :: ds = before ++ [x] ++ ds := by simp
      rw [hsplit, ← ih, ← hlength]
      rfl

/-- A pass is a check of each directive, when its steps are. -/
theorem pass_eq (state : List Directive → σ)
    (hstep : ∀ before x, step (state before) x =
      (check before x).map fun _ => state (before ++ [x])) :
    pass step (state []) 0 ds = (checkEach check [] ds).map fun _ => state ds :=
  pass_after_eq state hstep

end

theorem pass_registerVariable :
    pass registerVariable (blank s) 0 ds = (checkEach Check.declaration [] ds).map fun _ =>
      built s (Declared.declarations ds) [] [] [] :=
  pass_eq (fun before => built s (Declared.declarations before) [] [] [])
    fun _ _ => registerVariable_built

theorem pass_resolveFlag (h : (Declared.variableNames ds).Nodup) :
    pass (Builder.resolveFlag (Declared.otherNames ds)) (Builder.built s ds [] []) 0 ds =
      (checkEach (Check.flag ds) [] ds).map fun _ =>
        Builder.built s ds (Declared.flags ds) [] :=
  pass_eq (fun before => Builder.built s ds (Declared.flags before) [])
    fun _ _ => Builder.resolveFlag_built h

theorem pass_resolveAlias (hvariables : (Declared.variableNames ds).Nodup)
    (hflags : checkEach (Check.flag ds) [] ds = .ok ()) :
    pass (Builder.resolveAlias (Declared.aliasNames ds))
        (Builder.built s ds (Declared.flags ds) []) 0 ds =
      (checkEach (Check.aliasing ds) [] ds).map fun _ =>
        Builder.built s ds (Declared.flags ds) (Declared.aliases ds) := by
  obtain ⟨htargets, hnames⟩ := (flags_pass_iff hvariables).mp hflags
  have hfind : ∀ f ∈ Declared.flags ds, ∃ d, Declared.find? ds f.target = some d := by
    intro f hf
    obtain ⟨d, hd, _⟩ := htargets f (Declared.mem_flags.mp hf)
    exact ⟨d, (Declared.find?_eq_some_iff hvariables).mpr hd⟩
  exact pass_eq (fun before => Builder.built s ds (Declared.flags ds) (Declared.aliases before))
    fun _ _ => Builder.resolveAlias_built hvariables hfind hnames

theorem pass_attach (h : (Declared.variableNames ds).Nodup) :
    pass attach (built s (Declared.declarations ds) flags aliases []) 0 ds =
      (checkEach (fun _ => Check.reference ds) [] ds).map fun _ =>
        built s (Declared.declarations ds) flags aliases ds :=
  pass_eq (fun before => built s (Declared.declarations ds) flags aliases before)
    fun _ _ => attach_built h

theorem forM_vars_built :
    (built s declarations flags aliases before).vars.forM (fun v => Check.default v.declaration) =
      declarations.forM Check.default :=
  List.forM_map ..

/-- The passes build the described set, and fail where a check fails. -/
theorem build_eq_ofChecked : build s ds = ofChecked s ds := by
  unfold build ofChecked
  refine congrArg (unblamed (Check.settings s) >>= ·) (funext fun _ => ?_)
  refine bind_eq_bind_of_map pass_registerVariable fun hdeclarations => ?_
  have hvariables := declarations_pass_iff.mp hdeclarations
  refine bind_eq_bind_of_map (pass_resolveFlag hvariables) fun hflags => ?_
  refine bind_eq_bind_of_map (pass_resolveAlias hvariables hflags) fun _ => ?_
  refine bind_eq_bind_of_map (pass_attach hvariables) fun _ => ?_
  rw [forM_vars_built]
  rfl

end OptionSet

end Elvis
