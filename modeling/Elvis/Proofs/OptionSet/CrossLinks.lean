import Elvis.Proofs.OptionSet.Acceptance

/-!
# Cross-links

The parts of an option set name each other: flags and aliases name their targets, variables and
flags list the names of what targets them, and three indexes hold where a name stands. The passes
enter all of this piece by piece. In a set that was built the links agree in both directions, with
the indexes, and with the directives.
-/

namespace Elvis.OptionSet

variable {s : Settings} {urls : Urls} {ds : List Directive} {set : OptionSet}

structure CrossLinked (ds : List Directive) (set : OptionSet) : Prop where
  /-- An index holds the position of what has the name. -/
  variableIndex : ∀ name i, set.variableIndex.position? name = some i ↔
    ∃ v, set.vars[i]? = some v ∧ v.name = name
  flagIndex : ∀ name i, set.flagIndex.position? name = some i ↔
    ∃ f, set.flags[i]? = some f ∧ f.name = name
  aliasIndex : ∀ name i, set.aliasIndex.position? name = some i ↔
    ∃ a, set.aliases[i]? = some a ∧ a.name = name
  /-- A name finds the variable that has it, and finds one if it is declared. -/
  findVariable : ∀ name v, set.findVariable? name = some v ↔ v ∈ set.vars ∧ v.name = name
  findVariable_none : ∀ name, set.findVariable? name = none ↔ ∀ d, ¬ Declares ds name d
  findFlag : ∀ name f, set.findFlag? name = some f ↔ f ∈ set.flags ∧ f.name = name
  findFlag_none : ∀ name, set.findFlag? name = none ↔ ∀ g, ¬ DeclaresFlag ds name g
  /-- The parts stand in the order of their directives. -/
  vars : set.vars.map (·.declaration) = ds.filterMap Directive.declaration?
  flags : set.flags.map Flag.declaration = ds.filterMap Directive.flag?
  aliases : set.aliases = ds.filterMap Directive.alias?
  collapses : set.collapses = ds.filterMap Directive.collapse?
  mappings : set.mappings = ds.filterMap Directive.mapping?
  inlinings : set.inlinings = ds.filterMap Directive.inlining?
  target : ∀ f ∈ set.flags, ∃ v, set.findVariable? f.target = some v ∧ v.type = f.targetType
  flagsOfVariable : ∀ v ∈ set.vars,
    v.flags = (set.flags.filter (·.target = v.name)).map (·.name)
  aliasesOfVariable : ∀ v ∈ set.vars, v.aliases = (set.aliases.filter v.owns).map (·.name)
  aliasesOfFlag : ∀ f ∈ set.flags, f.aliases = (set.aliases.filter f.owns).map (·.name)
  /-- One variable or flag lists the alias. -/
  owner : ∀ a ∈ set.aliases, (set.vars.filter (a.name ∈ ·.aliases)).length +
    (set.flags.filter (a.name ∈ ·.aliases)).length = 1
  collapsed : ∀ c ∈ set.collapses, ∃ v, set.findVariable? c.target = some v
  mapped : ∀ m ∈ set.mappings, ∃ v, set.findVariable? m.target = some v ∧
    (m.perItem → v.type = .list)
  inlined : ∀ i ∈ set.inlinings, ∃ v, set.findVariable? i.target = some v ∧
    (i.perItem → v.type = .list)

/-! ## Lookup -/

theorem position?_variableIndex_eq_some_iff (h : Resolved ds) {name : Bytes} {i : Nat} :
    (ofDirectives s urls ds).variableIndex.position? name = some i ↔
      ∃ v, (ofDirectives s urls ds).vars[i]? = some v ∧ v.name = name := by
  rw [variableIndex_ofDirectives]
  exact NameIndex.position?_map_eq_some_iff (nodup_name_vars h)

theorem position?_flagIndex_eq_some_iff (h : Resolved ds) {name : Bytes} {i : Nat} :
    (ofDirectives s urls ds).flagIndex.position? name = some i ↔
      ∃ f, (ofDirectives s urls ds).flags[i]? = some f ∧ f.name = name := by
  rw [flagIndex_ofDirectives]
  exact NameIndex.position?_map_eq_some_iff (nodup_name_flags h)

theorem position?_aliasIndex_eq_some_iff (h : Resolved ds) {name : Bytes} {i : Nat} :
    (ofDirectives s urls ds).aliasIndex.position? name = some i ↔
      ∃ a, (ofDirectives s urls ds).aliases[i]? = some a ∧ a.name = name :=
  NameIndex.position?_map_eq_some_iff (Declared.nodup_otherNames_iff.mp h.otherNames).2.1

theorem findVariable?_eq_some_iff (h : Resolved ds) {name : Bytes} {v : Variable} :
    (ofDirectives s urls ds).findVariable? name = some v ↔
      v ∈ (ofDirectives s urls ds).vars ∧ v.name = name :=
  findVariable?_eq_find? variableIndex_ofDirectives ▸
    Keyed.find?_eq_some_iff (nodup_name_vars h)

theorem findFlag?_eq_some_iff (h : Resolved ds) {name : Bytes} {f : Flag} :
    (ofDirectives s urls ds).findFlag? name = some f ↔
      f ∈ (ofDirectives s urls ds).flags ∧ f.name = name :=
  findFlag?_eq_find? flagIndex_ofDirectives ▸ Keyed.find?_eq_some_iff (nodup_name_flags h)

theorem findVariable?_eq_none_iff {name : Bytes} :
    (ofDirectives s urls ds).findVariable? name = none ↔ ∀ d, ¬ Declares ds name d := by
  rw [findVariable?_eq_find? variableIndex_ofDirectives, Keyed.find?_eq_none_iff, map_name_vars,
    Declared.mem_variableNames, not_exists]

theorem findFlag?_eq_none_iff (h : Resolved ds) {name : Bytes} :
    (ofDirectives s urls ds).findFlag? name = none ↔ ∀ g, ¬ DeclaresFlag ds name g := by
  rw [findFlag?_eq_find? flagIndex_ofDirectives, Keyed.find?_eq_none_iff, map_name_flags h,
    Declared.mem_flagNames, not_exists]

/-- A declared variable is found with its declaration. -/
theorem findVariable?_of_declares (h : Resolved ds) {name : Bytes} {d : Declaration}
    (hd : Declares ds name d) :
    (ofDirectives s urls ds).findVariable? name = some (variableOf ds d) :=
  (findVariable?_eq_some_iff h).mpr ⟨mem_vars_iff.mpr ⟨d, hd.1, rfl⟩, hd.2⟩

/-! ## Back-links -/

theorem flags_of_mem_vars (h : Resolved ds) {v : Variable}
    (hv : v ∈ (ofDirectives s urls ds).vars) :
    v.flags = ((ofDirectives s urls ds).flags.filter (·.target = v.name)).map (·.name) := by
  obtain ⟨d, _, rfl⟩ := mem_vars_iff.mp hv
  show ((Declared.flags ds).filter (·.target = d.name)).map (·.name) = _
  rw [← map_declaration_flags h, List.filter_map, List.map_map]
  rfl

/-- Aliases have different names, so a name in the list of an owner is that of its own alias. -/
theorem mem_map_name_filter_iff (h : Resolved ds) {p : Alias → Bool} {a : Alias}
    (ha : a ∈ Declared.aliases ds) :
    a.name ∈ ((Declared.aliases ds).filter p).map (·.name) ↔ p a := by
  have hnames := (Declared.nodup_otherNames_iff.mp h.otherNames).2.1
  constructor
  · intro hm
    obtain ⟨b, hb, hname⟩ := List.mem_map.mp hm
    obtain ⟨hb, hp⟩ := List.mem_filter.mp hb
    rwa [← List.inj_on_of_nodup_map hnames hb ha hname]
  · intro hp
    exact List.mem_map_of_mem (List.mem_filter.mpr ⟨ha, hp⟩)

theorem filter_mem_aliases_vars (h : Resolved ds) {a : Alias} (ha : a ∈ Declared.aliases ds) :
    (ofDirectives s urls ds).vars.filter (a.name ∈ ·.aliases) =
      (ofDirectives s urls ds).vars.filter (·.owns a) := by
  refine List.filter_congr fun v hv => ?_
  rw [aliases_of_mem_vars hv, Bool.eq_iff_iff, decide_eq_true_iff]
  exact mem_map_name_filter_iff h ha

theorem filter_mem_aliases_flags (h : Resolved ds) {a : Alias} (ha : a ∈ Declared.aliases ds) :
    (ofDirectives s urls ds).flags.filter (a.name ∈ ·.aliases) =
      (ofDirectives s urls ds).flags.filter (·.owns a) := by
  refine List.filter_congr fun f hf => ?_
  rw [aliases_of_mem_flags h hf, Bool.eq_iff_iff, decide_eq_true_iff]
  exact mem_map_name_filter_iff h ha

theorem length_owners (h : Resolved ds) {a : Alias} (ha : a ∈ Declared.aliases ds) :
    ((ofDirectives s urls ds).vars.filter (a.name ∈ ·.aliases)).length +
      ((ofDirectives s urls ds).flags.filter (a.name ∈ ·.aliases)).length = 1 := by
  rw [filter_mem_aliases_vars h ha, filter_mem_aliases_flags h ha]
  have hm := Declared.mem_aliases.mp ha
  cases ht : a.targetType with
  | var type =>
    obtain ⟨d, _, _, hvars⟩ := filter_owns_vars s urls h hm ht
    have hflags : (ofDirectives s urls ds).flags.filter (·.owns a) = [] :=
      List.filter_eq_nil_iff.mpr fun f _ => by simp [Flag.owns, ht]
    rw [hvars, hflags]
    rfl
  | flag =>
    obtain ⟨g, d, _, _, hflags⟩ := filter_owns_flags s urls h hm ht
    have hvars : (ofDirectives s urls ds).vars.filter (·.owns a) = [] :=
      List.filter_eq_nil_iff.mpr fun v _ => by simp [Variable.owns, ht]
    rw [hvars, hflags]
    rfl

/-! ## Targets -/

theorem findVariable?_target (h : Resolved ds) {f : Flag}
    (hf : f ∈ (ofDirectives s urls ds).flags) :
    ∃ v, (ofDirectives s urls ds).findVariable? f.target = some v ∧ v.type = f.targetType := by
  obtain ⟨g, d, _, hd, rfl⟩ := (mem_flags_iff h).mp hf
  exact ⟨variableOf ds d, findVariable?_of_declares h hd, rfl⟩

theorem findVariable?_use (h : WellFormed s ds) {x : Directive} {u : Use} (hx : x ∈ ds)
    (hu : x.use? = some u) :
    ∃ v, (ofDirectives s urls ds).findVariable? u.target = some v ∧
      (u.perItem → v.type = .list) := by
  obtain ⟨d, hd, htype⟩ := h.uses x hx u hu
  exact ⟨variableOf ds d, findVariable?_of_declares h.resolved hd, htype⟩

theorem crossLinked_of_wellFormed (h : WellFormed s ds) :
    CrossLinked ds (ofDirectives s urls ds) where
  variableIndex _ _ := position?_variableIndex_eq_some_iff h.resolved
  flagIndex _ _ := position?_flagIndex_eq_some_iff h.resolved
  aliasIndex _ _ := position?_aliasIndex_eq_some_iff h.resolved
  findVariable _ _ := findVariable?_eq_some_iff h.resolved
  findVariable_none _ := findVariable?_eq_none_iff
  findFlag _ _ := findFlag?_eq_some_iff h.resolved
  findFlag_none _ := findFlag?_eq_none_iff h.resolved
  vars := map_declaration_vars
  flags := map_declaration_flags h.resolved
  aliases := rfl
  collapses := rfl
  mappings := rfl
  inlinings := rfl
  target _ := findVariable?_target h.resolved
  flagsOfVariable _ := flags_of_mem_vars h.resolved
  aliasesOfVariable _ := aliases_of_mem_vars
  aliasesOfFlag _ := aliases_of_mem_flags h.resolved
  owner _ := length_owners h.resolved
  collapsed c hc := by
    obtain ⟨v, hv, _⟩ := findVariable?_use h (Declared.mem_collapses.mp hc) rfl
    exact ⟨v, hv⟩
  mapped _ hm := findVariable?_use h (Declared.mem_mappings.mp hm) rfl
  inlined _ hi := findVariable?_use h (Declared.mem_inlinings.mp hi) rfl

/-- Every option set that is built is cross-linked. -/
theorem build_crossLinked (h : build s ds = .ok set) : CrossLinked ds set := by
  obtain ⟨hw, urls, _, rfl⟩ := build_eq_ok_iff.mp h
  exact crossLinked_of_wellFormed hw

theorem crossLinked_sampleDirectives :
    ∃ set, build sampleSettings sampleDirectives = .ok set ∧ CrossLinked sampleDirectives set := by
  obtain ⟨set, h⟩ : ∃ set, build sampleSettings sampleDirectives = .ok set := ⟨_, rfl⟩
  exact ⟨set, h, build_crossLinked h⟩

end Elvis.OptionSet
