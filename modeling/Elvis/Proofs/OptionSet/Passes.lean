import Elvis.Proofs.Directive.Fields
import Elvis.Proofs.Except
import Elvis.Proofs.Keyed
import Elvis.Proofs.OptionSet.Described
import Elvis.Proofs.OptionSet.WellFormed

/-!
# What each pass accepts

Building an option set passes over the directives several times. For each pass: which settings and
directives it lets through, in terms of the conditions of `OptionSet.WellFormed`.
-/

namespace Elvis

variable {ds before : List Directive} {x : Directive} {s : Settings}

/-! ## What is declared -/

namespace Declared

theorem mem_filterMap_iff {β : Type} {read : Directive → Option β} {make : β → Directive} {b : β}
    (h : ∀ x, read x = some b ↔ x = make b) : b ∈ ds.filterMap read ↔ make b ∈ ds := by
  simp only [List.mem_filterMap, h]
  constructor
  · rintro ⟨_, hx, rfl⟩
    exact hx
  · intro hb
    exact ⟨_, hb, rfl⟩

@[simp] theorem mem_declarations {d : Declaration} : d ∈ declarations ds ↔ .declare d ∈ ds :=
  mem_filterMap_iff fun x => by cases x <;> simp [Directive.declaration?]

@[simp] theorem mem_flags {f : FlagDeclaration} : f ∈ flags ds ↔ .flag f ∈ ds :=
  mem_filterMap_iff fun x => by cases x <;> simp [Directive.flag?]

@[simp] theorem mem_aliases {a : Alias} : a ∈ aliases ds ↔ .aliasing a ∈ ds :=
  mem_filterMap_iff fun x => by cases x <;> simp [Directive.alias?]

@[simp] theorem mem_mappings {m : Mapping} : m ∈ mappings ds ↔ .map m ∈ ds :=
  mem_filterMap_iff fun x => by cases x <;> simp [Directive.mapping?]

@[simp] theorem mem_inlinings {i : Inlining} : i ∈ inlinings ds ↔ .inline i ∈ ds :=
  mem_filterMap_iff fun x => by cases x <;> simp [Directive.inlining?]

@[simp] theorem mem_collapses {c : Collapse} : c ∈ collapses ds ↔ .collapse c ∈ ds :=
  mem_filterMap_iff fun x => by cases x <;> simp [Directive.collapse?]

theorem variableNames_eq (ds : List Directive) :
    variableNames ds = ds.filterMap fun x => x.declaration?.map (·.name) :=
  List.map_filterMap

theorem flagNames_eq (ds : List Directive) :
    flagNames ds = ds.filterMap fun x => x.flag?.map (·.name) :=
  List.map_filterMap

theorem aliasNames_eq (ds : List Directive) :
    aliasNames ds = ds.filterMap fun x => x.alias?.map (·.name) :=
  List.map_filterMap

theorem mem_variableNames {name : Bytes} :
    name ∈ variableNames ds ↔ ∃ d, Declares ds name d := by
  simp only [variableNames, List.mem_map, mem_declarations, Declares]

theorem mem_flagNames {name : Bytes} : name ∈ flagNames ds ↔ ∃ f, DeclaresFlag ds name f := by
  simp only [flagNames, List.mem_map, mem_flags, DeclaresFlag]

theorem find?_eq_some_iff {name : Bytes} {d : Declaration} (h : (variableNames ds).Nodup) :
    find? ds name = some d ↔ Declares ds name d := by
  unfold find? Declares
  rw [Keyed.find?_eq_some_iff h, mem_declarations]

theorem mem_of_description? {name text : Bytes} (h : description? ds name = some text) :
    .describe name text ∈ ds := by
  obtain ⟨x, hx, hof⟩ := List.mem_filterMap.mp (List.mem_of_getLast? h)
  cases x with
  | describe target text' =>
    obtain ⟨rfl, rfl⟩ : target = name ∧ text' = text := by
      simpa [Directive.descriptionOf?] using hof
    exact hx
  | declare | flag | aliasing | map | inline | collapse | metavar => cases hof

theorem nodup_otherNames_iff :
    (otherNames ds).Nodup ↔ (flagNames ds).Nodup ∧ (aliasNames ds).Nodup ∧
      ∀ a, .aliasing a ∈ ds → a.name ∉ flagNames ds := by
  unfold otherNames
  rw [List.nodup_append]
  refine and_congr_right fun _ => and_congr_right fun _ => ?_
  constructor
  · intro h a ha hf
    exact h _ hf _ (List.mem_map_of_mem (mem_aliases.mpr ha)) rfl
  · intro h _ hf _ hname heq
    obtain ⟨a, ha, hn⟩ := List.mem_map.mp hname
    exact h a (mem_aliases.mp ha) (by rwa [hn, ← heq])

end Declared

/-! ## One pass over the directives -/

namespace OptionSet

theorem checkEach_cons_eq_ok_iff {check : List Directive → Directive → Except Cause Unit} :
    checkEach check before (x :: ds) = .ok () ↔
      check before x = .ok () ∧ checkEach check (before ++ [x]) ds = .ok () := by
  rw [checkEach]
  cases check before x with
  | error cause => simp
  | ok _ => simp

theorem nodup_filterMap_append_singleton {key : Directive → Option Bytes}
    (h : (before.filterMap key).Nodup) :
    ((before ++ [x]).filterMap key).Nodup ↔
      ∀ name, key x = some name → name ∉ before.filterMap key := by
  rw [List.filterMap_append]
  cases hx : key x with
  | none => simp [hx, h]
  | some name =>
    rw [List.filterMap_cons_some hx, List.filterMap_nil, List.nodup_append]
    constructor
    · intro hnodup _ hsome hm
      obtain ⟨_, _, hne⟩ := hnodup
      cases hsome
      exact hne name hm name (List.mem_singleton_self name) rfl
    · intro hfresh
      refine ⟨h, List.nodup_singleton name, fun b hb c hc heq => ?_⟩
      obtain rfl := List.mem_singleton.mp hc
      exact hfresh c rfl (heq ▸ hb)

variable {check : List Directive → Directive → Except Cause Unit}
  {key : Directive → Option Bytes} {good : Directive → Prop}

theorem checkEach_after_eq_ok_iff
    (hcheck : ∀ before x, check before x = .ok () ↔
      good x ∧ ∀ name, key x = some name → name ∉ before.filterMap key)
    (hbefore : (before.filterMap key).Nodup) :
    checkEach check before ds = .ok () ↔
      (∀ x ∈ ds, good x) ∧ ((before ++ ds).filterMap key).Nodup := by
  -- the directives already passed have different keys, and stay so if the next one is accepted
  induction ds generalizing before with
  | nil =>
    rw [List.append_nil]
    exact ⟨fun _ => ⟨List.forall_mem_nil _, hbefore⟩, fun _ => rfl⟩
  | cons x ds ih =>
    have hsplit : before ++ x :: ds = (before ++ [x]) ++ ds := by simp
    rw [checkEach_cons_eq_ok_iff, hcheck, List.forall_mem_cons, hsplit]
    constructor
    · intro h
      obtain ⟨⟨hx, hfresh⟩, hrest⟩ := h
      have hnext := (nodup_filterMap_append_singleton hbefore).mpr hfresh
      obtain ⟨hall, hnodup⟩ := (ih hnext).mp hrest
      exact ⟨⟨hx, hall⟩, hnodup⟩
    · intro h
      obtain ⟨⟨hx, hall⟩, hnodup⟩ := h
      have hnext : ((before ++ [x]).filterMap key).Nodup := by
        rw [List.filterMap_append] at hnodup
        exact (List.nodup_append.mp hnodup).1
      have hfresh := (nodup_filterMap_append_singleton hbefore).mp hnext
      exact ⟨⟨hx, hfresh⟩, (ih hnext).mpr ⟨hall, hnodup⟩⟩

/-- A check that refuses a repeated name and otherwise looks at one directive at a time. -/
theorem checkEach_eq_ok_iff {names : List Directive → List Bytes}
    (hnames : ∀ xs, names xs = xs.filterMap key)
    (hcheck : ∀ before x, check before x = .ok () ↔
      good x ∧ ∀ name, key x = some name → name ∉ names before) :
    checkEach check [] ds = .ok () ↔ (∀ x ∈ ds, good x) ∧ (names ds).Nodup := by
  have hnil : (([] : List Directive).filterMap key).Nodup := List.nodup_nil
  simp only [hnames] at hcheck ⊢
  rw [checkEach_after_eq_ok_iff hcheck hnil, List.nil_append]

end OptionSet

/-! ## Settings -/

namespace Check

theorem isElvisName_iff {name : Bytes} :
    Name.isElvisName name ↔ name ∉ [[], ".", ".."] ∧ Byte.slash ∉ name := by
  unfold Name.isElvisName
  simp [and_assoc]

theorem settings_eq_ok_iff :
    settings s = .ok () ↔ (s.name ∉ [[], ".", ".."] ∧ Byte.slash ∉ s.name) ∧ 1 ≤ s.numTabs ∧
      ∀ p, s.queryParameter = some p → p ≠ [] ∧ s.appendSearchArgs := by
  unfold settings
  rw [error_ite_eq_ok_iff, error_ite_eq_ok_iff, error_ite_eq_ok_iff, error_ite_eq_ok_iff,
    Bool.not_eq_true', Bool.not_eq_false, isElvisName_iff, Int.not_lt]
  cases s.queryParameter with
  | none => simp
  | some p => simp

theorem queryParameter_eq_ok_iff :
    queryParameter s (Declared.mappings ds) = .ok () ↔
      ∀ m, .map m ∈ ds → s.appendSearchArgs → s.queryParameter.isSome := by
  unfold queryParameter
  rw [error_ite_eq_ok_iff]
  cases s.queryParameter with
  | some p => simp
  | none =>
    cases s.appendSearchArgs with
    | false => simp
    | true => simp [List.eq_nil_iff_forall_not_mem]

end Check

theorem Urls.exists_resolve_eq_ok_iff :
    (∃ urls, Urls.resolve s = .ok urls) ↔
      ∀ b c, Url.HasScheme s.baseUrl b → Url.HasScheme s.searchUrl c → b = c := by
  simp only [← Url.splitScheme_fst_eq_some_iff]
  unfold Urls.resolve
  rcases Url.splitScheme s.baseUrl with ⟨_ | b, baseRest⟩ <;>
    rcases Url.splitScheme s.searchUrl with ⟨_ | c, searchRest⟩
  · simp
  · simp
  · simp
  · by_cases hbc : b = c
    · simp [hbc]
    · simp [hbc]

/-- Both URLs stand under one scheme, which is that of either or the default. -/
theorem Urls.resolve_eq_ok {urls : Urls} (h : Urls.resolve s = .ok urls) :
    Url.isScheme urls.scheme ∧
      urls.base = Url.withScheme urls.scheme (Url.splitScheme s.baseUrl).2 ∧
      urls.search = Url.withScheme urls.scheme (Url.splitScheme s.searchUrl).2 ∧
      urls.display = (Url.splitScheme s.baseUrl).2 := by
  unfold Urls.resolve at h
  dsimp only at h
  split at h
  · next hbase _ =>
    split at h
    · cases h
      exact ⟨(Url.splitScheme_fst_eq_some_iff.mp hbase).1, rfl, rfl, rfl⟩
    · cases h
  · next hbase _ =>
    cases h
    exact ⟨(Url.splitScheme_fst_eq_some_iff.mp hbase).1, rfl, rfl, rfl⟩
  · next _ hsearch =>
    cases h
    exact ⟨(Url.splitScheme_fst_eq_some_iff.mp hsearch).1, rfl, rfl, rfl⟩
  · cases h
    have hdefault : ∀ insecure : Bool, Url.isScheme (if insecure then "http" else "https") := by
      decide
    exact ⟨hdefault s.insecure, rfl, rfl, rfl⟩

/-! ## Directives -/

namespace Check

theorem declaration_eq_ok_iff :
    declaration before x = .ok () ↔ ∀ name, x.declaration?.map (·.name) = some name →
      name ∉ Declared.variableNames before := by
  cases x with
  | declare d =>
    simp only [declaration, Directive.declaration?, Option.map_some, Option.some.injEq,
      forall_eq']
    by_cases h : d.name ∈ Declared.variableNames before
    · cases d <;> simp [h]
    · simp [h]
  | flag | aliasing | map | inline | collapse | metavar | describe =>
    simp [declaration, Directive.declaration?]

theorem misfit?_eq_none_iff {f : FlagDeclaration} {d : Declaration} :
    misfit? f d = none ↔ d.Accepts f.value := by
  cases d with
  | bool name default =>
    have hread : (YesNo.read? f.value).isSome ↔ f.value = "yes" ∨ f.value = "no" := by
      rw [Option.isSome_iff_exists]
      simp only [read?_eq_some_iff]
      exact Bool.exists_bool.trans or_comm
    simp only [misfit?, Declaration.Accepts, ← hread]
    split
    · next h => simp [h]
    · next h => simp [h]
  | enum name default values => simp [misfit?, Declaration.Accepts]
  | anything name default => simp [misfit?, Declaration.Accepts]
  | list name elements defaults =>
    cases elements with
    | anything => simp [misfit?, Declaration.Accepts]
    | enum values => simp [misfit?, Declaration.Accepts]
  | special kind =>
    cases kind with
    | results => simp [misfit?, Declaration.Accepts, Option.isSome_iff_exists]
    | language => simp [misfit?, Declaration.Accepts]

theorem freshName_eq_ok_iff {taken : List Bytes} {name : Bytes} :
    freshName taken name = .ok () ↔ name ∉ taken := by
  unfold freshName
  rw [error_ite_eq_ok_iff]
  simp

theorem flag_eq_ok_iff :
    flag ds before x = .ok () ↔
      (∀ f, x = .flag f → ∃ d, Declared.find? ds f.target = some d ∧ d.Accepts f.value) ∧
      ∀ name, x.flag?.map (·.name) = some name → name ∉ Declared.flagNames before := by
  cases x with
  | flag f =>
    simp only [flag, Directive.flag?, Option.map_some, Option.some.injEq, forall_eq',
      Directive.flag.injEq]
    cases hd : Declared.find? ds f.target with
    -- a flag or alias as the target is refused as well, only with another cause
    | none =>
      simp only [unresolved]
      split <;> simp
    | some d =>
      simp only [Option.some.injEq, exists_eq_left', ← misfit?_eq_none_iff]
      cases misfit? f d with
      | none => simp [freshName_eq_ok_iff]
      | some reason => simp
  | declare | aliasing | map | inline | collapse | metavar | describe =>
    simp [flag, Directive.flag?]

theorem aliasTargetMissing_ne_ok {a : Alias} : aliasTargetMissing ds a ≠ .ok () := by
  unfold aliasTargetMissing unresolved
  split <;> simp

theorem aliasTarget_eq_ok_iff {a : Alias} (h : (Declared.variableNames ds).Nodup) :
    aliasTarget ds a = .ok () ↔ a.Resolves ds := by
  unfold aliasTarget Alias.Resolves
  cases a.targetType with
  | flag =>
    simp only [← Declared.mem_flagNames]
    by_cases hf : a.target ∈ Declared.flagNames ds
    · simp [hf]
    · simp [hf, aliasTargetMissing_ne_ok]
  | var type =>
    simp only [← Declared.find?_eq_some_iff h]
    cases Declared.find? ds a.target with
    | none => simp [aliasTargetMissing_ne_ok]
    | some d => simp

theorem aliasing_eq_ok_iff :
    aliasing ds before x = .ok () ↔
      (∀ a, x = .aliasing a → aliasTarget ds a = .ok () ∧ a.name ∉ Declared.flagNames ds) ∧
      ∀ name, x.alias?.map (·.name) = some name → name ∉ Declared.aliasNames before := by
  cases x with
  | aliasing a =>
    simp only [aliasing, Directive.alias?, Option.map_some, Option.some.injEq, forall_eq',
      Directive.aliasing.injEq]
    rw [bind_unit_eq_ok_iff, freshName_eq_ok_iff, List.mem_append, not_or, and_assoc]
  | declare | flag | map | inline | collapse | metavar | describe =>
    simp [aliasing, Directive.alias?]

theorem variableOf_eq_ok_iff {place : Reference} {name : Bytes} {d : Declaration} :
    reference.variableOf ds place name = .ok d ↔ Declared.find? ds name = some d := by
  unfold reference.variableOf
  cases Declared.find? ds name with
  | none => simp [unresolved]
  | some d' => simp

theorem bind_variableOf_eq_ok_iff {place : Reference} {name : Bytes}
    {check : Declaration → Except Cause Unit} {good : Declaration → Prop}
    (h : ∀ d, check d = .ok () ↔ good d) :
    (reference.variableOf ds place name >>= check) = .ok () ↔
      ∃ d, Declared.find? ds name = some d ∧ good d := by
  simp only [bind_eq_ok_iff, variableOf_eq_ok_iff, h]

theorem itemwise_eq_ok_iff {perItem : Bool} {d : Declaration} {cause : Cause} :
    (if perItem && d.type ≠ .list then .error cause else pure () : Except Cause Unit) = .ok () ↔
      (perItem → d.type = .list) := by
  rw [error_ite_eq_ok_iff]
  simp [pure_eq_ok_iff]

theorem itemwise_eq_error_iff {perItem : Bool} {d : Declaration} {cause cause' : Cause} :
    (if perItem && d.type ≠ .list then .error cause else pure () : Except Cause Unit) =
      .error cause' ↔ cause = cause' ∧ perItem ∧ d.type ≠ .list := by
  split
  · next h => simpa using fun _ => h
  · next h =>
    constructor
    · intro hok
      cases hok
    · rintro ⟨_, hitems⟩
      exact absurd (by simpa using hitems) h

theorem reference_eq_ok_iff :
    reference ds x = .ok () ↔ ∀ u, x.use? = some u →
      ∃ d, Declared.find? ds u.target = some d ∧ (u.perItem → d.type = .list) := by
  cases x with
  | declare | flag | aliasing => simp [reference, Directive.use?]
  | metavar | describe | collapse =>
    simp only [reference, Directive.use?, Option.some.injEq, forall_eq']
    exact bind_variableOf_eq_ok_iff fun d => by simp [pure_eq_ok_iff]
  | map | inline =>
    simp only [reference, Directive.use?, Option.some.injEq, forall_eq']
    exact bind_variableOf_eq_ok_iff fun d => itemwise_eq_ok_iff

theorem default_eq_ok_iff {d : Declaration} : default d = .ok () ↔ d.DefaultFits := by
  cases d with
  | bool | anything | special => simp [default, Declaration.DefaultFits]
  | enum name default values => simp [Check.default, Declaration.DefaultFits]
  | list name elements defaults =>
    cases elements with
    | anything => simp [default, Declaration.DefaultFits]
    | enum values => simp [default, Declaration.DefaultFits]

end Check

/-! ## Whole passes -/

namespace OptionSet

theorem declarations_pass_iff :
    checkEach Check.declaration [] ds = .ok () ↔ (Declared.variableNames ds).Nodup := by
  have hcheck : ∀ before x, Check.declaration before x = .ok () ↔ True ∧
      ∀ name, x.declaration?.map (·.name) = some name → name ∉ Declared.variableNames before := by
    intro before x
    rw [Check.declaration_eq_ok_iff, true_and]
  rw [checkEach_eq_ok_iff Declared.variableNames_eq hcheck]
  exact and_iff_right fun _ _ => trivial

theorem flags_pass_iff (h : (Declared.variableNames ds).Nodup) :
    checkEach (Check.flag ds) [] ds = .ok () ↔
      (∀ f, .flag f ∈ ds → ∃ d, Declares ds f.target d ∧ d.Accepts f.value) ∧
        (Declared.flagNames ds).Nodup := by
  rw [checkEach_eq_ok_iff Declared.flagNames_eq fun _ _ => Check.flag_eq_ok_iff]
  simp only [Declared.find?_eq_some_iff h]
  refine and_congr_left fun _ => ⟨fun hall f hf => hall _ hf f rfl, ?_⟩
  rintro hall _ hf f rfl
  exact hall f hf

theorem aliases_pass_iff (h : (Declared.variableNames ds).Nodup) :
    checkEach (Check.aliasing ds) [] ds = .ok () ↔
      (∀ a, .aliasing a ∈ ds → a.Resolves ds ∧ a.name ∉ Declared.flagNames ds) ∧
        (Declared.aliasNames ds).Nodup := by
  rw [checkEach_eq_ok_iff Declared.aliasNames_eq fun _ _ => Check.aliasing_eq_ok_iff]
  simp only [Check.aliasTarget_eq_ok_iff h]
  refine and_congr_left fun _ => ⟨fun hall a ha => hall _ ha a rfl, ?_⟩
  rintro hall _ ha a rfl
  exact hall a ha

theorem uses_pass_iff (h : (Declared.variableNames ds).Nodup) :
    checkEach (fun _ => Check.reference ds) [] ds = .ok () ↔ ∀ x ∈ ds, ∀ u, x.use? = some u →
      ∃ d, Declares ds u.target d ∧ (u.perItem → d.type = .list) := by
  -- these directives add no name that could be repeated
  have hnames : ∀ xs : List Directive, [] = xs.filterMap fun _ => (none : Option Bytes) := by simp
  have hcheck : ∀ (_ : List Directive) x, Check.reference ds x = .ok () ↔
      (∀ u, x.use? = some u → ∃ d, Declares ds u.target d ∧ (u.perItem → d.type = .list)) ∧
        ∀ name, (none : Option Bytes) = some name → name ∉ [] := by
    intro _ x
    rw [Check.reference_eq_ok_iff]
    simp [Declared.find?_eq_some_iff h]
  rw [checkEach_eq_ok_iff hnames hcheck]
  exact and_iff_left List.nodup_nil

theorem defaults_pass_iff :
    (Declared.declarations ds).forM Check.default = .ok () ↔
      ∀ d, .declare d ∈ ds → d.DefaultFits := by
  simp only [forM_eq_ok_iff, Check.default_eq_ok_iff, Declared.mem_declarations]

end OptionSet

end Elvis
