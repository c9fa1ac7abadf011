import Elvis.Compile
import Elvis.Proofs.Directive.PrintParse
import Elvis.Proofs.OptionSet.Acceptance

/-!
# What an error blames

The first directive that cannot be read is blamed for it. Otherwise an error blames a directive or
none. The directive that it blames has a fault of its kind (`Directive.AtFault`); if it blames
none, the settings or the directives as a whole have one (`OptionSet.AtFault`).
-/

namespace Elvis

/-! ## Names and references -/

/-- Flags and aliases share their names. -/
inductive NameSpace
  | vars
  | others
deriving DecidableEq, Repr

/-- What the target of a directive is looked up in. -/
inductive Registry
  | vars
  | flags
deriving DecidableEq, Repr

def Registry.names (ds : List Directive) : Registry → List Bytes
  | vars => Declared.variableNames ds
  | flags => Declared.flagNames ds

def AliasTarget.registry : AliasTarget → Registry
  | flag => .flags
  | var _ => .vars

namespace Directive

/-- The name that a directive declares. -/
def declared? : Directive → Option (NameSpace × Bytes)
  | declare d => some (.vars, d.name)
  | flag f => some (.others, f.name)
  | aliasing a => some (.others, a.name)
  | _ => none

/-- The name that a directive refers to. -/
def target? : Directive → Option (Registry × Bytes)
  | flag f => some (.vars, f.target)
  | aliasing a => some (a.targetType.registry, a.target)
  | x => x.use?.map fun u => (.vars, u.target)

/-- The directive at the position has a fault of the kind. -/
inductive AtFault (ds : List Directive) (position : Nat) (x : Directive) : ErrorKind → Prop
  /-- Another directive declares the same name. -/
  | repeated {other : Nat} {y : Directive} {name : NameSpace × Bytes} :
      other ≠ position → ds[other]? = some y → x.declared? = some name →
      y.declared? = some name → AtFault ds position x .duplicateName
  | unresolved {registry : Registry} {name : Bytes} :
      x.target? = some (registry, name) → name ∉ registry.names ds →
      AtFault ds position x .unresolvedReference
  | chain {a : Alias} :
      x = .aliasing a → a.target ∉ a.targetType.registry.names ds →
      a.target ∈ Declared.aliasNames ds → AtFault ds position x .invalidAliasChain
  | flagOfNoVariable {f : FlagDeclaration} :
      x = .flag f → f.target ∉ Declared.variableNames ds → f.target ∈ Declared.otherNames ds →
      AtFault ds position x .typeMismatch
  | aliasOfOtherType {a : Alias} {type : VariableType} {d : Declaration} :
      x = .aliasing a → a.targetType = .var type → Declares ds a.target d → d.type ≠ type →
      AtFault ds position x .typeMismatch
  | itemsOfNoList {u : Use} {d : Declaration} :
      x.type = .listMap ∨ x.type = .listInline → x.use? = some u → Declares ds u.target d →
      d.type ≠ .list → AtFault ds position x .typeMismatch
  | misfit {f : FlagDeclaration} {d : Declaration} :
      x = .flag f → Declares ds f.target d → ¬ d.Accepts f.value →
      AtFault ds position x .invalidFlagValue

end Directive

/-- The settings, or the directives as a whole, have a fault of the kind. -/
inductive OptionSet.AtFault (s : Settings) (ds : List Directive) : ErrorKind → Prop
  | name : s.name ∈ [[], ".", ".."] ∨ Byte.slash ∈ s.name → AtFault s ds .invalidSetting
  | numTabs : s.numTabs < 1 → AtFault s ds .invalidSetting
  | emptyQueryParameter : s.queryParameter = some [] → AtFault s ds .invalidSetting
  | unusedQueryParameter :
      s.queryParameter.isSome → s.appendSearchArgs = false → AtFault s ds .invalidSetting
  | default {d : Declaration} :
      .declare d ∈ ds → ¬ d.DefaultFits → AtFault s ds .invalidDefault
  | missingQueryParameter {m : Mapping} :
      .map m ∈ ds → s.appendSearchArgs → s.queryParameter = none →
      AtFault s ds .missingQueryParameter
  | schemes {b c : Bytes} :
      Url.HasScheme s.baseUrl b → Url.HasScheme s.searchUrl c → b ≠ c →
      AtFault s ds .schemeMismatch
  /-- The names of two directives are spelled alike on the command line. -/
  | spelling {i j : Nat} {x y : Directive} :
      i ≠ j → ds[i]? = some x → ds[j]? = some y → SharesSpelling ds x y →
      AtFault s ds .duplicateName

/-- What an error says is true. -/
def CompileError.Explained (s : Settings) (ds : List Directive) (e : CompileError) : Prop :=
  match e.blame with
  | some (position, type) =>
      ∃ x, ds[position]? = some x ∧ x.type = type ∧ x.AtFault ds position e.kind
  | none => OptionSet.AtFault s ds e.kind

variable {s : Settings} {ds before after : List Directive} {x y : Directive} {cause : Cause}
  {name : Bytes}

/-! ## One directive -/

theorem exists_declared_of_mem_variableNames (h : name ∈ Declared.variableNames ds) :
    ∃ d, .declare d ∈ ds ∧ (Directive.declare d).declared? = some (.vars, name) := by
  obtain ⟨d, hd, rfl⟩ := Declared.mem_variableNames.mp h
  exact ⟨d, hd, rfl⟩

theorem exists_declared_of_mem_flagNames (h : name ∈ Declared.flagNames ds) :
    ∃ f, .flag f ∈ ds ∧ (Directive.flag f).declared? = some (.others, name) := by
  obtain ⟨f, hf, rfl⟩ := Declared.mem_flagNames.mp h
  exact ⟨f, hf, rfl⟩

theorem exists_declared_of_mem_aliasNames (h : name ∈ Declared.aliasNames ds) :
    ∃ a, .aliasing a ∈ ds ∧ (Directive.aliasing a).declared? = some (.others, name) := by
  obtain ⟨a, ha, rfl⟩ := List.mem_map.mp h
  exact ⟨a, Declared.mem_aliases.mp ha, rfl⟩

namespace Directive.AtFault

theorem repeated_before {name : NameSpace × Bytes} (hy : y ∈ before)
    (hx : x.declared? = some name) (hname : y.declared? = some name) :
    AtFault (before ++ x :: after) before.length x .duplicateName := by
  obtain ⟨i, hi, rfl⟩ := List.getElem_of_mem hy
  have hget : (before ++ x :: after)[i]? = some before[i] := by
    rw [List.getElem?_append_left hi, List.getElem?_eq_getElem hi]
  exact .repeated (Nat.ne_of_lt hi) hget hx hname

theorem repeated_elsewhere {position : Nat} {name : NameSpace × Bytes} (hy : y ∈ ds) (hne : y ≠ x)
    (hposition : ds[position]? = some x) (hx : x.declared? = some name)
    (hname : y.declared? = some name) : AtFault ds position x .duplicateName := by
  obtain ⟨i, hget⟩ := List.mem_iff_getElem?.mp hy
  refine .repeated (fun hi => hne ?_) hget hx hname
  rw [hi, hposition] at hget
  exact (Option.some.inj hget).symm

end Directive.AtFault

namespace Check

open Directive (AtFault)

theorem kind_of_freshName_eq_error {taken : List Bytes} (h : freshName taken name = .error cause) :
    cause.kind = .duplicateName ∧ name ∈ taken := by
  unfold freshName at h
  split at h
  · next hmem =>
    cases h
    exact ⟨rfl, List.contains_iff_mem.mp hmem⟩
  · cases h

theorem atFault_of_declaration (h : declaration before x = .error cause) :
    x.AtFault (before ++ x :: after) before.length cause.kind := by
  cases x with
  | declare d =>
    simp only [declaration] at h
    split at h
    · next hmem =>
      have hkind : cause.kind = .duplicateName := by
        cases d <;> cases h <;> rfl
      obtain ⟨d', hd', hname⟩ :=
        exists_declared_of_mem_variableNames (List.contains_iff_mem.mp hmem)
      rw [hkind]
      exact .repeated_before hd' rfl hname
    · cases h
  | flag | aliasing | map | inline | collapse | metavar | describe => cases h

theorem find?_eq_none_iff : Declared.find? ds name = none ↔ name ∉ Declared.variableNames ds :=
  Keyed.find?_eq_none_iff

theorem declares_of_find? {d : Declaration} (h : Declared.find? ds name = some d) :
    Declares ds name d := by
  have hname : d.name = name := by simpa using List.find?_some h
  exact ⟨Declared.mem_declarations.mp (List.mem_of_find?_eq_some h), hname⟩

theorem atFault_of_flag (hds : ds = before ++ x :: after)
    (h : flag ds before x = .error cause) : x.AtFault ds before.length cause.kind := by
  cases x with
  | flag f =>
    simp only [flag] at h
    cases hfind : Declared.find? ds f.target with
    | none =>
      rw [hfind] at h
      dsimp only at h
      have hnone := find?_eq_none_iff.mp hfind
      split at h
      · next hother =>
        cases h
        exact .flagOfNoVariable rfl hnone (List.contains_iff_mem.mp hother)
      · cases h
        exact .unresolved rfl hnone
    | some d =>
      rw [hfind] at h
      dsimp only at h
      cases hmisfit : misfit? f d with
      | some reason =>
        rw [hmisfit] at h
        cases h
        have haccepts : ¬ d.Accepts f.value := by
          rw [← misfit?_eq_none_iff, hmisfit]
          exact Option.some_ne_none reason
        exact .misfit rfl (declares_of_find? hfind) haccepts
      | none =>
        rw [hmisfit] at h
        obtain ⟨hkind, hmem⟩ := kind_of_freshName_eq_error h
        obtain ⟨g, hg, hname⟩ := exists_declared_of_mem_flagNames hmem
        rw [hkind, hds]
        exact .repeated_before hg rfl hname
  | declare | aliasing | map | inline | collapse | metavar | describe => cases h

theorem atFault_of_aliasTargetMissing {a : Alias} {position : Nat}
    (hmissing : a.target ∉ a.targetType.registry.names ds)
    (h : aliasTargetMissing ds a = .error cause) :
    (Directive.aliasing a).AtFault ds position cause.kind := by
  unfold aliasTargetMissing at h
  split at h
  · next halias =>
    cases h
    exact .chain rfl hmissing (List.contains_iff_mem.mp halias)
  · cases h
    exact .unresolved rfl hmissing

theorem aliasTarget_eq_error {a : Alias} (h : aliasTarget ds a = .error cause) :
    a.target ∉ a.targetType.registry.names ds ∧ aliasTargetMissing ds a = .error cause ∨
      ∃ type d, a.targetType = .var type ∧ Declares ds a.target d ∧ d.type ≠ type ∧
        cause = .aliasTypeMismatch a.name type a.target d.type := by
  unfold aliasTarget at h
  cases htype : a.targetType with
  | flag =>
    rw [htype] at h
    dsimp only at h
    split at h
    · cases h
    · next hmissing =>
      rw [List.contains_iff_mem] at hmissing
      exact .inl ⟨hmissing, h⟩
  | var type =>
    rw [htype] at h
    dsimp only at h
    cases hfind : Declared.find? ds a.target with
    | none =>
      rw [hfind] at h
      exact .inl ⟨find?_eq_none_iff.mp hfind, h⟩
    | some d =>
      rw [hfind] at h
      dsimp only at h
      split at h
      · cases h
      · next hne =>
        cases h
        exact .inr ⟨type, d, rfl, declares_of_find? hfind, hne, rfl⟩

theorem atFault_of_aliasTarget {a : Alias} {position : Nat} (h : aliasTarget ds a = .error cause) :
    (Directive.aliasing a).AtFault ds position cause.kind := by
  rcases aliasTarget_eq_error h with ⟨hmissing, h⟩ | ⟨type, d, htype, hd, hne, rfl⟩
  · exact atFault_of_aliasTargetMissing hmissing h
  · exact .aliasOfOtherType rfl htype hd hne

theorem atFault_of_aliasing (hds : ds = before ++ x :: after)
    (h : aliasing ds before x = .error cause) : x.AtFault ds before.length cause.kind := by
  cases x with
  | aliasing a =>
    rcases bind_unit_eq_error_iff.mp h with htarget | ⟨_, hfresh⟩
    · exact atFault_of_aliasTarget htarget
    · obtain ⟨hkind, hmem⟩ := kind_of_freshName_eq_error hfresh
      rw [hkind]
      rcases List.mem_append.mp hmem with hflag | halias
      · -- all flags were registered before the first alias, wherever they stand
        obtain ⟨f, hf, hname⟩ := exists_declared_of_mem_flagNames hflag
        have hposition : ds[before.length]? = some (.aliasing a) := by simp [hds]
        exact .repeated_elsewhere hf nofun hposition rfl hname
      · obtain ⟨b, hb, hname⟩ := exists_declared_of_mem_aliasNames halias
        rw [hds]
        exact .repeated_before hb rfl hname
  | declare | flag | map | inline | collapse | metavar | describe => cases h

theorem unresolved_of_variableOf {place : Reference}
    (h : reference.variableOf ds place name = .error cause) :
    cause.kind = .unresolvedReference ∧ name ∉ Declared.variableNames ds := by
  unfold reference.variableOf at h
  cases hfind : Declared.find? ds name with
  | none =>
    rw [hfind] at h
    cases h
    exact ⟨rfl, find?_eq_none_iff.mp hfind⟩
  | some d =>
    rw [hfind] at h
    cases h

/-- The check of a directive that refers to a variable, and perhaps to its items. -/
theorem atFault_of_bind_variableOf {place : Reference} {u : Use} {position : Nat}
    {check : Declaration → Except Cause Unit} (huse : x.use? = some u)
    (htarget : x.target? = some (.vars, u.target))
    (hcheck : ∀ d, check d = .error cause →
      cause.kind = .typeMismatch ∧ (x.type = .listMap ∨ x.type = .listInline) ∧ d.type ≠ .list)
    (h : (reference.variableOf ds place u.target >>= check) = .error cause) :
    x.AtFault ds position cause.kind := by
  rcases bind_eq_error_iff.mp h with hvariable | ⟨d, hd, hitems⟩
  · obtain ⟨hkind, hmissing⟩ := unresolved_of_variableOf hvariable
    rw [hkind]
    exact .unresolved htarget hmissing
  · obtain ⟨hkind, htype, hlist⟩ := hcheck d hitems
    rw [hkind]
    exact .itemsOfNoList htype huse (declares_of_find? (variableOf_eq_ok_iff.mp hd)) hlist

theorem atFault_of_reference {position : Nat} (h : reference ds x = .error cause) :
    x.AtFault ds position cause.kind := by
  cases x with
  | metavar | describe | collapse =>
    exact atFault_of_bind_variableOf rfl rfl (fun _ hd => by cases hd) h
  | map m =>
    refine atFault_of_bind_variableOf rfl rfl (fun d hd => ?_) h
    obtain ⟨rfl, hitems, hlist⟩ := itemwise_eq_error_iff.mp hd
    exact ⟨rfl, .inl (if_pos hitems), hlist⟩
  | inline i =>
    refine atFault_of_bind_variableOf rfl rfl (fun d hd => ?_) h
    obtain ⟨rfl, hitems, hlist⟩ := itemwise_eq_error_iff.mp hd
    exact ⟨rfl, .inr (if_pos hitems), hlist⟩
  | declare | flag | aliasing => cases h

end Check

/-! ## Settings and directives as a whole -/

namespace Check

open OptionSet (AtFault)

theorem atFault_of_settings (h : settings s = .error cause) : AtFault s ds cause.kind := by
  unfold settings at h
  split at h
  · next hname =>
    cases h
    rw [Bool.not_eq_true', ← Bool.not_eq_true, isElvisName_iff, not_and_or, not_not, not_not]
      at hname
    exact .name hname
  split at h
  · next htabs =>
    cases h
    exact .numTabs htabs
  split at h
  · next hempty =>
    cases h
    exact .emptyQueryParameter hempty
  split at h
  · next hunused =>
    cases h
    obtain ⟨hgiven, happend⟩ := Bool.and_eq_true_iff.mp hunused
    exact .unusedQueryParameter hgiven (by simpa using happend)
  · cases h

theorem kind_of_default {d : Declaration} (h : Check.default d = .error cause) :
    cause.kind = .invalidDefault := by
  cases d with
  | bool | anything | special => cases h
  | enum name default values =>
    simp only [Check.default] at h
    split at h
    · cases h
    · cases h
      rfl
  | list name elements defaults =>
    cases elements with
    | anything => cases h
    | enum values =>
      simp only [Check.default] at h
      split at h
      · cases h
      · cases h
        rfl

theorem atFault_of_default {d : Declaration} (hd : .declare d ∈ ds)
    (h : Check.default d = .error cause) : AtFault s ds cause.kind := by
  have hfits : ¬ d.DefaultFits := by
    rw [← default_eq_ok_iff, h]
    exact nofun
  rw [kind_of_default h]
  exact .default hd hfits

theorem atFault_of_queryParameter (h : queryParameter s (Declared.mappings ds) = .error cause) :
    AtFault s ds cause.kind := by
  unfold queryParameter at h
  split at h
  · next hmissing =>
    cases h
    simp only [Bool.and_eq_true, Bool.not_eq_true', Option.isNone_iff_eq_none] at hmissing
    obtain ⟨⟨hmappings, hnone⟩, happend⟩ := hmissing
    obtain ⟨m, hm⟩ := List.exists_mem_of_ne_nil _ (List.isEmpty_eq_false_iff.mp hmappings)
    exact .missingQueryParameter (Declared.mem_mappings.mp hm) happend hnone
  · cases h

theorem atFault_of_resolve (h : Urls.resolve s = .error cause) : AtFault s ds cause.kind := by
  unfold Urls.resolve at h
  rcases hbase : Url.splitScheme s.baseUrl with ⟨base?, baseRest⟩
  rcases hsearch : Url.splitScheme s.searchUrl with ⟨search?, searchRest⟩
  rw [hbase, hsearch] at h
  dsimp only at h
  split at h
  · next base search =>
    split at h
    · cases h
    · next hne =>
      cases h
      exact .schemes (Url.splitScheme_fst_eq_some_iff.mp (congrArg Prod.fst hbase))
        (Url.splitScheme_fst_eq_some_iff.mp (congrArg Prod.fst hsearch)) hne
  all_goals cases h

theorem kind_of_distinctLabels {before claims : List Check.Claim}
    (h : distinctLabels before claims = .error cause) : cause.kind = .duplicateName := by
  induction claims generalizing before with
  | nil => cases h
  | cons claim claims ih =>
    unfold distinctLabels at h
    split at h
    · cases h
      rfl
    · exact ih h

theorem atFault_of_spellings {urls : Urls} (hresolved : Resolved ds)
    (h : spellings (OptionSet.ofDirectives s urls ds) = .error cause) :
    AtFault s ds cause.kind := by
  have hshare : ¬ ds.Pairwise fun x y => ¬ SharesSpelling ds x y := by
    rw [← OptionSet.nodup_labels_iff hresolved, ← spellings_eq_ok_iff, h]
    exact nofun
  rw [List.pairwise_iff_getElem] at hshare
  push Not at hshare
  obtain ⟨i, j, hi, hj, hlt, hshare⟩ := hshare
  rw [kind_of_distinctLabels h]
  exact .spelling (Nat.ne_of_lt hlt) (List.getElem?_eq_getElem hi) (List.getElem?_eq_getElem hj)
    hshare

/-! ## All checks -/

/-- A pass refuses the directive, which stands behind others. -/
inductive Refuses (ds before : List Directive) (x : Directive) (cause : Cause) : Prop
  | declaration : Check.declaration before x = .error cause → Refuses ds before x cause
  | flag : Check.flag ds before x = .error cause → Refuses ds before x cause
  | aliasing : Check.aliasing ds before x = .error cause → Refuses ds before x cause
  | reference : Check.reference ds x = .error cause → Refuses ds before x cause

/-- A check refuses the settings or the directives as a whole. -/
inductive RefusesWhole (s : Settings) (ds : List Directive) (cause : Cause) : Prop
  | settings : Check.settings s = .error cause → RefusesWhole s ds cause
  | default {d : Declaration} :
      .declare d ∈ ds → Check.default d = .error cause → RefusesWhole s ds cause
  | queryParameter :
      Check.queryParameter s (Declared.mappings ds) = .error cause → RefusesWhole s ds cause
  | urls : Urls.resolve s = .error cause → RefusesWhole s ds cause
  | spellings {urls : Urls} : Resolved ds →
      Check.spellings (OptionSet.ofDirectives s urls ds) = .error cause → RefusesWhole s ds cause

theorem Refuses.atFault (hds : ds = before ++ x :: after) (h : Refuses ds before x cause) :
    x.AtFault ds before.length cause.kind := by
  cases h with
  | declaration h =>
    rw [hds]
    exact atFault_of_declaration h
  | flag h => exact atFault_of_flag hds h
  | aliasing h => exact atFault_of_aliasing hds h
  | reference h => exact atFault_of_reference h

theorem RefusesWhole.atFault (h : RefusesWhole s ds cause) : OptionSet.AtFault s ds cause.kind := by
  cases h with
  | settings h => exact atFault_of_settings h
  | default hd h => exact atFault_of_default hd h
  | queryParameter h => exact atFault_of_queryParameter h
  | urls h => exact atFault_of_resolve h
  | spellings hresolved h => exact atFault_of_spellings hresolved h

end Check

/-! ## Building -/

namespace OptionSet

theorem exists_of_checkEach_eq_error {check : List Directive → Directive → Except Cause Unit}
    {e : CompileError} (h : checkEach check before ds = .error e) :
    ∃ passed x after cause, ds = passed ++ x :: after ∧
      check (before ++ passed) x = .error cause ∧
      e = ⟨cause, some ((before ++ passed).length, x.type)⟩ := by
  induction ds generalizing before with
  | nil => cases h
  | cons y ds ih =>
    unfold checkEach at h
    split at h
    · next cause hcheck =>
      cases h
      refine ⟨[], y, ds, cause, rfl, ?_, ?_⟩
      · rw [List.append_nil]
        exact hcheck
      · rw [List.append_nil]
    · obtain ⟨passed, x, after, cause, hds, hcheck, he⟩ := ih h
      have hsplit : before ++ [y] ++ passed = before ++ (y :: passed) := by simp
      rw [hsplit] at hcheck he
      exact ⟨y :: passed, x, after, cause, by rw [hds, List.cons_append], hcheck, he⟩

/-- How a build fails: a pass refuses a directive, or a check of the whole does not hold. -/
inductive Fails (s : Settings) (ds : List Directive) : CompileError → Prop
  | directive {before after : List Directive} {x : Directive} {cause : Cause} :
      ds = before ++ x :: after → Check.Refuses ds before x cause →
      Fails s ds ⟨cause, some (before.length, x.type)⟩
  | whole {cause : Cause} : Check.RefusesWhole s ds cause → Fails s ds ⟨cause, none⟩

theorem fails_of_checkEach {check : List Directive → Directive → Except Cause Unit}
    {e : CompileError}
    (hcheck : ∀ before x cause, check before x = .error cause → Check.Refuses ds before x cause)
    (h : checkEach check [] ds = .error e) : Fails s ds e := by
  obtain ⟨before, x, after, cause, hds, hx, rfl⟩ := exists_of_checkEach_eq_error h
  exact .directive hds (hcheck before x cause hx)

theorem fails_of_unblamed {α : Type} {result : Except Cause α} {e : CompileError}
    (hcause : ∀ cause, result = .error cause → Check.RefusesWhole s ds cause)
    (h : unblamed result = .error e) : Fails s ds e := by
  obtain ⟨cause, hresult, rfl⟩ := mapError_eq_error_iff.mp h
  exact .whole (hcause cause hresult)

theorem fails_of_build {e : CompileError} (h : build s ds = .error e) : Fails s ds e := by
  rw [build_eq_ofChecked] at h
  rcases bind_unit_eq_error_iff.mp h with hsettings | ⟨_, h⟩
  · exact fails_of_unblamed (fun _ => .settings) hsettings
  rcases bind_unit_eq_error_iff.mp h with hvariables | ⟨hvariables, h⟩
  · exact fails_of_checkEach (fun _ _ _ => .declaration) hvariables
  rcases bind_unit_eq_error_iff.mp h with hflags | ⟨hflags, h⟩
  · exact fails_of_checkEach (fun _ _ _ => .flag) hflags
  rcases bind_unit_eq_error_iff.mp h with haliases | ⟨haliases, h⟩
  · exact fails_of_checkEach (fun _ _ _ => .aliasing) haliases
  rcases bind_unit_eq_error_iff.mp h with huses | ⟨_, h⟩
  · exact fails_of_checkEach (fun _ _ _ => .reference) huses
  rcases bind_unit_eq_error_iff.mp h with hdefaults | ⟨_, h⟩
  · refine fails_of_unblamed (fun cause hcause => ?_) hdefaults
    obtain ⟨d, hd, hdefault⟩ := exists_of_forM_eq_error hcause
    exact .default (Declared.mem_declarations.mp hd) hdefault
  rcases bind_unit_eq_error_iff.mp h with hquery | ⟨_, h⟩
  · exact fails_of_unblamed (fun _ => .queryParameter) hquery
  rcases bind_eq_error_iff.mp h with hurls | ⟨urls, _, h⟩
  · exact fails_of_unblamed (fun _ => .urls) hurls
  rcases bind_unit_eq_error_iff.mp h with hspellings | ⟨_, h⟩
  · have hresolved : Resolved ds :=
      resolved_of_pass (declarations_pass_iff.mp hvariables) hflags haliases
    exact fails_of_unblamed (fun _ => .spellings hresolved) hspellings
  · cases h

/-- An error of the option set blames what is at fault. -/
theorem explained_of_build {e : CompileError} (h : build s ds = .error e) : e.Explained s ds := by
  cases fails_of_build h with
  | @directive before after x cause hds hx =>
    have hposition : ds[before.length]? = some x := by simp [hds]
    exact ⟨x, hposition, rfl, hx.atFault hds⟩
  | whole hcause => exact hcause.atFault

end OptionSet

/-! ## Compiling -/

namespace Directive

variable {sources : List Source} {source : Source}

/-- The text is one of the texts of its type. -/
def Source.Readable (source : Source) : Prop := ∃ d, parse source.type source.text = .ok d

theorem parseFrom_of_least {start position : Nat} (hsource : sources[position]? = some source)
    (hcause : parse source.type source.text = .error cause)
    (hleast : ∀ j < position, ∀ earlier, sources[j]? = some earlier → earlier.Readable) :
    parseFrom start sources = .error ⟨cause, some (start + position, source.type)⟩ := by
  induction sources generalizing start position with
  | nil => cases hsource
  | cons first rest ih =>
    unfold parseFrom
    cases position with
    | zero =>
      cases hsource
      rw [hcause]
      rfl
    | succ position =>
      obtain ⟨d, hd⟩ := hleast 0 position.succ_pos first rfl
      have hrest : parseFrom (start + 1) rest =
          .error ⟨cause, some (start + 1 + position, source.type)⟩ :=
        ih hsource fun j hj earlier he => hleast (j + 1) (Nat.succ_lt_succ hj) earlier he
      rw [hd, hrest, Nat.add_right_comm, Nat.add_assoc]
      rfl

theorem exists_forall₂_of_readable (h : ∀ source ∈ sources, source.Readable) :
    ∃ ds, List.Forall₂ (fun source d => parse source.type source.text = .ok d) sources ds := by
  induction sources with
  | nil => exact ⟨[], .nil⟩
  | cons source sources ih =>
    obtain ⟨⟨d, hd⟩, hrest⟩ := List.forall_mem_cons.mp h
    obtain ⟨ds, hds⟩ := ih hrest
    exact ⟨d :: ds, .cons hd hds⟩

end Directive

open Directive (Source parse)

/-- A compile error blames the first directive that cannot be read, if there is one. Otherwise what
it says is true of the directives that are read, and the directive that it blames is given at that
position with that type. -/
theorem compile_error_explained {sources : List Source} {e : CompileError}
    (h : compile s sources = .error e) :
    (∀ position source cause, sources[position]? = some source →
      parse source.type source.text = .error cause →
      (∀ j < position, ∀ earlier, sources[j]? = some earlier → earlier.Readable) →
      e = ⟨cause, some (position, source.type)⟩) ∧
    ((∀ source ∈ sources, source.Readable) →
      ∃ ds, List.Forall₂ (fun source d => parse source.type source.text = .ok d) sources ds ∧
        e.Explained s ds ∧
        ∀ position type, e.blame = some (position, type) →
          ∃ source, sources[position]? = some source ∧ source.type = type) := by
  have hset : optionSet s sources = .error e := map_eq_error_iff.mp h
  unfold optionSet at hset
  refine ⟨fun position source cause hsource hcause hleast => ?_, fun hreadable => ?_⟩
  · have hparse : Directive.parseAll sources = .error ⟨cause, some (0 + position, source.type)⟩ :=
      Directive.parseFrom_of_least hsource hcause hleast
    rw [hparse, Nat.zero_add] at hset
    exact (Except.error.inj hset).symm
  · obtain ⟨ds, hds⟩ := Directive.exists_forall₂_of_readable hreadable
    have hparse : Directive.parseAll sources = .ok ds := Directive.parseFrom_eq_ok_iff.mpr hds
    rw [hparse] at hset
    have hexplained : e.Explained s ds := OptionSet.explained_of_build hset
    refine ⟨ds, hds, hexplained, fun position type hblame => ?_⟩
    unfold CompileError.Explained at hexplained
    rw [hblame] at hexplained
    obtain ⟨x, hx, rfl, _⟩ := hexplained
    obtain ⟨hposition, rfl⟩ := List.getElem?_eq_some_iff.mp hx
    have hlength := hds.length_eq
    have hsource : position < sources.length := hlength ▸ hposition
    have hread := hds.get hsource hposition
    exact ⟨sources[position], List.getElem?_eq_getElem hsource,
      (Directive.parse_eq_ok_iff.mp hread).1.symm⟩

/-- The flag targets nothing, and so does the alias before it. -/
def misdirectedSources : List Source :=
  [⟨.aliasing, "s:old:flag"⟩, ⟨.enum, "sort:new:new,old"⟩, ⟨.flag, "older:sorted:old"⟩]

/-- Flags are looked at before aliases, and what cannot be read before either. -/
theorem compile_error_explained_flag :
    (∃ e ds, compile OptionSet.sampleSettings misdirectedSources = .error e ∧
      e.blame = some (2, .flag) ∧ e.kind = .unresolvedReference ∧
      List.Forall₂ (fun source d => parse source.type source.text = .ok d) misdirectedSources ds ∧
      e.Explained OptionSet.sampleSettings ds) ∧
    ∃ e, compile OptionSet.sampleSettings (misdirectedSources ++ [⟨.describe, "sort"⟩]) = .error e ∧
      e = ⟨.malformed .describe (.fieldCount ["sort"]), some (3, .describe)⟩ := by
  have hreadable : ∀ source ∈ misdirectedSources, source.Readable :=
    List.forall_mem_cons.mpr ⟨⟨_, rfl⟩, List.forall_mem_cons.mpr ⟨⟨_, rfl⟩,
      List.forall_mem_singleton.mpr ⟨_, rfl⟩⟩⟩
  constructor
  · obtain ⟨e, he, hblame, hkind⟩ : ∃ e,
        compile OptionSet.sampleSettings misdirectedSources = .error e ∧
          e.blame = some (2, .flag) ∧ e.kind = .unresolvedReference := ⟨_, rfl, rfl, rfl⟩
    obtain ⟨ds, hread, hexplained, _⟩ := (compile_error_explained he).2 hreadable
    exact ⟨e, ds, he, hblame, hkind, hread, hexplained⟩
  · obtain ⟨e, he⟩ : ∃ e, compile OptionSet.sampleSettings
        (misdirectedSources ++ [⟨.describe, "sort"⟩]) = .error e := ⟨_, rfl⟩
    refine ⟨e, he, (compile_error_explained he).1 3 ⟨.describe, "sort"⟩ _ rfl rfl ?_⟩
    intro j hj earlier hearlier
    have hget : misdirectedSources[j]? = some earlier := by
      rwa [List.getElem?_append_left hj] at hearlier
    exact hreadable earlier (List.mem_of_getElem? hget)

end Elvis
