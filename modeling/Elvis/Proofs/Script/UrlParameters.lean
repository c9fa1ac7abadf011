import Elvis.Proofs.Directive.PrintParse
import Elvis.Proofs.OptionSet.Acceptance
import Elvis.Proofs.Script.Statements

/-!
# The URL parameters of the script

The section that collects the URL parameters computes the query string that the mappings declare,
whatever values the variables have.
-/

namespace Elvis

open Script Shell

/-! ## The query string -/

/-- The parameter of the mapping with one value. -/
def Mapping.field (r : Runtime) (m : Mapping) (value : Bytes) : Bytes :=
  Url.percentEncode m.parameter ++ "=" ++ if m.urlEncode then r.urlEscape value else value

/-- What the mapping adds to the query string: its parameter with the value of its variable, or once
for each item. -/
def Mapping.query (set : OptionSet) (r : Runtime) (env : Env) (m : Mapping) : Bytes :=
  if m.perItem then
    match r.items (set.variableName m.target) with
    | [] => Url.percentEncode m.parameter ++ "="
    | item :: items => Bytes.join "&" ((item :: items).map (m.field r))
  else m.field r (env (set.variableName m.target))

namespace Script

variable {set : OptionSet} {m : Mapping} {mappings : List Mapping} {separator option : Bytes}
  {r : Runtime} {env env' : Env}

/-! ## The lines can be read -/

/-- No byte of a URL component means anything in double quotes, or ends the braces. -/
theorem isPlainInBraces_of_mem_percentEncode {text : Bytes} :
    ∀ b ∈ Url.percentEncode text, isPlainInBraces b := by
  intro b hb
  refine Decidable.byContradiction fun hspecial => ?_
  simp only [isPlainInBraces, isPlain, Bool.and_eq_true, bne_iff_ne, not_and_or,
    Decidable.not_not] at hspecial
  rcases Url.isUnreserved_or_percent b hb with hunreserved | rfl
  · rcases hspecial with (((rfl | rfl) | rfl) | rfl) | rfl <;> cases hunreserved
  · exact absurd hspecial (by decide)

theorem isPlain_of_isPlainInBraces {b : UInt8} (h : isPlainInBraces b) : isPlain b :=
  (Bool.and_eq_true_iff.mp h).1

theorem isPlainInBraces_of_mem_key {parameter : Bytes} :
    ∀ b ∈ Url.percentEncode parameter ++ "=", isPlainInBraces b :=
  List.forall_mem_append.mpr ⟨isPlainInBraces_of_mem_percentEncode, List.all_eq_true.mp rfl⟩

theorem isPlain_of_mem_key {parameter : Bytes} :
    ∀ b ∈ Url.percentEncode parameter ++ "=", isPlain b :=
  fun b hb => isPlain_of_isPlainInBraces (isPlainInBraces_of_mem_key b hb)

theorem isName_variableName (hname : ∀ b ∈ set.settings.name, isNameByte b)
    (h : LowerWord option) : isName (set.variableName option) := by
  have hoption : ∀ b ∈ option, isNameByte b := by
    intro b hb
    have hlower : Byte.isLower b = true := isLower_iff.mpr (h.2 b hb)
    simp [isNameByte, Byte.isLetter, hlower]
  have hbytes : ∀ b ∈ set.variableName option, isNameByte b := by
    unfold OptionSet.variableName
    simp only [List.forall_mem_append]
    exact ⟨⟨⟨List.all_eq_true.mp rfl, hname⟩, List.all_eq_true.mp rfl⟩, hoption⟩
  exact Bool.and_eq_true_iff.mpr
    ⟨rfl, List.all_eq_true.mpr fun b hb => hbytes b (List.mem_cons_of_mem _ hb)⟩

theorem readable_mappedValue {name : Bytes} (h : isName name) : (mappedValue m name).Readable := by
  unfold mappedValue
  split
  · exact h
  · exact h

theorem readable_mappingStatements (hseparator : ∀ b ∈ separator, isPlain b)
    (h : isName (set.variableName m.target)) :
    ∀ s ∈ mappingStatements set separator m, s.Readable := by
  have hparams : isName "_sr_params" := rfl
  have hlist : isName "_sr_list_param" := rfl
  have hitem : isName "_sr_elem" := rfl
  unfold mappingStatements
  split
  · have hbody : ∀ b ∈ ("&" ++ (Url.percentEncode m.parameter ++ "=") : Bytes), isPlain b :=
      List.forall_mem_append.mpr ⟨List.all_eq_true.mp rfl, isPlain_of_mem_key⟩
    simp only [List.mem_cons, List.not_mem_nil, or_false]
    rintro s (rfl | rfl | rfl | rfl)
    · exact hlist
    · exact ⟨h, hlist, List.forall_mem_cons.mpr ⟨hlist, List.forall_mem_cons.mpr
        ⟨hbody, List.forall_mem_singleton.mpr (readable_mappedValue hitem)⟩⟩⟩
    · exact ⟨hlist, List.forall_mem_singleton.mpr hlist⟩
    · exact ⟨hparams, List.forall_mem_cons.mpr ⟨hparams, List.forall_mem_cons.mpr
        ⟨hseparator, List.forall_mem_singleton.mpr ⟨hlist, isPlainInBraces_of_mem_key⟩⟩⟩⟩
  · have hkey : ∀ b ∈ separator ++ (Url.percentEncode m.parameter ++ "="), isPlain b :=
      List.forall_mem_append.mpr ⟨hseparator, isPlain_of_mem_key⟩
    refine List.forall_mem_singleton.mpr ⟨hparams, List.forall_mem_cons.mpr ⟨hparams, ?_⟩⟩
    exact List.forall_mem_cons.mpr ⟨hkey, List.forall_mem_singleton.mpr (readable_mappedValue h)⟩

theorem readable_parameterStatements (h : ∀ m ∈ mappings, isName (set.variableName m.target)) :
    ∀ s ∈ parameterStatements set mappings, s.Readable := by
  cases mappings with
  | nil => exact List.forall_mem_nil _
  | cons first rest =>
    obtain ⟨hfirst, hrest⟩ := List.forall_mem_cons.mp h
    refine List.forall_mem_append.mpr ⟨List.forall_mem_cons.mpr ⟨rfl, ?_⟩, fun s hs => ?_⟩
    · exact readable_mappingStatements (List.forall_mem_nil _) hfirst
    · obtain ⟨m, hm, hs⟩ := List.mem_flatMap.mp hs
      exact readable_mappingStatements (List.all_eq_true.mp rfl) (hrest m hm) s hs

/-! ## The values of options stay -/

theorem variableName_ne {target : Bytes}
    (h : target ∈ [("_sr_params" : Bytes), "_sr_list_param", "_sr_elem"]) :
    set.variableName option ≠ target := by
  have hhead : ∀ t ∈ [("_sr_params" : Bytes), "_sr_list_param", "_sr_elem"],
      t.head? = some Byte.underscore := by decide
  intro heq
  have hoption : (set.variableName option).head? = some Byte.underscore := heq ▸ hhead target h
  cases hoption

/-- No statement of a mapping changes the value of an option. -/
theorem effects_variableName :
    (mappingStatements set separator m).foldl (Statement.effect r) env (set.variableName option) =
      env (set.variableName option) := by
  refine effects_of_not_mem_targets fun s hs htarget => ?_
  have htargets : ∀ t ∈ s.targets, t ∈ [("_sr_params" : Bytes), "_sr_list_param", "_sr_elem"] := by
    unfold mappingStatements at hs
    split at hs
    · simp only [List.mem_cons, List.not_mem_nil, or_false] at hs
      rcases hs with rfl | rfl | rfl | rfl <;> simp [Statement.targets]
    · simp only [List.mem_singleton] at hs
      subst hs
      simp [Statement.targets]
  exact variableName_ne (htargets _ htarget) rfl

theorem query_congr (h : env' (set.variableName m.target) = env (set.variableName m.target)) :
    m.query set r env' = m.query set r env := by
  unfold Mapping.query
  rw [h]

/-! ## What the statements compute -/

theorem expansion_mappedValue (m : Mapping) (r : Runtime) (env : Env) (name : Bytes) :
    Url.percentEncode m.parameter ++ "=" ++ (mappedValue m name).expansion r env =
      m.field r (env name) := by
  unfold mappedValue Mapping.field
  split
  · rfl
  · rfl

theorem field_ne_nil (value : Bytes) : m.field r value ≠ [] :=
  List.append_ne_nil_of_left_ne_nil (List.append_ne_nil_of_right_ne_nil _ (List.cons_ne_nil _ _)) _

/-- Collects the parameter of each item, with an ampersand before it. -/
def collectItems (set : OptionSet) (m : Mapping) : Statement :=
  .forEachItem (set.variableName m.target) "_sr_list_param"
    [.value "_sr_list_param", .text ("&" ++ (Url.percentEncode m.parameter ++ "=")),
      mappedValue m "_sr_elem"]

theorem effect_collectItems :
    (collectItems set m).effect r env "_sr_list_param" = env "_sr_list_param" ++
      (r.items (set.variableName m.target)).flatMap
        (fun item => ("&" : Bytes) ++ m.field r item) := by
  have hne : ("_sr_list_param" : Bytes) ≠ "_sr_elem" := by decide
  unfold collectItems Statement.effect
  dsimp only
  induction r.items (set.variableName m.target) generalizing env with
  | nil => simp
  | cons item items ih =>
    have hfield := expansion_mappedValue m r (Function.update env "_sr_elem" item) "_sr_elem"
    rw [Function.update_self] at hfield
    rw [List.foldl_cons, ih, List.flatMap_cons, ← List.append_assoc, ← hfield]
    unfold Statement.assigned
    rw [Function.update_self]
    simp only [List.flatMap_cons, List.flatMap_nil, List.append_nil, Piece.expansion,
      Function.update_of_ne hne, List.append_assoc]

theorem withoutAmpersand_flatMap (items : List Bytes) :
    Shell.withoutAmpersand (items.flatMap fun item => ("&" : Bytes) ++ m.field r item) =
      Bytes.join "&" (items.map (m.field r)) := by
  cases items with
  | nil => rfl
  | cons item items =>
    rw [List.flatMap_cons, List.append_assoc, List.map_cons, Bytes.join_cons, List.flatMap_map]
    unfold Shell.withoutAmpersand
    rw [Bytes.dropPrefix?_append]
    rfl

theorem orElse_join (items : List Bytes) :
    Shell.orElse (Bytes.join "&" (items.map (m.field r))) (Url.percentEncode m.parameter ++ "=") =
      match items with
      | [] => Url.percentEncode m.parameter ++ "="
      | item :: items => Bytes.join "&" ((item :: items).map (m.field r)) := by
  cases items with
  | nil => rfl
  | cons item items =>
    have hne : Bytes.join "&" ((item :: items).map (m.field r)) ≠ [] := by
      rw [List.map_cons, Bytes.join_cons]
      exact List.append_ne_nil_of_left_ne_nil (field_ne_nil item) _
    exact if_neg hne

/-- The parameters of all items, before they are added to those of other mappings. -/
def listParameter (set : OptionSet) (m : Mapping) : List Statement :=
  [.clear "_sr_list_param", collectItems set m,
   .assign "_sr_list_param" [.withoutAmpersand "_sr_list_param"]]

theorem mappingStatements_of_perItem (h : m.perItem) :
    mappingStatements set separator m = listParameter set m ++ [.assign "_sr_params"
      [.value "_sr_params", .text separator,
        .orElse "_sr_list_param" (Url.percentEncode m.parameter ++ "=")]] :=
  if_pos h

/-- The first ampersand is dropped, so those that stay stand between the items. -/
theorem effects_listParameter :
    (listParameter set m).foldl (Statement.effect r) env "_sr_list_param" =
      Bytes.join "&" ((r.items (set.variableName m.target)).map (m.field r)) := by
  unfold listParameter
  rw [List.foldl_cons, List.foldl_cons, List.foldl_cons, List.foldl_nil]
  show Statement.assigned r "_sr_list_param" _ _ _ = _
  unfold Statement.assigned
  rw [Function.update_self, List.flatMap_singleton]
  show Shell.withoutAmpersand ((collectItems set m).effect r _ _) = _
  rw [effect_collectItems]
  show Shell.withoutAmpersand (Function.update env _ _ _ ++ _) = _
  rw [Function.update_self, List.nil_append, withoutAmpersand_flatMap]

/-- The statements of a mapping add what it declares to the parameters before it. -/
theorem effects_params :
    (mappingStatements set separator m).foldl (Statement.effect r) env "_sr_params" =
      env "_sr_params" ++ separator ++ m.query set r env := by
  by_cases h : m.perItem
  · have hkept : (listParameter set m).foldl (Statement.effect r) env "_sr_params" =
        env "_sr_params" := by
      refine effects_of_not_mem_targets fun s hs => ?_
      simp only [listParameter, List.mem_cons, List.not_mem_nil, or_false] at hs
      rcases hs with rfl | rfl | rfl
      · decide
      · exact List.not_mem_cons_of_ne_of_not_mem (by decide) (by decide)
      · decide
    unfold Mapping.query
    rw [if_pos h, mappingStatements_of_perItem h, List.foldl_append, List.foldl_cons,
      List.foldl_nil, ← orElse_join]
    show Statement.assigned r "_sr_params" _ _ _ = _
    unfold Statement.assigned
    rw [Function.update_self]
    simp only [List.flatMap_cons, List.flatMap_nil, List.append_nil, Piece.expansion, hkept,
      effects_listParameter, List.append_assoc]
  · unfold mappingStatements Mapping.query
    rw [if_neg h, if_neg h, List.foldl_cons, List.foldl_nil, ← expansion_mappedValue m r env]
    show Statement.assigned r "_sr_params" _ _ _ = _
    unfold Statement.assigned
    rw [Function.update_self]
    simp only [List.flatMap_cons, List.flatMap_nil, List.append_nil, Piece.expansion,
      List.append_assoc]

/-! ## The section -/

theorem effects_mappings :
    (mappings.flatMap (mappingStatements set "&")).foldl (Statement.effect r) env "_sr_params" =
      env "_sr_params" ++
        (mappings.map (·.query set r env)).flatMap (("&" : Bytes) ++ ·) := by
  induction mappings generalizing env with
  | nil => simp
  | cons m mappings ih =>
    have hquery : mappings.map (·.query set r
          ((mappingStatements set "&" m).foldl (Statement.effect r) env)) =
        mappings.map (·.query set r env) :=
      List.map_congr_left fun _ _ => query_congr effects_variableName
    rw [List.flatMap_cons, List.foldl_append, ih, hquery, effects_params, List.map_cons,
      List.flatMap_cons, List.append_assoc, List.append_assoc, List.append_assoc]

theorem effects_parameterStatements (h : mappings ≠ []) :
    (parameterStatements set mappings).foldl (Statement.effect r) env "_sr_params" =
      Bytes.join "&" (mappings.map (·.query set r env)) := by
  obtain ⟨first, rest, rfl⟩ := List.exists_cons_of_ne_nil h
  have hcleared (option : Bytes) : (Statement.clear "_sr_params").effect r env
      (set.variableName option) = env (set.variableName option) :=
    effect_of_not_mem_targets
      (List.not_mem_cons_of_ne_of_not_mem (variableName_ne List.mem_cons_self) List.not_mem_nil)
  have hempty : (Statement.clear "_sr_params").effect r env "_sr_params" = [] := by
    unfold Statement.effect
    exact Function.update_self _ _ _
  have hrest : rest.map (·.query set r ((mappingStatements set [] first).foldl
        (Statement.effect r) ((Statement.clear "_sr_params").effect r env))) =
      rest.map (·.query set r env) :=
    List.map_congr_left fun _ _ => query_congr (effects_variableName.trans (hcleared _))
  rw [parameterStatements, List.foldl_append, List.foldl_cons, effects_mappings, hrest,
    effects_params, hempty, query_congr (hcleared _), List.map_cons, Bytes.join_cons]
  rfl

theorem urlParameters_eq (h : set.mappings ≠ []) :
    urlParameters set =
      (parameterStatements set set.mappings).flatMap Statement.lines ++ [[]] := by
  obtain ⟨first, rest, hmappings⟩ := List.exists_cons_of_ne_nil h
  unfold urlParameters
  rw [hmappings]
  rfl

variable {s : Settings} {sources : List Directive.Source} {ds : List Directive}

/-- Whatever the values and items of the variables are, the section leaves in `_sr_params` the query
string of the mappings in their order. -/
theorem urlParameters_query (hread : Directive.parseAll sources = .ok ds)
    (hbuild : OptionSet.build s ds = .ok set) (hname : ∀ b ∈ set.settings.name, isNameByte b)
    (hne : Declared.mappings ds ≠ []) (r : Runtime) (env : Env) :
    ∃ env', run r (urlParameters set) ⟨.outside, env⟩ = some ⟨.outside, env'⟩ ∧
      env' "_sr_params" =
        Bytes.join "&" ((Declared.mappings ds).map (Mapping.query set r env)) := by
  obtain ⟨_, urls, _, rfl⟩ := OptionSet.build_eq_ok_iff.mp hbuild
  have hreadable : ∀ statement ∈ parameterStatements (OptionSet.ofDirectives s urls ds)
      (Declared.mappings ds), statement.Readable := by
    refine readable_parameterStatements fun m hm => isName_variableName hname ?_
    exact (Directive.wellFormed_of_parseAll hread _ (Declared.mem_mappings.mp hm)).1
  refine ⟨_, ?_, effects_parameterStatements hne⟩
  rw [urlParameters_eq hne, run_append]
  show (run r ((parameterStatements _ (Declared.mappings ds)).flatMap _) _).bind _ = _
  rw [run_statements hreadable]
  rfl

/-- A list of two items, one of which needs escaping. -/
def sampleRuntime : Runtime := ⟨fun _ => ["a", "b c"], Url.percentEncode⟩

/-- The enum of the sample is escaped, the items of its list are not. -/
theorem urlParameters_query_sample :
    ∃ ds set env', Directive.parseAll OptionSet.sampleSources = .ok ds ∧
      OptionSet.build OptionSet.sampleSettings ds = .ok set ∧
      (∀ b ∈ set.settings.name, isNameByte b) ∧ Declared.mappings ds ≠ [] ∧
      run sampleRuntime (urlParameters set) ⟨.outside, fun _ => "x y"⟩ =
        some ⟨.outside, env'⟩ ∧
      env' "_sr_params" = "order=x%20y&tag=a&tag=b c" := by
  obtain ⟨set, hbuild, hsettings⟩ : ∃ set,
      OptionSet.build OptionSet.sampleSettings OptionSet.sampleDirectives = .ok set ∧
        set.settings = OptionSet.sampleSettings :=
    ⟨_, rfl, rfl⟩
  have hread : Directive.parseAll OptionSet.sampleSources = .ok OptionSet.sampleDirectives := rfl
  have hname : ∀ b ∈ set.settings.name, isNameByte b := by
    rw [hsettings]
    exact List.all_eq_true.mp rfl
  have hne : Declared.mappings OptionSet.sampleDirectives ≠ [] := List.cons_ne_nil _ _
  obtain ⟨env', hrun, hparams⟩ :=
    urlParameters_query hread hbuild hname hne sampleRuntime fun _ => "x y"
  exact ⟨_, set, env', hread, hbuild, hname, hne, hrun, hparams⟩

end Script

end Elvis
