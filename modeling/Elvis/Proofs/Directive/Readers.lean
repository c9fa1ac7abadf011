import Elvis.Proofs.Directive.Fields

/-!
# What the readers of a directive accept

One lemma for each reader of a list of fields: it says which directive comes out of which fields,
and so also that nothing comes out of any others.
-/

namespace Elvis.Directive

variable {fields : List Bytes} {d : Directive}

/-! ## Declarations -/

theorem readBool_eq_ok_iff :
    readBool fields = .ok d ↔ ∃ name default,
      fields = [name, YesNo.text default] ∧ d = .declare (.bool name default) ∧
        Declarable name := by
  constructor
  · intro h
    unfold readBool at h
    split at h
    · next name text =>
      simp only [bind_eq_ok_iff, pure_eq_ok_iff] at h
      obtain ⟨_, hname, default, htext, rfl⟩ := h
      obtain ⟨rfl, hd⟩ := readDeclared_eq_ok_iff.mp hname
      rw [readYesNo_eq_ok_iff.mp htext]
      exact ⟨name, default, rfl, rfl, hd⟩
    · exact absurd h refuse_ne_ok
  · rintro ⟨name, default, rfl, rfl, hd⟩
    refine bind_eq_ok_iff.mpr ⟨name, readDeclared_eq_ok_iff.mpr ⟨rfl, hd⟩, ?_⟩
    exact bind_eq_ok_iff.mpr ⟨default, readYesNo_eq_ok_iff.mpr rfl, rfl⟩

theorem readEnum_eq_ok_iff :
    readEnum fields = .ok d ↔ ∃ name default values,
      fields = [name, default, Bytes.joinCommas values] ∧
        d = .declare (.enum name default values) ∧
        Declarable name ∧ EnumWord default ∧ EnumValues values := by
  constructor
  · intro h
    unfold readEnum at h
    split at h
    · next name default text =>
      simp only [bind_eq_ok_iff, pure_eq_ok_iff] at h
      obtain ⟨_, hname, _, hdefault, values, htext, rfl⟩ := h
      obtain ⟨rfl, hn⟩ := readDeclared_eq_ok_iff.mp hname
      obtain ⟨rfl, hd⟩ := readEnumValue_eq_ok_iff.mp hdefault
      obtain ⟨rfl, hv⟩ := readValues_eq_ok_iff.mp htext
      exact ⟨name, default, values, rfl, rfl, hn, hd, hv⟩
    · exact absurd h refuse_ne_ok
  · rintro ⟨name, default, values, rfl, rfl, hn, hd, hv⟩
    refine bind_eq_ok_iff.mpr ⟨name, readDeclared_eq_ok_iff.mpr ⟨rfl, hn⟩, ?_⟩
    refine bind_eq_ok_iff.mpr ⟨default, readEnumValue_eq_ok_iff.mpr ⟨rfl, hd⟩, ?_⟩
    exact bind_eq_ok_iff.mpr ⟨values, readValues_eq_ok_iff.mpr ⟨rfl, hv⟩, rfl⟩

theorem readAnything_eq_ok_iff :
    readAnything fields = .ok d ↔ ∃ name default,
      fields = [name, default] ∧ d = .declare (.anything name default) ∧ Declarable name := by
  constructor
  · intro h
    unfold readAnything at h
    split at h
    · next name default =>
      simp only [bind_eq_ok_iff, pure_eq_ok_iff] at h
      obtain ⟨_, hname, rfl⟩ := h
      obtain ⟨rfl, hn⟩ := readDeclared_eq_ok_iff.mp hname
      exact ⟨name, default, rfl, rfl, hn⟩
    · exact absurd h refuse_ne_ok
  · rintro ⟨name, default, rfl, rfl, hn⟩
    exact bind_eq_ok_iff.mpr ⟨name, readDeclared_eq_ok_iff.mpr ⟨rfl, hn⟩, rfl⟩

/-- The fields of a list, the valid values being the last one if there is one. -/
theorem listOfFields_eq_ok_iff {name typeName text : Bytes} {values : Option Bytes} :
    (do return .declare (.list (← readDeclared .list name) (← readElements typeName values)
      text.commaItems)) = Except.ok (ε := Cause) d ↔ ∃ elements defaults,
        [name, typeName, text] ++ values.toList = (Declaration.list name elements defaults).fields ∧
        d = .declare (.list name elements defaults) ∧ Declarable name ∧ elements.WellFormed ∧
        defaults ≠ [[]] ∧ ∀ item ∈ defaults, Byte.comma ∉ item := by
  simp only [bind_eq_ok_iff, pure_eq_ok_iff]
  constructor
  · rintro ⟨_, hname, elements, helements, rfl⟩
    obtain ⟨rfl, hn⟩ := readDeclared_eq_ok_iff.mp hname
    obtain ⟨rfl, rfl, hw⟩ := readElements_eq_ok_iff.mp helements
    obtain ⟨hne, hc, ht⟩ := Bytes.commaItems_eq_iff.mp (Eq.refl text.commaItems)
    refine ⟨elements, text.commaItems, ?_, rfl, hn, hw, hne, hc⟩
    rw [Declaration.fields, ← ht]
  · rintro ⟨elements, defaults, hf, rfl, hn, hw, hne, hc⟩
    simp only [Declaration.fields, List.cons_append, List.nil_append, List.cons.injEq,
      true_and] at hf
    obtain ⟨rfl, rfl, hvalues⟩ := hf
    obtain rfl : values = elements.values?.map Bytes.joinCommas := by
      simpa using congrArg List.head? hvalues
    refine ⟨name, readDeclared_eq_ok_iff.mpr ⟨rfl, hn⟩, elements,
      readElements_eq_ok_iff.mpr ⟨rfl, rfl, hw⟩, ?_⟩
    rw [Bytes.commaItems_eq_iff.mpr ⟨hne, hc, rfl⟩]

theorem readList_eq_ok_iff :
    readList fields = .ok d ↔ ∃ name elements defaults,
      fields = (Declaration.list name elements defaults).fields ∧
        d = .declare (.list name elements defaults) ∧ Declarable name ∧ elements.WellFormed ∧
        defaults ≠ [[]] ∧ ∀ item ∈ defaults, Byte.comma ∉ item := by
  constructor
  · intro h
    unfold readList at h
    split at h
    · next name typeName text => exact ⟨name, listOfFields_eq_ok_iff.mp h⟩
    · next name typeName text values => exact ⟨name, listOfFields_eq_ok_iff.mp h⟩
    · exact absurd h refuse_ne_ok
  · rintro ⟨name, elements, defaults, rfl, hd⟩
    cases elements with
    | anything => exact listOfFields_eq_ok_iff.mpr ⟨.anything, defaults, rfl, hd⟩
    | enum values => exact listOfFields_eq_ok_iff.mpr ⟨.enum values, defaults, rfl, hd⟩

theorem readSpecial_eq_ok_iff :
    readSpecial fields = .ok d ↔ ∃ kind, fields = [SpecialKind.name kind] ∧
      d = .declare (.special kind) := by
  constructor
  · intro h
    unfold readSpecial at h
    split at h
    · split at h
      · next kind hk =>
        cases h
        exact ⟨kind, by rw [specialKind_ofName?_eq_some_iff.mp hk], rfl⟩
      · exact absurd h refuse_ne_ok
    · exact absurd h refuse_ne_ok
  · rintro ⟨kind, rfl, rfl⟩
    unfold readSpecial
    simp only [specialKind_ofName?_eq_some_iff.mpr (Eq.refl kind.name)]

/-! ## Flags and aliases -/

theorem readFlag_eq_ok_iff :
    readFlag fields = .ok d ↔ ∃ f : FlagDeclaration,
      fields = [f.name, f.target, f.value] ∧ d = .flag f ∧ Declarable f.name ∧
        LowerWord f.target := by
  constructor
  · intro h
    unfold readFlag at h
    split at h
    · next name target value =>
      simp only [bind_eq_ok_iff, pure_eq_ok_iff] at h
      obtain ⟨_, hname, _, htarget, rfl⟩ := h
      obtain ⟨rfl, hn⟩ := readDeclared_eq_ok_iff.mp hname
      obtain ⟨rfl, ht⟩ := readReference_eq_ok_iff.mp htarget
      exact ⟨⟨name, target, value⟩, rfl, rfl, hn, ht⟩
    · exact absurd h refuse_ne_ok
  · rintro ⟨⟨name, target, value⟩, rfl, rfl, hn, ht⟩
    refine bind_eq_ok_iff.mpr ⟨name, readDeclared_eq_ok_iff.mpr ⟨rfl, hn⟩, ?_⟩
    exact bind_eq_ok_iff.mpr ⟨target, readReference_eq_ok_iff.mpr ⟨rfl, ht⟩, rfl⟩

theorem readAlias_eq_ok_iff :
    readAlias fields = .ok d ↔ ∃ a : Alias,
      fields ∈ (aliasing a).fieldForms ∧ d = .aliasing a ∧ Declarable a.name ∧
        LowerWord a.target := by
  simp only [fieldForms, List.mem_map]
  constructor
  · intro h
    unfold readAlias at h
    split at h
    · next name target typeName =>
      simp only [bind_eq_ok_iff, pure_eq_ok_iff] at h
      obtain ⟨_, hname, _, htarget, type, htype, rfl⟩ := h
      obtain ⟨rfl, hn⟩ := readDeclared_eq_ok_iff.mp hname
      obtain ⟨rfl, ht⟩ := readReference_eq_ok_iff.mp htarget
      exact ⟨⟨name, target, type⟩, ⟨typeName, readAliasTarget_eq_ok_iff.mp htype, rfl⟩, rfl, hn, ht⟩
    · exact absurd h refuse_ne_ok
  · rintro ⟨⟨name, target, type⟩, ⟨typeName, htype, rfl⟩, rfl, hn, ht⟩
    refine bind_eq_ok_iff.mpr ⟨name, readDeclared_eq_ok_iff.mpr ⟨rfl, hn⟩, ?_⟩
    refine bind_eq_ok_iff.mpr ⟨target, readReference_eq_ok_iff.mpr ⟨rfl, ht⟩, ?_⟩
    exact bind_eq_ok_iff.mpr ⟨type, readAliasTarget_eq_ok_iff.mpr htype, rfl⟩

/-! ## Mappings and inlinings -/

theorem readMapping_eq_ok_iff {perItem : Bool} :
    readMapping perItem fields = .ok d ↔ ∃ m : Mapping, m.perItem = perItem ∧
      fields ∈ (map m).fieldForms ∧ d = .map m ∧ LowerWord m.target ∧ m.parameter ≠ [] := by
  constructor
  · intro h
    unfold readMapping at h
    dsimp only at h
    generalize (if perItem = true then DirectiveType.listMap else .map) = type at h
    split at h
    · next target parameter =>
      simp only [bind_eq_ok_iff, pure_eq_ok_iff] at h
      obtain ⟨_, htarget, _, hparameter, rfl⟩ := h
      obtain ⟨rfl, ht⟩ := readReference_eq_ok_iff.mp htarget
      obtain ⟨rfl, hp⟩ := readParameter_eq_ok_iff.mp hparameter
      exact ⟨⟨target, parameter, true, perItem⟩, rfl, List.mem_cons_self, rfl, ht, hp⟩
    · next target parameter text =>
      simp only [bind_eq_ok_iff, pure_eq_ok_iff] at h
      obtain ⟨_, htarget, _, hparameter, urlEncode, htext, rfl⟩ := h
      obtain ⟨rfl, ht⟩ := readReference_eq_ok_iff.mp htarget
      obtain ⟨rfl, hp⟩ := readParameter_eq_ok_iff.mp hparameter
      refine ⟨⟨target, parameter, urlEncode, perItem⟩, rfl, ?_, rfl, ht, hp⟩
      rw [readYesNo_eq_ok_iff.mp htext]
      cases urlEncode <;> simp [fieldForms, YesNo.text]
    · exact absurd h refuse_ne_ok
  · rintro ⟨⟨target, parameter, urlEncode, perItem⟩, rfl, hf, rfl, ht, hp⟩
    have hread (text : Bytes) (b : Bool) (htext : text = YesNo.text b) :
        readMapping perItem [target, parameter, text] =
          .ok (.map ⟨target, parameter, b, perItem⟩) := by
      refine bind_eq_ok_iff.mpr ⟨target, readReference_eq_ok_iff.mpr ⟨rfl, ht⟩, ?_⟩
      refine bind_eq_ok_iff.mpr ⟨parameter, readParameter_eq_ok_iff.mpr ⟨rfl, hp⟩, ?_⟩
      exact bind_eq_ok_iff.mpr ⟨b, readYesNo_eq_ok_iff.mpr htext, rfl⟩
    cases urlEncode with
    | false =>
      obtain rfl := List.mem_singleton.mp hf
      exact hread "no" false rfl
    | true =>
      rcases List.mem_cons.mp hf with rfl | hf
      · refine bind_eq_ok_iff.mpr ⟨target, readReference_eq_ok_iff.mpr ⟨rfl, ht⟩, ?_⟩
        exact bind_eq_ok_iff.mpr ⟨parameter, readParameter_eq_ok_iff.mpr ⟨rfl, hp⟩, rfl⟩
      · obtain rfl := List.mem_singleton.mp hf
        exact hread "yes" true rfl

theorem readInlining_eq_ok_iff {perItem : Bool} :
    readInlining perItem fields = .ok d ↔ ∃ i : Inlining, i.perItem = perItem ∧
      fields = [i.target, i.keyword] ∧ d = .inline i ∧ LowerWord i.target ∧
        LowerWord i.keyword := by
  constructor
  · intro h
    unfold readInlining at h
    dsimp only at h
    generalize (if perItem = true then DirectiveType.listInline else .inline) = type at h
    split at h
    · next target keyword =>
      simp only [bind_eq_ok_iff, pure_eq_ok_iff] at h
      obtain ⟨_, hkeyword, _, htarget, rfl⟩ := h
      obtain ⟨rfl, hk⟩ := readKeyword_eq_ok_iff.mp hkeyword
      obtain ⟨rfl, ht⟩ := readReference_eq_ok_iff.mp htarget
      exact ⟨⟨target, keyword, perItem⟩, rfl, rfl, rfl, ht, hk⟩
    · exact absurd h refuse_ne_ok
  · rintro ⟨⟨target, keyword, _⟩, rfl, rfl, rfl, ht, hk⟩
    refine bind_eq_ok_iff.mpr ⟨keyword, readKeyword_eq_ok_iff.mpr ⟨rfl, hk⟩, ?_⟩
    exact bind_eq_ok_iff.mpr ⟨target, readReference_eq_ok_iff.mpr ⟨rfl, ht⟩, rfl⟩

/-! ## Collapses -/

theorem readBranch_eq_ok_iff {group : Bytes} {b : Branch} :
    readBranch group = .ok b ↔ group = b.group ∧
      b.patterns ≠ [] ∧ ∀ piece ∈ b.patterns ++ [b.replacement], Byte.comma ∉ piece := by
  constructor
  · intro h
    unfold readBranch at h
    split at h
    · next replacement pattern patterns hr =>
      cases h
      have hs : Bytes.split Byte.comma group =
          (pattern :: patterns).reverse ++ [replacement] := by
        rw [← List.reverse_reverse (Bytes.split Byte.comma group), hr, List.reverse_cons]
      obtain ⟨_, hc, hg⟩ := Bytes.split_eq_iff.mp hs
      exact ⟨hg, by simp, hc⟩
    · exact absurd h refuse_ne_ok
  · rintro ⟨rfl, hne, hc⟩
    have hs : Bytes.split Byte.comma b.group = b.patterns ++ [b.replacement] :=
      Bytes.split_join (by simp) hc
    obtain ⟨pattern, patterns, hp⟩ : ∃ pattern patterns, b.patterns.reverse = pattern :: patterns :=
      List.exists_cons_of_ne_nil (by simpa using hne)
    unfold readBranch
    rw [hs, List.reverse_append, List.reverse_singleton, List.singleton_append, hp]
    change Except.ok (Branch.mk (pattern :: patterns).reverse b.replacement) = .ok b
    rw [← hp, List.reverse_reverse]

theorem readCollapse_eq_ok_iff :
    readCollapse fields = .ok d ↔ ∃ c : Collapse,
      fields = c.target :: c.branches.map Branch.group ∧ d = .collapse c ∧ LowerWord c.target ∧
        c.branches ≠ [] ∧ ∀ b ∈ c.branches,
          b.patterns ≠ [] ∧ ∀ piece ∈ b.patterns ++ [b.replacement], Byte.comma ∉ piece := by
  constructor
  · intro h
    unfold readCollapse at h
    split at h
    · next target group groups =>
      simp only [bind_eq_ok_iff, pure_eq_ok_iff] at h
      obtain ⟨_, htarget, branches, hbranches, rfl⟩ := h
      obtain ⟨rfl, ht⟩ := readReference_eq_ok_iff.mp htarget
      obtain ⟨hg, hb⟩ := (mapM_eq_ok_iff fun _ _ => readBranch_eq_ok_iff).mp hbranches
      refine ⟨⟨target, branches⟩, by rw [hg], rfl, ht, ?_, hb⟩
      rintro rfl
      simp at hg
    · exact absurd h refuse_ne_ok
  · rintro ⟨⟨target, branches⟩, rfl, rfl, ht, hne, hb⟩
    obtain ⟨b, rest, rfl⟩ := List.exists_cons_of_ne_nil hne
    refine bind_eq_ok_iff.mpr ⟨target, readReference_eq_ok_iff.mpr ⟨rfl, ht⟩, ?_⟩
    refine bind_eq_ok_iff.mpr ⟨b :: rest, ?_, rfl⟩
    exact (mapM_eq_ok_iff fun _ _ => readBranch_eq_ok_iff).mpr ⟨rfl, hb⟩

/-! ## Metavars and descriptions -/

theorem readMetavarText_eq_ok_iff {text result : Bytes} :
    readMetavarText text = .ok result ↔ text.toUpper = result ∧ LowerWord text := by
  unfold readMetavarText
  rw [ite_refuse_eq_ok_iff, isWord_iff, Except.ok.injEq, and_comm]

theorem readMetavar_eq_ok_iff :
    readMetavar fields = .ok d ↔ ∃ target word, fields = [target, word] ∧
      d = .metavar target word.toUpper ∧ LowerWord target ∧ LowerWord word := by
  constructor
  · intro h
    unfold readMetavar at h
    split at h
    · next target text =>
      simp only [bind_eq_ok_iff, pure_eq_ok_iff] at h
      obtain ⟨_, htext, _, htarget, rfl⟩ := h
      obtain ⟨rfl, hw⟩ := readMetavarText_eq_ok_iff.mp htext
      obtain ⟨rfl, ht⟩ := readReference_eq_ok_iff.mp htarget
      exact ⟨target, text, rfl, rfl, ht, hw⟩
    · exact absurd h refuse_ne_ok
  · rintro ⟨target, word, rfl, rfl, ht, hw⟩
    refine bind_eq_ok_iff.mpr ⟨word.toUpper, readMetavarText_eq_ok_iff.mpr ⟨rfl, hw⟩, ?_⟩
    exact bind_eq_ok_iff.mpr ⟨target, readReference_eq_ok_iff.mpr ⟨rfl, ht⟩, rfl⟩

theorem readDescribe_eq_ok_iff :
    readDescribe fields = .ok d ↔ ∃ target text, fields = [target, text] ∧
      d = .describe target text ∧ LowerWord target := by
  constructor
  · intro h
    unfold readDescribe at h
    split at h
    · next target text =>
      simp only [bind_eq_ok_iff, pure_eq_ok_iff] at h
      obtain ⟨_, htarget, rfl⟩ := h
      obtain ⟨rfl, ht⟩ := readReference_eq_ok_iff.mp htarget
      exact ⟨target, text, rfl, rfl, ht⟩
    · exact absurd h refuse_ne_ok
  · rintro ⟨target, text, rfl, rfl, ht⟩
    exact bind_eq_ok_iff.mpr ⟨target, readReference_eq_ok_iff.mpr ⟨rfl, ht⟩, rfl⟩

end Elvis.Directive
