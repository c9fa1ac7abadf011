import Elvis.Directive.Parser
import Elvis.Proofs.Directive.Grammar
import Elvis.Proofs.Except

/-!
# What the readers of a field accept

One lemma for each reader of a field: it says which value comes out of which text, and so also that
nothing comes out of any other.
-/

namespace Elvis

/-! ## Words -/

theorem isLower_iff {b : UInt8} : Byte.isLower b = true ↔ Byte.Lower b := by
  simp [Byte.isLower, Byte.Lower]

theorem isDigit_iff {b : UInt8} : Byte.isDigit b = true ↔ Byte.Digit b := by
  simp [Byte.isDigit, Byte.Digit]

theorem isWord_iff {name : Bytes} : Name.isWord name = true ↔ LowerWord name := by
  simp [Name.isWord, LowerWord, isLower_iff]

theorem isReserved_iff {name : Bytes} : Name.isReserved name = true ↔ name ∈ Name.reserved := by
  simp [Name.isReserved]

theorem isEnumValue_iff {value : Bytes} : Name.isEnumValue value = true ↔ EnumWord value := by
  cases value with
  | nil => simp [Name.isEnumValue, EnumWord]
  | cons b rest =>
    simp [Name.isEnumValue, Name.isEnumValueByte, EnumWord, Byte.InEnum, isLower_iff,
      isDigit_iff, or_assoc]

theorem read?_eq_some_iff {text : Bytes} {b : Bool} :
    YesNo.read? text = some b ↔ text = YesNo.text b := by
  unfold YesNo.read? YesNo.text
  cases b
  · split
    · next h =>
      subst h
      simp
      decide
    · simp
  · split
    · next h => simp [h]
    · next h => simp [h]

theorem Byte.Lower.ne {b c : UInt8} (h : Byte.Lower b) (hc : c < 0x61) : b ≠ c := by
  rintro rfl
  exact absurd (UInt8.lt_of_lt_of_le hc h.1) (UInt8.lt_irrefl b)

theorem LowerWord.not_mem {s : Bytes} (h : LowerWord s) {c : UInt8} (hc : c < 0x61) : c ∉ s :=
  fun hm => (h.2 c hm).ne hc rfl

theorem LowerWord.isItem {s : Bytes} (h : LowerWord s) : IsItem s :=
  ⟨h.not_mem (by decide), h.not_mem (by decide)⟩

theorem Byte.InEnum.ne_separator {b : UInt8} (h : Byte.InEnum b) :
    b ≠ Byte.colon ∧ b ≠ Byte.comma := by
  rcases h with hl | hd | rfl | rfl | rfl
  · exact ⟨hl.ne (by decide), hl.ne (by decide)⟩
  · constructor
    · rintro rfl
      exact absurd hd.2 (by decide)
    · rintro rfl
      exact absurd hd.1 (by decide)
  all_goals exact ⟨by decide, by decide⟩

theorem EnumWord.inEnum {value : Bytes} (h : EnumWord value) : ∀ b ∈ value, Byte.InEnum b := by
  cases value with
  | nil => simp
  | cons b rest =>
    refine List.forall_mem_cons.mpr ⟨?_, h.2⟩
    exact h.1.elim .inl fun hd => .inr (.inl hd)

theorem EnumWord.isItem {value : Bytes} (h : EnumWord value) : IsItem value :=
  ⟨fun hm => (h.inEnum _ hm).ne_separator.1 rfl, fun hm => (h.inEnum _ hm).ne_separator.2 rfl⟩

/-- The values of an option are distinct words, if it has any. -/
theorem Declaration.WellFormed.enumValues {d : Declaration} {values : List Bytes}
    (h : d.WellFormed) (hvalues : d.values? = some values) : EnumValues values := by
  cases d with
  | bool | anything | special => cases hvalues
  | enum name default values' =>
    cases hvalues
    exact h.2.2
  | list name elements defaults =>
    cases elements with
    | anything => cases hvalues
    | enum values' =>
      cases hvalues
      exact h.2.1.2

theorem toUpper_of_lower {b : UInt8} (h : Byte.Lower b) : Byte.toUpper b = b - 0x20 := by
  rw [Byte.toUpper, if_pos (isLower_iff.mpr h)]

theorem isUpper_toUpper_of_lower {b : UInt8} (h : Byte.Lower b) :
    Byte.isUpper (Byte.toUpper b) = true := by
  rw [toUpper_of_lower h]
  obtain ⟨hlow, hhigh⟩ := h
  rw [UInt8.le_iff_toNat_le] at hlow hhigh
  have hsub : (b - 0x20).toNat = b.toNat - 0x20 :=
    UInt8.toNat_sub_of_le b 0x20 (UInt8.le_iff_toNat_le.mpr (Nat.le_trans (by decide) hlow))
  simp only [Byte.isUpper, Bool.and_eq_true, decide_eq_true_eq, UInt8.le_iff_toNat_le, hsub]
  simp only [UInt8.reduceToNat] at hlow hhigh ⊢
  omega

theorem toLower_toUpper_of_lower {b : UInt8} (h : Byte.Lower b) :
    Byte.toLower (Byte.toUpper b) = b := by
  rw [Byte.toLower, if_pos (isUpper_toUpper_of_lower h), toUpper_of_lower h]
  exact UInt8.sub_add_cancel b 0x20

/-- The upper-case form of a word determines the word. -/
theorem toLower_toUpper {word : Bytes} (h : LowerWord word) : word.toUpper.toLower = word := by
  unfold Bytes.toLower Bytes.toUpper
  rw [List.map_map]
  conv => rhs; rw [← List.map_id word]
  exact List.map_congr_left fun b hb => toLower_toUpper_of_lower (h.2 b hb)

namespace Directive

variable {α : Type} {type : DirectiveType} {fault : Fault}

@[simp] theorem refuse_ne_ok {a : α} : refuse type fault ≠ .ok a := by
  simp [refuse]

theorem ite_refuse_eq_ok_iff {p : Prop} [Decidable p] {x : Except Cause α} {a : α} :
    (if p then x else refuse type fault) = .ok a ↔ p ∧ x = .ok a :=
  ite_error_eq_ok_iff

theorem refuse_ite_eq_ok_iff {p : Prop} [Decidable p] {x : Except Cause α} {a : α} :
    (if p then refuse type fault else x) = .ok a ↔ ¬ p ∧ x = .ok a :=
  error_ite_eq_ok_iff

/-! ## Single fields -/

theorem readReference_eq_ok_iff {name result : Bytes} :
    readReference type name = .ok result ↔ name = result ∧ LowerWord name := by
  unfold readReference
  rw [ite_refuse_eq_ok_iff, isWord_iff, Except.ok.injEq, and_comm]

theorem readDeclared_eq_ok_iff {name result : Bytes} :
    readDeclared type name = .ok result ↔ name = result ∧ Declarable name := by
  unfold readDeclared Declarable
  rw [bind_eq_ok_iff]
  constructor
  · intro h
    obtain ⟨word, hword, hr⟩ := h
    obtain ⟨rfl, hw⟩ := readReference_eq_ok_iff.mp hword
    rw [refuse_ite_eq_ok_iff, isReserved_iff, Except.ok.injEq] at hr
    obtain ⟨h, rfl⟩ := hr
    exact ⟨rfl, hw, h⟩
  · rintro ⟨rfl, hw, h⟩
    refine ⟨name, readReference_eq_ok_iff.mpr ⟨rfl, hw⟩, ?_⟩
    rw [refuse_ite_eq_ok_iff, isReserved_iff]
    exact ⟨h, rfl⟩

theorem readYesNo_eq_ok_iff {text : Bytes} {b : Bool} :
    readYesNo type text = .ok b ↔ text = YesNo.text b := by
  rw [← read?_eq_some_iff]
  unfold readYesNo
  split
  · next c h => simp [h]
  · next h => simp [h]

theorem readEnumValue_eq_ok_iff {text value : Bytes} :
    readEnumValue type text = .ok value ↔ text = value ∧ EnumWord text := by
  unfold readEnumValue
  rw [ite_refuse_eq_ok_iff, isEnumValue_iff, Except.ok.injEq, and_comm]

theorem readEnumValues_eq_ok_iff {before texts values : List Bytes} :
    readEnumValues type before texts = .ok values ↔
      texts = values ∧ EnumValues values ∧ ∀ v ∈ values, v ∉ before := by
  unfold EnumValues
  induction texts generalizing before values with
  | nil =>
    unfold readEnumValues
    cases values <;> simp
  | cons text rest ih =>
    unfold readEnumValues
    rw [bind_eq_ok_iff]
    constructor
    · intro h
      obtain ⟨value, hvalue, hrest⟩ := h
      obtain ⟨rfl, hv⟩ := readEnumValue_eq_ok_iff.mp hvalue
      obtain ⟨hb, hrest⟩ := refuse_ite_eq_ok_iff.mp hrest
      obtain ⟨others, ho, hr⟩ := bind_eq_ok_iff.mp hrest
      rw [pure_eq_ok_iff] at hr
      subst hr
      obtain ⟨rfl, ⟨hw, hd⟩, hn⟩ := ih.mp ho
      simp only [List.contains_eq_mem, decide_eq_true_eq] at hb
      simp only [List.mem_cons, not_or] at hn
      refine ⟨rfl, ⟨List.forall_mem_cons.mpr ⟨hv, hw⟩, List.nodup_cons.mpr ⟨?_, hd⟩⟩, ?_⟩
      · intro hm
        exact (hn text hm).1 rfl
      · exact List.forall_mem_cons.mpr ⟨hb, fun v hm => (hn v hm).2⟩
    · rintro ⟨rfl, ⟨hw, hd⟩, hn⟩
      obtain ⟨hv, hw⟩ := List.forall_mem_cons.mp hw
      obtain ⟨hb, hn⟩ := List.forall_mem_cons.mp hn
      obtain ⟨hm, hd⟩ := List.nodup_cons.mp hd
      refine ⟨text, readEnumValue_eq_ok_iff.mpr ⟨rfl, hv⟩, ?_⟩
      refine refuse_ite_eq_ok_iff.mpr ⟨by simpa using hb, ?_⟩
      refine bind_eq_ok_iff.mpr ⟨rest, ih.mpr ⟨rfl, ⟨hw, hd⟩, ?_⟩, rfl⟩
      intro v hvr hvb
      rcases List.mem_cons.mp hvb with rfl | hvb
      · exact hm hvr
      · exact hn v hvr hvb

/-- Enum values hold no comma and are not empty, so they are the items of the text they join to. -/
theorem readValues_eq_ok_iff {text : Bytes} {values : List Bytes} :
    readValues type text = .ok values ↔ text = Bytes.joinCommas values ∧ EnumValues values := by
  unfold readValues
  rw [readEnumValues_eq_ok_iff, Bytes.commaItems_eq_iff]
  constructor
  · intro h
    obtain ⟨⟨_, _, ht⟩, hv, _⟩ := h
    exact ⟨ht, hv⟩
  · intro h
    obtain ⟨ht, hv⟩ := h
    refine ⟨⟨?_, fun v hm => (hv.1 v hm).isItem.2, ht⟩, hv, by simp⟩
    rintro rfl
    exact hv.1 [] (List.mem_singleton.mpr rfl)

theorem readParameter_eq_ok_iff {text parameter : Bytes} :
    readParameter type text = .ok parameter ↔ text = parameter ∧ text ≠ [] := by
  unfold readParameter
  rw [refuse_ite_eq_ok_iff, List.isEmpty_iff, Except.ok.injEq, and_comm]

theorem readKeyword_eq_ok_iff {text keyword : Bytes} :
    readKeyword type text = .ok keyword ↔ text = keyword ∧ LowerWord text := by
  unfold readKeyword
  rw [ite_refuse_eq_ok_iff, isWord_iff, Except.ok.injEq, and_comm]

/-! ## Names of types and kinds -/

theorem specialKind_ofName?_eq_some_iff {text : Bytes} {kind : SpecialKind} :
    SpecialKind.ofName? text = some kind ↔ text = kind.name := by
  constructor
  · intro h
    have hname := List.find?_some h
    exact (of_decide_eq_true hname).symm
  · rintro rfl
    cases kind <;> decide

theorem optionType_ofName?_eq_some_iff {text : Bytes} {t : OptionType} :
    OptionType.ofName? text = some t ↔
      text = t.name ∨ (text = "yes-no" ∧ t = .var .bool) := by
  unfold OptionType.ofName?
  split
  · next h =>
    subst h
    rw [Option.some.injEq]
    constructor
    · rintro rfl
      exact .inr ⟨rfl, rfl⟩
    · rintro (h | ⟨_, rfl⟩)
      · -- no type has this name
        revert h
        rcases t with (_ | _ | _ | _ | _) | _ | _ <;> decide
      · rfl
  · next h =>
    constructor
    · intro hf
      have hname := List.find?_some hf
      exact .inl (of_decide_eq_true hname).symm
    · rintro (rfl | ⟨ht, _⟩)
      · rcases t with (_ | _ | _ | _ | _) | _ | _ <;> decide
      · exact absurd ht h

theorem readAliasTarget_eq_ok_iff {name typeName : Bytes} {target : AliasTarget} :
    readAliasTarget name typeName = .ok target ↔ typeName ∈ target.spellings := by
  have hvar : ∀ t, typeName ∈ (AliasTarget.var t).spellings ↔
      OptionType.ofName? typeName = some (.var t) := by
    intro t
    rw [optionType_ofName?_eq_some_iff]
    cases t <;> simp [AliasTarget.spellings, AliasTarget.name, OptionType.name, VariableType.name]
  have hflag : typeName ∈ AliasTarget.flag.spellings ↔
      OptionType.ofName? typeName = some .flag := by
    rw [optionType_ofName?_eq_some_iff]
    simp [AliasTarget.spellings, AliasTarget.name]
  unfold readAliasTarget
  cases target with
  | var t =>
    rw [hvar]
    split
    · next h => simp [h]
    · next h => simp [h]
    · next h => simp [h]
    · next h => simp [h]
  | flag =>
    rw [hflag]
    split
    · next h => simp [h]
    · next h => simp [h]
    · next h => simp [h]
    · next h => simp [h]

theorem joinCommas_enumValues_eq_nil_iff {values : List Bytes} (h : EnumValues values) :
    Bytes.joinCommas values = [] ↔ values = [] := by
  constructor
  · intro hj
    -- a text without bytes has no items
    have hitems : Bytes.commaItems [] = values := by
      refine Bytes.commaItems_eq_iff.mpr ⟨?_, fun v hv => (h.1 v hv).isItem.2, hj.symm⟩
      rintro rfl
      exact h.1 [] (List.mem_singleton.mpr rfl)
    exact hitems.symm
  · rintro rfl
    rfl

/-- The type name and the valid values both come from the element type. -/
theorem readElements_eq_ok_iff {typeName : Bytes} {values : Option Bytes} {elements : Elements} :
    readElements typeName values = .ok elements ↔
      typeName = elements.type.name ∧ values = elements.values?.map Bytes.joinCommas ∧
        elements.WellFormed := by
  unfold readElements
  constructor
  · intro h
    split at h
    · next ht =>
      cases values with
      | none => exact absurd h refuse_ne_ok
      | some text =>
        obtain ⟨hne, hr⟩ := refuse_ite_eq_ok_iff.mp h
        simp only [bind_eq_ok_iff, pure_eq_ok_iff] at hr
        obtain ⟨items, hitems, rfl⟩ := hr
        obtain ⟨rfl, hv⟩ := readValues_eq_ok_iff.mp hitems
        refine ⟨ht, rfl, ?_, hv⟩
        rwa [List.isEmpty_iff, joinCommas_enumValues_eq_nil_iff hv] at hne
    · split at h
      · next ht =>
        cases values with
        | none =>
          cases h
          exact ⟨ht, rfl, trivial⟩
        | some text => exact absurd h refuse_ne_ok
      · exact absurd h refuse_ne_ok
  · rintro ⟨rfl, rfl, hw⟩
    cases elements with
    | anything => rfl
    | enum items =>
      obtain ⟨hne, hv⟩ := hw
      refine refuse_ite_eq_ok_iff.mpr ⟨?_, ?_⟩
      · rwa [List.isEmpty_iff, joinCommas_enumValues_eq_nil_iff hv]
      · exact bind_eq_ok_iff.mpr ⟨items, readValues_eq_ok_iff.mpr ⟨rfl, hv⟩, rfl⟩

end Directive

end Elvis
