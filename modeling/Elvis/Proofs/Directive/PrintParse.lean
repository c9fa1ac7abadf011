import Elvis.Proofs.Directive.Readers
import Mathlib.Data.List.Forall2

/-!
# Reading and printing directives

`Directive.parse` accepts exactly the printed forms of the well-formed directives of the type it is
asked for, and reads each of them as the directive it is a form of. So a text has at most one
meaning under a type; a directive has a second form only if it has a field with a short spelling.

The separators carry the argument: no field of a well-formed directive holds a colon
(`isField_of_mem_fieldForms`), so splitting its text at the colons gives the fields back.
-/

namespace Elvis.Directive

variable {type : DirectiveType} {fields : List Bytes} {text : Bytes} {d : Directive}

/-! ## Fields hold no colon -/

theorem isField_joinCommas_iff {items : List Bytes} :
    IsField (Bytes.joinCommas items) ↔ ∀ item ∈ items, IsField item :=
  Bytes.not_mem_join_iff (by decide)

theorem isField_yesNo (b : Bool) : IsField (YesNo.text b) := by
  cases b <;> decide

theorem isField_joinCommas_enumValues {values : List Bytes} (h : EnumValues values) :
    IsField (Bytes.joinCommas values) :=
  isField_joinCommas_iff.mpr fun v hv => (h.1 v hv).isItem.1

theorem isField_of_mem_fields {d : Declaration} (h : d.WellFormed) : ∀ f ∈ d.fields, IsField f := by
  cases d with
  | bool name default =>
    simp only [Declaration.fields, List.forall_mem_cons]
    exact ⟨h.1.isItem.1, isField_yesNo default, by simp⟩
  | enum name default values =>
    obtain ⟨hn, hd, hv⟩ := h
    simp only [Declaration.fields, List.forall_mem_cons]
    exact ⟨hn.1.isItem.1, hd.isItem.1, isField_joinCommas_enumValues hv, by simp⟩
  | anything name default =>
    obtain ⟨hn, hd⟩ := h
    simp only [Declaration.fields, List.forall_mem_cons]
    exact ⟨hn.1.isItem.1, hd, by simp⟩
  | list name elements defaults =>
    obtain ⟨hn, he, hd⟩ := h
    have hdefaults : IsField (Bytes.joinCommas defaults) :=
      isField_joinCommas_iff.mpr fun item hi => (hd.2 item hi).1
    cases elements with
    | anything =>
      simp only [Declaration.fields, List.cons_append, List.nil_append, List.forall_mem_cons]
      exact ⟨hn.1.isItem.1, show IsField VariableType.anything.name by decide, hdefaults,
        by simp [Elements.values?]⟩
    | enum values =>
      simp only [Declaration.fields, List.cons_append, List.nil_append, List.forall_mem_cons]
      refine ⟨hn.1.isItem.1, show IsField VariableType.enum.name by decide, hdefaults, ?_⟩
      exact List.forall_mem_singleton.mpr (isField_joinCommas_enumValues he.2)
  | special kind =>
    refine List.forall_mem_singleton.mpr ?_
    cases kind <;> decide

theorem isField_of_mem_spellings (target : AliasTarget) : ∀ t ∈ target.spellings, IsField t := by
  rcases target with (_ | _ | _ | _ | _) | _ <;> decide

theorem isField_of_mem_fieldForms (h : d.WellFormed) (hf : fields ∈ d.fieldForms) :
    ∀ f ∈ fields, IsField f := by
  cases d with
  | declare d =>
    obtain rfl := List.mem_singleton.mp hf
    exact isField_of_mem_fields h
  | flag f =>
    obtain ⟨hn, ht, hv⟩ := h
    obtain rfl := List.mem_singleton.mp hf
    simp only [List.forall_mem_cons]
    exact ⟨hn.1.isItem.1, ht.isItem.1, hv, by simp⟩
  | aliasing a =>
    obtain ⟨hn, ht⟩ := h
    obtain ⟨typeName, htype, rfl⟩ := List.mem_map.mp hf
    simp only [List.forall_mem_cons]
    exact ⟨hn.1.isItem.1, ht.isItem.1, isField_of_mem_spellings _ typeName htype, by simp⟩
  | map m =>
    obtain ⟨ht, _, hp⟩ := h
    simp only [fieldForms] at hf
    split at hf
    · rcases List.mem_cons.mp hf with rfl | hf
      · simp only [List.forall_mem_cons]
        exact ⟨ht.isItem.1, hp, by simp⟩
      · obtain rfl := List.mem_singleton.mp hf
        simp only [List.forall_mem_cons]
        exact ⟨ht.isItem.1, hp, by decide, by simp⟩
    · obtain rfl := List.mem_singleton.mp hf
      simp only [List.forall_mem_cons]
      exact ⟨ht.isItem.1, hp, by decide, by simp⟩
  | inline i =>
    obtain ⟨ht, hk⟩ := h
    obtain rfl := List.mem_singleton.mp hf
    simp only [List.forall_mem_cons]
    exact ⟨ht.isItem.1, hk.isItem.1, by simp⟩
  | collapse c =>
    obtain ⟨ht, _, hb⟩ := h
    obtain rfl := List.mem_singleton.mp hf
    refine List.forall_mem_cons.mpr ⟨ht.isItem.1, List.forall_mem_map.mpr fun b hm => ?_⟩
    exact isField_joinCommas_iff.mpr fun piece hp => ((hb b hm).2 piece hp).1
  | metavar target text =>
    obtain ⟨ht, word, hw, rfl⟩ := h
    obtain rfl := List.mem_singleton.mp hf
    simp only [List.forall_mem_cons, toLower_toUpper hw]
    exact ⟨ht.isItem.1, hw.isItem.1, by simp⟩
  | describe target text =>
    obtain ⟨ht, hx⟩ := h
    obtain rfl := List.mem_singleton.mp hf
    simp only [List.forall_mem_cons]
    exact ⟨ht.isItem.1, hx, by simp⟩

theorem ne_nil_of_mem_fieldForms (hf : fields ∈ d.fieldForms) : fields ≠ [] := by
  rintro rfl
  cases d with
  | declare d => cases d <;> simp [fieldForms, Declaration.fields] at hf
  | map m =>
    simp only [fieldForms] at hf
    split at hf <;> simp at hf
  | flag | aliasing | inline | collapse | metavar | describe => simp [fieldForms] at hf

/-! ## Reading fields -/

/-- The reader of the fields of a directive of the given type. -/
def readFields : DirectiveType → List Bytes → Except Cause Directive
  | .bool => readBool
  | .enum => readEnum
  | .anything => readAnything
  | .list => readList
  | .special => readSpecial
  | .flag => readFlag
  | .aliasing => readAlias
  | .map => readMapping false
  | .listMap => readMapping true
  | .inline => readInlining false
  | .listInline => readInlining true
  | .collapse => readCollapse
  | .metavar => readMetavar
  | .describe => readDescribe

theorem parse_eq_readFields (type : DirectiveType) (text : Bytes) :
    parse type text = readFields type (Bytes.split Byte.colon text) := by
  cases type <;> rfl

theorem parameter_mem_of_mem_fieldForms {m : Mapping} (hf : fields ∈ (map m).fieldForms) :
    m.parameter ∈ fields := by
  simp only [fieldForms] at hf
  split at hf
  · rcases List.mem_cons.mp hf with rfl | hf
    · simp
    · obtain rfl := List.mem_singleton.mp hf
      simp
  · obtain rfl := List.mem_singleton.mp hf
    simp

/-- What the readers accept is well-formed, when its fields hold no colon. -/
theorem wellFormed_of_readFields (hc : ∀ f ∈ fields, IsField f)
    (h : readFields type fields = .ok d) :
    d.type = type ∧ d.WellFormed ∧ fields ∈ d.fieldForms := by
  cases type with
  | bool =>
    obtain ⟨name, default, rfl, rfl, hn⟩ := readBool_eq_ok_iff.mp h
    exact ⟨rfl, hn, List.mem_singleton.mpr rfl⟩
  | enum =>
    obtain ⟨name, default, values, rfl, rfl, hn, hd, hv⟩ := readEnum_eq_ok_iff.mp h
    exact ⟨rfl, ⟨hn, hd, hv⟩, List.mem_singleton.mpr rfl⟩
  | anything =>
    obtain ⟨name, default, rfl, rfl, hn⟩ := readAnything_eq_ok_iff.mp h
    simp only [List.forall_mem_cons] at hc
    exact ⟨rfl, ⟨hn, hc.2.1⟩, List.mem_singleton.mpr rfl⟩
  | list =>
    obtain ⟨name, elements, defaults, rfl, rfl, hn, he, hne, hd⟩ := readList_eq_ok_iff.mp h
    have hdefaults : IsField (Bytes.joinCommas defaults) := hc _ (by simp [Declaration.fields])
    rw [isField_joinCommas_iff] at hdefaults
    refine ⟨rfl, ⟨hn, he, hne, fun item hi => ?_⟩, List.mem_singleton.mpr rfl⟩
    exact ⟨hdefaults item hi, hd item hi⟩
  | special =>
    obtain ⟨kind, rfl, rfl⟩ := readSpecial_eq_ok_iff.mp h
    exact ⟨rfl, trivial, List.mem_singleton.mpr rfl⟩
  | flag =>
    obtain ⟨f, rfl, rfl, hn, ht⟩ := readFlag_eq_ok_iff.mp h
    simp only [List.forall_mem_cons] at hc
    exact ⟨rfl, ⟨hn, ht, hc.2.2.1⟩, List.mem_singleton.mpr rfl⟩
  | aliasing =>
    obtain ⟨a, hf, rfl, hn, ht⟩ := readAlias_eq_ok_iff.mp h
    exact ⟨rfl, ⟨hn, ht⟩, hf⟩
  | map =>
    obtain ⟨m, hm, hf, rfl, ht, hne⟩ := readMapping_eq_ok_iff.mp h
    exact ⟨by simp [Directive.type, hm], ⟨ht, hne, hc _ (parameter_mem_of_mem_fieldForms hf)⟩, hf⟩
  | listMap =>
    obtain ⟨m, hm, hf, rfl, ht, hne⟩ := readMapping_eq_ok_iff.mp h
    exact ⟨by simp [Directive.type, hm], ⟨ht, hne, hc _ (parameter_mem_of_mem_fieldForms hf)⟩, hf⟩
  | inline =>
    obtain ⟨i, hi, rfl, rfl, ht, hk⟩ := readInlining_eq_ok_iff.mp h
    exact ⟨by simp [Directive.type, hi], ⟨ht, hk⟩, List.mem_singleton.mpr rfl⟩
  | listInline =>
    obtain ⟨i, hi, rfl, rfl, ht, hk⟩ := readInlining_eq_ok_iff.mp h
    exact ⟨by simp [Directive.type, hi], ⟨ht, hk⟩, List.mem_singleton.mpr rfl⟩
  | collapse =>
    obtain ⟨c, rfl, rfl, ht, hne, hb⟩ := readCollapse_eq_ok_iff.mp h
    refine ⟨rfl, ⟨ht, hne, fun b hm => ⟨(hb b hm).1, fun piece hp => ?_⟩⟩,
      List.mem_singleton.mpr rfl⟩
    have hgroup : IsField b.group := hc _ (List.mem_cons_of_mem _ (List.mem_map_of_mem hm))
    exact ⟨isField_joinCommas_iff.mp hgroup piece hp, (hb b hm).2 piece hp⟩
  | metavar =>
    obtain ⟨target, word, rfl, rfl, ht, hw⟩ := readMetavar_eq_ok_iff.mp h
    refine ⟨rfl, ⟨ht, word, hw, rfl⟩, List.mem_singleton.mpr ?_⟩
    rw [toLower_toUpper hw]
  | describe =>
    obtain ⟨target, text, rfl, rfl, ht⟩ := readDescribe_eq_ok_iff.mp h
    simp only [List.forall_mem_cons] at hc
    exact ⟨rfl, ⟨ht, hc.2.1⟩, List.mem_singleton.mpr rfl⟩

/-- Every form of a well-formed directive is read back. -/
theorem readFields_of_wellFormed (hw : d.WellFormed) (hf : fields ∈ d.fieldForms) :
    readFields d.type fields = .ok d := by
  cases d with
  | declare d =>
    obtain rfl := List.mem_singleton.mp hf
    cases d with
    | bool name default => exact readBool_eq_ok_iff.mpr ⟨name, default, rfl, rfl, hw⟩
    | enum name default values =>
      exact readEnum_eq_ok_iff.mpr ⟨name, default, values, rfl, rfl, hw⟩
    | anything name default =>
      exact readAnything_eq_ok_iff.mpr ⟨name, default, rfl, rfl, hw.1⟩
    | list name elements defaults =>
      obtain ⟨hn, he, hne, hd⟩ := hw
      exact readList_eq_ok_iff.mpr
        ⟨name, elements, defaults, rfl, rfl, hn, he, hne, fun item hi => (hd item hi).2⟩
    | special kind => exact readSpecial_eq_ok_iff.mpr ⟨kind, rfl, rfl⟩
  | flag f =>
    obtain rfl := List.mem_singleton.mp hf
    exact readFlag_eq_ok_iff.mpr ⟨f, rfl, rfl, hw.1, hw.2.1⟩
  | aliasing a => exact readAlias_eq_ok_iff.mpr ⟨a, hf, rfl, hw⟩
  | map m =>
    have hread : readMapping m.perItem fields = .ok (.map m) :=
      readMapping_eq_ok_iff.mpr ⟨m, rfl, hf, rfl, hw.1, hw.2.1⟩
    simp only [Directive.type]
    split
    · next hm => rwa [hm] at hread
    · next hm => rwa [Bool.eq_false_iff.mpr hm] at hread
  | inline i =>
    obtain rfl := List.mem_singleton.mp hf
    have hread : readInlining i.perItem [i.target, i.keyword] = .ok (.inline i) :=
      readInlining_eq_ok_iff.mpr ⟨i, rfl, rfl, rfl, hw⟩
    simp only [Directive.type]
    split
    · next hi => rwa [hi] at hread
    · next hi => rwa [Bool.eq_false_iff.mpr hi] at hread
  | collapse c =>
    obtain rfl := List.mem_singleton.mp hf
    obtain ⟨ht, hne, hb⟩ := hw
    refine readCollapse_eq_ok_iff.mpr ⟨c, rfl, rfl, ht, hne, fun b hm => ⟨(hb b hm).1, ?_⟩⟩
    exact fun piece hp => ((hb b hm).2 piece hp).2
  | metavar target text =>
    obtain ⟨ht, word, hword, rfl⟩ := hw
    obtain rfl := List.mem_singleton.mp hf
    rw [toLower_toUpper hword]
    exact readMetavar_eq_ok_iff.mpr ⟨target, word, rfl, rfl, ht, hword⟩
  | describe target text =>
    obtain rfl := List.mem_singleton.mp hf
    exact readDescribe_eq_ok_iff.mpr ⟨target, text, rfl, rfl, hw.1⟩

/-! ## Reading texts -/

/-- A text is read as a directive exactly if it is a printed form of it. -/
theorem parse_eq_ok_iff :
    parse type text = .ok d ↔ d.type = type ∧ d.WellFormed ∧ text ∈ d.printedForms := by
  rw [parse_eq_readFields]
  constructor
  · intro h
    obtain ⟨_, hc, ht⟩ := Bytes.split_eq_iff.mp (Eq.refl (Bytes.split Byte.colon text))
    obtain ⟨htype, hw, hf⟩ := wellFormed_of_readFields hc h
    exact ⟨htype, hw, List.mem_map.mpr ⟨_, hf, ht.symm⟩⟩
  · intro h
    obtain ⟨htype, hw, ht⟩ := h
    obtain ⟨fields, hf, rfl⟩ := List.mem_map.mp ht
    subst htype
    rw [Bytes.split_join (ne_nil_of_mem_fieldForms hf) (isField_of_mem_fieldForms hw hf)]
    exact readFields_of_wellFormed hw hf

/-- All directives are read, each from its own text. -/
theorem parseFrom_eq_ok_iff {position : Nat} {sources : List Source} {ds : List Directive} :
    parseFrom position sources = .ok ds ↔
      List.Forall₂ (fun source d => parse source.type source.text = .ok d) sources ds := by
  induction sources generalizing position ds with
  | nil =>
    rw [parseFrom, List.forall₂_nil_left_iff, Except.ok.injEq, eq_comm]
  | cons source rest ih =>
    rw [parseFrom, List.forall₂_cons_left_iff]
    cases hparse : parse source.type source.text with
    | error cause =>
      constructor
      · intro h
        cases h
      · intro h
        obtain ⟨d, _, h, _⟩ := h
        cases h
    | ok d =>
      show (parseFrom (position + 1) rest).map (d :: ·) = .ok ds ↔ _
      rw [map_eq_ok_iff]
      constructor
      · rintro ⟨tail, htail, rfl⟩
        exact ⟨d, tail, rfl, ih.mp htail, rfl⟩
      · rintro ⟨_, tail, hd, htail, rfl⟩
        cases hd
        exact ⟨tail, ih.mpr htail, rfl⟩

theorem wellFormed_of_parseAll {sources : List Source} {ds : List Directive}
    (h : parseAll sources = .ok ds) : ∀ d ∈ ds, d.WellFormed := by
  have hread := parseFrom_eq_ok_iff.mp h
  clear h
  induction hread with
  | nil => exact List.forall_mem_nil _
  | cons hparse _ ih => exact List.forall_mem_cons.mpr ⟨(parse_eq_ok_iff.mp hparse).2.1, ih⟩

/-! ## How many forms -/

theorem length_printedForms (d : Directive) :
    d.printedForms.length = if d.hasShortForm then 2 else 1 := by
  unfold printedForms
  rw [List.length_map]
  cases d with
  | map m => rcases m with ⟨_, _, _ | _, _⟩ <;> rfl
  | aliasing a => rcases a with ⟨_, _, (_ | _ | _ | _ | _) | _⟩ <;> rfl
  | declare | flag | inline | collapse | metavar | describe => rfl

/-- Two forms of one directive differ as texts, because their lengths differ. -/
theorem nodup_printedForms (d : Directive) : d.printedForms.Nodup := by
  unfold printedForms
  cases d with
  | map m =>
    simp only [fieldForms]
    split
    · refine List.nodup_cons.mpr ⟨fun h => ?_, List.pairwise_singleton _ _⟩
      have hl := congrArg List.length (List.mem_singleton.mp h)
      simp only [Bytes.join_cons_cons, Bytes.join_singleton, List.length_append,
        List.length_singleton] at hl
      omega
    · exact List.pairwise_singleton _ _
  | aliasing a =>
    rcases a with ⟨name, target, (_ | _ | _ | _ | _) | _⟩
    · refine List.nodup_cons.mpr ⟨fun h => ?_, List.pairwise_singleton _ _⟩
      have hl := congrArg List.length (List.mem_singleton.mp h)
      simp only [Bytes.join_cons_cons, Bytes.join_singleton, List.length_append] at hl
      have hlengths : (Bytes.ofString "bool").length < (Bytes.ofString "yes-no").length := by
        decide
      omega
    all_goals exact List.pairwise_singleton _ _
  | declare | flag | inline | collapse | metavar | describe => exact List.pairwise_singleton _ _

/-- Reading accepts exactly the printed forms of well-formed directives. A directive has one form,
but two if it is a mapping that encodes its values or an alias of a `bool`. -/
theorem parse_iff_printed (type : DirectiveType) (text : Bytes) (d : Directive) :
    (parse type text = .ok d ↔ d.type = type ∧ d.WellFormed ∧ text ∈ d.printedForms) ∧
      d.printedForms.Nodup ∧ d.printedForms.length = if d.hasShortForm then 2 else 1 :=
  ⟨parse_eq_ok_iff, nodup_printedForms d, length_printedForms d⟩

example : (Directive.map ⟨"sort", "order", true, false⟩).printedForms =
    ["sort:order", "sort:order:yes"] := by decide

end Elvis.Directive
