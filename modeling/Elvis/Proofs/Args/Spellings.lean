import Elvis.Command.Flags
import Elvis.Proofs.Args.Concatenation
import Elvis.Proofs.Args.Table
import Elvis.Proofs.Args.Words

/-!
# The spellings of one flag

A flag that needs a value can be given by its long or its short name, the value in a word of its
own, behind an equals sign, or right behind the short name. All of these are read alike, wherever
a flag can stand (`readsAs_spellings`), but for one: an equals sign in the value ends the name in
front of it, so such a value cannot stand right behind a short name.
-/

namespace Elvis.Args

open Byte

/-! ## Tables of distinct names -/

/-- A dash and one other byte. -/
def IsShortName (name : Bytes) : Prop :=
  name.length = 2 ∧ name.head? = some dash ∧ dash ∉ name.tail ∧ equals ∉ name

instance (name : Bytes) : Decidable (IsShortName name) :=
  inferInstanceAs (Decidable
    (name.length = 2 ∧ name.head? = some dash ∧ dash ∉ name.tail ∧ equals ∉ name))

/-- Long names begin with two dashes and hold no equals sign, and no two names are the same. -/
structure Table.Distinct (table : Table) : Prop where
  long : ∀ spec ∈ table, terminator <+: spec.long ∧ equals ∉ spec.long
  short : ∀ spec ∈ table, spec.short ≠ [] → IsShortName spec.short
  names : ((table.flatMap specSpellings).map Prod.fst).Nodup

variable {table : Table} {style : Style} {spec : FlagSpec}
  {spelling name value word letters : Bytes}
  {kind : Kind} {reading : Reading} {words : List Bytes}

theorem IsShortName.exists_eq (h : IsShortName name) :
    ∃ b, name = [dash, b] ∧ b ≠ dash ∧ b ≠ equals := by
  match name, h with
  | [first, b], ⟨_, hfirst, hdash, hequals⟩ =>
    obtain rfl : first = dash := Option.some.inj hfirst
    simp only [List.tail_cons, List.mem_singleton] at hdash
    simp only [List.mem_cons, List.not_mem_nil, or_false, not_or] at hequals
    exact ⟨b, rfl, Ne.symm hdash, Ne.symm hequals.2⟩

namespace Table.Distinct

theorem registered_eq (h : table.Distinct) : table.registered = table := by
  refine List.filter_eq_self.mpr fun spec hspec => ?_
  obtain ⟨rest, hlong⟩ := (h.long spec hspec).1
  rw [← hlong]
  rfl

theorem resolve? (h : table.Distinct) (hspec : spec ∈ table)
    (hspelling : (spelling, spec.long) ∈ specSpellings spec) :
    table.resolve? spelling = some spec.long := by
  refine last?_append_of_eq_some ?_
  rw [h.registered_eq]
  exact last?_eq_some_of_nodup h.names (List.mem_flatMap.mpr ⟨spec, hspec, hspelling⟩)

theorem nodup_long (h : table.Distinct) : (table.map (·.long)).Nodup := by
  have hnames := h.names
  rw [List.map_flatMap, List.nodup_flatMap] at hnames
  refine List.pairwise_map.mpr (hnames.2.imp fun {spec spec'} hdisjoint heq => ?_)
  have hlong (spec : FlagSpec) : spec.long ∈ (specSpellings spec).map Prod.fst :=
    List.mem_cons_self
  exact hdisjoint (hlong spec) (heq ▸ hlong spec')

theorem lookup? (h : table.Distinct) (hspec : spec ∈ table)
    (hspelling : (spelling, spec.long) ∈ specSpellings spec) :
    table.lookup? spelling = some (spec.long, spec.default.kind) := by
  refine lookup?_eq_some_iff.mpr ⟨h.resolve? hspec hspelling, last?_append_of_eq_some ?_⟩
  rw [h.registered_eq]
  refine last?_eq_some_of_nodup ?_ (List.mem_map.mpr ⟨spec, hspec, rfl⟩)
  rw [List.map_map]
  exact h.nodup_long

/-- A name of three bytes or more is a long one. -/
theorem lookup?_eq_none (h : table.Distinct) (hlength : 3 ≤ spelling.length)
    (hlong : ¬ terminator <+: spelling) : table.lookup? spelling = none := by
  refine Option.eq_none_iff_forall_ne_some.mpr ?_
  rintro ⟨name, kind⟩ hlookup
  have hmem := mem_of_last?_eq_some (lookup?_eq_some_iff.mp hlookup).1
  rcases mem_spellings_iff.mp hmem with hbuiltIn | ⟨spec, hspec, _, hspelling⟩
  · have hall : ∀ entry ∈ builtIn, 3 ≤ entry.1.length → terminator <+: entry.1 := by decide
    exact hlong (hall _ hbuiltIn hlength)
  · rcases (mem_specSpellings_iff.mp hspelling).2 with rfl | ⟨hne, rfl⟩
    · exact hlong (h.long spec hspec).1
    · have htwo := (h.short spec hspec hne).1
      omega

end Table.Distinct

/-! ## Words between other words -/

/-- Where a flag can stand, the words are read so, and the words behind them as they are read
alone. -/
def ReadsAs (table : Table) (style : Style) (words : List Bytes) (reading : Reading) : Prop :=
  ∀ first rest, (parse table style first).error = none → ¬ Terminated table style first →
    parse table style (first ++ words ++ rest) =
      (reached table style first).followedBy (Progress.resumed table style reading rest)

theorem readsAs_of_parse (h : ∀ rest,
    parse table style (words ++ rest) = Progress.resumed table style reading rest) :
    ReadsAs table style words reading := by
  intro first rest hok hterminated
  rw [parse_eq_finish, List.append_assoc, reached_append,
    Progress.finish_foldl_read (stage_reached_of_not_terminated hok hterminated), ← h]
  rfl

theorem parse_flagWord (hword : isFlagWord word) (hterminator : word ≠ terminator)
    (rest : List Bytes) : parse table style (word :: rest) =
      Progress.resumed table style (readFlagWord table style word) rest := by
  unfold parse
  rw [parseFrom, if_neg hterminator, if_pos hword]
  rfl

theorem readsAs_flagWord (hword : isFlagWord word) (hterminator : word ≠ terminator) :
    ReadsAs table style [word] (readFlagWord table style word) :=
  readsAs_of_parse (parse_flagWord hword hterminator)

theorem readsAs_assignment (hword : isFlagWord spelling) (hequals : equals ∉ spelling)
    (hlookup : table.lookup? spelling = some (name, kind)) (hkind : kind ≠ .count) :
    ReadsAs table style [spelling ++ "=" ++ value] (readValue name kind value) := by
  have hread : readFlagWord table style (spelling ++ "=" ++ value) = readValue name kind value :=
    (readFlagWord_assignment hequals value).trans (readAssignment_of_lookup? hlookup hkind value)
  rw [← hread]
  exact readsAs_flagWord (isFlagWord_append (isFlagWord_append hword _) _) assignment_ne_terminator

/-- The value is the next word, whatever it looks like. -/
theorem readsAs_pair (hword : isFlagWord spelling) (hgroup : ¬ isGroupWord spelling)
    (hterminator : spelling ≠ terminator) (hequals : equals ∉ spelling)
    (hlookup : table.lookup? spelling = some (name, kind)) (halone : kind.alone? = none) :
    ReadsAs table style [spelling, value] (readValue name kind value) := by
  refine readsAs_of_parse fun rest => ?_
  have hawaiting : readFlagWord table style spelling =
      ⟨[], .ok (.awaiting spelling name kind)⟩ := by
    rw [readFlagWord_alone hgroup hequals]
    unfold readAlone
    rw [hlookup]
    dsimp only
    rw [halone]
  rw [List.cons_append, parse_flagWord hword hterminator, hawaiting]
  rfl

/-- Two bytes or more behind a dash are short flags. -/
theorem readsAs_group (hgrouping : style.grouping = true) (hlength : 2 ≤ letters.length)
    (hdash : letters.head? ≠ some dash) (hequals : equals ∉ letters) :
    ReadsAs table style [dash :: letters] (readGroup table style letters) := by
  obtain ⟨b, c, others, rfl⟩ : ∃ b c others, letters = b :: c :: others := by
    match letters, hlength with
    | b :: c :: others, _ => exact ⟨b, c, others, rfl⟩
  have hgroup : isGroupWord (dash :: b :: c :: others) = true :=
    Bool.and_eq_true_iff.mpr ⟨rfl, bne_iff_ne.mpr fun heq => hdash (congrArg some heq)⟩
  have hread : readFlagWord table style (dash :: b :: c :: others) =
      readGroup table style (b :: c :: others) := by
    unfold readFlagWord
    rw [Bytes.cut_of_not_mem (List.not_mem_cons_of_ne_of_not_mem (by decide) hequals)]
    exact if_pos (Bool.and_eq_true_iff.mpr ⟨hgrouping, hgroup⟩)
  rw [← hread]
  exact readsAs_flagWord rfl nofun

/-- What follows the short name of a flag that needs a value is the value. -/
theorem readsAs_attached {b : UInt8} (hgrouping : style.grouping = true) (hdash : b ≠ dash)
    (hb : b ≠ equals) (hvalue : value ≠ []) (hequals : equals ∉ value)
    (hlookup : table.lookup? [dash, b] = some (name, kind)) (halone : kind.alone? = none) :
    ReadsAs table style [[dash, b] ++ value] (readValue name kind value) := by
  have hread : readGroup table style (b :: value) = readValue name kind value := by
    obtain ⟨first, others, rfl⟩ := List.exists_cons_of_ne_nil hvalue
    rw [readGroup, hlookup]
    dsimp only
    rw [halone]
    rfl
  have hlength : 2 ≤ (b :: value).length := Nat.succ_le_succ (List.length_pos_iff.mpr hvalue)
  have hhead : (b :: value).head? ≠ some dash := fun heq => hdash (Option.some.inj heq)
  rw [← hread]
  exact readsAs_group hgrouping hlength hhead
    (List.not_mem_cons_of_ne_of_not_mem (Ne.symm hb) hequals)

/-- An equals sign ends the name in front of it, and no flag has that name. -/
theorem readsAs_attached_of_mem {b : UInt8} (h : table.Distinct) (hdash : b ≠ dash)
    (hb : b ≠ equals) (hequals : value.head? ≠ some equals) (hmem : equals ∈ value) :
    ReadsAs table style [[dash, b] ++ value]
      (.failed (unknownFlag table style ([dash, b] ++ (value.cut equals).1))) := by
  obtain ⟨before, after, rfl, hbefore⟩ := List.eq_append_cons_of_mem hmem
  obtain ⟨first, others, rfl⟩ : ∃ first others, before = first :: others := by
    refine List.exists_cons_of_ne_nil ?_
    rintro rfl
    exact hequals rfl
  have hcut : equals ∉ [dash, b] ++ first :: others :=
    List.not_mem_cons_of_ne_of_not_mem (by decide)
      (List.not_mem_cons_of_ne_of_not_mem (Ne.symm hb) hbefore)
  have hlong : ¬ terminator <+: [dash, b] ++ first :: others := by
    rintro ⟨rest, heq⟩
    exact hdash (List.cons.inj (List.cons.inj heq).2).1.symm
  have hread : readFlagWord table style ([dash, b] ++ (first :: others ++ equals :: after)) =
      .failed (unknownFlag table style ([dash, b] ++ first :: others)) := by
    rw [← List.append_assoc]
    unfold readFlagWord
    rw [Bytes.cut_append hcut]
    dsimp only
    unfold readAssignment
    rw [h.lookup?_eq_none (by simp) hlong]
  rw [Bytes.cut_append hbefore, ← hread]
  exact readsAs_flagWord rfl nofun

/-! ## All spellings -/

/-- The spellings of a flag with a value are read alike. Right behind the short name the value may
not hold an equals sign: the word is then an unknown flag. -/
theorem readsAs_spellings (h : table.Distinct) (hgrouping : style.grouping = true)
    (hspec : spec ∈ table) (hshort : spec.short ≠ [])
    (hkind : spec.default.kind = .number ∨ spec.default.kind = .text) (hvalue : value ≠ [])
    (hequals : value.head? ≠ some equals) :
    (spec.long ≠ terminator → ReadsAs table style [spec.long, value]
      (readValue spec.long spec.default.kind value)) ∧
    ReadsAs table style [spec.long ++ "=" ++ value]
      (readValue spec.long spec.default.kind value) ∧
    ReadsAs table style [spec.short, value] (readValue spec.long spec.default.kind value) ∧
    ReadsAs table style [spec.short ++ "=" ++ value]
      (readValue spec.long spec.default.kind value) ∧
    (equals ∉ value → ReadsAs table style [spec.short ++ value]
      (readValue spec.long spec.default.kind value)) ∧
    (equals ∈ value → ReadsAs table style [spec.short ++ value]
      (.failed (unknownFlag table style (spec.short ++ (value.cut equals).1)))) := by
  have hlong := h.lookup? hspec (Table.mem_specSpellings_iff.mpr ⟨rfl, .inl rfl⟩)
  have hother := h.lookup? hspec (Table.mem_specSpellings_iff.mpr ⟨rfl, .inr ⟨hshort, rfl⟩⟩)
  obtain ⟨halone, hcount⟩ : spec.default.kind.alone? = none ∧ spec.default.kind ≠ .count := by
    rcases hkind with hkind | hkind
    · rw [hkind]
      decide
    · rw [hkind]
      decide
  obtain ⟨⟨rest, hprefix⟩, hnotMem⟩ := h.long spec hspec
  have hword : isFlagWord spec.long := by
    rw [← hprefix]
    rfl
  have hgroup : ¬ isGroupWord spec.long := by
    rw [← hprefix]
    cases rest <;> exact Bool.false_ne_true
  obtain ⟨b, hb, hdash, hne⟩ := (h.short spec hspec hshort).exists_eq
  have hnotMem' : equals ∉ spec.short := (h.short spec hspec hshort).2.2.2
  rw [hb] at hother hnotMem' ⊢
  exact
    ⟨fun hterminator => readsAs_pair hword hgroup hterminator hnotMem hlong halone,
      readsAs_assignment hword hnotMem hlong hcount,
      readsAs_pair rfl Bool.false_ne_true
        (fun heq => hdash (List.cons.inj (List.cons.inj heq).2).1) hnotMem' hother halone,
      readsAs_assignment rfl hnotMem' hother hcount,
      fun hmem => readsAs_attached hgrouping hdash hne hvalue hmem hother halone,
      readsAs_attached_of_mem h hdash hne hequals⟩

theorem distinct_commandTable : Command.table.Distinct := ⟨by decide, by decide, by decide⟩

/-- A value with an equals sign in it is unknown as the end of a word, and read in any other. -/
theorem readsAs_spellings_anything :
    ⟨"--anything", "-A", .text []⟩ ∈ Command.table ∧
      ReadsAs Command.table sampleStyle ["-A", "site:a=b"]
        (readValue "--anything" .text "site:a=b") ∧
      ReadsAs Command.table sampleStyle ["-Asite:-"] (readValue "--anything" .text "site:-") ∧
      ReadsAs Command.table sampleStyle ["-Asite:a=b"]
        (.failed (unknownFlag Command.table sampleStyle "-Asite:a")) := by
  have hspec : ⟨"--anything", "-A", .text []⟩ ∈ Command.table := by decide
  have hgrouping : sampleStyle.grouping = true := rfl
  have hequals : equals ∈ ("site:a=b" : Bytes) ∧ ("site:a=b" : Bytes).head? ≠ some equals := by
    decide
  have hdash : ("site:-" : Bytes) ≠ [] ∧ equals ∉ ("site:-" : Bytes) ∧
      ("site:-" : Bytes).head? ≠ some equals := by
    decide
  obtain ⟨_, _, hpair, _, _, hrefused⟩ := readsAs_spellings distinct_commandTable hgrouping hspec
    nofun (.inr rfl) (List.ne_nil_of_mem hequals.1) hequals.2
  obtain ⟨_, _, _, _, hattached, _⟩ := readsAs_spellings distinct_commandTable hgrouping hspec
    nofun (.inr rfl) hdash.1 hdash.2.2
  exact ⟨hspec, hpair, hattached hdash.2.1, hrefused hequals.1⟩

/-- Two spellings of one flag with one value that are not read alike. -/
theorem attached_equals_refused :
    parse Command.table sampleStyle ["--anything", "site:a=b"] =
        ⟨[⟨"--anything", "site:a=b"⟩], [], none⟩ ∧
      parse Command.table sampleStyle ["-Asite:a=b"] =
        ⟨[], [], some (.unknownFlag "-Asite:a" [])⟩ := by
  decide +kernel

end Elvis.Args
