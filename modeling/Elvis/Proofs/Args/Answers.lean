import Elvis.Proofs.Args.Occurrences
import Elvis.Proofs.Args.Store
import Elvis.Proofs.Args.Table

/-!
# What a command line answers

Whatever the words and the flags are, the values that a command line holds for a flag are those of
its occurrences, each in the form of the flag's kind, so a flag that was given answers with its last
value (`consistent_ofWords`). Any beginning of a command line is one, so this holds after each of
its words; nothing is asked of the words behind an error.
-/

namespace Elvis.Args

namespace Table

/-- The flag that a spelling stands for; what stands for none is its own name. -/
def nameOf (table : Table) (spelling : Bytes) : Bytes := (table.resolve? spelling).getD spelling

/-- The flag that was registered last under a name is of this kind; the flags that every table knows
are switches as long as none is registered under their names. -/
def KindOf (table : Table) (name : Bytes) (kind : Kind) : Prop :=
  match (table.registered.filter (·.long = name)).getLast? with
  | some spec => kind = spec.default.kind
  | none => (name = "--help" ∨ name = "--version") ∧ kind = .switch

end Table

namespace CommandLine

/-- The answers about a flag with this last value, whatever the default of the asker. -/
def Answers (line : CommandLine) (spelling last : Bytes) : Kind → Prop
  | .switch => ∃ on, last = switchText on ∧ ∀ default, line.getSwitch spelling default = on
  | .number =>
      ∃ n, Integer.read32? last = some n ∧ ∀ default, line.getNumber spelling default = n
  | .text => ∀ default, line.getText spelling default = last
  | .count => last = "1" ∧ (∀ default, line.getNumber spelling default = 1) ∧
      (∀ default, line.getSwitch spelling default = true) ∧
      ∀ default, line.getText spelling default = "1"

/-- What is recorded of the flags fits together. -/
structure Consistent (line : CommandLine) : Prop where
  /-- The values of each flag are those of its occurrences, in order. -/
  values : ∀ spelling, line.values spelling =
    (line.parsed.occurrences.filter (·.name = line.table.nameOf spelling)).map (·.value)
  names : ∀ o ∈ line.parsed.occurrences, o.name = "--help" ∨ o.name = "--version" ∨
    ∃ spec ∈ line.table, spec.long ≠ [] ∧ o.name = spec.long
  recorded : ∀ o ∈ line.parsed.occurrences, ∃ kind, line.table.KindOf o.name kind ∧
    kind.Records o.value
  /-- A flag that was given answers with its last value and not with a default. -/
  answers : ∀ spelling, line.has spelling → ∃ kind last,
    line.table.KindOf (line.table.nameOf spelling) kind ∧
      (line.values spelling).getLast? = some last ∧ line.Answers spelling last kind
  counted : ∀ spelling, line.table.KindOf (line.table.nameOf spelling) .count →
    (line.values spelling).length < 2147483648 →
    line.count spelling = (line.values spelling).length

end CommandLine

variable {table : Table} {style : Style} {spelling name last : Bytes} {kind kind' : Kind}
  {line : CommandLine} {words : List Bytes} {o : Occurrence}

/-! ## Names and kinds -/

namespace Table

/-- A name is one of the spellings of its flag. -/
theorem mem_spellings_name (h : (spelling, name) ∈ table.spellings) :
    (name, name) ∈ table.spellings := by
  have hbuiltIn : ∀ entry ∈ builtIn, (entry.2, entry.2) ∈ builtIn := by decide
  rcases mem_spellings_iff.mp h with h | ⟨spec, hspec, hlong, h⟩
  · exact mem_spellings_iff.mpr (.inl (hbuiltIn _ h))
  · obtain ⟨rfl, _⟩ := mem_specSpellings_iff.mp h
    exact mem_spellings_iff.mpr
      (.inr ⟨spec, hspec, hlong, mem_specSpellings_iff.mpr ⟨rfl, .inl rfl⟩⟩)

theorem mem_spellings_name_iff : (name, name) ∈ table.spellings ↔
    name = "--help" ∨ name = "--version" ∨ ∃ spec ∈ table, spec.long ≠ [] ∧ name = spec.long := by
  have hbuiltIn : (name, name) ∈ builtIn ↔ name = "--help" ∨ name = "--version" := by
    constructor
    · have hall : ∀ entry ∈ builtIn, entry.2 = "--help" ∨ entry.2 = "--version" := by decide
      exact hall _
    · rintro (rfl | rfl) <;> decide
  rw [mem_spellings_iff, hbuiltIn, or_assoc]
  refine or_congr_right (or_congr_right (exists_congr fun spec => and_congr_right fun _ => ?_))
  refine and_congr_right fun _ => ?_
  rw [mem_specSpellings_iff]
  constructor
  · exact fun h => h.1
  · exact fun h => ⟨h, .inl h⟩

/-- A kind is found under a name if it is that of the last flag of the name. -/
theorem last?_kinds_eq_some_iff : last? table.kinds name = some kind ↔ table.KindOf name kind := by
  have hregistered : last? (table.registered.map fun spec => (spec.long, spec.default.kind)) name =
      ((table.registered.filter (·.long = name)).getLast?).map (·.default.kind) := by
    unfold last?
    rw [List.filter_map, List.map_map, List.getLast?_map]
    rfl
  have hkinds : last? table.kinds name =
      (((table.registered.filter (·.long = name)).getLast?).map (·.default.kind)).or
        (last? builtInKinds name) := by
    rw [← hregistered]
    unfold last? kinds
    rw [List.filter_append, List.map_append, List.getLast?_append]
  unfold KindOf
  rw [hkinds]
  cases (table.registered.filter (·.long = name)).getLast? with
  | some spec => simp [eq_comm]
  | none =>
    rw [Option.map_none, Option.none_or]
    constructor
    · intro h
      have hmem := mem_of_last?_eq_some h
      simp only [builtInKinds, List.mem_cons, Prod.mk.injEq, List.not_mem_nil, or_false] at hmem
      tauto
    · rintro ⟨rfl | rfl, rfl⟩ <;> decide

theorem KindOf.unique (h : table.KindOf name kind) (h' : table.KindOf name kind') : kind = kind' :=
  Option.some.inj ((last?_kinds_eq_some_iff.mpr h).symm.trans (last?_kinds_eq_some_iff.mpr h'))

end Table

/-! ## Occurrences -/

theorem Recorded.mem_spellings (h : Recorded table o) : (o.name, o.name) ∈ table.spellings := by
  obtain ⟨spelling, kind, hlookup, _⟩ := h
  exact Table.mem_spellings_name
    (Table.mem_of_last?_eq_some (Table.lookup?_eq_some_iff.mp hlookup).1)

theorem Recorded.kindOf (h : Recorded table o) :
    ∃ kind, table.KindOf o.name kind ∧ kind.Records o.value := by
  obtain ⟨spelling, kind, hlookup, hvalue⟩ := h
  exact ⟨kind, Table.last?_kinds_eq_some_iff.mp (Table.lookup?_eq_some_iff.mp hlookup).2, hvalue⟩

/-- What stands for no flag is not the name of one either. -/
theorem values_eq_filter (h : ∀ o ∈ line.parsed.occurrences, Recorded line.table o)
    (spelling : Bytes) : line.values spelling =
      (line.parsed.occurrences.filter (·.name = line.table.nameOf spelling)).map (·.value) := by
  rw [line.values_eq]
  unfold Table.nameOf
  cases hresolve : line.table.resolve? spelling with
  | some name => rfl
  | none =>
    have hnone : line.parsed.occurrences.filter (·.name = spelling) = [] := by
      refine List.filter_eq_nil_iff.mpr fun o ho hname => ?_
      have hmem := (h o ho).mem_spellings
      rw [of_decide_eq_true hname] at hmem
      obtain ⟨name, hsome⟩ := Table.exists_last?_eq_some (List.mem_map_of_mem hmem)
      cases hresolve.symm.trans hsome
    rw [Option.getD_none, hnone]
    rfl

/-- Every value of a flag has the form of the flag's kind. -/
theorem records_of_mem_values (h : ∀ o ∈ line.parsed.occurrences, Recorded line.table o)
    {value : Bytes} (hvalue : value ∈ line.values spelling) :
    ∃ kind, line.table.KindOf (line.table.nameOf spelling) kind ∧ kind.Records value := by
  rw [values_eq_filter h] at hvalue
  obtain ⟨o, ho, rfl⟩ := List.mem_map.mp hvalue
  obtain ⟨ho, hname⟩ := List.mem_filter.mp ho
  rw [← of_decide_eq_true hname]
  exact (h o ho).kindOf

/-! ## Answers -/

theorem get_eq_of_getLast? {α : Type} {read? : Bytes → Option α} {x : α}
    (hlast : (line.values spelling).getLast? = some last) (hread : read? last = some x)
    (default : α) : line.get read? spelling default = x := by
  unfold CommandLine.get
  rw [hlast]
  dsimp only
  rw [hread, Option.getD_some]

theorem answers_of_records (hlast : (line.values spelling).getLast? = some last)
    (hrecords : kind.Records last) : line.Answers spelling last kind := by
  cases kind with
  | text => exact get_eq_of_getLast? hlast rfl
  | number =>
    obtain ⟨n, hn⟩ := Option.isSome_iff_exists.mp hrecords
    exact ⟨n, hn, get_eq_of_getLast? hlast hn⟩
  | switch =>
    rcases hrecords with rfl | rfl
    · exact ⟨true, rfl, get_eq_of_getLast? hlast (by decide)⟩
    · exact ⟨false, rfl, get_eq_of_getLast? hlast (by decide)⟩
  | count =>
    obtain rfl : last = "1" := hrecords
    exact ⟨rfl, get_eq_of_getLast? hlast (by decide), get_eq_of_getLast? hlast (by decide),
      get_eq_of_getLast? hlast rfl⟩

theorem wrap_of_lt {n : Nat} (h : n < 2147483648) : Integer.wrap 32 n = n := by
  have hbound : Integer.bound 32 = 2147483648 := rfl
  unfold Integer.wrap
  rw [hbound]
  exact Int.bmod_eq_of_le_mul_two (by omega) (by omega)

/-- A sum of ones is their number. -/
theorem foldl_add_ones {values : List Bytes} (h : ∀ value ∈ values, value = "1") (total : Int) :
    values.foldl (fun total value => total + (Integer.read32? value).getD 0) total =
      total + values.length := by
  have hone : (Integer.read32? "1").getD 0 = 1 := by decide
  induction values generalizing total with
  | nil => exact (Int.add_zero total).symm
  | cons value values ih =>
    obtain ⟨rfl, hvalues⟩ := List.forall_mem_cons.mp h
    rw [List.foldl_cons, ih hvalues, hone, List.length_cons]
    omega

theorem count_eq_length (h : ∀ value ∈ line.values spelling, value = "1")
    (hlength : (line.values spelling).length < 2147483648) :
    line.count spelling = (line.values spelling).length := by
  unfold CommandLine.count
  dsimp only
  rw [foldl_add_ones h, Int.zero_add, wrap_of_lt hlength]

/-! ## Command lines -/

/-- Every command line is consistent, also one that could not be read to its end. -/
theorem consistent_ofWords (table : Table) (style : Style) (words : List Bytes) :
    (CommandLine.ofWords table style words).Consistent := by
  have hrecorded : ∀ o ∈ (CommandLine.ofWords table style words).parsed.occurrences,
      Recorded table o :=
    fun o => recorded_of_mem_parse
  refine ⟨values_eq_filter hrecorded, fun o ho => ?_, fun o ho => (hrecorded o ho).kindOf,
    fun spelling hgiven => ?_, fun spelling hcount hlength => ?_⟩
  · exact Table.mem_spellings_name_iff.mp (hrecorded o ho).mem_spellings
  · have hne : (CommandLine.ofWords table style words).values spelling ≠ [] := by
      simpa [CommandLine.has] using hgiven
    have hlast := List.getLast?_eq_some_getLast hne
    obtain ⟨kind, hkind, hvalue⟩ := records_of_mem_values hrecorded (List.getLast_mem hne)
    exact ⟨kind, _, hkind, hlast, answers_of_records hlast hvalue⟩
  · refine count_eq_length (fun value hvalue => ?_) hlength
    obtain ⟨kind, hkind, hrecords⟩ := records_of_mem_values hrecorded hvalue
    obtain rfl := hkind.unique hcount
    exact hrecords

end Elvis.Args
