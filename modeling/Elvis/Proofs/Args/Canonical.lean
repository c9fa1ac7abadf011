import Elvis.Args.Query
import Elvis.Proofs.Args.Concatenation
import Elvis.Proofs.Args.Occurrences
import Elvis.Proofs.Args.Table
import Elvis.Proofs.Args.Words

/-!
# Canonical command lines

What was read of a command line can be written down again: each flag with its value in one word,
then a terminator, then the positional words. Reading this gives the same back
(`ofWords_canonicalWords`).
-/

namespace Elvis.Args

open Byte

/-- A name that cannot be taken for a terminator, for short flags or for a flag with a value. -/
def IsLongName (name : Bytes) : Prop :=
  terminator <+: name ∧ 3 ≤ name.length ∧ equals ∉ name

instance (name : Bytes) : Decidable (IsLongName name) :=
  inferInstanceAs (Decidable (terminator <+: name ∧ 3 ≤ name.length ∧ equals ∉ name))

/-- The names of flags, those of the table and those that every table knows. -/
def Table.names (table : Table) : List Bytes :=
  "--help" :: "--version" :: table.map (·.long)

/-- Every name stands for its own flag: no flag has the name of another one for short. -/
structure Table.Unambiguous (table : Table) : Prop where
  long : ∀ spec ∈ table, IsLongName spec.long
  short : ∀ spec ∈ table, spec.short ∉ table.names

/-- The word that gives the flag once more. -/
def canonicalWord (table : Table) (o : Occurrence) : Bytes :=
  if Table.last? table.kinds o.name = some .count then o.name else o.name ++ "=" ++ o.value

/-- The words that give what was read of a command line. -/
def CommandLine.canonicalWords (line : CommandLine) : List Bytes :=
  line.parsed.occurrences.map (canonicalWord line.table) ++ terminator :: line.parsed.positionals

variable {table : Table} {style : Style} {name : Bytes} {o : Occurrence} {words : List Bytes}

/-! ## Names -/

theorem IsLongName.reads (h : IsLongName name) :
    isFlagWord name ∧ ¬ isGroupWord name ∧ name ≠ terminator ∧ equals ∉ name := by
  obtain ⟨⟨rest, rfl⟩, hlength, hequals⟩ := h
  cases rest with
  | nil => exact absurd hlength (by decide)
  | cons b rest => exact ⟨rfl, Bool.false_ne_true, nofun, hequals⟩

theorem Table.mem_names_iff : name ∈ table.names ↔
    name = "--help" ∨ name = "--version" ∨ ∃ spec ∈ table, name = spec.long := by
  unfold names
  rw [List.mem_cons, List.mem_cons, List.mem_map]
  simp only [eq_comm]

theorem Table.mem_names_of_lookup? {spelling : Bytes} {kind : Kind}
    (h : table.lookup? spelling = some (name, kind)) : name ∈ table.names :=
  mem_names_iff.mpr (name_of_resolve?_eq_some (lookup?_eq_some_iff.mp h).1)

theorem Table.Unambiguous.isLongName (h : table.Unambiguous) (hname : name ∈ table.names) :
    IsLongName name := by
  rcases mem_names_iff.mp hname with rfl | rfl | ⟨spec, hspec, rfl⟩
  · decide
  · decide
  · exact h.long spec hspec

theorem Table.Unambiguous.resolve?_name (h : table.Unambiguous) (hname : name ∈ table.names) :
    table.resolve? name = some name := by
  have hlong := h.isLongName hname
  refine last?_eq_some_of_unique (mem_spellings_iff.mpr ?_) fun other hother => ?_
  · rcases mem_names_iff.mp hname with rfl | rfl | ⟨spec, hspec, rfl⟩
    · exact .inl (by decide)
    · exact .inl (by decide)
    · have hne : spec.long ≠ [] := by
        intro hnil
        rw [hnil] at hlong
        exact absurd hlong (by decide)
      exact .inr ⟨spec, hspec, hne, mem_specSpellings_iff.mpr ⟨rfl, .inl rfl⟩⟩
  · rcases mem_spellings_iff.mp hother with hother | ⟨spec, hspec, _, hother⟩
    · -- of the built-in spellings only `-h` is not its own name, and it is too short for one
      have hbuiltIn : ∀ entry ∈ builtIn, IsLongName entry.1 → entry.2 = entry.1 := by decide
      exact hbuiltIn _ hother hlong
    · obtain ⟨rfl, rfl | ⟨_, rfl⟩⟩ := mem_specSpellings_iff.mp hother
      · rfl
      · exact absurd hname (h.short spec hspec)

/-! ## Words -/

theorem gives_canonicalWord (h : table.Unambiguous) (ho : Recorded table o) :
    Gives table style (canonicalWord table o) o := by
  obtain ⟨spelling, kind, hlookup, hvalue⟩ := ho
  have hname := Table.mem_names_of_lookup? hlookup
  obtain ⟨hword, hgroup, hterminator, hequals⟩ := (h.isLongName hname).reads
  have hkind := (Table.lookup?_eq_some_iff.mp hlookup).2
  have hown : table.lookup? o.name = some (o.name, kind) :=
    Table.lookup?_eq_some_iff.mpr ⟨h.resolve?_name hname, hkind⟩
  unfold canonicalWord
  rw [hkind]
  split
  · next hcount =>
    obtain rfl := Option.some.inj hcount
    have hone : o.value = "1" := hvalue
    have halone : Kind.count.alone? = some o.value := by
      rw [hone]
      rfl
    exact gives_alone hword hgroup hterminator hequals hown halone
  · next hcount =>
    have hkind : kind ≠ .count := fun heq => hcount (congrArg some heq)
    exact gives_assignment hword hequals hown hkind (Kind.accept?_of_records hvalue)

/-! ## Command lines -/

/-- A command line that was read without an error is read like its canonical form, in any style.
So all questions about its flags have the same answers, and the canonical form is its own. -/
theorem ofWords_canonicalWords (h : table.Unambiguous)
    (hok : (CommandLine.ofWords table style words).parsed.error = none) (style' : Style) :
    CommandLine.ofWords table style' (CommandLine.ofWords table style words).canonicalWords =
        CommandLine.ofWords table style words ∧
      (CommandLine.ofWords table style'
          (CommandLine.ofWords table style words).canonicalWords).canonicalWords =
        (CommandLine.ofWords table style words).canonicalWords := by
  have hreads : Reads table style'
      ((parse table style words).occurrences.map (canonicalWord table))
      ((parse table style words).occurrences.map id) :=
    reads_map fun o ho => gives_canonicalWord h (recorded_of_mem_parse ho)
  have hpositionals : parse table style' (terminator :: (parse table style words).positionals) =
      ⟨[], (parse table style words).positionals, (parse table style words).error⟩ := by
    rw [show (parse table style words).error = none from hok]
    rfl
  have hparse : parse table style' (CommandLine.ofWords table style words).canonicalWords =
      parse table style words := by
    refine (hreads (terminator :: (parse table style words).positionals)).trans ?_
    rw [hpositionals, List.map_id]
    simp [Parsed.after]
  have hline : CommandLine.ofWords table style'
      (CommandLine.ofWords table style words).canonicalWords =
        CommandLine.ofWords table style words :=
    congrArg (CommandLine.mk table) hparse
  exact ⟨hline, congrArg CommandLine.canonicalWords hline⟩

/-- One flag of each kind. -/
def mixedTable : Table :=
  ⟨"--quiet", "-q", .switch false⟩ :: ⟨"--num-tabs", "", .number 1⟩ :: sampleTable

def mixedWords : List Bytes :=
  ["-vqo", "-v=1", "ex", "--quiet= off", "--num-tabs", " 3", "--", "-v"]

/-- Grouped flags, a value that looks like a flag and one with a blank, and a flag behind the
terminator. -/
theorem ofWords_canonicalWords_mixed :
    mixedTable.Unambiguous ∧
      (CommandLine.ofWords mixedTable sampleStyle mixedWords).parsed.error = none ∧
      (CommandLine.ofWords mixedTable sampleStyle mixedWords).canonicalWords =
        ["--verbose", "--quiet=true", "--output=-v=1", "--quiet=false", "--num-tabs= 3", "--",
          "ex", "-v"] ∧
      CommandLine.ofWords mixedTable ⟨false, false, 0⟩
          (CommandLine.ofWords mixedTable sampleStyle mixedWords).canonicalWords =
        CommandLine.ofWords mixedTable sampleStyle mixedWords := by
  have htable : mixedTable.Unambiguous := ⟨by decide, by decide⟩
  have hok : (CommandLine.ofWords mixedTable sampleStyle mixedWords).parsed.error = none := by
    decide
  exact ⟨htable, hok, by decide, (ofWords_canonicalWords htable hok _).1⟩

end Elvis.Args
