import Elvis.Proofs.Help.Rows
import Elvis.Proofs.OptionSet.Acceptance

/-!
# Alignment of the help table

The first column of the table is as wide as its longest line, every line in it is filled up to this
width, and what stands in the second column begins at the same byte in each row (`lines_aligned`).
The values of an option stand behind the last equals sign of its last header.
-/

namespace Elvis

theorem EnumWord.exists_visible {word : Bytes} (h : EnumWord word) :
    ∃ b ∈ word, b ≠ Byte.space := by
  cases word with
  | nil => cases h
  | cons b rest =>
    refine ⟨b, List.mem_cons_self, ?_⟩
    rintro rfl
    exact absurd h.1 (by decide)

theorem IsHeader.exists_visible {cells : List Bytes} (h : IsHeader cells) :
    ∃ b ∈ Help.headerText cells, b ≠ Byte.space := by
  obtain ⟨rest, hjoin⟩ := h.exists_join
  refine ⟨Byte.dash, List.mem_append_right _ ?_, by decide⟩
  rw [hjoin]
  exact List.mem_cons_self

namespace Help

/-! ## Aligned rows -/

/-- A line, filled up with spaces to the width, and what stands beside it. -/
def Fills (width : Nat) (beside line row : Bytes) : Prop :=
  ∃ padding, line.length + padding = width ∧ row = line ++ Bytes.spaces padding ++ beside

/-- Each value begins on a line of its own behind the last equals sign of the header. -/
def UnderEquals (header : Bytes) (values lines : List Bytes) : Prop :=
  ∃ before after, header = before ++ Byte.equals :: after ∧ Byte.equals ∉ after ∧
    lines = values.map (Bytes.spaces (before.length + 1) ++ ·)

/-- The lines of an entry in the first column, and its rows. -/
structure Block where
  headers : List Bytes
  values : List Bytes
  rows : List Bytes

namespace Block

def texts (block : Block) : List Bytes := block.headers ++ block.values

/-- A row for each line, the description beside the first and a bar beside the others, and then the
rows in which the first column is empty. -/
structure Aligned (width : Nat) (description : Bytes) (closing : List Bytes) (block : Block) :
    Prop where
  rows : ∃ first others firstRow otherRows, block.texts = first :: others ∧
    block.rows = firstRow :: otherRows ++ closing ∧
    Fills width ("    " ++ Shell.hereDocText description) first firstRow ∧
    List.Forall₂ (Fills width "  | ") others otherRows ∧
    ∀ row ∈ otherRows, row.length = width + 4
  closing : block.rows.filter (Bytes.spaces (width + 4)).isPrefixOf = closing

end Block

/-- The global variable that an option names beside its own. -/
def alsoFrom : Declaration → Bytes
  | .special kind => ", " ++ kind.globalVariable
  | _ => []

structure OptionBlock (set : OptionSet) (width : Nat) (v : Variable) (block : Block) : Prop where
  headers : block.headers =
    v.type.helpForms.map fun form => headerText (cells form v.metavar v.names)
  values : match v.declaration.values? with
    | some values => ∃ last, block.headers.getLast? = some last ∧
        UnderEquals last values block.values
    | none => block.values = []
  aligned : block.Aligned width v.description
    [Bytes.spaces (width + 4) ++ "Default: $" ++ set.variableName v.name,
     Bytes.spaces (width + 4) ++ "Environment: " ++ set.variableName v.name ++
       alsoFrom v.declaration]

/-- Flags have neither values nor variables. -/
structure FlagBlock (set : OptionSet) (width : Nat) (f : Flag) (block : Block) : Prop where
  headers : block.headers =
    f.targetType.flagForms.map fun form => headerText (cells form [] f.names)
  values : block.values = []
  aligned : block.Aligned width (set.flagDescription f) []

/-- The lines are those of a table with a first column of this width. -/
def IsAligned (set : OptionSet) (width : Nat) (lines : List Bytes) : Prop :=
  ∃ ofOptions ofFlags : List Block, lines = (ofOptions ++ ofFlags).flatMap (·.rows) ∧
    List.Forall₂ (OptionBlock set width)
      ([.bool, .enum, .anything, .special, .list].flatMap fun type =>
        set.vars.filter (·.type = type)) ofOptions ∧
    List.Forall₂ (FlagBlock set width)
      ([.bool, .enum, .anything, .special, .list].flatMap fun type =>
        set.flags.filter (·.targetType = type)) ofFlags ∧
    (∀ block ∈ ofOptions ++ ofFlags, ∀ text ∈ block.texts, text.length ≤ width) ∧
    ∃ block ∈ ofOptions ++ ofFlags, ∃ text ∈ block.texts, text.length = width

variable {set : OptionSet} {s : Settings} {ds : List Directive} {v : Variable} {f : Flag}
  {entry : Entry} {width : Nat} {line description : Bytes} {closing : List Bytes} {block : Block}

/-! ## Rows -/

theorem fills_padTo (h : line.length ≤ width) (beside : Bytes) :
    Fills width beside line (line.padTo width ++ beside) :=
  ⟨width - line.length, by omega, rfl⟩

/-- A line that is not blank is seen in the first column. -/
theorem not_spaces_prefix_padTo (h : line.length ≤ width) (hvisible : ∃ b ∈ line, b ≠ Byte.space)
    (beside : Bytes) : ¬ Bytes.spaces (width + 4) <+: line.padTo width ++ beside := by
  obtain ⟨b, hb, hspace⟩ := hvisible
  intro hprefix
  unfold Bytes.padTo at hprefix
  rw [List.append_assoc] at hprefix
  have hlength : line.length ≤ (Bytes.spaces (width + 4)).length := by
    unfold Bytes.spaces
    rw [List.length_replicate]
    omega
  have hline : line <+: Bytes.spaces (width + 4) :=
    List.prefix_of_prefix_length_le (List.prefix_append _ _) hprefix hlength
  exact hspace (List.eq_of_mem_replicate (hline.subset hb))

theorem Entry.exists_of_mem_tableRows {lines : List Bytes} {row : Bytes}
    (h : row ∈ tableRows width description lines) :
    ∃ line ∈ lines, ∃ beside, row = line.padTo width ++ beside := by
  cases lines with
  | nil => cases h
  | cons first others =>
    rcases List.mem_cons.mp h with rfl | h
    · exact ⟨first, List.mem_cons_self, _, List.append_assoc _ _ _⟩
    · obtain ⟨line, hline, rfl⟩ := List.mem_map.mp h
      exact ⟨line, List.mem_cons_of_mem _ hline, _, rfl⟩

theorem Block.aligned_of_rows (hne : block.texts ≠ [])
    (hwidth : ∀ text ∈ block.texts, text.length ≤ width)
    (hvisible : ∀ text ∈ block.texts, ∃ b ∈ text, b ≠ Byte.space)
    (hclosing : ∀ row ∈ closing, Bytes.spaces (width + 4) <+: row)
    (hrows : block.rows = Entry.tableRows width description block.texts ++ closing) :
    block.Aligned width description closing where
  rows := by
    obtain ⟨first, others, htexts⟩ := List.exists_cons_of_ne_nil hne
    rw [htexts] at hwidth hrows
    obtain ⟨hfirst, hothers⟩ := List.forall_mem_cons.mp hwidth
    have hbeside : first.padTo width ++ "    " ++ Shell.hereDocText description =
        first.padTo width ++ ("    " ++ Shell.hereDocText description) :=
      List.append_assoc _ _ _
    refine ⟨first, others, _, _, htexts, hrows, hbeside ▸ fills_padTo hfirst _, ?_, ?_⟩
    · exact List.forall₂_map_right_iff.mpr
        (List.forall₂_same.mpr fun line hline => fills_padTo (hothers line hline) _)
    · intro row hrow
      obtain ⟨line, hline, rfl⟩ := List.mem_map.mp hrow
      rw [List.length_append, length_padTo (hothers line hline)]
      rfl
  closing := by
    have hnone : (Entry.tableRows width description block.texts).filter
        (Bytes.spaces (width + 4)).isPrefixOf = [] := by
      refine List.filter_eq_nil_iff.mpr fun row hrow hprefix => ?_
      obtain ⟨line, hline, beside, rfl⟩ := Entry.exists_of_mem_tableRows hrow
      exact not_spaces_prefix_padTo (hwidth line hline) (hvisible line hline) beside
        (List.isPrefixOf_iff_prefix.mp hprefix)
    have hall : closing.filter (Bytes.spaces (width + 4)).isPrefixOf = closing :=
      List.filter_eq_self.mpr fun row hrow => List.isPrefixOf_iff_prefix.mpr (hclosing row hrow)
    rw [hrows, List.filter_append, hnone, hall, List.nil_append]

/-! ## Entries -/

/-- The lines and the rows of an entry. -/
def blockOf (width : Nat) (entry : Entry) : Block :=
  { headers := entry.headers.map headerText
    values := entry.values.map
      (Bytes.spaces (afterLastEquals ((entry.headers.map headerText).getLastD [])) ++ ·)
    rows := entry.rows width }

namespace Entry.Readable

theorem lines_ne_nil (h : entry.Readable) : entry.lines ≠ [] := by
  obtain ⟨first, rest, hheaders⟩ := List.exists_cons_of_ne_nil h.headers_ne_nil
  unfold lines
  rw [hheaders]
  exact List.cons_ne_nil _ _

theorem exists_visible (h : entry.Readable) : ∀ line ∈ entry.lines, ∃ b ∈ line, b ≠ Byte.space := by
  intro line hline
  rcases List.mem_append.mp hline with hline | hline
  · obtain ⟨cells, hcells, rfl⟩ := List.mem_map.mp hline
    exact (h.headers cells hcells).exists_visible
  · obtain ⟨value, hvalue, rfl⟩ := List.mem_map.mp hline
    obtain ⟨b, hb, hspace⟩ := (h.values value hvalue).exists_visible
    exact ⟨b, List.mem_append_right _ hb, hspace⟩

/-- The rows of an entry are aligned in every table that is wide enough. -/
theorem aligned (h : entry.Readable) (hwidth : entry.width ≤ width)
    (hclosing : ∀ row ∈ closing, Bytes.spaces (width + 4) <+: row)
    (hrows : entry.rows width = tableRows width entry.description entry.lines ++ closing) :
    (blockOf width entry).Aligned width entry.description closing :=
  Block.aligned_of_rows h.lines_ne_nil (fun _ hline => (length_le_width hline).trans hwidth)
    h.exists_visible hclosing hrows

end Entry.Readable

/-- The values of an option stand under the last header, which takes a value. -/
theorem underEquals_values {values : List Bytes} (h : v.declaration.values? = some values) :
    ∃ last, ((variableEntry set v).headers.map headerText).getLast? = some last ∧
      UnderEquals last values (blockOf width (variableEntry set v)).values := by
  obtain ⟨form, hform, hvalue⟩ : ∃ form, v.type.helpForms.getLast? = some form ∧
      form.takesValue = true := by
    unfold Variable.type
    cases hd : v.declaration with
    | enum | list => exact ⟨_, rfl, rfl⟩
    | bool | anything | special =>
      rw [hd] at h
      cases h
  have hlast : ((variableEntry set v).headers.map headerText).getLast? =
      some (headerText (cells form v.metavar v.names)) := by
    unfold variableEntry
    rw [List.getLast?_map, List.getLast?_map, hform]
    rfl
  have hequals : Byte.equals ∈ headerText (cells form v.metavar v.names) :=
    List.mem_append_right _ (equals_mem_join_cells (List.cons_ne_nil _ _) hvalue)
  obtain ⟨before, after, hheader, hafter⟩ := exists_lastEquals hequals
  refine ⟨_, hlast, before, after, hheader, hafter, ?_⟩
  have hvalues : (variableEntry set v).values = values := by
    unfold variableEntry
    rw [h]
    rfl
  unfold blockOf
  dsimp only
  rw [hvalues, List.getLastD_eq_getLast?, hlast, Option.getD_some, hheader,
    afterLastEquals_append hafter]

theorem optionBlock_blockOf (h : (variableEntry set v).Readable)
    (hwidth : (variableEntry set v).width ≤ width) :
    OptionBlock set width v (blockOf width (variableEntry set v)) where
  headers := List.map_map
  values := by
    cases hvalues : v.declaration.values? with
    | some values => exact underEquals_values hvalues
    | none =>
      unfold blockOf variableEntry
      rw [hvalues]
      rfl
  aligned := by
    refine h.aligned hwidth (fun row hrow => ?_) ?_
    · simp only [List.append_assoc, List.mem_cons, List.not_mem_nil, or_false] at hrow
      rcases hrow with rfl | rfl <;> exact List.prefix_append _ _
    · unfold Entry.rows
      cases hd : v.declaration <;> simp [variableEntry, Entry.sourceRows, alsoFrom, hd]

theorem flagBlock_blockOf (h : (flagEntry set f).Readable)
    (hwidth : (flagEntry set f).width ≤ width) :
    FlagBlock set width f (blockOf width (flagEntry set f)) where
  headers := by
    rw [← f.targetType.helpFlagForms_eq]
    exact List.map_map
  values := rfl
  aligned := h.aligned hwidth nofun rfl

/-! ## The table -/

theorem foldl_max_mem {xs : List Nat} (h : xs ≠ []) : xs.foldl max 0 ∈ xs := by
  obtain ⟨m, hm⟩ := Option.isSome_iff_exists.mp (List.isSome_max?_of_ne_nil h)
  rw [List.foldl_max, hm, Option.getD_some, Nat.zero_max]
  exact List.max?_mem hm

/-- A line of some entry is as long as the first column is wide. -/
theorem exists_length_eq_tableWidth (hne : entries set ≠ [])
    (h : ∀ entry ∈ entries set, entry.lines ≠ []) :
    ∃ entry ∈ entries set, ∃ line ∈ entry.lines, line.length = tableWidth set := by
  have htable : tableWidth set ∈ (entries set).map Entry.width :=
    foldl_max_mem (by simpa using hne)
  obtain ⟨entry, hentry, hwidth⟩ := List.mem_map.mp htable
  have hlines : entry.width ∈ entry.lines.map List.length :=
    foldl_max_mem (by simpa using h entry hentry)
  obtain ⟨line, hline, hlength⟩ := List.mem_map.mp hlines
  exact ⟨entry, hentry, line, hline, hlength.trans hwidth⟩

theorem isAligned_rows (hne : entries set ≠ []) (h : ∀ entry ∈ entries set, entry.Readable) :
    IsAligned set (tableWidth set) ((entries set).flatMap (Entry.rows (tableWidth set))) := by
  have hofOptions : List.Forall₂ (OptionBlock set (tableWidth set))
      (VariableType.helpOrder.flatMap set.variablesOfType)
      ((VariableType.helpOrder.flatMap set.variablesOfType).map
        fun v => blockOf (tableWidth set) (variableEntry set v)) := by
    refine List.forall₂_map_right_iff.mpr (List.forall₂_same.mpr fun v hv => ?_)
    have hentry : variableEntry set v ∈ entries set :=
      mem_entries_iff.mpr (.inl ⟨v, (tableVariables_perm set).mem_iff.mp hv, rfl⟩)
    exact optionBlock_blockOf (h _ hentry) (width_le_tableWidth hentry)
  have hofFlags : List.Forall₂ (FlagBlock set (tableWidth set))
      (VariableType.helpOrder.flatMap set.flagsOfType)
      ((VariableType.helpOrder.flatMap set.flagsOfType).map
        fun f => blockOf (tableWidth set) (flagEntry set f)) := by
    refine List.forall₂_map_right_iff.mpr (List.forall₂_same.mpr fun f hf => ?_)
    have hentry : flagEntry set f ∈ entries set :=
      mem_entries_iff.mpr (.inr ⟨f, (tableFlags_perm set).mem_iff.mp hf, rfl⟩)
    exact flagBlock_blockOf (h _ hentry) (width_le_tableWidth hentry)
  have hblocks : (VariableType.helpOrder.flatMap set.variablesOfType).map
        (fun v => blockOf (tableWidth set) (variableEntry set v)) ++
      (VariableType.helpOrder.flatMap set.flagsOfType).map
        (fun f => blockOf (tableWidth set) (flagEntry set f)) =
      (entries set).map (blockOf (tableWidth set)) := by
    rw [entries_eq, List.map_append, List.map_map, List.map_map]
    rfl
  refine ⟨_, _, ?_, hofOptions, hofFlags, ?_, ?_⟩
  · rw [hblocks, List.flatMap_map]
    rfl
  · rw [hblocks]
    intro block hblock text htext
    obtain ⟨entry, hentry, rfl⟩ := List.mem_map.mp hblock
    exact (Entry.length_le_width htext).trans (width_le_tableWidth hentry)
  · rw [hblocks]
    obtain ⟨entry, hentry, line, hline, hlength⟩ :=
      exists_length_eq_tableWidth hne fun entry hentry => (h entry hentry).lines_ne_nil
    exact ⟨_, List.mem_map_of_mem hentry, line, hline, hlength⟩

/-- The table of every option set with options that is built is aligned, at the length of the
longest line in its first column. -/
theorem lines_aligned {sources : List Directive.Source}
    (hread : Directive.parseAll sources = .ok ds) (hbuild : OptionSet.build s ds = .ok set)
    (hoptions : set.vars ≠ []) : ∃ width, IsAligned set width (lines set) := by
  obtain ⟨hw, urls, _, rfl⟩ := OptionSet.build_eq_ok_iff.mp hbuild
  obtain ⟨v, hv⟩ := List.exists_mem_of_ne_nil _ hoptions
  have hentries : entries (OptionSet.ofDirectives s urls ds) ≠ [] :=
    List.ne_nil_of_mem (mem_entries_iff.mpr (.inl ⟨v, hv, rfl⟩))
  rw [lines_ofDirectives hw.resolved]
  exact ⟨_, isAligned_rows hentries fun _ =>
    readable_of_mem_entries hw.resolved (Directive.wellFormed_of_parseAll hread)⟩

/-- The sample holds an enum list with two names, and flags. -/
theorem lines_aligned_sample :
    ∃ ds set, Directive.parseAll OptionSet.sampleSources = .ok ds ∧
      OptionSet.build OptionSet.sampleSettings ds = .ok set ∧ set.vars ≠ [] ∧
      ∃ width, IsAligned set width (lines set) := by
  obtain ⟨set, hbuild, hvars⟩ : ∃ set,
      OptionSet.build OptionSet.sampleSettings OptionSet.sampleDirectives = .ok set ∧
        set.vars ≠ [] :=
    ⟨_, rfl, List.cons_ne_nil _ _⟩
  have hread : Directive.parseAll OptionSet.sampleSources = .ok OptionSet.sampleDirectives := rfl
  exact ⟨_, set, hread, hbuild, hvars, lines_aligned hread hbuild hvars⟩

end Help

end Elvis
