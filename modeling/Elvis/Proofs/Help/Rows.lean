import Elvis.Proofs.Help.Cells
import Mathlib.Data.List.SplitBy

/-!
# Rows of the help table

A row of the table that holds spellings is known by its beginning, and what stands beside them tells
whether it begins an entry. So the spellings of every entry can be read back from the lines of the
table (`readEntries_rows`).
-/

namespace Elvis.Help

/-! ## Reading the table -/

/-- A row that holds spellings. -/
structure HeaderRow where
  /-- The row goes on with the entry above it. -/
  continues : Bool
  cells : List Bytes
deriving DecidableEq, Repr

def headerRow? (width : Nat) (line : Bytes) : Option HeaderRow :=
  if ("  -" : Bytes).isPrefixOf line then
    some ⟨("  | " : Bytes).isPrefixOf (line.drop width), pieces (strip (line.take width))⟩
  else none

/-- The spellings in each header of each entry. -/
def readEntries (width : Nat) (lines : List Bytes) : List (List (List Bytes)) :=
  ((lines.filterMap (headerRow? width)).splitBy fun _ row => row.continues).map (·.map (·.cells))

variable {width : Nat} {cells : List Bytes} {entry : Entry}

theorem length_padTo {s : Bytes} (h : s.length ≤ width) : (s.padTo width).length = width := by
  unfold Bytes.padTo Bytes.spaces
  rw [List.length_append, List.length_replicate]
  omega

/-! ## One row -/

theorem headerRow?_header (h : IsHeader cells) (hwidth : (headerText cells).length ≤ width)
    (beside : Bytes) :
    headerRow? width ((headerText cells).padTo width ++ beside) =
      some ⟨("  | " : Bytes).isPrefixOf beside, cells⟩ := by
  have hlength := length_padTo hwidth
  have hdash : ("  -" : Bytes).isPrefixOf ((headerText cells).padTo width ++ beside) = true := by
    obtain ⟨rest, hjoin⟩ := h.exists_join
    unfold Bytes.padTo headerText
    rw [hjoin]
    rfl
  unfold headerRow?
  rw [if_pos hdash, List.take_left' hlength, List.drop_left' hlength]
  unfold Bytes.padTo
  rw [pieces_strip_headerText h]

/-- The third byte of a header is a dash. -/
theorem headerRow?_spaces {n : Nat} (h : 3 ≤ n) (s : Bytes) :
    headerRow? width (Bytes.spaces n ++ s) = none := by
  obtain ⟨m, rfl⟩ := Nat.exists_eq_add_of_le' h
  rfl

/-! ## The rows of an entry -/

namespace Entry

/-- Headers can be told from each other, and values from headers. -/
structure Readable (entry : Entry) : Prop where
  headers_ne_nil : entry.headers ≠ []
  headers : ∀ cells ∈ entry.headers, IsHeader cells
  values : ∀ value ∈ entry.values, EnumWord value
  /-- No value begins as far to the left as the dash of a header. -/
  indented : entry.values ≠ [] → 3 ≤ afterLastEquals ((entry.headers.map headerText).getLastD [])

/-- The headers as rows, of which the first begins the entry. -/
def headerRows (entry : Entry) : List HeaderRow :=
  match entry.headers with
  | [] => []
  | first :: rest => ⟨false, first⟩ :: rest.map (⟨true, ·⟩)

theorem headerRow?_value (h : entry.Readable) {line : Bytes}
    (hline : line ∈ entry.values.map (Bytes.spaces
      (afterLastEquals ((entry.headers.map headerText).getLastD [])) ++ ·)) (beside : Bytes) :
    headerRow? width (line.padTo width ++ beside) = none := by
  obtain ⟨value, hvalue, rfl⟩ := List.mem_map.mp hline
  unfold Bytes.padTo
  rw [List.append_assoc, List.append_assoc]
  exact headerRow?_spaces (h.indented (List.ne_nil_of_mem hvalue)) _

theorem filterMap_sourceRows (source : Source) :
    (sourceRows width source).filterMap (headerRow? width) = [] := by
  have hindent (s : Bytes) : headerRow? width (Bytes.spaces (width + 4) ++ s) = none :=
    headerRow?_spaces (by omega) s
  unfold sourceRows
  simp only [List.append_assoc]
  rw [List.filterMap_cons_none (hindent _), List.filterMap_cons_none (hindent _), List.filterMap_nil]

theorem length_le_width {line : Bytes} (h : line ∈ entry.lines) : line.length ≤ entry.width := by
  unfold width
  rw [List.foldl_max]
  exact (List.le_max?_getD_of_mem (List.mem_map_of_mem h)).trans (Nat.le_max_right _ _)

/-- The rows of the headers and the values. -/
theorem filterMap_tableRows (h : entry.Readable) (hwidth : entry.width ≤ width)
    (description : Bytes) :
    (tableRows width description entry.lines).filterMap (headerRow? width) = entry.headerRows := by
  have hlength : ∀ cells ∈ entry.headers, (headerText cells).length ≤ width := fun cells hcells =>
    (length_le_width (List.mem_append_left _ (List.mem_map_of_mem hcells))).trans hwidth
  have hvalues : (entry.values.map (Bytes.spaces (afterLastEquals
      ((entry.headers.map headerText).getLastD [])) ++ ·)).filterMap
        (headerRow? width ∘ fun line => line.padTo width ++ ("  | " : Bytes)) = [] :=
    List.filterMap_eq_nil_iff.mpr fun line hline => headerRow?_value h hline _
  obtain ⟨first, rest, hheaders⟩ := List.exists_cons_of_ne_nil h.headers_ne_nil
  obtain ⟨hfirst, hrest⟩ := List.forall_mem_cons.mp (hheaders ▸ h.headers)
  obtain ⟨hfirstLength, hrestLength⟩ := List.forall_mem_cons.mp (hheaders ▸ hlength)
  have hothers : (rest.map headerText).filterMap
      (headerRow? width ∘ fun line => line.padTo width ++ ("  | " : Bytes)) =
        rest.map (⟨true, ·⟩) := by
    rw [List.filterMap_map, ← List.filterMap_eq_map]
    exact List.filterMap_congr fun cells hcells =>
      headerRow?_header (hrest cells hcells) (hrestLength cells hcells) _
  unfold lines headerRows
  rw [hheaders] at hvalues
  rw [hheaders]
  dsimp only
  rw [List.map_cons, List.cons_append, tableRows, List.append_assoc,
    List.filterMap_cons_some (headerRow?_header hfirst hfirstLength _), List.filterMap_map,
    List.filterMap_append, hothers]
  rw [List.map_cons] at hvalues
  rw [hvalues, List.append_nil]
  rfl

theorem filterMap_rows (h : entry.Readable) (hwidth : entry.width ≤ width) :
    (entry.rows width).filterMap (headerRow? width) = entry.headerRows := by
  unfold rows
  rw [List.filterMap_append, filterMap_tableRows h hwidth]
  cases entry.source with
  | none => exact List.append_nil _
  | some source => exact (congrArg _ (filterMap_sourceRows source)).trans (List.append_nil _)

theorem headerRows_map_cells (entry : Entry) : entry.headerRows.map (·.cells) = entry.headers := by
  unfold headerRows
  cases entry.headers with
  | nil => rfl
  | cons first rest =>
    dsimp only
    rw [List.map_cons, List.map_map]
    exact congrArg _ (List.map_id _)

end Entry

/-! ## All entries -/

/-- A new group starts where a row does not go on with the one above it. -/
theorem splitBy_flatten_headerRows {entries : List Entry}
    (h : ∀ entry ∈ entries, entry.headers ≠ []) :
    (entries.map Entry.headerRows).flatten.splitBy (fun _ row => row.continues) =
      entries.map Entry.headerRows := by
  have hgroup : ∀ group ∈ entries.map Entry.headerRows, ∃ first rest,
      group = first :: rest ∧ first.continues = false ∧ ∀ row ∈ rest, row.continues = true := by
    intro group hgroup
    obtain ⟨entry, hentry, rfl⟩ := List.mem_map.mp hgroup
    obtain ⟨first, rest, hheaders⟩ := List.exists_cons_of_ne_nil (h entry hentry)
    unfold Entry.headerRows
    rw [hheaders]
    refine ⟨_, _, rfl, rfl, fun row hrow => ?_⟩
    obtain ⟨cells, _, rfl⟩ := List.mem_map.mp hrow
    rfl
  refine List.splitBy_flatten (fun hnil => ?_) (fun group hmem => ?_) ?_
  · obtain ⟨_, _, hcons, _⟩ := hgroup [] hnil
    cases hcons
  · obtain ⟨first, rest, rfl, _, hrest⟩ := hgroup group hmem
    refine List.Pairwise.isChain (List.pairwise_cons.mpr ⟨hrest, ?_⟩)
    exact List.pairwise_of_forall_mem_list fun _ _ row hrow => hrest row hrow
  · refine List.Pairwise.isChain ?_
    refine List.pairwise_of_forall_mem_list fun group hmem group' hmem' => ?_
    obtain ⟨first, rest, rfl, _, _⟩ := hgroup group hmem
    obtain ⟨first', rest', rfl, hfirst', _⟩ := hgroup group' hmem'
    exact ⟨List.cons_ne_nil _ _, List.cons_ne_nil _ _, hfirst'⟩

/-- Reading the rows of a table gives back the spellings of its entries. -/
theorem readEntries_rows {entries : List Entry} (h : ∀ entry ∈ entries, entry.Readable)
    (hwidth : ∀ entry ∈ entries, entry.width ≤ width) :
    readEntries width (entries.flatMap (Entry.rows width)) = entries.map (·.headers) := by
  have hrows : (entries.flatMap (Entry.rows width)).filterMap (headerRow? width) =
      (entries.map Entry.headerRows).flatten := by
    rw [List.filterMap_flatMap, List.flatMap_def]
    refine congrArg List.flatten (List.map_congr_left fun entry hentry => ?_)
    exact Entry.filterMap_rows (h entry hentry) (hwidth entry hentry)
  unfold readEntries
  rw [hrows, splitBy_flatten_headerRows fun entry hentry => (h entry hentry).headers_ne_nil,
    List.map_map]
  exact List.map_congr_left fun entry _ => entry.headerRows_map_cells

/-! ## The entries of an option set -/

section

variable {set : OptionSet} {v : Variable} {f : Flag} {s : Settings} {urls : Urls}
  {ds : List Directive}

theorem width_le_tableWidth (h : entry ∈ entries set) : entry.width ≤ tableWidth set := by
  unfold tableWidth
  rw [List.foldl_max]
  exact (List.le_max?_getD_of_mem (List.mem_map_of_mem h)).trans (Nat.le_max_right _ _)

theorem exists_lastEquals {s : Bytes} (h : Byte.equals ∈ s) :
    ∃ before after, s = before ++ Byte.equals :: after ∧ Byte.equals ∉ after := by
  obtain ⟨after, before, hreverse, hafter⟩ := List.eq_append_cons_of_mem (List.mem_reverse.mpr h)
  refine ⟨before.reverse, after.reverse, ?_, List.mem_reverse.not.mpr hafter⟩
  rw [← List.reverse_reverse s, hreverse]
  simp

theorem afterLastEquals_append {after : Bytes} (h : Byte.equals ∉ after) (before : Bytes) :
    afterLastEquals (before ++ Byte.equals :: after) = before.length + 1 := by
  have hafter : ∀ b ∈ after.reverse, (b != Byte.equals) = true := by
    intro b hb
    exact bne_iff_ne.mpr fun heq => h (heq ▸ List.mem_reverse.mp hb)
  have hreverse : (before ++ Byte.equals :: after).reverse =
      after.reverse ++ Byte.equals :: before.reverse := by
    simp
  unfold afterLastEquals
  rw [hreverse, List.takeWhile_append_of_pos hafter, List.takeWhile_cons_of_neg (by simp),
    List.append_nil, List.length_reverse, List.length_append, List.length_cons]
  omega

/-- An equals sign stands behind the indentation of a header. -/
theorem le_afterLastEquals (h : Byte.equals ∈ Bytes.join ", " cells) :
    3 ≤ afterLastEquals (headerText cells) := by
  obtain ⟨before, after, hjoin, hafter⟩ := exists_lastEquals h
  have htext : headerText cells = (Bytes.spaces 2 ++ before) ++ Byte.equals :: after := by
    unfold headerText
    rw [hjoin, List.append_assoc]
    rfl
  rw [htext, afterLastEquals_append hafter, List.length_append]
  show 3 ≤ 2 + before.length + 1
  omega

theorem equals_mem_join_cells {form : Form} {metavar : Bytes} {names : List Bytes}
    (hne : names ≠ []) (hvalue : form.takesValue = true) :
    Byte.equals ∈ Bytes.join ", " (Help.cells form metavar names) := by
  obtain ⟨name, hname⟩ := List.exists_mem_of_ne_nil _ hne
  have hcell : form.cell metavar name ∈ Help.cells form metavar names :=
    List.mem_map_of_mem ((Bytes.sort_perm names).mem_iff.mpr hname)
  refine Bytes.mem_join_of_mem hcell ?_
  rw [Form.cell_of_takesValue hvalue]
  exact List.mem_append_right _ List.mem_cons_self

theorem readable_variableEntry (hnames : ∀ name ∈ v.names, LowerWord name)
    (hmetavar : ∀ b ∈ v.metavar, Byte.isUpper b) (hdeclaration : v.declaration.WellFormed) :
    (variableEntry set v).Readable where
  headers_ne_nil := by
    unfold variableEntry
    cases v.type <;> exact List.cons_ne_nil _ _
  headers cells hcells := by
    obtain ⟨form, _, rfl⟩ := List.mem_map.mp hcells
    exact isHeader_cells (List.cons_ne_nil _ _) hnames hmetavar
  values value hvalue := by
    cases hvalues : v.declaration.values? with
    | none =>
      simp only [variableEntry, hvalues] at hvalue
      cases hvalue
    | some values =>
      simp only [variableEntry, hvalues] at hvalue
      exact (hdeclaration.enumValues hvalues).1 value hvalue
  indented hne := by
    -- the last header of an option that has values takes one
    unfold variableEntry Variable.type at hne ⊢
    cases hd : v.declaration with
    | bool | anything | special =>
      rw [hd] at hne
      exact absurd rfl hne
    | enum | list =>
      exact le_afterLastEquals (equals_mem_join_cells (List.cons_ne_nil _ _) rfl)

theorem readable_flagEntry (hnames : ∀ name ∈ f.names, LowerWord name) :
    (flagEntry set f).Readable where
  headers_ne_nil := by
    unfold flagEntry
    cases f.targetType <;> exact List.cons_ne_nil _ _
  headers cells hcells := by
    obtain ⟨form, _, rfl⟩ := List.mem_map.mp hcells
    exact isHeader_cells (List.cons_ne_nil _ _) hnames (List.forall_mem_nil _)
  values := List.forall_mem_nil _
  indented hne := absurd rfl hne

theorem mem_helpOrder (type : VariableType) : type ∈ VariableType.helpOrder := by
  cases type <;> decide

/-- The options in the order of the table. -/
theorem tableVariables_perm (set : OptionSet) :
    (VariableType.helpOrder.flatMap set.variablesOfType).Perm set.vars :=
  Keyed.regroup_perm (by decide) fun v _ => mem_helpOrder v.type

theorem tableFlags_perm (set : OptionSet) :
    (VariableType.helpOrder.flatMap set.flagsOfType).Perm set.flags :=
  Keyed.regroup_perm (by decide) fun f _ => mem_helpOrder f.targetType

theorem entries_eq (set : OptionSet) :
    entries set = (VariableType.helpOrder.flatMap set.variablesOfType).map (variableEntry set) ++
      (VariableType.helpOrder.flatMap set.flagsOfType).map (flagEntry set) := by
  rw [List.map_flatMap, List.map_flatMap]
  rfl

theorem mem_entries_iff : entry ∈ entries set ↔
    (∃ v ∈ set.vars, variableEntry set v = entry) ∨ ∃ f ∈ set.flags, flagEntry set f = entry := by
  rw [entries_eq, List.mem_append, List.mem_map, List.mem_map]
  simp only [(tableVariables_perm set).mem_iff, (tableFlags_perm set).mem_iff]

theorem readable_of_mem_entries (h : Resolved ds) (hw : ∀ x ∈ ds, x.WellFormed)
    (hentry : entry ∈ entries (OptionSet.ofDirectives s urls ds)) : entry.Readable := by
  have hnames : (OptionSet.ofDirectives s urls ds).WordNames :=
    OptionSet.wordNames_ofDirectives h hw
  rcases mem_entries_iff.mp hentry with ⟨v, hv, rfl⟩ | ⟨f, hf, rfl⟩
  · obtain ⟨d, hd, rfl⟩ := OptionSet.mem_vars_iff.mp hv
    exact readable_variableEntry (hnames.variable hv) (OptionSet.isUpper_of_mem_metavar hw hv)
      (hw _ hd)
  · exact readable_flagEntry (hnames.flag hf)

/-- Without options there are no flags either, as a flag sets an option. -/
theorem lines_ofDirectives (h : Resolved ds) :
    lines (OptionSet.ofDirectives s urls ds) =
      (entries (OptionSet.ofDirectives s urls ds)).flatMap
        (Entry.rows (tableWidth (OptionSet.ofDirectives s urls ds))) := by
  unfold lines
  split
  · rfl
  · next hnone =>
    have hvars : (OptionSet.ofDirectives s urls ds).vars = [] := by
      simpa [OptionSet.hasOptions] using hnone
    have hentries : entries (OptionSet.ofDirectives s urls ds) = [] := by
      refine List.eq_nil_iff_forall_not_mem.mpr fun entry hentry => ?_
      rcases mem_entries_iff.mp hentry with ⟨v, hv, rfl⟩ | ⟨f, hf, rfl⟩
      · exact List.ne_nil_of_mem hv hvars
      · obtain ⟨_, d, _, hd, _⟩ := (OptionSet.mem_flags_iff h).mp hf
        exact List.ne_nil_of_mem (OptionSet.mem_vars_iff.mpr ⟨d, hd.1, rfl⟩) hvars
    rw [hentries, List.flatMap_nil]

end

end Elvis.Help
