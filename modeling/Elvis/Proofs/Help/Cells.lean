import Elvis.Help
import Elvis.Proofs.Bytes.Sort
import Elvis.Proofs.Script.Labels
import Mathlib.Data.List.DropRight

/-!
# Spellings in the help table

A header of the help table holds the spellings of one form. None of them holds a space or a comma,
so they can be read back from the header, and each tells the label that it stands for.
-/

namespace Elvis

/-- A byte of a documented spelling. -/
def Byte.InCell (b : UInt8) : Prop := Lower b ∨ isUpper b ∨ b = dash ∨ b = equals

instance (b : UInt8) : Decidable (Byte.InCell b) :=
  inferInstanceAs (Decidable (Byte.Lower b ∨ Byte.isUpper b ∨ b = Byte.dash ∨ b = Byte.equals))

structure IsCell (cell : Bytes) : Prop where
  head : ∃ rest, cell = Byte.dash :: rest
  bytes : ∀ b ∈ cell, Byte.InCell b

variable {form : Form} {name metavar cell s : Bytes} {cells : List Bytes}

/-! ## Cells -/

theorem Form.cell_of_takesValue (h : form.takesValue = true) (metavar name : Bytes) :
    form.cell metavar name = form.stem name ++ Byte.equals :: metavar := by
  rw [cell, h]
  rfl

theorem Form.cell_of_not_takesValue (h : form.takesValue = false) (metavar name : Bytes) :
    form.cell metavar name = form.stem name := by
  rw [cell, h]
  exact List.append_nil _

theorem isCell_cell (hname : LowerWord name) (hmetavar : ∀ b ∈ metavar, Byte.isUpper b) :
    IsCell (form.cell metavar name) := by
  have hstem : ∀ b ∈ form.stem name, Byte.InCell b := by
    intro b hb
    rcases form.mem_stem hname hb with hlower | hdash
    · exact .inl hlower
    · exact .inr (.inr (.inl hdash))
  refine ⟨⟨_, rfl⟩, fun b hb => ?_⟩
  cases hvalue : form.takesValue with
  | true =>
    rw [Form.cell_of_takesValue hvalue, List.mem_append, List.mem_cons] at hb
    rcases hb with hb | rfl | hb
    · exact hstem b hb
    · exact .inr (.inr (.inr rfl))
    · exact .inr (.inl (hmetavar b hb))
  | false =>
    rw [Form.cell_of_not_takesValue hvalue] at hb
    exact hstem b hb

/-- The label shows a star in place of the metavar. -/
theorem labelOf_cell (h : LowerWord name) (metavar : Bytes) :
    labelOf (form.cell metavar name) = form.label name := by
  have hequals : Byte.equals ∉ form.stem name := form.not_mem_stem h (by decide) (by decide)
  unfold labelOf
  cases hvalue : form.takesValue with
  | true =>
    rw [Form.cell_of_takesValue hvalue, Form.label_of_takesValue hvalue, if_pos (by simp),
      Bytes.takeWhile_ne_append hequals]
  | false =>
    rw [Form.cell_of_not_takesValue hvalue, Form.label_of_not_takesValue hvalue, if_neg hequals]

theorem IsCell.not_mem (h : IsCell cell) {b : UInt8} (hb : ¬ Byte.InCell b) : b ∉ cell :=
  fun hmem => hb (h.bytes b hmem)

theorem IsCell.ne_nil (h : IsCell cell) : cell ≠ [] := by
  obtain ⟨rest, rfl⟩ := h.head
  exact List.cons_ne_nil _ _

/-! ## Headers -/

/-- The spellings of a header. -/
def IsHeader (cells : List Bytes) : Prop := cells ≠ [] ∧ ∀ cell ∈ cells, IsCell cell

theorem isHeader_cells {names : List Bytes} (hne : names ≠ [])
    (hnames : ∀ name ∈ names, LowerWord name) (hmetavar : ∀ b ∈ metavar, Byte.isUpper b) :
    IsHeader (Help.cells form metavar names) := by
  have hperm := Bytes.sort_perm names
  refine ⟨fun hnil => ?_, fun cell hcell => ?_⟩
  · rw [Help.cells, List.map_eq_nil_iff] at hnil
    rw [hnil] at hperm
    exact hne hperm.nil_eq.symm
  · obtain ⟨name, hname, rfl⟩ := List.mem_map.mp hcell
    exact isCell_cell (hnames name (hperm.mem_iff.mp hname)) hmetavar

theorem IsHeader.exists_join (h : IsHeader cells) :
    ∃ rest, Bytes.join ", " cells = Byte.dash :: rest := by
  obtain ⟨hne, hcells⟩ := h
  obtain ⟨cell, others, rfl⟩ := List.exists_cons_of_ne_nil hne
  obtain ⟨rest, rfl⟩ := (hcells cell List.mem_cons_self).head
  rw [Bytes.join_cons]
  exact ⟨_, rfl⟩

/-- A byte of a join other than those of the separator is a byte of a cell. -/
theorem IsHeader.mem_join (h : IsHeader cells) {b : UInt8} (hb : b ∈ Bytes.join ", " cells) :
    Byte.InCell b ∨ b = Byte.comma ∨ b = Byte.space := by
  obtain ⟨hne, hcells⟩ := h
  obtain ⟨cell, others, rfl⟩ := List.exists_cons_of_ne_nil hne
  obtain ⟨hcell, hothers⟩ := List.forall_mem_cons.mp hcells
  rw [Bytes.join_cons, List.mem_append, List.mem_flatMap] at hb
  rcases hb with hb | ⟨other, hother, hb⟩
  · exact .inl (hcell.bytes b hb)
  · rcases List.mem_append.mp hb with hb | hb
    · exact .inr (List.mem_pair.mp hb)
    · exact .inl ((hothers other hother).bytes b hb)

/-- A join ends with one of the cells. -/
theorem IsHeader.getLast_join (h : IsHeader cells) (hne : Bytes.join ", " cells ≠ []) :
    Byte.InCell ((Bytes.join ", " cells).getLast hne) := by
  obtain ⟨before, cell, hcell, hjoin⟩ := Bytes.exists_suffix_join ", " h.1
  have hcellNe := (h.2 cell hcell).ne_nil
  simp only [hjoin, List.getLast_append_of_ne_nil _ hcellNe]
  exact (h.2 cell hcell).bytes _ (List.getLast_mem hcellNe)

/-! ## Metavars -/

theorem isUpper_of_mem_toUpper {word : Bytes} (h : LowerWord word) :
    ∀ b ∈ word.toUpper, Byte.isUpper b := by
  intro b hb
  obtain ⟨c, hc, rfl⟩ := List.mem_map.mp hb
  exact isUpper_toUpper_of_lower (h.2 c hc)

theorem Declared.isUpper_of_metavar? {ds : List Directive} (hw : ∀ x ∈ ds, x.WellFormed)
    {text : Bytes} (h : Declared.metavar? ds name = some text) : ∀ b ∈ text, Byte.isUpper b := by
  obtain ⟨x, hx, hof⟩ := List.mem_filterMap.mp (List.mem_of_getLast? h)
  cases x with
  | metavar target text' =>
    obtain ⟨_, rfl⟩ : target = name ∧ text' = text := by simpa [Directive.metavarOf?] using hof
    obtain ⟨_, word, hword, rfl⟩ := hw _ hx
    exact isUpper_of_mem_toUpper hword
  | declare | flag | aliasing | map | inline | collapse | describe => cases hof

/-- A metavar is a word in upper case, whether it is given or made from the name. -/
theorem OptionSet.isUpper_of_mem_metavar {s : Settings} {urls : Urls} {ds : List Directive}
    {v : Variable} (hw : ∀ x ∈ ds, x.WellFormed) (hv : v ∈ (ofDirectives s urls ds).vars) :
    ∀ b ∈ v.metavar, Byte.isUpper b := by
  obtain ⟨d, hd, rfl⟩ := mem_vars_iff.mp hv
  have hnames : Names ds (.declare d) ⟨d.type, false, d.name⟩ := .option
  have hname : LowerWord d.name := lowerWord_of_names (hw _ hd) hnames
  unfold Variable.metavar
  split
  · next hgiven => exact Declared.isUpper_of_metavar? hw hgiven
  · next kind _ _ => cases kind <;> exact List.all_eq_true.mp (by decide)
  · exact isUpper_of_mem_toUpper hname

/-! ## Reading a header -/

namespace Help

/-- Without spaces at either end. -/
def strip (s : Bytes) : Bytes := (s.dropWhile (· = Byte.space)).rdropWhile (· = Byte.space)

/-- The pieces between the commas that a space follows. -/
def pieces : Bytes → List Bytes
  | [] => [[]]
  | [b] => [[b]]
  | b :: c :: rest =>
      if b = Byte.comma ∧ c = Byte.space then [] :: pieces rest
      else (pieces (c :: rest)).modifyHead (b :: ·)

theorem rdropWhile_append_spaces (s : Bytes) (n : Nat) :
    (s ++ Bytes.spaces n).rdropWhile (· = Byte.space) = s.rdropWhile (· = Byte.space) := by
  induction n with
  | zero => exact congrArg _ (List.append_nil s)
  | succ n ih =>
    rw [Bytes.spaces, List.replicate_succ', ← List.append_assoc,
      List.rdropWhile_concat_pos _ _ _ (by decide)]
    exact ih

theorem strip_spaces (hfirst : ∃ b rest, s = b :: rest ∧ b ≠ Byte.space)
    (hlast : ∀ hne : s ≠ [], s.getLast hne ≠ Byte.space) (m n : Nat) :
    strip (Bytes.spaces m ++ (s ++ Bytes.spaces n)) = s := by
  have hspaces : ∀ b ∈ Bytes.spaces m, decide (b = Byte.space) = true :=
    fun b hb => decide_eq_true (List.eq_of_mem_replicate hb)
  have hkeep : (s ++ Bytes.spaces n).dropWhile (· = Byte.space) = s ++ Bytes.spaces n := by
    obtain ⟨b, rest, rfl, hb⟩ := hfirst
    exact List.dropWhile_cons_of_neg (by simpa using hb)
  unfold strip
  rw [List.dropWhile_append_of_pos hspaces, hkeep, rdropWhile_append_spaces,
    List.rdropWhile_eq_self_iff]
  exact fun hne => by simpa using hlast hne

theorem pieces_cons_of_ne {b : UInt8} (h : b ≠ Byte.comma) (rest : Bytes) :
    pieces (b :: rest) = (pieces rest).modifyHead (b :: ·) := by
  cases rest with
  | nil => rfl
  | cons c rest => rw [pieces, if_neg fun hsep => h hsep.1]

theorem pieces_of_not_mem (h : Byte.comma ∉ s) : pieces s = [s] := by
  induction s with
  | nil => rfl
  | cons b s ih =>
    rw [List.mem_cons, not_or] at h
    rw [pieces_cons_of_ne (Ne.symm h.1), ih h.2]
    rfl

theorem pieces_append (h : Byte.comma ∉ s) (rest : Bytes) :
    pieces (s ++ ", " ++ rest) = s :: pieces rest := by
  induction s with
  | nil => exact if_pos ⟨rfl, rfl⟩
  | cons b s ih =>
    rw [List.mem_cons, not_or] at h
    rw [List.cons_append, List.cons_append, pieces_cons_of_ne (Ne.symm h.1), ih h.2]
    rfl

theorem pieces_join (h : IsHeader cells) : pieces (Bytes.join ", " cells) = cells := by
  obtain ⟨hne, hcells⟩ := h
  induction cells with
  | nil => exact absurd rfl hne
  | cons cell rest ih =>
    obtain ⟨hcell, hrest⟩ := List.forall_mem_cons.mp hcells
    have hcomma : Byte.comma ∉ cell := hcell.not_mem (by decide)
    cases rest with
    | nil => rw [Bytes.join_singleton, pieces_of_not_mem hcomma]
    | cons next rest =>
      rw [Bytes.join_cons_cons, pieces_append hcomma, ih (List.cons_ne_nil _ _) hrest]

/-- The spellings of a header that is filled up with spaces. -/
theorem pieces_strip_headerText (h : IsHeader cells) (n : Nat) :
    pieces (strip (headerText cells ++ Bytes.spaces n)) = cells := by
  have hfirst : ∃ b rest, Bytes.join ", " cells = b :: rest ∧ b ≠ Byte.space := by
    obtain ⟨rest, hjoin⟩ := h.exists_join
    exact ⟨_, rest, hjoin, by decide⟩
  have hlast (hne : Bytes.join ", " cells ≠ []) :
      (Bytes.join ", " cells).getLast hne ≠ Byte.space := by
    intro heq
    have hcell := h.getLast_join hne
    rw [heq] at hcell
    exact absurd hcell (by decide)
  have htext : headerText cells ++ Bytes.spaces n =
      Bytes.spaces 2 ++ (Bytes.join ", " cells ++ Bytes.spaces n) :=
    List.append_assoc _ _ _
  rw [htext, strip_spaces hfirst hlast, pieces_join h]

end Help

end Elvis
