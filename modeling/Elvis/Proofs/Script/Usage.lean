import Elvis.Compile
import Elvis.Proofs.Help.Rows
import Elvis.Proofs.OptionSet.Acceptance
import Elvis.Proofs.Shell.HereDocuments

/-!
# The usage text

The usage hook prints its text from a here-document, which ends at the first line `EOF`. The texts
that it shows are escaped there byte by byte, and that leaves line ends as they are. So a text closes
the here-document if one of its lines is `EOF`, unless this is its first line, which something stands
in front of (`usage_closed_iff`).
-/

namespace Elvis.Script

open Byte (newline space underscore)

/-- The line that ends a here-document. -/
def hereDocEnd : Bytes := "EOF"

/-- A line of the text behind its first line end would end a here-document. -/
def ClosesHereDoc (text : Bytes) : Prop := hereDocEnd ∈ (Bytes.split newline text).tail

instance (text : Bytes) : Decidable (ClosesHereDoc text) :=
  inferInstanceAs (Decidable (hereDocEnd ∈ (Bytes.split newline text).tail))

/-- The lines of a text that is given line by line, where each may hold line ends. -/
def textLines (lines : List Bytes) : List Bytes := lines.flatMap (Bytes.split newline)

variable {s opening closing : Bytes}

theorem split_unlines (lines : List Bytes) :
    Bytes.split newline (Bytes.unlines lines) = textLines lines ++ [[]] := by
  induction lines with
  | nil => rfl
  | cons line lines ih =>
    have hcons : Bytes.unlines (line :: lines) = line ++ newline :: Bytes.unlines lines :=
      List.append_assoc _ _ _
    rw [hcons, Bytes.split_append, ih, ← List.append_assoc]
    rfl

/-! ## Escaped text -/

theorem mem_hereDocText_of_mem {b : UInt8} (h : b ∈ s) : b ∈ Shell.hereDocText s := by
  refine List.mem_flatMap.mpr ⟨b, h, ?_⟩
  split
  · exact List.mem_cons_of_mem _ List.mem_cons_self
  · exact List.mem_cons_self

theorem hereDocText_of_plain (h : ∀ b ∈ s, !Shell.isHereDocSpecial b) :
    Shell.hereDocText s = s := by
  induction s with
  | nil => rfl
  | cons b s ih =>
    obtain ⟨hb, hs⟩ := List.forall_mem_cons.mp h
    rw [Shell.hereDocText_cons, if_neg (by simpa using hb), ih hs]
    rfl

/-- No other text is escaped to the line that ends a here-document. -/
theorem hereDocText_eq_hereDocEnd_iff : Shell.hereDocText s = hereDocEnd ↔ s = hereDocEnd := by
  constructor
  · intro h
    have hplain : ∀ b ∈ hereDocEnd, !Shell.isHereDocSpecial b := List.all_eq_true.mp (by decide)
    rw [← h]
    exact (hereDocText_of_plain fun b hb => hplain b (h ▸ mem_hereDocText_of_mem hb)).symm
  · rintro rfl
    decide

theorem newline_mem_of_mem_hereDocText (h : newline ∈ Shell.hereDocText s) : newline ∈ s := by
  obtain ⟨b, hb, hescaped⟩ := List.mem_flatMap.mp h
  split at hescaped
  · rcases List.mem_pair.mp hescaped with hbackslash | rfl
    · cases hbackslash
    · exact hb
  · obtain rfl := List.mem_singleton.mp hescaped
    exact hb

theorem hereDocText_join (items : List Bytes) :
    Shell.hereDocText (Bytes.join [newline] items) =
      Bytes.join [newline] (items.map Shell.hereDocText) := by
  induction items with
  | nil => rfl
  | cons item rest ih =>
    cases rest with
    | nil => rw [Bytes.join_singleton, List.map_singleton, Bytes.join_singleton]
    | cons next rest =>
      rw [Bytes.join_cons_cons, Shell.hereDocText_append, Shell.hereDocText_append, ih]
      exact (Bytes.join_cons_cons _ _ _ _).symm

/-- The lines of the escaped text are those of the text, each escaped. -/
theorem split_hereDocText (s : Bytes) :
    Bytes.split newline (Shell.hereDocText s) =
      (Bytes.split newline s).map Shell.hereDocText := by
  refine Bytes.split_eq_iff.mpr ⟨?_, fun item hitem hnewline => ?_, ?_⟩
  · exact fun hnil => Bytes.split_ne_nil newline s (List.map_eq_nil_iff.mp hnil)
  · obtain ⟨line, hline, rfl⟩ := List.mem_map.mp hitem
    exact Bytes.not_mem_of_mem_split s line hline (newline_mem_of_mem_hereDocText hnewline)
  · rw [← hereDocText_join, Bytes.join_split]

theorem closesHereDoc_hereDocText_iff : ClosesHereDoc (Shell.hereDocText s) ↔ ClosesHereDoc s := by
  unfold ClosesHereDoc
  rw [split_hereDocText, ← List.map_tail, List.mem_map]
  simp only [hereDocText_eq_hereDocEnd_iff, exists_eq_right]

/-! ## Rows -/

/-- What stands in front of a text keeps its first line from ending the here-document. -/
theorem hereDocEnd_mem_split_iff (hopening : newline ∉ opening)
    (hspace : opening.head? = some space) :
    hereDocEnd ∈ Bytes.split newline (opening ++ s) ↔ ClosesHereDoc s := by
  obtain ⟨first, others, hs⟩ := List.exists_cons_of_ne_nil (Bytes.split_ne_nil newline s)
  unfold ClosesHereDoc
  rw [Bytes.split_append_of_not_mem hopening, hs]
  show hereDocEnd ∈ (opening ++ first) :: others ↔ hereDocEnd ∈ others
  refine List.mem_cons.trans (or_iff_right fun heq => ?_)
  obtain ⟨rest, rfl⟩ : ∃ rest, opening = space :: rest := List.head?_eq_some_iff.mp hspace
  cases heq

/-- A text without line ends has one line. -/
theorem not_closesHereDoc (h : newline ∉ s) : ¬ ClosesHereDoc s := by
  unfold ClosesHereDoc
  rw [Bytes.split_of_not_mem h]
  exact List.not_mem_nil

/-- What stands behind a text, with a byte that does not end a here-document, keeps its last line
from ending it. -/
theorem closesHereDoc_append_iff (hclosing : newline ∉ closing)
    (hunderscore : underscore ∈ closing) :
    ClosesHereDoc (s ++ closing) ↔ hereDocEnd ∈ (Bytes.split newline s).tail.dropLast := by
  obtain ⟨last, hlast, ⟨rfl, hsplit⟩ | ⟨before, rfl, hsplit⟩⟩ :=
    Bytes.exists_split_eq_concat newline s
  · rw [hsplit]
    exact iff_of_false (not_closesHereDoc (List.not_mem_append hlast hclosing)) List.not_mem_nil
  · have hne : hereDocEnd ≠ last ++ closing := by
      intro heq
      have hmem : underscore ∈ hereDocEnd := heq ▸ List.mem_append_right _ hunderscore
      exact absurd hmem (by decide)
    have hbefore := Bytes.split_ne_nil newline before
    unfold ClosesHereDoc
    rw [hsplit, List.append_assoc, List.cons_append, Bytes.split_append,
      Bytes.split_of_not_mem (List.not_mem_append hlast hclosing),
      List.tail_append_of_ne_nil hbefore, List.tail_append_of_ne_nil hbefore, List.dropLast_concat,
      List.mem_append, List.mem_singleton]
    exact or_iff_left hne

theorem newline_not_mem_spaces (n : Nat) : newline ∉ Bytes.spaces n := fun h =>
  absurd (List.eq_of_mem_replicate h) (by decide)

theorem textLines_append (lines lines' : List Bytes) :
    textLines (lines ++ lines') = textLines lines ++ textLines lines' :=
  List.flatMap_append

variable {entry : Help.Entry} {source : Help.Source} {width : Nat}

theorem line_of_mem_lines (h : entry.Readable) {line : Bytes} (hline : line ∈ entry.lines) :
    newline ∉ line ∧ line.head? = some space := by
  rcases List.mem_append.mp hline with hline | hline
  · obtain ⟨cells, hcells, rfl⟩ := List.mem_map.mp hline
    refine ⟨?_, rfl⟩
    unfold Help.headerText
    refine List.not_mem_append (by decide) fun hnewline => ?_
    exact absurd ((h.headers cells hcells).mem_join hnewline) (by decide)
  · obtain ⟨value, hvalue, rfl⟩ := List.mem_map.mp hline
    have hindented := h.indented (List.ne_nil_of_mem hvalue)
    refine ⟨List.not_mem_append (newline_not_mem_spaces _) fun hnewline => ?_, ?_⟩
    · exact absurd ((h.values value hvalue).inEnum _ hnewline) (by decide)
    · obtain ⟨n, hn⟩ := Nat.exists_eq_add_of_le' hindented
      rw [hn]
      rfl

/-- The name of the variable ends with a word behind an underscore. -/
structure PlainSource (source : Help.Source) : Prop where
  own : ∃ s closing, source.ownVariable = s ++ closing ∧ newline ∉ closing ∧ underscore ∈ closing
  globals : ∀ name, source.globalVariable = some name → newline ∉ name

theorem hereDocEnd_mem_sourceRows_iff (h : PlainSource source) :
    hereDocEnd ∈ textLines (Help.Entry.sourceRows width source) ↔
      ClosesHereDoc source.ownVariable := by
  obtain ⟨⟨s, closing, hown, hclosing, hunderscore⟩, hglobals⟩ := h
  obtain ⟨ownVariable, globalVariable⟩ := source
  obtain rfl : ownVariable = s ++ closing := hown
  have hopening (text : Bytes) (htext : newline ∉ text) :
      newline ∉ Bytes.spaces (width + 4) ++ text ∧
        (Bytes.spaces (width + 4) ++ text).head? = some space :=
    ⟨List.not_mem_append (newline_not_mem_spaces _) htext, rfl⟩
  obtain ⟨hdefault, hdefaultSpace⟩ := hopening "Default: $" (by decide)
  obtain ⟨henvironment, henvironmentSpace⟩ := hopening "Environment: " (by decide)
  obtain ⟨beside, hbeside, hrows⟩ : ∃ beside, newline ∉ beside ∧
      Help.Entry.sourceRows width ⟨s ++ closing, globalVariable⟩ =
        [Bytes.spaces (width + 4) ++ "Default: $" ++ (s ++ closing),
         Bytes.spaces (width + 4) ++ "Environment: " ++ (s ++ (closing ++ beside))] := by
    cases globalVariable with
    | none => exact ⟨[], List.not_mem_nil, by simp [Help.Entry.sourceRows]⟩
    | some name =>
      refine ⟨", " ++ name, List.not_mem_append (by decide) (hglobals name rfl), ?_⟩
      simp [Help.Entry.sourceRows]
  rw [hrows, textLines, List.flatMap_cons, List.flatMap_singleton, List.mem_append,
    hereDocEnd_mem_split_iff hdefault hdefaultSpace,
    hereDocEnd_mem_split_iff henvironment henvironmentSpace,
    closesHereDoc_append_iff hclosing hunderscore,
    closesHereDoc_append_iff (List.not_mem_append hclosing hbeside)
      (List.mem_append_left _ hunderscore)]
  exact or_self_iff

theorem hereDocEnd_mem_tableRows_iff (h : entry.Readable) (description : Bytes) :
    hereDocEnd ∈ textLines (Help.Entry.tableRows width description entry.lines) ↔
      ClosesHereDoc description := by
  have hpadded (beside : Bytes) (hbeside : newline ∉ beside) : ∀ line ∈ entry.lines,
      newline ∉ line.padTo width ++ beside ∧
        (line.padTo width ++ beside).head? = some space := by
    intro line hline
    obtain ⟨hnewline, hspace⟩ := line_of_mem_lines h hline
    obtain ⟨rest, rfl⟩ := List.head?_eq_some_iff.mp hspace
    exact ⟨List.not_mem_append (List.not_mem_append hnewline (newline_not_mem_spaces _)) hbeside,
      rfl⟩
  obtain ⟨first, rest, hlines⟩ : ∃ first rest, entry.lines = first :: rest := by
    obtain ⟨cells, others, hheaders⟩ := List.exists_cons_of_ne_nil h.headers_ne_nil
    unfold Help.Entry.lines
    rw [hheaders]
    exact ⟨_, _, rfl⟩
  have hothers : hereDocEnd ∉
      textLines (rest.map fun line => line.padTo width ++ ("  | " : Bytes)) := by
    unfold textLines
    rw [List.flatMap_map, List.mem_flatMap]
    rintro ⟨line, hline, hmem⟩
    obtain ⟨hnewline, hspace⟩ :=
      hpadded "  | " (by decide) line (hlines ▸ List.mem_cons_of_mem _ hline)
    rw [Bytes.split_of_not_mem hnewline, List.mem_singleton] at hmem
    rw [← hmem] at hspace
    cases hspace
  obtain ⟨hfirst, hfirstSpace⟩ := hpadded "    " (by decide) first (hlines ▸ List.mem_cons_self)
  rw [hlines, Help.Entry.tableRows, textLines, List.flatMap_cons, List.mem_append,
    hereDocEnd_mem_split_iff hfirst hfirstSpace, closesHereDoc_hereDocText_iff]
  exact or_iff_left hothers

theorem hereDocEnd_mem_rows_iff (h : entry.Readable)
    (hsource : ∀ source, entry.source = some source → PlainSource source) :
    hereDocEnd ∈ textLines (entry.rows width) ↔
      ClosesHereDoc entry.description ∨
        ∃ source, entry.source = some source ∧ ClosesHereDoc source.ownVariable := by
  unfold Help.Entry.rows
  rw [textLines_append, List.mem_append, hereDocEnd_mem_tableRows_iff h]
  refine or_congr_right ?_
  cases hentry : entry.source with
  | none => simp [textLines]
  | some source => simp [hereDocEnd_mem_sourceRows_iff (hsource source hentry)]

/-! ## The here-document -/

/-- The here-document, without the line that the script ends it with. -/
def usageText (set : OptionSet) : List Bytes :=
  "Usage: $w3_argv0 [options] [search words]..." :: "Description:" ::
    ("  " ++ Shell.hereDocText set.description) :: usageOptions set

/-- The texts from outside that the usage text shows. -/
def usageTexts (set : OptionSet) : List Bytes :=
  set.description :: (set.vars.flatMap (fun v => [v.description, set.variableName v.name]) ++
    set.flags.map set.flagDescription)

variable {set : OptionSet} {settings : Settings} {urls : Urls} {ds : List Directive}
  {sources : List Directive.Source} {script : Bytes}

theorem plainSource_variableEntry {v : Variable} (hname : LowerWord v.name) {source : Help.Source}
    (hsource : (Help.variableEntry set v).source = some source) : PlainSource source := by
  cases hsource
  have hnewline : newline ∉ "_" ++ v.name :=
    List.not_mem_append (by decide) fun hmem => absurd (hname.2 _ hmem) (by decide)
  refine ⟨⟨"SURFRAW_" ++ set.settings.name, "_" ++ v.name, List.append_assoc _ _ _, hnewline,
    List.mem_append_left _ List.mem_cons_self⟩, fun name hglobal => ?_⟩
  cases hd : v.declaration with
  | special kind =>
    simp only [hd] at hglobal
    cases hglobal
    cases kind <;> decide
  | bool | enum | anything | list =>
    simp only [hd] at hglobal
    cases hglobal

theorem hereDocEnd_mem_usageOptions_iff (h : Resolved ds) (hw : ∀ x ∈ ds, x.WellFormed) :
    hereDocEnd ∈ textLines (Help.lines (OptionSet.ofDirectives settings urls ds)) ↔
      ∃ entry ∈ Help.entries (OptionSet.ofDirectives settings urls ds),
        ClosesHereDoc entry.description ∨
          ∃ source, entry.source = some source ∧ ClosesHereDoc source.ownVariable := by
  have hnames : (OptionSet.ofDirectives settings urls ds).WordNames :=
    OptionSet.wordNames_ofDirectives h hw
  have hsource : ∀ entry ∈ Help.entries (OptionSet.ofDirectives settings urls ds),
      ∀ source, entry.source = some source → PlainSource source := by
    intro entry hentry source hsource
    rcases Help.mem_entries_iff.mp hentry with ⟨v, hv, rfl⟩ | ⟨f, _, rfl⟩
    · exact plainSource_variableEntry (hnames.variable hv _ List.mem_cons_self) hsource
    · cases hsource
  rw [Help.lines_ofDirectives h, textLines, List.flatMap_assoc, List.mem_flatMap]
  refine exists_congr fun entry => and_congr_right fun hentry => ?_
  exact hereDocEnd_mem_rows_iff (Help.readable_of_mem_entries h hw hentry) (hsource entry hentry)

/-- The texts of the help table among those of the usage text. -/
theorem exists_entry_iff {p : Bytes → Prop} :
    (∃ entry ∈ Help.entries set, p entry.description ∨
      ∃ source, entry.source = some source ∧ p source.ownVariable) ↔
        ∃ text ∈ set.vars.flatMap (fun v => [v.description, set.variableName v.name]) ++
          set.flags.map set.flagDescription, p text := by
  constructor
  · rintro ⟨entry, hentry, hp⟩
    rcases Help.mem_entries_iff.mp hentry with ⟨v, hv, rfl⟩ | ⟨f, hf, rfl⟩
    · rcases hp with hp | ⟨source, hsource, hp⟩
      · exact ⟨_, List.mem_append_left _ (List.mem_flatMap.mpr ⟨v, hv, List.mem_cons_self⟩), hp⟩
      · cases hsource
        exact ⟨_, List.mem_append_left _
          (List.mem_flatMap.mpr ⟨v, hv, List.mem_cons_of_mem _ List.mem_cons_self⟩), hp⟩
    · rcases hp with hp | ⟨source, hsource, _⟩
      · exact ⟨_, List.mem_append_right _ (List.mem_map_of_mem hf), hp⟩
      · cases hsource
  · rintro ⟨text, htext, hp⟩
    rcases List.mem_append.mp htext with htext | htext
    · obtain ⟨v, hv, htext⟩ := List.mem_flatMap.mp htext
      refine ⟨_, Help.mem_entries_iff.mpr (.inl ⟨v, hv, rfl⟩), ?_⟩
      rcases List.mem_pair.mp htext with rfl | rfl
      · exact .inl hp
      · exact .inr ⟨_, rfl, hp⟩
    · obtain ⟨f, hf, rfl⟩ := List.mem_map.mp htext
      exact ⟨_, Help.mem_entries_iff.mpr (.inr ⟨f, hf, rfl⟩), .inl hp⟩

theorem hereDocEnd_mem_usageText_iff (h : Resolved ds) (hw : ∀ x ∈ ds, x.WellFormed) :
    hereDocEnd ∈ textLines (usageText (OptionSet.ofDirectives settings urls ds)) ↔
      ∃ text ∈ usageTexts (OptionSet.ofDirectives settings urls ds), ClosesHereDoc text := by
  have hoptions : hereDocEnd ∈ textLines (usageOptions (OptionSet.ofDirectives settings urls ds)) ↔
      hereDocEnd ∈ textLines (Help.lines (OptionSet.ofDirectives settings urls ds)) := by
    unfold usageOptions Help.lines
    split
    · rw [textLines, List.flatMap_cons, List.mem_append]
      exact or_iff_right (by decide)
    · exact Iff.rfl
  have hdescription : hereDocEnd ∈ Bytes.split newline ("  " ++ Shell.hereDocText
      (OptionSet.ofDirectives settings urls ds).description) ↔
        ClosesHereDoc (OptionSet.ofDirectives settings urls ds).description :=
    (hereDocEnd_mem_split_iff (by decide) rfl).trans closesHereDoc_hereDocText_iff
  unfold usageText usageTexts
  rw [List.exists_mem_cons_iff, ← exists_entry_iff, ← hereDocEnd_mem_usageOptions_iff h hw,
    ← hoptions, ← hdescription, textLines, List.flatMap_cons, List.flatMap_cons, List.flatMap_cons,
    List.mem_append, List.mem_append, List.mem_append]
  -- the two lines in front of the description are fixed
  exact (or_iff_right (by decide)).trans (or_iff_right (by decide))

/-! ## Texts of one line -/

/-- No text that the usage text shows holds a line end. -/
structure SingleLines (settings : Settings) (ds : List Directive) : Prop where
  name : newline ∉ settings.name
  baseUrl : newline ∉ settings.baseUrl
  description : ∀ text, settings.description = some text → newline ∉ text
  descriptions : ∀ target text, .describe target text ∈ ds → newline ∉ text
  values : ∀ f, .flag f ∈ ds → newline ∉ f.value

theorem newline_not_mem_of_lowerWord (h : LowerWord s) : newline ∉ s :=
  fun hmem => absurd (h.2 _ hmem) (by decide)

theorem newline_not_mem_display (h : Urls.resolve settings = .ok urls)
    (hbase : newline ∉ settings.baseUrl) : newline ∉ urls.display := by
  obtain ⟨_, _, _, hdisplay⟩ := Urls.resolve_eq_ok h
  rw [hdisplay]
  exact fun hmem => hbase (Url.mem_of_mem_splitScheme hmem)

theorem newline_not_mem_typeName (elements : Elements) : newline ∉ elements.type.name := by
  have hall : ∀ type ∈ VariableType.buckets, newline ∉ type.name := by decide
  exact hall _ (by cases elements.type <;> decide)

theorem newline_not_mem_defaultDescription {d : Declaration} (h : newline ∉ d.name) :
    newline ∉ Variable.defaultDescription d := by
  cases d with
  | bool | enum | anything =>
    exact List.not_mem_append (List.not_mem_append (by decide) h) (by decide)
  | list name elements defaults =>
    unfold Variable.defaultDescription
    refine List.not_mem_append (List.not_mem_append (List.not_mem_append ?_ (by decide)) h)
      (by decide)
    exact List.not_mem_append (by decide) (newline_not_mem_typeName elements)
  | special kind => cases kind <;> decide

theorem newline_not_mem_variableDescription {v : Variable} (h : SingleLines settings ds)
    (hv : v ∈ (OptionSet.ofDirectives settings urls ds).vars) (hname : newline ∉ v.name) :
    newline ∉ v.description := by
  obtain ⟨d, hd, rfl⟩ := OptionSet.mem_vars_iff.mp hv
  unfold Variable.description
  cases hgiven : (OptionSet.variableOf ds d).givenDescription with
  | some text => exact h.descriptions _ _ (Declared.mem_of_description? hgiven)
  | none => exact newline_not_mem_defaultDescription hname

theorem newline_not_mem_flagDescription {f : Flag} (htarget : newline ∉ f.target)
    (hvalue : newline ∉ f.value) : newline ∉ set.flagDescription f := by
  have hitems : Bytes.joinCommas f.items = f.value :=
    ((Bytes.commaItems_eq_iff (s := f.value)).mp rfl).2.2.symm
  unfold OptionSet.flagDescription
  split
  · rw [hitems]
    dsimp only
    refine List.not_mem_append (List.not_mem_append (List.not_mem_append (List.not_mem_append
      (List.not_mem_append (List.not_mem_append ?_ ?_) ?_) htarget) ?_) hvalue) ?_
    · decide
    · exact newline_not_mem_typeName _
    all_goals decide
  · exact List.not_mem_append (List.not_mem_append (List.not_mem_append (by decide) htarget)
      (by decide)) hvalue

/-- Then the script alone ends the here-document. -/
theorem hereDocEnd_not_mem_usageText (h : SingleLines settings ds) (hresolved : Resolved ds)
    (hw : ∀ x ∈ ds, x.WellFormed) (hurls : Urls.resolve settings = .ok urls) :
    hereDocEnd ∉ textLines (usageText (OptionSet.ofDirectives settings urls ds)) := by
  have hnames : (OptionSet.ofDirectives settings urls ds).WordNames :=
    OptionSet.wordNames_ofDirectives hresolved hw
  rw [hereDocEnd_mem_usageText_iff hresolved hw]
  rintro ⟨text, htext, hcloses⟩
  refine not_closesHereDoc ?_ hcloses
  rcases List.mem_cons.mp htext with rfl | htext
  · have hdescription : newline ∉ settings.description.getD ("Search " ++ settings.name) := by
      cases hgiven : settings.description with
      | none => exact List.not_mem_append (by decide) h.name
      | some text => exact h.description text hgiven
    exact List.not_mem_append (List.not_mem_append (List.not_mem_append hdescription (by decide))
      (newline_not_mem_display hurls h.baseUrl)) (by decide)
  rcases List.mem_append.mp htext with htext | htext
  · obtain ⟨v, hv, htext⟩ := List.mem_flatMap.mp htext
    have hname := newline_not_mem_of_lowerWord (hnames.variable hv _ List.mem_cons_self)
    rcases List.mem_pair.mp htext with rfl | rfl
    · exact newline_not_mem_variableDescription h hv hname
    · exact List.not_mem_append (List.not_mem_append (List.not_mem_append (by decide) h.name)
        (by decide)) hname
  · obtain ⟨f, hf, rfl⟩ := List.mem_map.mp htext
    obtain ⟨g, d, hg, _, rfl⟩ := (OptionSet.mem_flags_iff hresolved).mp hf
    exact newline_not_mem_flagDescription (newline_not_mem_of_lowerWord (hw _ hg).2.1)
      (h.values g hg)

/-! ## The script -/

theorem textLines_usageHook (set : OptionSet) :
    textLines (usageHook set) =
      (["w3_usage_hook () \x7b", "    cat <<EOF"] : List Bytes) ++ textLines (usageText set) ++
        (["EOF", "    w3_global_usage", "\x7d", ""] : List Bytes) := by
  have hlines : usageHook set =
      (["w3_usage_hook () \x7b", "    cat <<EOF"] : List Bytes) ++ usageText set ++
        (["EOF", "    w3_global_usage", "\x7d", ""] : List Bytes) := rfl
  rw [hlines, textLines_append, textLines_append]
  rfl

theorem exists_split_render (set : OptionSet) :
    ∃ after, Bytes.split newline (render set) =
      textLines (header set) ++ (["w3_usage_hook () \x7b", "    cat <<EOF"] : List Bytes) ++
        textLines (usageText set) ++ (["EOF", "    w3_global_usage"] : List Bytes) ++ after := by
  obtain ⟨rest, hlines⟩ : ∃ rest, lines set = header set ++ usageHook set ++ rest := by
    unfold lines
    simp only [List.append_assoc]
    exact ⟨_, rfl⟩
  refine ⟨"\x7d" :: "" :: (textLines rest ++ [[]]), ?_⟩
  unfold render
  rw [split_unlines, hlines, textLines_append, textLines_append, textLines_usageHook]
  simp

/-- The here-document of the usage text is closed early if and only if a line of a text that it
shows, but not the first line, is `EOF`. -/
theorem usage_closed_iff (h : compile settings sources = .ok script) :
    ∃ set, optionSet settings sources = .ok set ∧ ∃ body after,
      Bytes.split newline script =
        textLines (header set) ++ (["w3_usage_hook () \x7b", "    cat <<EOF"] : List Bytes) ++
          body ++ (["EOF", "    w3_global_usage"] : List Bytes) ++ after ∧
      (hereDocEnd ∈ body ↔ ∃ text ∈ usageTexts set, ClosesHereDoc text) := by
  obtain ⟨set, hset, rfl⟩ := map_eq_ok_iff.mp h
  obtain ⟨ds, hread, hbuild⟩ := bind_eq_ok_iff.mp hset
  obtain ⟨hw, urls, _, rfl⟩ := OptionSet.build_eq_ok_iff.mp hbuild
  obtain ⟨after, hsplit⟩ := exists_split_render (OptionSet.ofDirectives settings urls ds)
  exact ⟨_, hset, _, after, hsplit,
    hereDocEnd_mem_usageText_iff hw.resolved (Directive.wellFormed_of_parseAll hread)⟩

/-- The settings of a small elvis whose description closes the here-document. -/
def closingSettings : Settings :=
  { OptionSet.sampleSettings with description := some "first\nEOF\nlast" }

theorem usage_closed_iff_closing :
    ∃ script set body after, compile closingSettings OptionSet.sampleSources = .ok script ∧
      optionSet closingSettings OptionSet.sampleSources = .ok set ∧
      Bytes.split newline script =
        textLines (header set) ++ (["w3_usage_hook () \x7b", "    cat <<EOF"] : List Bytes) ++
          body ++ (["EOF", "    w3_global_usage"] : List Bytes) ++ after ∧
      hereDocEnd ∈ body := by
  obtain ⟨script, hscript⟩ :
      ∃ script, compile closingSettings OptionSet.sampleSources = .ok script := ⟨_, rfl⟩
  obtain ⟨closing, hclosing, hcloses⟩ : ∃ set,
      optionSet closingSettings OptionSet.sampleSources = .ok set ∧
        ClosesHereDoc set.description :=
    ⟨_, rfl, by decide⟩
  obtain ⟨set, hset, body, after, hsplit, hiff⟩ := usage_closed_iff hscript
  obtain rfl : closing = set := Except.ok.inj (hclosing.symm.trans hset)
  exact ⟨script, _, body, after, hscript, hset, hsplit, hiff.mpr ⟨_, List.mem_cons_self, hcloses⟩⟩

/-- A description with a line `EOF` ends the here-document before the script does. -/
theorem usage_closed_early :
    (compile closingSettings []).toOption.map (fun script =>
      ((Bytes.split newline script).dropWhile fun line : Bytes => line ≠ "    cat <<EOF").takeWhile
        fun line : Bytes => line ≠ "    w3_global_usage") =
      some (["    cat <<EOF", "Usage: $w3_argv0 [options] [search words]...", "Description:",
        "  first", "EOF", "last (sample.org)", "EOF"] : List Bytes) := by
  decide +kernel

end Elvis.Script
