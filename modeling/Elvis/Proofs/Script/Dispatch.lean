import Elvis.Proofs.Bytes.Affix
import Elvis.Proofs.Script.Mentions
import Elvis.Proofs.Script.Usage
import Elvis.Script.Search
import Mathlib.Data.List.DropRight

/-!
# The URL that the script opens

The script ends with a branch for each case: without search terms it opens the base URL, and with
search terms the search URL. What the latter escapes and opens is read off the script
(`readTermsBranch`). It shows the URL parameters if any variable is mapped, and the inlined terms if
any is inlined (`terms_dispatched`).
-/

namespace Elvis.Script

open Byte (newline)

/-! ## Reading the end of a script -/

/-- The branch with search terms as it is written: the lines of the script up to its `else`, the
arguments of `w3_url_of_arg`, and those of `w3_browse_url`. -/
structure WrittenBranch where
  before : List Bytes
  escaped : List Bytes
  opened : List Bytes
deriving DecidableEq, Repr

def escapeOpening : Bytes := "    escaped_args=$(w3_url_of_arg \""

def browseOpening : Bytes := "    w3_browse_url \""

/-- Reads what stands behind the last `else` of a script. -/
def readTermsBranch (script : Bytes) : WrittenBranch :=
  let isInside (line : Bytes) : Bool := line ≠ "else"
  let lines := Bytes.split newline script
  let branch := lines.rtakeWhile isInside
  { before := lines.rdropWhile isInside
    escaped := branch.filterMap (Bytes.between? escapeOpening "\")")
    opened := branch.filterMap (Bytes.between? browseOpening "\"") }

theorem rtakeWhile_append_cons {α : Type} {p : α → Bool} {last : α} {before after : List α}
    (hlast : ¬ p last) (hafter : ∀ x ∈ after, p x) :
    (before ++ last :: after).rtakeWhile p = after := by
  have hreverse : (before ++ last :: after).reverse = after.reverse ++ last :: before.reverse := by
    simp
  unfold List.rtakeWhile
  rw [hreverse, List.takeWhile_append_of_pos (by simpa using hafter),
    List.takeWhile_cons_of_neg hlast, List.append_nil, List.reverse_reverse]

theorem rdropWhile_append_cons {α : Type} {p : α → Bool} {last : α} {before after : List α}
    (hlast : ¬ p last) (hafter : ∀ x ∈ after, p x) :
    (before ++ last :: after).rdropWhile p = before ++ [last] := by
  have hreverse : (before ++ last :: after).reverse = after.reverse ++ last :: before.reverse := by
    simp
  unfold List.rdropWhile
  rw [hreverse, List.dropWhile_append_of_pos (by simpa using hafter),
    List.dropWhile_cons_of_neg hlast, List.reverse_cons, List.reverse_reverse]

/-! ## The branch of a script -/

variable {set : OptionSet} {s : Settings} {ds : List Directive}

/-- What is escaped for the search URL. -/
def escapedTerms (set : OptionSet) : Bytes :=
  "$w3_args" ++ if set.inlinings.isEmpty then "" else "$_sr_inlines"

def openedUrl (set : OptionSet) : Bytes := "$\x7bsearch_url\x7d" ++ searchQuery set

def termsBranch (set : OptionSet) : List Bytes :=
  (if set.settings.appendSearchArgs then [escapeOpening ++ (escapedTerms set ++ "\")")] else []) ++
    [browseOpening ++ (openedUrl set ++ "\"")]

def dispatchOpening : List Bytes :=
  ["if [ -z \"$w3_args\" ]; then", "    w3_browse_url \"$base_url\""]

theorem dispatch_eq (set : OptionSet) :
    dispatch set =
      dispatchOpening ++ ("else" : Bytes) :: (termsBranch set ++ [("fi" : Bytes)]) := by
  have hbrowse : indent ("w3_browse_url \"$\x7bsearch_url\x7d" ++ searchQuery set ++ "\"") =
      browseOpening ++ (openedUrl set ++ "\"") := by
    unfold openedUrl
    simp only [← List.append_assoc]
    rfl
  unfold dispatch
  rw [hbrowse]
  unfold termsBranch escapedTerms
  cases set.settings.appendSearchArgs with
  | false => rfl
  | true => cases set.inlinings.isEmpty <;> rfl

theorem newline_not_mem_percentEncode (text : Bytes) : newline ∉ Url.percentEncode text := by
  intro hmem
  exact absurd (Url.isUnreserved_or_percent _ hmem) (by decide)

theorem newline_not_mem_searchQuery (set : OptionSet) : newline ∉ searchQuery set := by
  unfold searchQuery
  dsimp only
  split
  · split
    · refine List.not_mem_append
        (List.not_mem_append (newline_not_mem_percentEncode _) (by decide)) ?_
      split <;> decide
    · decide
  · split <;> decide

/-- Every line of the branch is indented, and none holds a line end. -/
theorem termsBranch_lines :
    ∀ line ∈ termsBranch set, newline ∉ line ∧ line.head? = some Byte.space := by
  refine List.forall_mem_append.mpr ⟨?_, List.forall_mem_singleton.mpr ⟨?_, rfl⟩⟩
  · split
    · refine List.forall_mem_singleton.mpr ⟨?_, rfl⟩
      unfold escapedTerms
      split <;> decide
    · exact List.forall_mem_nil _
  · exact List.not_mem_append (by decide) (List.not_mem_append
      (List.not_mem_append (by decide) (newline_not_mem_searchQuery set)) (by decide))

theorem textLines_of_newline_not_mem {lines : List Bytes} (h : ∀ line ∈ lines, newline ∉ line) :
    textLines lines = lines := by
  induction lines with
  | nil => rfl
  | cons line lines ih =>
    obtain ⟨hline, hlines⟩ := List.forall_mem_cons.mp h
    rw [textLines, List.flatMap_cons, Bytes.split_of_not_mem hline]
    exact congrArg (line :: ·) (ih hlines)

/-- The sections that collect what the search URL shows stand right before the branches. -/
theorem split_render_dispatch (set : OptionSet) :
    ∃ front, Bytes.split newline (render set) =
      front ++ textLines (urlParameters set) ++ textLines (inlinedTerms set) ++ dispatchOpening ++
        ("else" : Bytes) :: (termsBranch set ++ [("fi" : Bytes), ""]) := by
  obtain ⟨front, hlines⟩ : ∃ front,
      lines set = front ++ urlParameters set ++ inlinedTerms set ++ dispatch set := ⟨_, rfl⟩
  have hdispatch : textLines (dispatch set) = dispatch set := by
    refine textLines_of_newline_not_mem ?_
    rw [dispatch_eq]
    refine List.forall_mem_append.mpr ⟨by decide, List.forall_mem_cons.mpr ⟨by decide, ?_⟩⟩
    exact List.forall_mem_append.mpr ⟨fun line hline => (termsBranch_lines line hline).1, by decide⟩
  refine ⟨textLines front, ?_⟩
  unfold render
  rw [split_unlines, hlines, textLines_append, textLines_append, textLines_append, hdispatch,
    dispatch_eq]
  simp only [List.append_assoc, List.cons_append]
  rfl

theorem escaped_termsBranch (set : OptionSet) :
    (termsBranch set).filterMap (Bytes.between? escapeOpening "\")") =
      if set.settings.appendSearchArgs then [escapedTerms set] else [] := by
  have hbrowse (rest : Bytes) : Bytes.between? escapeOpening "\")" (browseOpening ++ rest) = none :=
    rfl
  unfold termsBranch
  split
  · rw [List.singleton_append, List.filterMap_cons, Bytes.between?_append, List.filterMap_cons,
      hbrowse]
    rfl
  · rw [List.nil_append, List.filterMap_cons, hbrowse]
    rfl

theorem opened_termsBranch (set : OptionSet) :
    (termsBranch set).filterMap (Bytes.between? browseOpening "\"") = [openedUrl set] := by
  have hescape (rest : Bytes) : Bytes.between? browseOpening "\"" (escapeOpening ++ rest) = none :=
    rfl
  unfold termsBranch
  rw [List.filterMap_append, List.filterMap_cons, Bytes.between?_append]
  split
  · rw [List.filterMap_cons, hescape]
    rfl
  · rfl

/-- The lines that the reader looks for are those of the branch. -/
theorem readTermsBranch_render (set : OptionSet) :
    ∃ front, readTermsBranch (render set) =
      { before := front ++ textLines (urlParameters set) ++ textLines (inlinedTerms set) ++
          dispatchOpening ++ [("else" : Bytes)]
        escaped := if set.settings.appendSearchArgs then [escapedTerms set] else []
        opened := [openedUrl set] } := by
  obtain ⟨front, hsplit⟩ := split_render_dispatch set
  have hinside : ∀ line ∈ termsBranch set ++ [("fi" : Bytes), ""], decide (line ≠ "else") := by
    refine List.forall_mem_append.mpr ⟨fun line hline => decide_eq_true fun heq => ?_, by decide⟩
    have hspace := (termsBranch_lines line hline).2
    rw [heq] at hspace
    cases hspace
  refine ⟨front, ?_⟩
  unfold readTermsBranch
  dsimp only
  rw [hsplit, rtakeWhile_append_cons (by decide) hinside,
    rdropWhile_append_cons (by decide) hinside, List.filterMap_append, List.filterMap_append,
    escaped_termsBranch, opened_termsBranch]
  congr 1
  exact List.append_nil _

/-! ## Expansions in a text -/

/-- A pattern whose first byte does not come again stands in a text where that byte splits it. -/
theorem exists_piece_of_infix {b : UInt8} {rest text : Bytes} (hb : b ∉ rest)
    (h : b :: rest <:+: text) : ∃ piece ∈ (Bytes.split b text).tail, rest <+: piece := by
  obtain ⟨before, after, rfl⟩ := h
  obtain ⟨piece, pieces, hafter⟩ := List.exists_cons_of_ne_nil (Bytes.split_ne_nil b after)
  refine ⟨rest ++ piece, ?_, List.prefix_append _ _⟩
  rw [List.append_assoc, List.cons_append, Bytes.split_append,
    Bytes.split_append_of_not_mem hb, hafter,
    List.tail_append_of_ne_nil (Bytes.split_ne_nil b before)]
  exact List.mem_append_right _ List.mem_cons_self

/-- What the search terms stand behind. -/
def queryKey (set : OptionSet) : Bytes :=
  match set.settings.queryParameter with
  | some parameter => Url.percentEncode parameter ++ "="
  | none => []

/-- The URL without the URL parameters. -/
def searchFront (set : OptionSet) : Bytes :=
  if set.settings.appendSearchArgs then
    "$\x7bsearch_url\x7d" ++ queryKey set ++ "$\x7bescaped_args\x7d"
  else "$\x7bsearch_url\x7d"

/-- The URL parameters, with a separator if they stand behind the search terms. -/
def parametersBehind (set : OptionSet) : Bytes :=
  if set.mappings.isEmpty then []
  else if set.settings.appendSearchArgs then "&$\x7b_sr_params\x7d"
  else "$\x7b_sr_params\x7d"

theorem queryParameter_isSome (h : OptionSet.build s ds = .ok set) (hne : set.mappings ≠ [])
    (happend : set.settings.appendSearchArgs) : set.settings.queryParameter.isSome := by
  obtain ⟨hw, urls, _, rfl⟩ := OptionSet.build_eq_ok_iff.mp h
  obtain ⟨m, hm⟩ := List.exists_mem_of_ne_nil _ hne
  exact hw.queryParameter m (Declared.mem_mappings.mp hm) happend

/-- Mapped variables are never left out: nothing is mapped where the search terms are sent under no
parameter. -/
theorem openedUrl_eq (h : OptionSet.build s ds = .ok set) :
    openedUrl set = searchFront set ++ parametersBehind set := by
  have hparameter := queryParameter_isSome h
  unfold openedUrl searchFront queryKey parametersBehind searchQuery
  cases happend : set.settings.appendSearchArgs with
  | false => cases set.mappings.isEmpty <;> rfl
  | true =>
    cases hquery : set.settings.queryParameter with
    | some p =>
      simp only [if_true, List.append_assoc]
      cases set.mappings.isEmpty <;> rfl
    | none =>
      have hmappings : set.mappings = [] := Decidable.byContradiction fun hne => by
        simpa [hquery] using hparameter hne happend
      rw [hmappings]
      rfl

theorem not_mem_queryKey {b : UInt8} (hb : ¬ Url.isUnreserved b)
    (hne : b ∉ [Byte.percent, Byte.equals]) : b ∉ queryKey set := by
  unfold queryKey
  split
  · refine List.not_mem_append (fun hmem => ?_) fun hmem => ?_
    · rcases Url.isUnreserved_or_percent b hmem with h | rfl
      · exact hb h
      · exact hne List.mem_cons_self
    · exact hne (List.mem_cons_of_mem _ hmem)
  · exact List.not_mem_nil

theorem ampersand_not_mem_searchFront (set : OptionSet) : (0x26 : UInt8) ∉ searchFront set := by
  unfold searchFront
  split
  · exact List.not_mem_append (List.not_mem_append (by decide)
      (not_mem_queryKey (by decide) (by decide))) (by decide)
  · decide

/-- Neither the search URL nor the search terms are the URL parameters. -/
theorem not_params_infix_searchFront (set : OptionSet) :
    ¬ "$\x7b_sr_params\x7d" <:+: searchFront set := by
  intro h
  have h : Byte.dollar :: ("\x7b_sr_params\x7d" : Bytes) <:+: searchFront set := h
  obtain ⟨piece, hpiece, rest, rfl⟩ := exists_piece_of_infix (by decide) h
  unfold searchFront at hpiece
  split at hpiece
  · have hdollar : Byte.dollar ∉ ("\x7bsearch_url\x7d" : Bytes) ++ queryKey set :=
      List.not_mem_append (by decide) (not_mem_queryKey (by decide) (by decide))
    have htext : "$\x7bsearch_url\x7d" ++ queryKey set ++ "$\x7bescaped_args\x7d" =
        Byte.dollar :: ("\x7bsearch_url\x7d" ++ queryKey set ++
          Byte.dollar :: "\x7bescaped_args\x7d") := rfl
    rw [htext, Bytes.split_cons_separator, Bytes.split_append, Bytes.split_of_not_mem hdollar,
      Bytes.split_of_not_mem (by decide)] at hpiece
    rcases List.mem_pair.mp hpiece with heq | heq
    · cases heq
    · cases heq
  · obtain heq := List.mem_singleton.mp hpiece
    cases heq

theorem parametersBehind_of_nil (h : set.mappings = []) : parametersBehind set = [] := by
  unfold parametersBehind
  rw [h]
  rfl

theorem parametersBehind_of_ne_nil (h : set.mappings ≠ []) :
    parametersBehind set =
      (if set.settings.appendSearchArgs then "&$\x7b_sr_params\x7d"
        else "$\x7b_sr_params\x7d" : Bytes) := by
  unfold parametersBehind
  rw [if_neg (by simpa using h)]

/-! ## What the sections collect -/

/-- The line puts the parameter of the mapping behind what `_sr_params` holds. -/
def AddsParameter (m : Mapping) (line : Bytes) : Prop :=
  ("_sr_params=\"$\x7b_sr_params\x7d" : Bytes) <+: line ∧
    (Url.percentEncode m.parameter ++ "=" : Bytes) <:+: line

/-- Puts the term of a keyword and a value behind what `_sr_inlines` holds, unless the value is
empty. -/
def inlineFunction : List Bytes :=
  ["_sr_inline () \x7b",
   "    case \"$2\" in",
   "        '') ;;",
   "        *[[:space:]]*) _sr_inlines=\"$\x7b_sr_inlines\x7d $1:\\\"$2\\\"\" ;;",
   "        *) _sr_inlines=\"$\x7b_sr_inlines\x7d $1:$2\" ;;",
   "    esac",
   "\x7d"]

/-- The line calls the function with the keyword of the inlined term and the value of a variable. -/
def AddsTerm (i : Inlining) (line : Bytes) : Prop :=
  ("_sr_inline " ++ Shell.singleQuoted i.keyword ++ " \"$" : Bytes) <+:
    line.dropWhile (· = Byte.space)

theorem exists_sublist_flatMap {α β : Type} {P : α → β → Prop} {f : α → List β} {xs : List α}
    (h : ∀ x ∈ xs, ∃ y ∈ f x, P x y) :
    ∃ ys, ys.Sublist (xs.flatMap f) ∧ List.Forall₂ P xs ys := by
  induction xs with
  | nil => exact ⟨[], List.nil_sublist _, .nil⟩
  | cons x xs ih =>
    obtain ⟨⟨y, hy, hp⟩, hxs⟩ := List.forall_mem_cons.mp h
    obtain ⟨ys, hys, hall⟩ := ih hxs
    exact ⟨y :: ys, (List.singleton_sublist.mpr hy).append hys, .cons hp hall⟩

/-- The beginning of a line stands in the text even where the rest of the line is broken. -/
theorem exists_textLine {lines : List Bytes} {before rest : Bytes} (h : before ++ rest ∈ lines)
    (hbefore : newline ∉ before) : ∃ line ∈ textLines lines, before <+: line := by
  obtain ⟨piece, pieces, hrest⟩ := List.exists_cons_of_ne_nil (Bytes.split_ne_nil newline rest)
  refine ⟨before ++ piece, List.mem_flatMap.mpr ⟨_, h, ?_⟩, List.prefix_append _ _⟩
  rw [Bytes.split_append_of_not_mem hbefore, hrest]
  exact List.mem_cons_self

theorem assignment_params (word : List Piece) :
    Statement.assignment "_sr_params" (.value "_sr_params" :: word) =
      "_sr_params=\"$\x7b_sr_params\x7d" ++ word.flatMap Piece.render ++ "\"" := by
  unfold Statement.assignment
  rw [List.flatMap_cons]
  simp only [List.append_assoc]
  rfl

/-- The statements of a mapping assign its key to `_sr_params`. -/
theorem exists_params_assigned (set : OptionSet) (m : Mapping) {separator : Bytes}
    (hseparator : newline ∉ separator) : ∃ between rest : Bytes, newline ∉ between ∧
      "_sr_params=\"$\x7b_sr_params\x7d" ++ (between ++ (Url.percentEncode m.parameter ++ "=")) ++
        rest ∈ (mappingStatements set separator m).flatMap Statement.lines := by
  unfold mappingStatements
  dsimp only
  split
  · -- the key alone stands behind the name of the collected items, in case there are none
    refine ⟨separator ++ "$\x7b_sr_list_param:-", "\x7d\"",
      List.not_mem_append hseparator (by decide), ?_⟩
    refine List.mem_flatMap.mpr ⟨_, List.mem_of_getLast? rfl, List.mem_singleton.mpr ?_⟩
    rw [assignment_params]
    simp only [Piece.render, List.flatMap_cons, List.flatMap_nil, List.append_assoc,
      List.append_nil]
    rfl
  · refine ⟨separator, (mappedValue m (set.variableName m.target)).render ++ "\"", hseparator, ?_⟩
    refine List.mem_flatMap.mpr ⟨_, List.mem_singleton_self _, List.mem_singleton.mpr ?_⟩
    rw [assignment_params]
    simp only [Piece.render, List.flatMap_cons, List.flatMap_nil, List.append_assoc,
      List.append_nil]

theorem exists_addsParameter (set : OptionSet) (m : Mapping) {separator : Bytes}
    (hseparator : newline ∉ separator) :
    ∃ line ∈ textLines ((mappingStatements set separator m).flatMap Statement.lines),
      AddsParameter m line := by
  obtain ⟨between, rest, hbetween, hmem⟩ := exists_params_assigned set m hseparator
  have hkey : newline ∉ Url.percentEncode m.parameter ++ "=" :=
    List.not_mem_append (newline_not_mem_percentEncode _) (by decide)
  obtain ⟨line, hline, hprefix⟩ := exists_textLine hmem
    (List.not_mem_append (by decide) (List.not_mem_append hbetween hkey))
  refine ⟨line, hline, (List.prefix_append _ _).trans hprefix, ?_⟩
  exact ((List.suffix_append _ _).trans (List.suffix_append _ _)).isInfix.trans hprefix.isInfix

theorem exists_addsTerm (set : OptionSet) {i : Inlining} (hkeyword : LowerWord i.keyword) :
    ∃ line ∈ textLines (inlineLines set i), AddsTerm i line := by
  let call : Bytes := "_sr_inline " ++ Shell.singleQuoted i.keyword ++ " \"$"
  have hkeyword : newline ∉ Shell.singleQuoted i.keyword :=
    (Clean.of_lowerWord hkeyword).singleQuoted.oneLine
  have hcall : newline ∉ call :=
    List.not_mem_append (List.not_mem_append (by decide) hkeyword) (by decide)
  obtain ⟨value, hmem⟩ | ⟨value, hmem⟩ : (∃ value, call ++ value ∈ inlineLines set i) ∨
      ∃ value, indent call ++ value ∈ inlineLines set i := by
    unfold inlineLines
    dsimp only
    split
    · right
      refine ⟨"_sr_elem\"", List.mem_append_left _ (List.mem_append_right _ ?_)⟩
      refine List.mem_singleton.mpr ?_
      unfold indent
      simp only [call, List.append_assoc]
      rfl
    · left
      refine ⟨set.variableName i.target ++ "\"", List.mem_singleton.mpr ?_⟩
      simp only [call, List.append_assoc]
  · obtain ⟨line, hline, rest, rfl⟩ := exists_textLine hmem hcall
    exact ⟨_, hline, List.prefix_append _ _⟩
  · obtain ⟨line, hline, rest, rfl⟩ :=
      exists_textLine hmem (List.not_mem_append (by decide) hcall)
    exact ⟨_, hline, List.prefix_append _ _⟩

theorem textLines_flatMap {α : Type} (xs : List α) (f : α → List Bytes) :
    textLines (xs.flatMap f) = xs.flatMap fun x => textLines (f x) :=
  List.flatMap_assoc

/-- The section clears `_sr_params` and then adds to it for each mapping. -/
theorem textLines_urlParameters (hne : set.mappings ≠ []) :
    ∃ lines, textLines (urlParameters set) = ("_sr_params=" : Bytes) :: lines ∧
      ∃ additions, additions.Sublist lines ∧
        List.Forall₂ AddsParameter set.mappings additions := by
  obtain ⟨first, rest, hmappings⟩ := List.exists_cons_of_ne_nil hne
  have hlines : textLines (urlParameters set) = ("_sr_params=" : Bytes) ::
      (textLines ((mappingStatements set [] first).flatMap Statement.lines) ++
        (rest.flatMap fun m =>
          textLines ((mappingStatements set "&" m).flatMap Statement.lines)) ++ [[]]) := by
    unfold urlParameters
    rw [hmappings]
    show textLines ((((Statement.clear "_sr_params" :: mappingStatements set [] first) ++
      rest.flatMap (mappingStatements set "&")).flatMap Statement.lines) ++ [[]]) = _
    rw [List.flatMap_append, List.flatMap_cons, List.flatMap_assoc, textLines_append,
      textLines_append, textLines_append, textLines_flatMap rest]
    rfl
  obtain ⟨line, hline, hfirst⟩ := exists_addsParameter set first List.not_mem_nil
  have hmore : ∀ m ∈ rest, ∃ line ∈
      textLines ((mappingStatements set "&" m).flatMap Statement.lines), AddsParameter m line :=
    fun m _ => exists_addsParameter set m (by decide)
  obtain ⟨additions, hsublist, hrest⟩ := exists_sublist_flatMap hmore
  refine ⟨_, hlines, line :: additions, ?_, hmappings ▸ .cons hfirst hrest⟩
  exact ((List.singleton_sublist.mpr hline).append hsublist).trans (List.sublist_append_left _ _)

/-- The section clears `_sr_inlines` and then adds to it for each inlined term. -/
theorem textLines_inlinedTerms (hne : set.inlinings ≠ [])
    (hkeywords : ∀ i ∈ set.inlinings, LowerWord i.keyword) :
    ∃ lines, textLines (inlinedTerms set) = ("_sr_inlines=" : Bytes) :: inlineFunction ++ lines ∧
      ∃ additions, additions.Sublist lines ∧ List.Forall₂ AddsTerm set.inlinings additions := by
  have hlines : textLines (inlinedTerms set) = ("_sr_inlines=" : Bytes) :: inlineFunction ++
      ((set.inlinings.flatMap fun i => textLines (inlineLines set i)) ++ [[]]) := by
    unfold inlinedTerms
    rw [if_neg (by simpa using hne), textLines_append, textLines_append, textLines_flatMap,
      List.append_assoc]
    rfl
  obtain ⟨additions, hsublist, hall⟩ :=
    exists_sublist_flatMap fun i hi => exists_addsTerm set (hkeywords i hi)
  exact ⟨_, hlines, additions, hsublist.trans (List.sublist_append_left _ _), hall⟩

/-! ## What the script opens -/

/-- The branch escapes and opens what the settings, the mappings and the inlined terms demand, and
the sections right before it collect what it shows. -/
structure OpensTerms (set : OptionSet) (branch : WrittenBranch) : Prop where
  opened : ∃ url, branch.opened = [url] ∧
    ("$\x7b_sr_params\x7d" <:+: url ↔ set.mappings ≠ []) ∧
    ("&$\x7b_sr_params\x7d" <:+: url ↔
      set.mappings ≠ [] ∧ set.settings.appendSearchArgs ∧ set.settings.queryParameter.isSome) ∧
    ∀ parameter, set.settings.queryParameter = some parameter → set.mappings ≠ [] →
      url = "$\x7bsearch_url\x7d" ++ Url.percentEncode parameter ++
        "=$\x7bescaped_args\x7d&$\x7b_sr_params\x7d"
  escaped : set.settings.appendSearchArgs → ∃ argument, branch.escaped = [argument] ∧
    ("$_sr_inlines" <:+: argument ↔ set.inlinings ≠ [])
  before : ∃ front, branch.before =
    front ++ textLines (urlParameters set) ++ textLines (inlinedTerms set) ++
      (["if [ -z \"$w3_args\" ]; then", "    w3_browse_url \"$base_url\"", "else"] : List Bytes)
  parameters : set.mappings ≠ [] → ∃ lines,
    textLines (urlParameters set) = ("_sr_params=" : Bytes) :: lines ∧
      ∃ additions, additions.Sublist lines ∧ List.Forall₂ AddsParameter set.mappings additions
  inlines : set.inlinings ≠ [] → ∃ lines,
    textLines (inlinedTerms set) = ("_sr_inlines=" : Bytes) :: inlineFunction ++ lines ∧
      ∃ additions, additions.Sublist lines ∧ List.Forall₂ AddsTerm set.inlinings additions

theorem params_infix_openedUrl_iff (h : OptionSet.build s ds = .ok set) :
    "$\x7b_sr_params\x7d" <:+: openedUrl set ↔ set.mappings ≠ [] := by
  rw [openedUrl_eq h]
  constructor
  · intro hinfix hnil
    rw [parametersBehind_of_nil hnil, List.append_nil] at hinfix
    exact not_params_infix_searchFront set hinfix
  · intro hne
    have hsuffix : "$\x7b_sr_params\x7d" <:+ parametersBehind set := by
      rw [parametersBehind_of_ne_nil hne]
      split <;> decide
    exact (hsuffix.trans (List.suffix_append _ _)).isInfix

theorem separator_infix_openedUrl_iff (h : OptionSet.build s ds = .ok set) :
    "&$\x7b_sr_params\x7d" <:+: openedUrl set ↔
      set.mappings ≠ [] ∧ set.settings.appendSearchArgs ∧
        set.settings.queryParameter.isSome := by
  rw [openedUrl_eq h]
  constructor
  · intro hinfix
    -- the ampersand can only be that of the URL parameters
    have hampersand : (0x26 : UInt8) ∈ parametersBehind set := by
      have hmem := hinfix.subset List.mem_cons_self
      exact (List.mem_append.mp hmem).resolve_left (ampersand_not_mem_searchFront set)
    have hne : set.mappings ≠ [] := fun hnil => by
      rw [parametersBehind_of_nil hnil] at hampersand
      cases hampersand
    have happend : set.settings.appendSearchArgs := by
      rw [parametersBehind_of_ne_nil hne] at hampersand
      split at hampersand
      · next happend => exact happend
      · exact absurd hampersand (by decide)
    exact ⟨hne, happend, queryParameter_isSome h hne happend⟩
  · rintro ⟨hne, happend, _⟩
    rw [parametersBehind_of_ne_nil hne, if_pos happend]
    exact (List.suffix_append _ _).isInfix

theorem openedUrl_of_parameter (h : OptionSet.build s ds = .ok set) {parameter : Bytes}
    (hparameter : set.settings.queryParameter = some parameter) (hne : set.mappings ≠ []) :
    openedUrl set = "$\x7bsearch_url\x7d" ++ Url.percentEncode parameter ++
      "=$\x7bescaped_args\x7d&$\x7b_sr_params\x7d" := by
  have happend : set.settings.appendSearchArgs := by
    obtain ⟨hw, urls, _, rfl⟩ := OptionSet.build_eq_ok_iff.mp h
    exact (hw.settings.queryParameter parameter hparameter).2
  rw [openedUrl_eq h, parametersBehind_of_ne_nil hne]
  unfold searchFront queryKey
  rw [if_pos happend, if_pos happend, hparameter]
  simp only [List.append_assoc]
  rfl

theorem inlines_infix_escapedTerms_iff (set : OptionSet) :
    "$_sr_inlines" <:+: escapedTerms set ↔ set.inlinings ≠ [] := by
  unfold escapedTerms
  cases set.inlinings with
  | nil => exact iff_of_false (by decide) (not_not_intro rfl)
  | cons i rest =>
    exact iff_of_true (List.suffix_append ("$w3_args" : Bytes) _).isInfix (List.cons_ne_nil _ _)

theorem lowerWord_keyword {sources : List Directive.Source}
    (hread : Directive.parseAll sources = .ok ds) (hbuild : OptionSet.build s ds = .ok set) :
    ∀ i ∈ set.inlinings, LowerWord i.keyword := by
  obtain ⟨_, urls, _, rfl⟩ := OptionSet.build_eq_ok_iff.mp hbuild
  intro i hi
  exact (Directive.wellFormed_of_parseAll hread _ (Declared.mem_inlinings.mp hi)).2

/-- No mapping and no inlined term is dropped where the script opens the search URL. -/
theorem terms_dispatched {sources : List Directive.Source} {script : Bytes}
    (h : compile s sources = .ok script) :
    ∃ set, optionSet s sources = .ok set ∧ OpensTerms set (readTermsBranch script) := by
  obtain ⟨set, hset, rfl⟩ := map_eq_ok_iff.mp h
  obtain ⟨ds, hread, hbuild⟩ := bind_eq_ok_iff.mp hset
  obtain ⟨front, hbranch⟩ := readTermsBranch_render set
  refine ⟨set, hset, ?_⟩
  rw [hbranch]
  exact
    { opened := ⟨_, rfl, params_infix_openedUrl_iff hbuild, separator_infix_openedUrl_iff hbuild,
        fun _ => openedUrl_of_parameter hbuild⟩
      escaped := fun happend => ⟨_, if_pos happend, inlines_infix_escapedTerms_iff set⟩
      before := ⟨front, by rw [List.append_assoc _ dispatchOpening]; rfl⟩
      parameters := textLines_urlParameters
      inlines := fun hne => textLines_inlinedTerms hne (lowerWord_keyword hread hbuild) }

theorem terms_dispatched_sample :
    ∃ script set, compile OptionSet.sampleSettings OptionSet.sampleSources = .ok script ∧
      optionSet OptionSet.sampleSettings OptionSet.sampleSources = .ok set ∧
      set.mappings ≠ [] ∧ set.inlinings ≠ [] ∧ OpensTerms set (readTermsBranch script) := by
  obtain ⟨script, hscript⟩ :
      ∃ script, compile OptionSet.sampleSettings OptionSet.sampleSources = .ok script := ⟨_, rfl⟩
  obtain ⟨sample, hsample, hmappings, hinlinings⟩ : ∃ set,
      optionSet OptionSet.sampleSettings OptionSet.sampleSources = .ok set ∧
        set.mappings ≠ [] ∧ set.inlinings ≠ [] :=
    ⟨_, rfl, List.cons_ne_nil _ _, List.cons_ne_nil _ _⟩
  obtain ⟨set, hset, hopens⟩ := terms_dispatched hscript
  obtain rfl : sample = set := Except.ok.inj (hsample.symm.trans hset)
  exact ⟨script, sample, hscript, hsample, hmappings, hinlinings, hopens⟩

end Elvis.Script
