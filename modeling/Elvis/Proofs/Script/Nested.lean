import Elvis.Proofs.Script.Arms
import Elvis.Proofs.Script.CleanLines

/-!
# Sections with lists

The sections of the script that work on options mention list functions in the arms that change a
list, and around each loop over the items of one: a list context is entered in front of the loop and
left behind it, and none is entered in its body. So enters and leaves alternate, and without lists
no list function is mentioned at all (`Nested`).
-/

namespace Elvis.Script

open Byte (newline space)

/-! ## Entering and leaving -/

/-- The line without spaces at its beginning. -/
def stripped (line : Bytes) : Bytes := line.dropWhile (· = space)

/-- The lines that enter or leave a list context, in their order. -/
def marks (lines : List Bytes) : List Bytes :=
  (lines.map stripped).filter fun line => line == enterContext || line == leaveContext

variable {lists : Bool} {set : OptionSet} {a b body : List Bytes} {line listVariable : Bytes}
  {v : Variable} {f : Flag} {form : Form}

theorem marks_append (a b : List Bytes) : marks (a ++ b) = marks a ++ marks b := by
  unfold marks
  rw [List.map_append, List.filter_append]

/-- A line that neither enters nor leaves a list context. -/
structure Unmarked (line : Bytes) : Prop where
  oneLine : newline ∉ line
  unmarked : stripped line ∉ [enterContext, leaveContext]

theorem marks_of_unmarked (h : ∀ line ∈ a, Unmarked line) : marks a = [] := by
  refine List.filter_eq_nil_iff.mpr (List.forall_mem_map.mpr fun line hline => ?_)
  simpa using (h line hline).unmarked

theorem mem_words_of_mem_words_stripped {word : Bytes} (h : word ∈ words (stripped line)) :
    word ∈ words line := by
  induction line with
  | nil => exact h
  | cons c line ih =>
    unfold stripped at h
    by_cases hc : c = space
    · subst hc
      rw [List.dropWhile_cons_of_pos (by simp)] at h
      rw [words_cons_of_not (by decide)]
      exact List.mem_cons_of_mem _ (ih h)
    · rwa [List.dropWhile_cons_of_neg (by simpa using hc)] at h

theorem Clean.unmarked (h : Clean line) : Unmarked line := by
  have hwords : ∀ mark ∈ [enterContext, leaveContext],
      mark ∈ listFunctions ∧ mark ∈ words mark := by decide
  refine ⟨h.oneLine, fun hmark => ?_⟩
  obtain ⟨hfunction, hword⟩ := hwords _ hmark
  exact h.functions _ hfunction (mem_words_of_mem_words_stripped hword)

/-! ## Nested lines -/

/-- Lines with list contexts, and calls of the functions for lists, only if there are lists. -/
inductive Nested (lists : Bool) : List Bytes → Prop
  | nil : Nested lists []
  | clean {line : Bytes} {rest : List Bytes} :
      Clean line → Nested lists rest → Nested lists (line :: rest)
  | call {line : Bytes} {rest : List Bytes} :
      lists → Unmarked line → Nested lists rest → Nested lists (line :: rest)
  | loop {listVariable : Bytes} {body rest : List Bytes} :
      lists → Clean listVariable → (∀ line ∈ body, Clean line) → Nested lists rest →
      Nested lists (forEachItem listVariable body ++ rest)

theorem Nested.append (ha : Nested lists a) (hb : Nested lists b) : Nested lists (a ++ b) := by
  induction ha with
  | nil => exact hb
  | clean hline _ ih => exact .clean hline ih
  | call hlists hline _ ih => exact .call hlists hline ih
  | loop hlists hvariable hbody _ ih =>
    rw [List.append_assoc]
    exact .loop hlists hvariable hbody ih

theorem Nested.of_clean (h : ∀ line ∈ a, Clean line) : Nested lists a := by
  induction a with
  | nil => exact .nil
  | cons line rest ih =>
    obtain ⟨hline, hrest⟩ := List.forall_mem_cons.mp h
    exact .clean hline (ih hrest)

theorem Nested.flatMap {α : Type} {items : List α} {g : α → List Bytes}
    (h : ∀ item ∈ items, Nested lists (g item)) : Nested lists (items.flatMap g) := by
  induction items with
  | nil => exact .nil
  | cons item rest ih =>
    obtain ⟨hitem, hrest⟩ := List.forall_mem_cons.mp h
    exact hitem.append (ih hrest)

theorem Nested.forEachItem (hlists : lists) (hvariable : Clean listVariable)
    (hbody : ∀ line ∈ body, Clean line) : Nested lists (forEachItem listVariable body) :=
  List.append_nil (Script.forEachItem listVariable body) ▸ .loop hlists hvariable hbody .nil

theorem clean_loopHead (h : Clean listVariable) :
    Clean ("for _sr_elem in $" ++ listVariable ++ "; do") :=
  .between (by decide) h (by decide)

theorem marks_forEachItem (hvariable : Clean listVariable) (hbody : ∀ line ∈ body, Clean line) :
    marks (forEachItem listVariable body) = [enterContext, leaveContext] := by
  have hloop : ∀ line ∈ ("for _sr_elem in $" ++ listVariable ++ "; do") :: body.map indent ++
      (["done"] : List Bytes), Unmarked line := by
    refine List.forall_mem_append.mpr ⟨List.forall_mem_cons.mpr ⟨?_, ?_⟩, ?_⟩
    · exact (clean_loopHead hvariable).unmarked
    · exact List.forall_mem_map.mpr fun line hline => (hbody line hline).indent.unmarked
    · exact List.forall_mem_singleton.mpr (Clean.unmarked (by decide))
  have hlines : forEachItem listVariable body = [enterContext] ++
      (("for _sr_elem in $" ++ listVariable ++ "; do") :: body.map indent ++
        (["done"] : List Bytes)) ++ [leaveContext] := by
    unfold forEachItem
    simp only [List.cons_append, List.nil_append, List.append_assoc]
    rfl
  rw [hlines, marks_append, marks_append, marks_of_unmarked hloop]
  decide

namespace Nested

theorem alternate (h : Nested lists a) :
    ∃ n, marks a = (List.replicate n [enterContext, leaveContext]).flatten ∧
      (0 < n → lists) := by
  induction h with
  | nil => exact ⟨0, rfl, nofun⟩
  | @clean line rest hline _ ih =>
    obtain ⟨n, hmarks, hn⟩ := ih
    refine ⟨n, ?_, hn⟩
    rw [← List.singleton_append, marks_append,
      marks_of_unmarked (List.forall_mem_singleton.mpr hline.unmarked), hmarks, List.nil_append]
  | @call line rest _ hline _ ih =>
    obtain ⟨n, hmarks, hn⟩ := ih
    refine ⟨n, ?_, hn⟩
    rw [← List.singleton_append, marks_append,
      marks_of_unmarked (List.forall_mem_singleton.mpr hline), hmarks, List.nil_append]
  | loop hlists hvariable hbody _ ih =>
    obtain ⟨n, hmarks, _⟩ := ih
    refine ⟨n + 1, ?_, fun _ => hlists⟩
    rw [marks_append, marks_forEachItem hvariable hbody, hmarks, List.replicate_succ,
      List.flatten_cons]

theorem oneLine (h : Nested lists a) : ∀ line ∈ a, newline ∉ line := by
  induction h with
  | nil => exact List.forall_mem_nil _
  | clean hline _ ih => exact List.forall_mem_cons.mpr ⟨hline.oneLine, ih⟩
  | call _ hline _ ih => exact List.forall_mem_cons.mpr ⟨hline.oneLine, ih⟩
  | @loop listVariable body _ _ hvariable hbody _ ih =>
    refine List.forall_mem_append.mpr ⟨?_, ih⟩
    unfold Script.forEachItem
    simp only [List.forall_mem_append, List.forall_mem_cons]
    exact ⟨⟨⟨by decide, (clean_loopHead hvariable).oneLine, List.forall_mem_nil _⟩,
      List.forall_mem_map.mpr fun line hline => (hbody line hline).indent.oneLine⟩,
      by decide, by decide, List.forall_mem_nil _⟩

theorem clean_of_not_lists (h : Nested lists a) (hlists : lists = false) :
    ∀ line ∈ a, Clean line := by
  induction h with
  | nil => exact List.forall_mem_nil _
  | clean hline _ ih => exact List.forall_mem_cons.mpr ⟨hline, ih⟩
  | call hcall | loop hcall => exact absurd hcall (by simp [hlists])

end Nested

/-! ## The option parser -/

theorem unmarked_of_mem {b : UInt8} (hline : newline ∉ line) (hb : b ∈ line) (hspace : b ≠ space)
    (hfunction : isFunctionByte b = false) : Unmarked line := by
  have hmarks : ∀ mark ∈ [enterContext, leaveContext], mark ∈ listFunctions := by decide
  have hstripped : b ∈ stripped line := by
    have hsplit : line.takeWhile (· = space) ++ stripped line = line :=
      List.takeWhile_append_dropWhile
    rw [← hsplit] at hb
    refine (List.mem_append.mp hb).resolve_left fun hb => hspace ?_
    simpa using List.mem_takeWhile_imp hb
  refine ⟨hline, fun hmark => ?_⟩
  have hmem := isFunctionByte_of_mem (hmarks _ hmark) b hstripped
  rw [hfunction] at hmem
  cases hmem

/-- A command mentions no function for lists, or there are lists. -/
def CleanCommand (lists : Bool) (command : Bytes) : Prop :=
  Clean command ∨ lists ∧ newline ∉ command

theorem nested_arm {arm : Arm} (hlabels : ∀ label ∈ arm.labels, Clean label)
    (hcommand : CleanCommand lists arm.action.command) : Nested lists [arm.line] := by
  have hopening : Opens (Bytes.join "|" arm.labels ++ ") ") :=
    (Clean.join (by decide) hlabels).opens (by decide)
  rcases hcommand with hcommand | ⟨hlists, hcommand⟩
  · exact .clean (Clean.between hopening hcommand (by decide)).indent.indent .nil
  · have hline : newline ∉ arm.line :=
      List.not_mem_append (by decide) (List.not_mem_append (by decide)
        (List.not_mem_append (List.not_mem_append hopening.clean.oneLine hcommand) (by decide)))
    have hsemicolon : 0x3b ∈ arm.line :=
      List.mem_append_right _ (List.mem_append_right _ (List.mem_append_right _ (by decide)))
    exact .call hlists (unmarked_of_mem hline hsemicolon (by decide) (by decide)) .nil

/-- Only a list is set otherwise than by a new value. -/
theorem eq_list_of_mem_forms {type : VariableType} (h : form ∈ type.forms ++ type.flagForms)
    (hverb : form.verb ≠ .set) : type = .list := by
  have hall : ∀ type ∈ VariableType.buckets, ∀ form ∈ type.forms ++ type.flagForms,
      form.verb ≠ .set → type = .list := by decide
  exact hall type type.mem_buckets form h hverb

theorem cleanCommand_ofForm {type : VariableType} {target : Bytes} {value : Operand}
    (htarget : Clean target) (hvalue : Clean value.word) (hlists : form.verb ≠ .set → lists) :
    CleanCommand lists (Action.ofForm type target value form).command := by
  have hcall {function : Bytes} (h : newline ∉ function) :
      newline ∉ function ++ target ++ " " ++ value.word :=
    List.not_mem_append (List.not_mem_append (List.not_mem_append h htarget.oneLine) (by decide))
      hvalue.oneLine
  unfold Action.ofForm
  split
  · left
    split
    · exact (Opens.append (by decide) htarget).fence (by decide) hvalue
    · exact (Opens.append (by decide) htarget).fence (by decide) hvalue
  · next hverb => exact .inr ⟨hlists (by simp [hverb]), hcall (by decide)⟩
  · next hverb => exact .inr ⟨hlists (by simp [hverb]), hcall (by decide)⟩
  · next hverb =>
    exact .inr ⟨hlists (by simp [hverb]), List.not_mem_append (by decide) htarget.oneLine⟩

theorem nested_variableArms (h : CleanSet set) (hv : v ∈ set.vars) :
    ∀ arm ∈ variableArms set v, Nested set.hasLists [arm.line] := by
  have hnames := (h.vars v hv).names
  rw [variableArms_eq]
  refine List.forall_mem_map.mpr fun form hform => nested_arm ?_ ?_
  · exact List.forall_mem_map.mpr fun name hname => Form.clean_label (hnames name hname)
  · refine cleanCommand_ofForm (.variableName_of_lowerWord h.name (hnames _ List.mem_cons_self)) ?_
      fun hverb => ?_
    · cases form.takesValue <;> decide
    · exact OptionSet.hasLists_of_mem hv
        (eq_list_of_mem_forms (List.mem_append_left _ hform) hverb)

theorem cleanCommand_flagAction (h : CleanSet set) (hf : f ∈ set.flags)
    (hform : form ∈ f.targetType.flagForms) :
    CleanCommand set.hasLists (flagAction set f form).command := by
  obtain ⟨hflag, hlists⟩ := h.flags f hf
  have htarget : Clean (set.variableName f.target) := .variableName_of_lowerWord h.name hflag.target
  have hverb (hverb : form.verb ≠ .set) : set.hasLists :=
    hlists (eq_list_of_mem_forms (List.mem_append_right _ hform) hverb)
  have hitems {items : List Bytes} (hitems : ∀ item ∈ items, Clean item) :
      CleanCommand set.hasLists (if items.isEmpty then Action.nothing else
        .ofForm f.targetType (set.variableName f.target) (.literal (Bytes.joinCommas items))
          form).command := by
    split
    · exact .inl (by decide)
    · exact cleanCommand_ofForm htarget (Clean.join (by decide) hitems).singleQuoted hverb
  unfold flagAction
  dsimp only
  split
  · exact hitems hflag.items
  · exact hitems fun item hitem => hflag.items item (List.mem_of_mem_filter hitem)
  · exact cleanCommand_ofForm htarget hflag.value.singleQuoted hverb

theorem nested_flagArms (h : CleanSet set) (hf : f ∈ set.flags) :
    ∀ arm ∈ flagArms set f, Nested set.hasLists [arm.line] := by
  have hnames := (h.flags f hf).1.names
  rw [flagArms_eq]
  refine List.forall_mem_map.mpr fun form hform =>
    nested_arm ?_ (cleanCommand_flagAction h hf hform)
  exact List.forall_mem_map.mpr fun name hname => Form.clean_label (hnames name hname)

theorem nested_optionHook (h : CleanSet set) : Nested set.hasLists (optionHook set) := by
  have harms : ∀ arm ∈ arms set, Nested set.hasLists [arm.line] := by
    refine List.forall_mem_append.mpr ⟨?_, ?_⟩
    · exact List.forall_mem_flatMap.mpr fun v hv =>
        nested_variableArms h (set.bucketedVariables_perm.mem_iff.mp hv)
    · exact List.forall_mem_flatMap.mpr fun f hf =>
        nested_flagArms h (set.bucketedFlags_perm.mem_iff.mp hf)
  unfold optionHook
  dsimp only
  rw [List.map_eq_flatMap]
  exact ((Nested.of_clean (by decide)).append (.flatMap harms)).append (.of_clean (by decide))

/-! ## Values -/

theorem clean_membershipCheck {value option : Bytes} {allowed : List Bytes} (hvalue : Clean value)
    (hoption : Clean option) (hallowed : ∀ item ∈ allowed, Clean item) :
    ∀ line ∈ membershipCheck value option allowed, Clean line := by
  have harm : Clean (Shell.caseLabel allowed ++ ") ;;") :=
    (Clean.caseLabel hallowed).append (by decide)
  have hopening : Clean ("*) err \"invalid value '$" ++ value) := Opens.append (by decide) hvalue
  have hlist : Clean (Bytes.join ", " allowed) := .join (by decide) hallowed
  have hrefusal : Clean ("*) err \"invalid value '$" ++ value ++ "' for -" ++ option ++
      "; must be one of: " ++ Bytes.join ", " allowed ++ "\" ;;") :=
    ((hopening.fence (by decide) hoption).fence (by decide) hlist).append (by decide)
  unfold membershipCheck
  simp only [List.forall_mem_cons]
  exact ⟨.between (by decide) hvalue (by decide), harm.indent, hrefusal.indent, by decide,
    List.forall_mem_nil _⟩

theorem nested_variableCheck (h : CleanSet set) (hv : v ∈ set.vars) :
    Nested set.hasLists (variableCheck set v) := by
  have hname : LowerWord v.name := (h.vars v hv).names _ List.mem_cons_self
  unfold variableCheck
  split
  · exact .nil
  · next allowed hallowed =>
    have hallowed := (h.vars v hv).values allowed hallowed
    split
    · next htype =>
      refine .forEachItem (OptionSet.hasLists_of_mem hv htype)
        (.variableName_of_lowerWord h.name hname) ?_
      exact clean_membershipCheck (by decide) (.of_lowerWord hname) hallowed
    · exact .of_clean (clean_membershipCheck (.variableName_of_lowerWord h.name hname)
        (.of_lowerWord hname) hallowed)

theorem nested_valueChecks (h : CleanSet set) : Nested set.hasLists (valueChecks set) := by
  have hchecks : Nested set.hasLists (set.bucketedVariables.flatMap (variableCheck set)) :=
    .flatMap fun v hv => nested_variableCheck h (set.bucketedVariables_perm.mem_iff.mp hv)
  unfold valueChecks
  split
  · exact .nil
  · exact hchecks.append (.of_clean (by decide))

theorem clean_branchLine {b : Branch} (h : CleanBranch b) : Clean (branchLine b) :=
  (((Clean.caseLabel h.patterns).fence (by decide) h.replacement.doubleQuotable).append
    (by decide)).indent.indent

theorem clean_collapseFunction {name : Bytes} {branches : List Branch} (hname : Clean name)
    (hbranches : ∀ b ∈ branches, CleanBranch b) :
    ∀ line ∈ collapseFunction name branches, Clean line := by
  unfold collapseFunction
  simp only [List.forall_mem_append, List.forall_mem_cons]
  exact ⟨⟨⟨hname.append (by decide), by decide, List.forall_mem_nil _⟩,
    List.forall_mem_map.mpr fun b hb => clean_branchLine (hbranches b hb)⟩,
    by decide, by decide, by decide, List.forall_mem_nil _⟩

theorem nested_applyCollapse {name variableName : Bytes} {isList : Bool} (hname : Clean name)
    (hvariable : Clean variableName) (hlists : isList → lists) :
    Nested lists (applyCollapse name variableName isList) := by
  unfold applyCollapse
  split
  · next hlist =>
    refine (Nested.append (.of_clean (by decide)) (.forEachItem (hlists hlist) hvariable ?_)).append
      (.of_clean ?_)
    · refine List.forall_mem_singleton.mpr ?_
      exact .between (by decide) hname (by decide)
    · refine List.forall_mem_singleton.mpr ?_
      exact hvariable.append (by decide)
  · refine .of_clean (List.forall_mem_singleton.mpr ?_)
    exact ((hvariable.fence (by decide) hname).fence (by decide) hvariable).append (by decide)

theorem nested_collapses (h : CleanSet set) : Nested set.hasLists (collapses set) := by
  refine .flatMap fun ⟨c, position⟩ hc => ?_
  obtain ⟨htarget, hbranches⟩ := h.collapses c (List.fst_mem_of_mem_zipIdx hc)
  have hname := Clean.collapseName position
  refine ((Nested.of_clean (clean_collapseFunction hname hbranches)).append
    (nested_applyCollapse hname (.variableName_of_lowerWord h.name htarget) fun hlist => ?_)).append
      (.of_clean (by decide))
  obtain ⟨v, hfind, htype⟩ := Option.map_eq_some_iff.mp (of_decide_eq_true hlist)
  exact OptionSet.hasLists_of_findVariable? hfind htype

/-! ## The search -/

/-- The pieces mention no list function, and none of them runs on into what stands behind it. -/
def CleanWord (word : List Piece) : Prop := ∀ p ∈ word, p.render = [] ∨ Opens p.render

instance (word : List Piece) : Decidable (CleanWord word) :=
  inferInstanceAs (Decidable (∀ p ∈ word, p.render = [] ∨ Opens p.render))

theorem CleanWord.clean {word : List Piece} (h : CleanWord word) :
    Clean (word.flatMap Piece.render) := by
  induction word with
  | nil => exact .nil
  | cons p word ih =>
    obtain ⟨hp, hword⟩ := List.forall_mem_cons.mp h
    rw [List.flatMap_cons]
    rcases hp with hp | hp
    · rw [hp]
      exact ih hword
    · exact hp.append (ih hword)

/-- A statement whose texts mention no function for lists. -/
inductive CleanStatement (lists : Bool) : Statement → Prop
  | clear {target : Bytes} : Clean target → CleanStatement lists (.clear target)
  | assign {target : Bytes} {word : List Piece} :
      Clean target → CleanWord word → CleanStatement lists (.assign target word)
  | forEachItem {listVariable target : Bytes} {word : List Piece} :
      lists → Clean listVariable → Clean target → CleanWord word →
      CleanStatement lists (.forEachItem listVariable target word)

theorem clean_assignment {target : Bytes} {word : List Piece} (htarget : Clean target)
    (hword : CleanWord word) : Clean (Statement.assignment target word) :=
  (htarget.fence (by decide) hword.clean).append (by decide)

theorem CleanStatement.nested {s : Statement} (h : CleanStatement lists s) :
    Nested lists s.lines := by
  cases h with
  | clear htarget => exact .of_clean (List.forall_mem_singleton.mpr (htarget.append (by decide)))
  | assign htarget hword =>
    exact .of_clean (List.forall_mem_singleton.mpr (clean_assignment htarget hword))
  | forEachItem hlists hvariable htarget hword =>
    exact .forEachItem hlists hvariable
      (List.forall_mem_singleton.mpr (clean_assignment htarget hword))

theorem opens_value {name : Bytes} (h : Clean name) : Opens (Piece.value name).render :=
  Clean.opens (Opens.append (by decide) h) (by decide)

theorem opens_mappedValue {name : Bytes} (m : Mapping) (h : Clean name) :
    Opens (mappedValue m name).render := by
  unfold mappedValue
  split
  · exact Clean.opens (Opens.append (by decide) h) (by decide)
  · exact opens_value h

theorem cleanStatement_mapping (h : CleanSet set) {m : Mapping} (hm : m ∈ set.mappings)
    {separator : Bytes} (hseparator : separator = [] ∨ Fence separator) :
    ∀ s ∈ mappingStatements set separator m, CleanStatement set.hasLists s := by
  obtain ⟨htarget, hparameter, hlists⟩ := h.mappings m hm
  have hvariable : Clean (set.variableName m.target) := .variableName_of_lowerWord h.name htarget
  have hkey : Opens (Url.percentEncode m.parameter ++ "=") :=
    hparameter.percentEncode.opens (by decide)
  have hparams : Opens (Piece.value "_sr_params").render := by decide
  have hseparated {separator : Bytes} (hs : separator = [] ∨ Fence separator) :
      Opens (separator ++ (Url.percentEncode m.parameter ++ "=")) := by
    rcases hs with rfl | hs
    · exact hkey
    · rw [← List.append_assoc]
      exact (hs.opens.append hparameter.percentEncode).opens (by decide)
  unfold mappingStatements
  dsimp only
  split
  · next hperItem =>
    simp only [List.forall_mem_cons]
    refine ⟨.clear (by decide), .forEachItem (hlists hperItem) hvariable (by decide) ?_,
      .assign (by decide) (by decide), .assign (by decide) ?_, List.forall_mem_nil _⟩
    · simp only [CleanWord, List.forall_mem_cons]
      exact ⟨.inr (by decide), .inr (hseparated (.inr (by decide))),
        .inr (opens_mappedValue m (by decide)), List.forall_mem_nil _⟩
    · simp only [CleanWord, List.forall_mem_cons]
      exact ⟨.inr hparams, hseparator.imp_right Fence.opens,
        .inr ((Clean.fence (by decide) (by decide) hkey.clean).opens (by decide)),
        List.forall_mem_nil _⟩
  · refine List.forall_mem_singleton.mpr (.assign (by decide) ?_)
    simp only [CleanWord, List.forall_mem_cons]
    exact ⟨.inr hparams, .inr (hseparated hseparator), .inr (opens_mappedValue m hvariable),
      List.forall_mem_nil _⟩

theorem cleanStatement_parameters (h : CleanSet set) :
    ∀ s ∈ parameterStatements set set.mappings, CleanStatement set.hasLists s := by
  cases hmappings : set.mappings with
  | nil => exact List.forall_mem_nil _
  | cons first rest =>
    have hmapping : ∀ m ∈ first :: rest, ∀ {separator : Bytes}, separator = [] ∨ Fence separator →
        ∀ s ∈ mappingStatements set separator m, CleanStatement set.hasLists s :=
      fun m hm => cleanStatement_mapping h (hmappings ▸ hm)
    obtain ⟨hfirst, hrest⟩ := List.forall_mem_cons.mp hmapping
    unfold parameterStatements
    refine List.forall_mem_append.mpr
      ⟨List.forall_mem_cons.mpr ⟨.clear (by decide), hfirst (.inl rfl)⟩, ?_⟩
    exact List.forall_mem_flatMap.mpr fun m hm => hrest m hm (.inr (by decide))

theorem nested_urlParameters (h : CleanSet set) : Nested set.hasLists (urlParameters set) := by
  have hstatements := cleanStatement_parameters h
  unfold urlParameters
  split
  · exact .nil
  · exact (Nested.flatMap fun s hs => (hstatements s hs).nested).append (.of_clean (by decide))

theorem nested_inlineLines (h : CleanSet set) {i : Inlining} (hi : i ∈ set.inlinings) :
    Nested set.hasLists (inlineLines set i) := by
  obtain ⟨htarget, hkeyword, hlists⟩ := h.inlinings i hi
  have hvariable : Clean (set.variableName i.target) := .variableName_of_lowerWord h.name htarget
  have hopening : Clean ("_sr_inline " ++ Shell.singleQuoted i.keyword) :=
    Opens.append (by decide) (Clean.of_lowerWord hkeyword).singleQuoted
  have hcall {value : Bytes} (hvalue : Clean value) :
      ∀ line ∈ ["_sr_inline " ++ Shell.singleQuoted i.keyword ++ " \"$" ++ value ++ "\""],
        Clean line :=
    List.forall_mem_singleton.mpr ((hopening.fence (by decide) hvalue).append (by decide))
  unfold inlineLines
  dsimp only
  split
  · next hperItem => exact .forEachItem (hlists hperItem) hvariable (hcall (by decide))
  · exact .of_clean (hcall hvariable)

theorem nested_inlinedTerms (h : CleanSet set) : Nested set.hasLists (inlinedTerms set) := by
  unfold inlinedTerms
  split
  · exact .nil
  · exact ((Nested.of_clean (by decide)).append
      (.flatMap fun i hi => nested_inlineLines h hi)).append (.of_clean (by decide))

end Elvis.Script
