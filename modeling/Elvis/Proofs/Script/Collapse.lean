import Elvis.Proofs.Bytes.Affix
import Elvis.Proofs.Directive.PrintParse
import Elvis.Proofs.OptionSet.Acceptance
import Elvis.Proofs.Shell.Quoting
import Elvis.Script.ValueCheck

/-!
# Collapses of the script

A collapse is rendered as a shell function with one `case` arm a branch. Its patterns and
replacements may hold any bytes, also text that looks like an arm, and the function still shows
which branches it was made from.
-/

namespace Elvis.Script

/-! ## Reading a function -/

/-- An arm as it is written: the words of its label, and the text between the double quotes. -/
structure WrittenArm where
  patterns : List Bytes
  text : Bytes
deriving DecidableEq, Repr

def readArm (text : Bytes) : Option (WrittenArm × Bytes) := do
  let text ← text.dropPrefix? (indent (indent []))
  let (patterns, text) ← Shell.readLabel .wordStart [] [] text
  let text ← text.dropPrefix? " printf '%s\\n' \""
  let (replacement, text) ← Shell.readDoubleQuoted false text
  let rest ← text.dropPrefix? " ;;\n"
  return (⟨patterns, replacement⟩, rest)

/-- The arm for the values that no branch matches. -/
def catchAll : Bytes := indent (indent "*) printf '%s\\n' \"$1\" ;;\n")

theorem length_readArm_lt {text rest : Bytes} {arm : WrittenArm}
    (h : readArm text = some (arm, rest)) : rest.length < text.length := by
  simp only [readArm, Option.bind_eq_bind, Option.bind_eq_some_iff, Prod.exists] at h
  obtain ⟨_, hindent, _, _, hlabel, _, hprintf, _, _, htext, _, hend, hrest⟩ := h
  cases hrest
  have h₁ := Bytes.length_dropPrefix?_le hindent
  have h₂ := Shell.length_readLabel_lt hlabel
  have h₃ := Bytes.length_dropPrefix?_le hprintf
  have h₄ := Shell.length_readDoubleQuoted_lt htext
  have h₅ := Bytes.length_dropPrefix?_le hend
  omega

/-- Reads arms up to the one that matches every value, and gives what follows it. -/
def readArms (text : Bytes) : Option (List WrittenArm × Bytes) :=
  match _h : readArm text with
  | some (arm, rest) => (readArms rest).map fun (arms, after) => (arm :: arms, after)
  | none => (text.dropPrefix? catchAll).map fun after => ([], after)
termination_by text.length
decreasing_by exact length_readArm_lt _h

/-- Reads a function of the given name that selects one of several texts by its argument. -/
def readCollapse (name text : Bytes) : Option (List WrittenArm × Bytes) := do
  let text ← text.dropPrefix? (Bytes.unlines [name ++ " () \x7b", indent "case \"$1\" in"])
  let (arms, text) ← readArms text
  let rest ← text.dropPrefix? (Bytes.unlines [indent "esac", "\x7d"])
  return (arms, rest)

/-! ## Reading what is rendered -/

def Branch.written (b : Branch) : WrittenArm := ⟨b.patterns, Shell.doubleQuotable b.replacement⟩

theorem readArms_of_readArm {text rest : Bytes} {arm : WrittenArm}
    (h : readArm text = some (arm, rest)) :
    readArms text = (readArms rest).map fun (arms, after) => (arm :: arms, after) := by
  rw [readArms]
  split
  · next h' =>
    rw [h] at h'
    cases h'
    rfl
  · next h' =>
    rw [h] at h'
    cases h'

theorem readArms_catchAll (rest : Bytes) : readArms (catchAll ++ rest) = some ([], rest) := by
  -- a label starts with a quote or a backslash, so the star is no label
  have hread : readArm (catchAll ++ rest) = none := rfl
  rw [readArms]
  split
  · next h =>
    rw [hread] at h
    cases h
  · rw [Bytes.dropPrefix?_append]
    rfl

theorem readArm_branchLine {b : Branch} (h : b.patterns ≠ []) (rest : Bytes) :
    readArm (branchLine b ++ Byte.newline :: rest) = some (Branch.written b, rest) := by
  have htext : branchLine b ++ Byte.newline :: rest =
      indent (indent []) ++ (Shell.caseLabel b.patterns ++ Byte.closingParen ::
        (" printf '%s\\n' \"" ++ (Shell.doubleQuotable b.replacement ++ Byte.doubleQuote ::
          (" ;;\n" ++ rest)))) := by
    unfold branchLine indent
    simp only [List.append_assoc]
    rfl
  have hunescaped : false = true → Shell.quoteFollows b.replacement = false := nofun
  unfold readArm
  simp only [htext, Bytes.dropPrefix?_append, Shell.readLabel_caseLabel h,
    Shell.readDoubleQuoted_doubleQuotable hunescaped, Option.bind_eq_bind, Option.bind_some]
  rfl

theorem readArms_branchLines {branches : List Branch} (h : ∀ b ∈ branches, b.patterns ≠ [])
    (rest : Bytes) :
    readArms (Bytes.unlines (branches.map branchLine) ++ (catchAll ++ rest)) =
      some (branches.map Branch.written, rest) := by
  induction branches with
  | nil => exact readArms_catchAll rest
  | cons b branches ih =>
    obtain ⟨hb, hbranches⟩ := List.forall_mem_cons.mp h
    have htext : Bytes.unlines ((b :: branches).map branchLine) ++ (catchAll ++ rest) =
        branchLine b ++ Byte.newline ::
          (Bytes.unlines (branches.map branchLine) ++ (catchAll ++ rest)) := by
      simp [Bytes.unlines]
    rw [htext, readArms_of_readArm (readArm_branchLine hb _), ih hbranches]
    rfl

theorem readCollapse_collapseFunction {name : Bytes} {branches : List Branch}
    (h : ∀ b ∈ branches, b.patterns ≠ []) (rest : Bytes) :
    readCollapse name (Bytes.unlines (collapseFunction name branches) ++ rest) =
      some (branches.map Branch.written, rest) := by
  have htext : Bytes.unlines (collapseFunction name branches) ++ rest =
      Bytes.unlines [name ++ " () \x7b", indent "case \"$1\" in"] ++
        (Bytes.unlines (branches.map branchLine) ++ (catchAll ++
          (Bytes.unlines [indent "esac", "\x7d"] ++ rest))) := by
    unfold collapseFunction Bytes.unlines
    simp only [List.flatMap_append, List.append_assoc]
    rfl
  unfold readCollapse
  simp only [htext, Bytes.dropPrefix?_append, readArms_branchLines h, Option.bind_eq_bind,
    Option.bind_some]
  rfl

/-! ## The functions of a script -/

/-- The name of the function for the collapse at a position; positions count from one. -/
def collapseName (position : Nat) : Bytes := "_sr_collapse_" ++ Bytes.decimal position

/-- The function of a collapse follows what the collapses before it add to the script. -/
theorem collapses_eq {set : OptionSet} {i : Nat} {c : Collapse} (h : set.collapses[i]? = some c) :
    ∃ lines, collapses set = collapses { set with collapses := set.collapses.take i } ++
      (collapseFunction (collapseName (i + 1)) c.branches ++ lines) := by
  obtain ⟨hi, hc⟩ := List.getElem?_eq_some_iff.mp h
  have hlength : (set.collapses.take i).length = i := List.length_take_of_le (Nat.le_of_lt hi)
  have hsplit : set.collapses.zipIdx 1 = (set.collapses.take i).zipIdx 1 ++
      (c, i + 1) :: (set.collapses.drop (i + 1)).zipIdx (i + 2) := by
    conv => lhs; rw [← List.take_append_drop i set.collapses, List.drop_eq_getElem_cons hi, hc]
    rw [List.zipIdx_append, hlength, List.zipIdx_cons, Nat.add_comm 1 i]
  obtain ⟨application, hlines⟩ : ∃ application, collapseLines set (i + 1) c =
      collapseFunction (collapseName (i + 1)) c.branches ++ application :=
    ⟨_, List.append_assoc _ _ _⟩
  unfold collapses
  rw [hsplit, List.flatMap_append, List.flatMap_cons]
  dsimp only
  rw [hlines, List.append_assoc]
  exact ⟨_, rfl⟩

/-- The arm is written for the branch: its label reads as the patterns, and only the replacement of
the branch is written as its text. -/
structure WritesBranch (b : Branch) (arm : WrittenArm) : Prop where
  patterns : arm.patterns = b.patterns
  nonempty : arm.patterns ≠ []
  replacement : ∀ r, Shell.doubleQuotable r = arm.text ↔ r = b.replacement

theorem writesBranch_written {b : Branch} (h : b.patterns ≠ []) :
    WritesBranch b (Branch.written b) where
  patterns := rfl
  nonempty := h
  replacement _ := Shell.doubleQuotable_injective.eq_iff

variable {s : Settings} {sources : List Directive.Source} {ds : List Directive} {set : OptionSet}

theorem patterns_ne_nil {c : Collapse} (hread : Directive.parseAll sources = .ok ds)
    (hbuild : OptionSet.build s ds = .ok set) (hc : c ∈ set.collapses) :
    ∀ b ∈ c.branches, b.patterns ≠ [] := by
  obtain ⟨_, urls, _, rfl⟩ := OptionSet.build_eq_ok_iff.mp hbuild
  obtain ⟨_, _, hb⟩ := Directive.wellFormed_of_parseAll hread _ (Declared.mem_collapses.mp hc)
  exact fun b hm => (hb b hm).1

/-- Whatever follows it, the function of a collapse is read as an arm for each of its branches, in
their order, and one more for the values that none of them matches. -/
theorem collapses_readBack {i : Nat} {c : Collapse} (hread : Directive.parseAll sources = .ok ds)
    (hbuild : OptionSet.build s ds = .ok set) (hc : set.collapses[i]? = some c) :
    ∃ lines arms, collapses set =
        collapses { set with collapses := set.collapses.take i } ++ lines ∧
      (∀ following, ∃ after,
        readCollapse (collapseName (i + 1)) (Bytes.unlines lines ++ following) =
          some (arms, after)) ∧
      List.Forall₂ WritesBranch c.branches arms := by
  have hpatterns := patterns_ne_nil hread hbuild (List.mem_of_getElem? hc)
  obtain ⟨lines, hlines⟩ := collapses_eq hc
  refine ⟨_, c.branches.map Branch.written, hlines, fun following => ?_, ?_⟩
  · have htext (first : List Bytes) : Bytes.unlines (first ++ lines) ++ following =
        Bytes.unlines first ++ (Bytes.unlines lines ++ following) := by
      simp [Bytes.unlines]
    exact ⟨_, (congrArg _ (htext _)).trans (readCollapse_collapseFunction hpatterns _)⟩
  · rw [List.forall₂_map_right_iff, List.forall₂_same]
    exact fun b hb => writesBranch_written (hpatterns b hb)

/-- A collapse with quotes, bars and backslashes in its branches, one of which looks like an arm. -/
def quotedSources : List Directive.Source :=
  [⟨.anything, "near:"⟩,
   ⟨.collapse, "near:it's,a|b),\\\"c\\\\:',') printf '%s\\n' \"d\" ;;,\\e\\"⟩]

def quotedDirectives : List Directive :=
  [.declare (.anything "near" []),
   .collapse ⟨"near",
     [⟨["it's", "a|b)"], "\\\"c\\\\"⟩, ⟨["'", "') printf '%s\\n' \"d\" ;;"], "\\e\\"⟩]⟩]

theorem collapses_readBack_quoted :
    ∃ set c, Directive.parseAll quotedSources = .ok quotedDirectives ∧
      OptionSet.build OptionSet.sampleSettings quotedDirectives = .ok set ∧
      set.collapses[0]? = some c ∧
      ∃ lines arms, collapses set =
          collapses { set with collapses := set.collapses.take 0 } ++ lines ∧
        (∀ following, ∃ after,
          readCollapse (collapseName (0 + 1)) (Bytes.unlines lines ++ following) =
            some (arms, after)) ∧
        List.Forall₂ WritesBranch c.branches arms := by
  have hread : Directive.parseAll quotedSources = .ok quotedDirectives := rfl
  obtain ⟨set, hbuild, hset⟩ : ∃ set,
      OptionSet.build OptionSet.sampleSettings quotedDirectives = .ok set ∧
        set.collapses = Declared.collapses quotedDirectives :=
    ⟨_, rfl, rfl⟩
  have hc : set.collapses[0]? = (Declared.collapses quotedDirectives)[0]? :=
    congrArg (·[0]?) hset
  exact ⟨set, _, hread, hbuild, hc, collapses_readBack hread hbuild hc⟩

end Elvis.Script
