import Elvis.Artifact
import Elvis.Proofs.FileSystem

/-!
# Writing artifacts

An artifact is written as a whole or not at all. If it is not, a temporary file may stay beside its
path.
-/

namespace Elvis.Artifact

open FileSystem (Puts Holds)

variable {calls : SystemCalls} {fs created after : FileSystem} {path name : Bytes}
  {directory : Location} {artifact : Artifact}

/-! ## The directory of a path -/

theorem directoryOf_cases (path : Bytes) :
    (Byte.slash ∉ path ∧ directoryOf path = ".") ∨
      ∃ dir leaf, Byte.slash ∉ leaf ∧ path = dir ++ "/" ++ leaf ∧
        directoryOf path = (if dir.isEmpty then "/" else dir : Bytes) := by
  have hcut := List.takeWhile_append_dropWhile (p := (· != Byte.slash)) (l := path.reverse)
  have hleaf : Byte.slash ∉ (path.reverse.takeWhile (· != Byte.slash)) := fun h =>
    absurd (List.mem_takeWhile_imp h) (by decide)
  unfold directoryOf
  cases hrest : path.reverse.dropWhile (· != Byte.slash) with
  | nil =>
    rw [hrest, List.append_nil] at hcut
    rw [hcut, List.mem_reverse] at hleaf
    exact .inl ⟨hleaf, rfl⟩
  | cons b rest =>
    have hb : b = Byte.slash := by
      have hhead := List.head?_dropWhile_not (· != Byte.slash) path.reverse
      rw [hrest] at hhead
      simpa using hhead
    refine .inr ⟨rest.reverse, (path.reverse.takeWhile (· != Byte.slash)).reverse, ?_, ?_, ?_⟩
    · rwa [List.mem_reverse]
    · have hpath := congrArg List.reverse hcut
      rw [hrest, hb, List.reverse_append, List.reverse_cons, List.reverse_reverse] at hpath
      exact hpath.symm
    · show (if rest.isEmpty then "/" else rest.reverse : Bytes) = _
      rw [List.isEmpty_reverse]

theorem directoryOf_ne_nil (path : Bytes) : directoryOf path ≠ [] := by
  rcases directoryOf_cases path with ⟨_, h⟩ | ⟨dir, _, _, _, h⟩
  · rw [h]
    decide
  · rw [h]
    cases dir with
    | nil => decide
    | cons b dir => exact List.cons_ne_nil b dir

theorem zero_not_mem_directoryOf (h : 0 ∉ path) : 0 ∉ directoryOf path := by
  rcases directoryOf_cases path with ⟨_, hdir⟩ | ⟨dir, leaf, _, rfl, hdir⟩
  · rw [hdir]
    decide
  · rw [hdir]
    split
    · decide
    · exact fun hzero => h (List.mem_append_left _ (List.mem_append_left _ hzero))

theorem holds_of_directoryOf (h : fs.directory? (directoryOf path) = some directory) :
    Holds fs path directory := by
  rcases directoryOf_cases path with ⟨hslash, hdir⟩ | ⟨dir, leaf, hleaf, rfl, hdir⟩
  · rw [hdir] at h
    have hhere : fs.directory? "." = some fs.here := rfl
    obtain rfl := Option.some.inj (hhere.symm.trans h)
    exact .here hslash
  · refine .below hleaf ?_
    rw [hdir] at h
    cases dir with
    | nil => exact h
    | cons b dir =>
      rw [FileSystem.directory?_append_slash (List.cons_ne_nil b dir)]
      exact h

/-! ## Temporary files -/

def temporaryName (name stamp : Bytes) : Bytes := name ++ "." ++ stamp ++ ".mkelvis.tmp"

/-- The location of a temporary file beside the path, for the elvis of the given name. -/
def IsTemporary (fs : FileSystem) (path name : Bytes) (location : Location) : Prop :=
  ∃ directory stamp, Holds fs path directory ∧ IsStamp stamp ∧
    location = directory ++ [temporaryName name stamp]

/-- What has to hold of the paths that a call is given. -/
structure Nameable (artifact : Artifact) : Prop where
  path : 0 ∉ artifact.path
  elvisName : 0 ∉ artifact.elvisName
  slash : Byte.slash ∉ artifact.elvisName

theorem temporary_of_created (hlawful : calls.Lawful) (hnameable : artifact.Nameable)
    {temporary : FileSystem.OpenFile}
    (h : calls.createTemporary fs artifact.template temporarySuffix.length =
      .ok (created, temporary)) :
    IsTemporary fs artifact.path artifact.elvisName temporary.location ∧ 0 ∉ temporary.path ∧
      created.location? temporary.path = some temporary.location ∧
      fs.file? temporary.location = none ∧
      ∃ file, file.content = [] ∧ Puts fs created temporary.location (some file) := by
  have hzero : 0 ∉ artifact.template := by
    unfold template
    simp only [List.mem_append, not_or]
    exact ⟨⟨⟨⟨⟨zero_not_mem_directoryOf hnameable.path, by decide⟩, hnameable.elvisName⟩, by decide⟩,
      by decide⟩, by decide⟩
  obtain ⟨stamp, file, hstamp, hpath, hlocation, hnone, hempty, hputs⟩ :=
    hlawful.createTemporary hzero h
  have hleaf : Byte.slash ∉ temporaryName artifact.elvisName stamp := by
    unfold temporaryName
    simp only [List.mem_append, not_or]
    exact ⟨⟨⟨hnameable.slash, by decide⟩, hstamp.not_mem (by decide)⟩, by decide⟩
  have hne : temporaryName artifact.elvisName stamp ≠ [] :=
    List.append_ne_nil_of_right_ne_nil _ (by decide)
  have htemporary : directoryOf artifact.path ++ "/" ++ artifact.elvisName ++ "." ++ stamp ++
      temporarySuffix = directoryOf artifact.path ++ "/" ++
        temporaryName artifact.elvisName stamp := by
    unfold temporaryName temporarySuffix
    simp only [List.append_assoc]
  have hplace := hlocation
  rw [hpath, htemporary] at hplace
  obtain ⟨directory, hdirectory, hleads⟩ :=
    FileSystem.directory?_of_location? (directoryOf_ne_nil _) hne hleaf hplace
  refine ⟨⟨directory, stamp, holds_of_directoryOf hdirectory, hstamp, hleads⟩, ?_,
    hputs.location?.trans hlocation, hnone, file, hempty, hputs⟩
  rw [hpath]
  unfold template at hzero
  simp only [List.mem_append, not_or] at hzero ⊢
  obtain ⟨⟨hbefore, _⟩, hsuffix⟩ := hzero
  exact ⟨⟨hbefore, hstamp.not_mem (by decide)⟩, hsuffix⟩

/-! ## Writing -/

theorem puts_nothing {location : Location} {file : File} (hfile : fs.file? location = some file) :
    Puts fs fs location (some { file with content := file.content ++ [] }) := by
  rw [List.append_nil]
  exact .refl hfile

/-- Only the file is written to, and it gets the whole content if there is no error. The induction
is on the answers: each leaves to the next one what it did not accept. -/
theorem puts_writeAll {location : Location} {file : File} {content : Bytes}
    {answers : List WriteAnswer} {error : Option SystemError}
    (hfile : fs.file? location = some file)
    (h : writeAll location fs content answers = (after, error)) :
    ∃ written, Puts fs after location (some { file with content := file.content ++ written }) ∧
      (error = none → written = content) := by
  induction answers generalizing fs content file with
  | nil =>
    cases content with
    | nil =>
      cases h
      exact ⟨[], puts_nothing hfile, fun _ => rfl⟩
    | cons b content =>
      cases h
      exact ⟨b :: content, FileSystem.puts_update hfile _, fun _ => rfl⟩
  | cons answer answers ih =>
    cases content with
    | nil =>
      cases h
      exact ⟨[], puts_nothing hfile, fun _ => rfl⟩
    | cons b content =>
      cases answer with
      | accepted count =>
        have happend := FileSystem.puts_update hfile fun file =>
          { file with content := file.content ++ (b :: content).take count }
        obtain ⟨written, hputs, hall⟩ := ih happend.there h
        refine ⟨(b :: content).take count ++ written, ?_, fun herror => ?_⟩
        · rw [← List.append_assoc]
          exact happend.trans hputs
        · rw [hall herror, List.take_append_drop]
      | interrupted => exact ih hfile h
      | failed e =>
        cases h
        exact ⟨[], puts_nothing hfile, nofun⟩

/-- An empty file gets its content and its mode if there is no error, and nothing else changes. -/
theorem puts_fill {location : Location} {file : File} {content : Bytes} {mode : Nat}
    {error : Option SystemError} (hfile : fs.file? location = some file)
    (hempty : file.content = []) (h : fill calls fs location content mode = (after, error)) :
    ∃ held, Puts fs after location (some held) ∧ (error = none → held = ⟨mode, content⟩) := by
  unfold fill at h
  split at h
  · next hwrite =>
    obtain ⟨written, hputs, _⟩ := puts_writeAll hfile hwrite
    cases h
    exact ⟨_, hputs, nofun⟩
  · next hwrite =>
    obtain ⟨written, hputs, hall⟩ := puts_writeAll hfile hwrite
    split at h
    · cases h
      exact ⟨_, hputs, nofun⟩
    split at h
    · cases h
      exact ⟨_, hputs, nofun⟩
    · cases h
      refine ⟨_, hputs.trans (FileSystem.puts_update hputs.there _), fun _ => ?_⟩
      rw [hall rfl, hempty]
      rfl

/-- If an artifact is not written, all files are as they were, but there may be a temporary file
that was not there. -/
theorem write_eq_some (hlawful : calls.Lawful) (hnameable : artifact.Nameable)
    {failure : WriteFailure} (h : artifact.write calls fs = (after, some failure)) :
    after = fs ∨ ∃ location file, IsTemporary fs artifact.path artifact.elvisName location ∧
      fs.file? location = none ∧ Puts fs after location (some file) := by
  unfold write at h
  split at h
  · cases h
    exact .inl rfl
  · next created temporary hcreate =>
    obtain ⟨htemporary, _, _, hnone, file, hempty, hcreated⟩ :=
      temporary_of_created hlawful hnameable hcreate
    split at h
    · next filled error hfill =>
      cases h
      obtain ⟨held, hfilled, _⟩ := puts_fill hcreated.there hempty hfill
      exact .inr ⟨temporary.location, held, htemporary, hnone, hcreated.trans hfilled⟩
    · next filled hfill =>
      obtain ⟨held, hfilled, _⟩ := puts_fill hcreated.there hempty hfill
      split at h
      · cases h
        exact .inr ⟨temporary.location, held, htemporary, hnone, hcreated.trans hfilled⟩
      · cases h

/-- An artifact that is written is at its path, and all other files are as they were. -/
theorem write_eq_none (hlawful : calls.Lawful) (hnameable : artifact.Nameable)
    (h : artifact.write calls fs = (after, none)) :
    ∃ location, fs.location? artifact.path = some location ∧
      Puts fs after location (some ⟨artifact.mode, artifact.content⟩) := by
  unfold write at h
  split at h
  · cases h
  · next created temporary hcreate =>
    obtain ⟨_, hzero, hlocation, hnone, file, hempty, hcreated⟩ :=
      temporary_of_created hlawful hnameable hcreate
    split at h
    · cases h
    · next filled hfill =>
      obtain ⟨held, hfilled, hheld⟩ := puts_fill hcreated.there hempty hfill
      obtain rfl := hheld rfl
      have hputs := hcreated.trans hfilled
      split at h
      · cases h
      · next renamed hrename =>
        cases h
        obtain ⟨new, hnew, hdirectories, hhere, hfiles⟩ := hlawful.rename hzero hnameable.path
          (hfilled.location?.trans hlocation) hputs.there hrename
        refine ⟨new, hputs.location?.symm.trans hnew, hdirectories.trans hputs.directories,
          hhere.trans hputs.here, ?_, fun l hl => ?_⟩
        · rw [hfiles, if_pos rfl]
        · -- the temporary file is gone, and it was not there before
          rw [hfiles, if_neg hl]
          split
          · next hold => rw [hold, hnone]
          · next hold => exact hputs.elsewhere l hold

end Elvis.Artifact
