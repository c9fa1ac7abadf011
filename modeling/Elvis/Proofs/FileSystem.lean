import Elvis.FileSystem
import Elvis.Proofs.Bytes.SplitJoin
import Elvis.Proofs.Except
import Elvis.Proofs.Integer

/-!
# Files, paths and calls

Which file a path names, what may differ between two states of the file system, and what the calls
that put a file in its place promise (`SystemCalls.Lawful`). The calls of a file system that is
always ready to write keep these promises.
-/

namespace Elvis

variable {fs fs' fs'' : FileSystem} {path dir leaf : Bytes} {location : Location}
  {held : Option File} {file : File}

namespace FileSystem

/-! ## Paths -/

/-- The location of the file that a path names. -/
def location? (fs : FileSystem) (path : Bytes) : Option Location :=
  match fs.place path with
  | .ok place => if place.isSpecial || place.slashAfter then none else some place.location
  | .error _ => none

/-- The directory that a path leads to. -/
def directory? (fs : FileSystem) (path : Bytes) : Option Location :=
  let start := if path.head? = some Byte.slash then [] else fs.here
  (((Bytes.split Byte.slash path).filter (!·.isEmpty)).foldlM fs.enter start).toOption

/-- The file of the path stands in the directory, which is the one that the path names before its
last slash, if it has one. -/
inductive Holds (fs : FileSystem) : Bytes → Location → Prop
  | here {leaf : Bytes} : Byte.slash ∉ leaf → Holds fs leaf fs.here
  | below {dir leaf : Bytes} {directory : Location} :
      Byte.slash ∉ leaf → fs.directory? (dir ++ "/") = some directory →
      Holds fs (dir ++ "/" ++ leaf) directory

theorem location?_eq_some_iff :
    fs.location? path = some location ↔
      ∃ place, fs.place path = .ok place ∧ place.isSpecial = false ∧ place.slashAfter = false ∧
        place.location = location := by
  unfold location?
  cases fs.place path with
  | error e => simp
  | ok place => simp [and_assoc]

theorem filter_split_append (s rest : Bytes) :
    (Bytes.split Byte.slash (s ++ "/" ++ rest)).filter (!·.isEmpty) =
      (Bytes.split Byte.slash s).filter (!·.isEmpty) ++
        (Bytes.split Byte.slash rest).filter (!·.isEmpty) := by
  have hslash : s ++ "/" ++ rest = s ++ Byte.slash :: rest := by
    rw [List.append_assoc]
    rfl
  rw [hslash, Bytes.split_append, List.filter_append]

/-- A slash at the end leads nowhere else. -/
theorem directory?_append_slash (h : dir ≠ []) : fs.directory? (dir ++ "/") = fs.directory? dir := by
  have hnames := filter_split_append dir []
  rw [List.append_nil] at hnames
  unfold directory?
  rw [hnames, List.head?_append_of_ne_nil _ h]
  exact congrArg (fun names => (List.foldlM fs.enter _ names).toOption) (List.append_nil _)

theorem directory?_of_location? (hdir : dir ≠ []) (hne : leaf ≠ []) (hleaf : Byte.slash ∉ leaf)
    (h : fs.location? (dir ++ "/" ++ leaf) = some location) :
    ∃ directory, fs.directory? dir = some directory ∧ location = directory ++ [leaf] := by
  obtain ⟨place, hplace, _, _, rfl⟩ := location?_eq_some_iff.mp h
  have hnames : (Bytes.split Byte.slash (dir ++ "/" ++ leaf)).filter (!·.isEmpty) =
      (Bytes.split Byte.slash dir).filter (!·.isEmpty) ++ [leaf] := by
    rw [filter_split_append, Bytes.split_of_not_mem hleaf]
    simp [hne]
  have hhead : (dir ++ "/" ++ leaf).head? = dir.head? := by
    rw [List.append_assoc, List.head?_append_of_ne_nil _ hdir]
  unfold FileSystem.place at hplace
  rw [error_ite_eq_ok_iff, error_ite_eq_ok_iff] at hplace
  obtain ⟨_, _, hplace⟩ := hplace
  obtain ⟨parent, hparent, hplace⟩ := bind_eq_ok_iff.mp hplace
  rw [pure_eq_ok_iff] at hplace
  subst hplace
  rw [hnames, List.dropLast_concat, hhead] at hparent
  refine ⟨parent, ?_, ?_⟩
  · show (List.foldlM fs.enter _ _).toOption = some parent
    rw [hparent]
    rfl
  · show parent ++ [List.getLastD _ _] = parent ++ [leaf]
    rw [hnames, List.getLastD_concat]

/-! ## Changes -/

/-- The second state is the first but for the file at the location. -/
structure Puts (fs fs' : FileSystem) (location : Location) (held : Option File) : Prop where
  directories : fs'.directories = fs.directories
  here : fs'.here = fs.here
  there : fs'.file? location = held
  elsewhere : ∀ l ≠ location, fs'.file? l = fs.file? l

theorem Puts.refl (h : fs.file? location = held) : Puts fs fs location held :=
  ⟨rfl, rfl, h, fun _ _ => rfl⟩

theorem Puts.trans {between : Option File} (h : Puts fs fs' location between)
    (h' : Puts fs' fs'' location held) : Puts fs fs'' location held where
  directories := h'.directories.trans h.directories
  here := h'.here.trans h.here
  there := h'.there
  elsewhere l hl := (h'.elsewhere l hl).trans (h.elsewhere l hl)

theorem enter_ok_congr (h : fs'.directories = fs.directories) {l l' : Location} {name : Bytes} :
    fs'.enter l name = .ok l' ↔ fs.enter l name = .ok l' := by
  unfold enter isDirectory
  rw [h]
  split_ifs <;> simp

theorem foldlM_enter_ok_congr (h : fs'.directories = fs.directories) {names : List Bytes}
    {start l : Location} :
    names.foldlM fs'.enter start = .ok l ↔ names.foldlM fs.enter start = .ok l := by
  induction names generalizing start with
  | nil => exact Iff.rfl
  | cons name names ih =>
    rw [List.foldlM_cons, List.foldlM_cons, bind_eq_ok_iff, bind_eq_ok_iff]
    simp only [enter_ok_congr h, ih]

/-- Paths lead through directories, and files do not matter. -/
theorem location?_congr (hdirectories : fs'.directories = fs.directories)
    (hhere : fs'.here = fs.here) : fs'.location? path = fs.location? path := by
  refine Option.ext fun l => ?_
  have hplace (p : Place) : fs'.place path = .ok p ↔ fs.place path = .ok p := by
    unfold place
    rw [error_ite_eq_ok_iff, error_ite_eq_ok_iff, error_ite_eq_ok_iff, error_ite_eq_ok_iff,
      bind_eq_ok_iff, bind_eq_ok_iff, hhere]
    simp only [foldlM_enter_ok_congr hdirectories]
  simp only [location?_eq_some_iff, hplace]

theorem Puts.location? (h : Puts fs fs' location held) :
    fs'.location? path = fs.location? path :=
  location?_congr h.directories h.here

end FileSystem

/-! ## Calls -/

/-- What a blank is filled with: letters and digits. -/
def IsStamp (stamp : Bytes) : Prop :=
  stamp.length = 6 ∧ ∀ b ∈ stamp, Byte.isLetter b ∨ Byte.isDigit b

theorem IsStamp.not_mem {stamp : Bytes} (h : IsStamp stamp) {b : UInt8}
    (hb : ¬ (Byte.isLetter b ∨ Byte.isDigit b)) : b ∉ stamp := fun hmem => hb (h.2 b hmem)

/-- What the system promises of its calls, for paths without a zero byte. A call that fails leaves
the files as they are. -/
structure SystemCalls.Lawful (calls : SystemCalls) : Prop where
  /-- A temporary file is new and empty. -/
  createTemporary : ∀ {fs created : FileSystem} {before suffix : Bytes}
    {temporary : FileSystem.OpenFile},
    0 ∉ before ++ FileSystem.blank ++ suffix →
    calls.createTemporary fs (before ++ FileSystem.blank ++ suffix) suffix.length =
      .ok (created, temporary) →
    ∃ stamp file, IsStamp stamp ∧ temporary.path = before ++ stamp ++ suffix ∧
      fs.location? temporary.path = some temporary.location ∧
      fs.file? temporary.location = none ∧ file.content = [] ∧
      FileSystem.Puts fs created temporary.location (some file)
  /-- The file moves from the source to the target in one step. -/
  rename : ∀ {fs renamed : FileSystem} {source target : Bytes} {old : Location} {file : File},
    0 ∉ source → 0 ∉ target → fs.location? source = some old → fs.file? old = some file →
    calls.rename fs source target = .ok renamed →
    ∃ new, fs.location? target = some new ∧
      renamed.directories = fs.directories ∧ renamed.here = fs.here ∧
      ∀ l, renamed.file? l = if l = new then some file else if l = old then none else fs.file? l

namespace FileSystem

theorem callText_eq (h : 0 ∉ path) : callText path = path :=
  List.takeWhile_eq_self_iff.mpr fun _ hb => bne_iff_ne.mpr fun heq => h (heq ▸ hb)

theorem file?_append (fs : FileSystem) (entry : Location × File) (l : Location) :
    file? { fs with files := fs.files ++ [entry] } l =
      (fs.file? l).or (if entry.1 = l then some entry.2 else none) := by
  unfold file?
  rw [List.find?_append, Option.map_or]
  congr 1
  by_cases h : entry.1 = l
  · simp [h]
  · simp [h]

/-! ### Temporary files -/

theorem puts_of_create {opened : OpenFile} (h : fs.create path file = .ok (fs', opened)) :
    opened.path = path ∧ fs.location? path = some opened.location ∧
      fs.file? opened.location = none ∧ Puts fs fs' opened.location (some file) := by
  obtain ⟨place, hplace, h⟩ := bind_eq_ok_iff.mp h
  rw [error_ite_eq_ok_iff, error_ite_eq_ok_iff, error_ite_eq_ok_iff, error_ite_eq_ok_iff,
    pure_eq_ok_iff, Bool.not_eq_true, Bool.not_eq_true, Bool.not_eq_true, Bool.or_eq_false_iff,
    Option.isSome_eq_false_iff, Option.isNone_iff_eq_none] at h
  obtain ⟨hspecial, _, hslash, ⟨_, hnone⟩, h⟩ := h
  cases h
  refine ⟨rfl, location?_eq_some_iff.mpr ⟨place, hplace, hspecial, hslash, rfl⟩, hnone,
    rfl, rfl, ?_, fun l hl => ?_⟩
  · rw [file?_append, hnone, if_pos rfl]
    rfl
  · rw [file?_append, if_neg hl.symm, Option.or_none]

theorem exists_of_createFirst {paths : List Bytes} {opened : OpenFile}
    (h : fs.createFirst file paths = .ok (fs', opened)) :
    ∃ path ∈ paths, fs.create path file = .ok (fs', opened) := by
  induction paths with
  | nil => cases h
  | cons first rest ih =>
    unfold createFirst at h
    split at h
    · obtain ⟨path, hpath, hcreate⟩ := ih h
      exact ⟨path, List.mem_cons_of_mem first hpath, hcreate⟩
    · exact ⟨first, List.mem_cons_self, h⟩

theorem cutTemplate?_append (before suffix : Bytes) :
    cutTemplate? (before ++ blank ++ suffix) suffix.length = some (before, suffix) := by
  have hbody : (before ++ blank ++ suffix).take
      ((before ++ blank ++ suffix).length - suffix.length) = before ++ blank := by
    rw [List.length_append, Nat.add_sub_cancel]
    exact List.take_left
  have hbefore : (before ++ blank).take ((before ++ blank).length - blank.length) = before := by
    rw [List.length_append, Nat.add_sub_cancel]
    exact List.take_left
  unfold cutTemplate?
  simp only [hbody, hbefore, List.drop_left]
  refine if_pos ⟨trivial, ?_⟩
  rw [List.length_append]
  exact Nat.le_add_left _ _

theorem isStamp_stamp {attempt : Nat} (h : attempt < stampLimit) : IsStamp (stamp attempt) := by
  have hdigits : (Bytes.decimal attempt).length ≤ 6 := by
    unfold Bytes.decimal
    rw [List.length_map, Nat.length_toDigits_le_iff (by decide) (by decide)]
    exact h
  constructor
  · have hblank : blank.length = 6 := rfl
    unfold stamp
    simp only [List.length_append, List.length_replicate, hblank]
    omega
  · intro b hb
    rcases List.mem_append.mp hb with hzero | hdigit
    · rw [List.eq_of_mem_replicate hzero]
      exact .inr rfl
    · exact .inr (Integer.isDigit_of_mem_decimal hdigit)

/-! ### Writing and renaming -/

theorem file?_update (fs : FileSystem) (l l' : Location) (change : File → File) :
    (fs.update l change).file? l' =
      if l' = l then (fs.file? l').map change else fs.file? l' := by
  have hkey : ((fun entry : Location × File => decide (entry.1 = l')) ∘ fun entry =>
      if entry.1 = l then (entry.1, change entry.2) else entry) =
        fun entry => decide (entry.1 = l') := by
    funext entry
    dsimp only [Function.comp_apply]
    split <;> rfl
  unfold file? update
  rw [List.find?_map, hkey]
  cases hfind : fs.files.find? (·.1 = l') with
  | none => simp
  | some entry =>
    have hentry : entry.1 = l' := by simpa using List.find?_some hfind
    by_cases hl : l' = l
    · simp [hl, hentry]
    · simp [hl, hentry]

/-- A change of a file that is there changes nothing else. -/
theorem puts_update (h : fs.file? location = some file) (change : File → File) :
    Puts fs (fs.update location change) location (some (change file)) where
  directories := rfl
  here := rfl
  there := by
    rw [file?_update, if_pos rfl, h]
    rfl
  elsewhere l hl := by rw [file?_update, if_neg hl]

theorem file?_filter_ne (fs : FileSystem) (l l' old : Location) :
    file? { fs with files := fs.files.filter fun entry => entry.1 ≠ old && entry.1 ≠ l } l' =
      if l' = l ∨ l' = old then none else fs.file? l' := by
  unfold file?
  rw [List.find?_filter]
  by_cases h : l' = l ∨ l' = old
  · rw [if_pos h, List.find?_eq_none.mpr, Option.map_none]
    intro entry _ hentry
    simp only [Bool.and_eq_true, decide_eq_true_eq] at hentry
    obtain ⟨⟨hold, hnew⟩, rfl⟩ := hentry
    exact h.elim hnew hold
  · rw [if_neg h]
    congr 2
    funext entry
    rw [not_or] at h
    by_cases hentry : entry.1 = l'
    · simp [hentry, h]
    · simp [hentry]

/-- A file system keeps its promises however it answers the calls on open files. -/
theorem calls_lawful {calls : SystemCalls} (hcreate : calls.createTemporary = createTemporary)
    (hmove : calls.rename = rename) : calls.Lawful where
  createTemporary := by
    intro fs created before suffix temporary hzero h
    rw [hcreate] at h
    unfold FileSystem.createTemporary at h
    rw [callText_eq hzero, cutTemplate?_append] at h
    obtain ⟨path, hpath, hcreate⟩ := exists_of_createFirst h
    obtain ⟨attempt, hattempt, rfl⟩ := List.mem_map.mp hpath
    have hlimit : attempt < stampLimit := (Nat.lt_min.mp (List.mem_range.mp hattempt)).1
    obtain ⟨hopened, hlocation, hnone, hputs⟩ := puts_of_create hcreate
    rw [← hopened] at hlocation
    exact ⟨stamp attempt, emptyFile, isStamp_stamp hlimit, hopened, hlocation, hnone, rfl, hputs⟩
  rename := by
    intro fs renamed source target location file hsource htarget hlocation hfile h
    rw [hmove] at h
    obtain ⟨old, hold, _, _, rfl⟩ := location?_eq_some_iff.mp hlocation
    unfold FileSystem.rename at h
    rw [callText_eq hsource, callText_eq htarget] at h
    obtain ⟨place, hplace, h⟩ := bind_eq_ok_iff.mp h
    obtain rfl : old = place := Except.ok.inj (hold.symm.trans hplace)
    obtain ⟨new, hnew, h⟩ := bind_eq_ok_iff.mp h
    rw [error_ite_eq_ok_iff, Bool.not_eq_true, Bool.or_eq_false_iff, hfile] at h
    obtain ⟨⟨_, hspecial⟩, h⟩ := h
    dsimp only at h
    rw [error_ite_eq_ok_iff, error_ite_eq_ok_iff, error_ite_eq_ok_iff, pure_eq_ok_iff,
      Bool.not_eq_true] at h
    obtain ⟨_, hslash, _, rfl⟩ := h
    refine ⟨new.location, location?_eq_some_iff.mpr ⟨new, hnew, hspecial, hslash, rfl⟩, rfl, rfl,
      fun l => ?_⟩
    have happend := file?_append { fs with files := fs.files.filter fun entry =>
      entry.1 ≠ old.location && entry.1 ≠ new.location } (new.location, file) l
    refine happend.trans ?_
    rw [file?_filter_ne]
    by_cases hl : l = new.location
    · rw [if_pos (.inl hl), if_pos hl, if_pos hl.symm]
      rfl
    · rw [if_neg hl, if_neg (Ne.symm hl), Option.or_none]
      simp only [hl, false_or]

end FileSystem

end Elvis
