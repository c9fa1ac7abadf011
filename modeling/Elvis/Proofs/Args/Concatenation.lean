import Elvis.Args.Parser

/-!
# Command lines in two parts

What has been read of a command line is all that the reading of the next word depends on
(`parse_eq_finish`). So a command line is read like its first part, and from there on like its
second part alone (`parse_append`).
-/

namespace Elvis.Args

/-! ## Word by word -/

/-- What the next word can be: a flag, a value or a positional word as the state has it, only a
positional word, or nothing that is read. -/
inductive Stage
  | within (state : State)
  | terminated
  | failed (error : ParseError)
deriving DecidableEq, Repr

/-- What has been read so far. -/
structure Progress where
  occurrences : List Occurrence
  positionals : List Bytes
  stage : Stage
deriving DecidableEq, Repr

/-- The error if no word follows. -/
def Stage.error? : Stage → Option ParseError
  | within .free | terminated => none
  | within (.awaiting spelling _ _) => some (.needsArgument spelling)
  | failed error => some error

namespace Progress

def start : Progress := ⟨[], [], .within .free⟩

def addPositional (p : Progress) (word : Bytes) : Progress :=
  { p with positionals := p.positionals ++ [word] }

def addReading (p : Progress) (reading : Reading) : Progress :=
  { p with
    occurrences := p.occurrences ++ reading.occurrences
    stage :=
      match reading.next with
      | .ok state => .within state
      | .error error => .failed error }

/-- Reads one more word. -/
def read (table : Table) (style : Style) (p : Progress) (word : Bytes) : Progress :=
  match p.stage with
  | .within .free =>
      if word = terminator then { p with stage := .terminated }
      else if isFlagWord word then p.addReading (readFlagWord table style word)
      else p.addPositional word
  | .within (.awaiting _ name kind) => p.addReading (readValue name kind word)
  | .terminated => p.addPositional word
  | .failed _ => p

/-- What was read if no word follows. -/
def finish (p : Progress) : Parsed := ⟨p.occurrences, p.positionals, p.stage.error?⟩

/-- What was read if the words that follow are read so. -/
def followedBy (p : Progress) (parsed : Parsed) : Parsed :=
  ⟨p.occurrences ++ parsed.occurrences, p.positionals ++ parsed.positionals, parsed.error⟩

end Progress

/-- What has been read after the words. -/
def reached (table : Table) (style : Style) (words : List Bytes) : Progress :=
  words.foldl (Progress.read table style) .start

/-- Among the words there is a terminator: one where a flag could stand, not the value of a flag
nor behind another terminator. -/
def Terminated (table : Table) (style : Style) (words : List Bytes) : Prop :=
  (reached table style words).stage = .terminated

instance (table : Table) (style : Style) (words : List Bytes) :
    Decidable (Terminated table style words) :=
  inferInstanceAs (Decidable (_ = _))

variable {table : Table} {style : Style} {p : Progress} {first rest words : List Bytes}

/-! ## From one stage on -/

namespace Progress

theorem foldl_read_terminated (h : p.stage = .terminated) (words : List Bytes) :
    words.foldl (read table style) p = { p with positionals := p.positionals ++ words } := by
  induction words generalizing p with
  | nil => simp
  | cons word words ih =>
    have hread : read table style p word = p.addPositional word := by
      unfold read
      rw [h]
    have hstage : (p.addPositional word).stage = .terminated := h
    rw [List.foldl_cons, hread, ih hstage]
    simp [addPositional]

theorem foldl_read_failed {error : ParseError} (h : p.stage = .failed error)
    (words : List Bytes) : words.foldl (read table style) p = p := by
  induction words with
  | nil => rfl
  | cons word words ih =>
    have hread : read table style p word = p := by
      unfold read
      rw [h]
    rw [List.foldl_cons, hread, ih]

theorem stage_addReading_ne_terminated (reading : Reading) :
    (p.addReading reading).stage ≠ .terminated := by
  unfold addReading
  cases reading.next <;> exact fun h => nomatch h

theorem stage_read_eq_terminated_iff {word : Bytes} :
    (read table style p word).stage = .terminated ↔
      p.stage = .terminated ∨ p.stage = .within .free ∧ word = terminator := by
  unfold read
  split
  · next h =>
    split
    · next hword => simp [h, hword]
    · next hword =>
      split
      · simp [stage_addReading_ne_terminated, h, hword]
      · simp [addPositional, h, hword]
  · next h => simp [stage_addReading_ne_terminated, h]
  · next h => simp [addPositional, h]
  · next h => simp [h]

/-- What holds behind the words and not before them holds first behind one of them. -/
theorem exists_first_read {P : Progress → Prop} (hp : ¬ P p)
    (h : P (words.foldl (read table style) p)) : ∃ before word after,
      words = before ++ word :: after ∧ ¬ P (before.foldl (read table style) p) ∧
        P (read table style (before.foldl (read table style) p) word) := by
  induction words generalizing p with
  | nil => exact absurd h hp
  | cons word words ih =>
    by_cases hread : P (read table style p word)
    · exact ⟨[], word, words, rfl, hp, hread⟩
    · obtain ⟨before, word', after, rfl, hbefore, hword⟩ := ih hread h
      exact ⟨word :: before, word', after, rfl, hbefore, hword⟩

theorem followedBy_after (occurrences : List Occurrence) (parsed : Parsed) :
    p.followedBy (parsed.after occurrences) =
      { p with occurrences := p.occurrences ++ occurrences }.followedBy parsed := by
  simp [followedBy, Parsed.after]

theorem followedBy_afterPositional (word : Bytes) (parsed : Parsed) :
    p.followedBy (parsed.afterPositional word) = (p.addPositional word).followedBy parsed := by
  simp [followedBy, Parsed.afterPositional, addPositional]

/-- What is read of a reading and the words that follow it. -/
def resumed (table : Table) (style : Style) (reading : Reading) (words : List Bytes) : Parsed :=
  match reading.next with
  | .error error => ⟨reading.occurrences, [], some error⟩
  | .ok state => (parseFrom table style state words).after reading.occurrences

/-- A reading ends the command line with an error, or goes on to the next word. -/
theorem finish_addReading (reading : Reading)
    (hwords : ∀ {q : Progress} {state : State}, q.stage = .within state →
      (words.foldl (read table style) q).finish =
        q.followedBy (parseFrom table style state words)) :
    (words.foldl (read table style) (p.addReading reading)).finish =
      p.followedBy (resumed table style reading words) := by
  unfold resumed
  cases hnext : reading.next with
  | error error =>
    have hstage : (p.addReading reading).stage = .failed error := by
      simp [addReading, hnext]
    rw [foldl_read_failed hstage]
    simp [finish, followedBy, Stage.error?, addReading, hnext]
  | ok state =>
    have hstage : (p.addReading reading).stage = .within state := by
      simp [addReading, hnext]
    rw [hwords hstage, followedBy_after]
    rfl

/-- The words that follow are read as if they stood alone, up to what was read before them. -/
theorem finish_foldl_read {state : State} (h : p.stage = .within state) (words : List Bytes) :
    (words.foldl (read table style) p).finish =
      p.followedBy (parseFrom table style state words) := by
  induction words generalizing p state with
  | nil =>
    cases state <;> simp [finish, followedBy, parseFrom, Parsed.failed, h, Stage.error?]
  | cons word words ih =>
    rw [List.foldl_cons, read, h]
    cases state with
    | awaiting spelling name kind => exact finish_addReading (readValue name kind word) ih
    | free =>
      dsimp only
      rw [parseFrom]
      split
      · rw [foldl_read_terminated rfl]
        simp [finish, followedBy, Stage.error?]
      · split
        · exact finish_addReading (readFlagWord table style word) ih
        · have hstage : (p.addPositional word).stage = .within .free := h
          rw [ih hstage, followedBy_afterPositional]

end Progress

open Progress

theorem parse_eq_finish (table : Table) (style : Style) (words : List Bytes) :
    parse table style words = (reached table style words).finish :=
  (finish_foldl_read (p := start) rfl words).symm

theorem reached_append :
    reached table style (first ++ rest) =
      rest.foldl (read table style) (reached table style first) :=
  List.foldl_append

theorem error?_reached : (reached table style words).stage.error? =
    (parse table style words).error := by
  rw [parse_eq_finish]
  rfl

/-- The words were read without an error and something may follow. -/
theorem stage_reached_of_not_terminated (hok : (parse table style words).error = none)
    (h : ¬ Terminated table style words) :
    (reached table style words).stage = .within .free := by
  rw [← error?_reached] at hok
  unfold Terminated at h
  cases hstage : (reached table style words).stage with
  | terminated => exact absurd hstage h
  | failed error =>
    rw [hstage] at hok
    cases hok
  | within state =>
    cases state with
    | free => rfl
    | awaiting spelling name kind =>
      rw [hstage] at hok
      cases hok

theorem stage_reached_eq_free_iff : (reached table style words).stage = .within .free ↔
    (parse table style words).error = none ∧ ¬ Terminated table style words := by
  constructor
  · intro h
    unfold Terminated
    rw [← error?_reached, h]
    exact ⟨rfl, nofun⟩
  · rintro ⟨hok, h⟩
    exact stage_reached_of_not_terminated hok h

/-- The words could not be read, whatever follows them. -/
theorem stage_reached_of_error {error : ParseError}
    (herror : (parse table style words).error = some error)
    (h : ∀ spelling, error ≠ .needsArgument spelling) :
    (reached table style words).stage = .failed error := by
  rw [← error?_reached] at herror
  cases hstage : (reached table style words).stage with
  | terminated =>
    rw [hstage] at herror
    cases herror
  | failed error' =>
    rw [hstage] at herror
    cases herror
    rfl
  | within state =>
    rw [hstage] at herror
    cases state with
    | free => cases herror
    | awaiting spelling name kind =>
      cases herror
      exact absurd rfl (h spelling)

/-- What a terminator is: the first word of its form that stands where a flag could stand. -/
theorem terminated_iff : Terminated table style words ↔ ∃ before after,
    words = before ++ terminator :: after ∧
      (reached table style before).stage = .within .free := by
  constructor
  · intro h
    have hstart : start.stage ≠ .terminated := nofun
    obtain ⟨before, word, after, rfl, hbefore, hword⟩ :=
      exists_first_read (P := fun q => q.stage = .terminated) hstart h
    rcases stage_read_eq_terminated_iff.mp hword with hstage | ⟨hstage, rfl⟩
    · exact absurd hstage hbefore
    · exact ⟨before, after, rfl, hstage⟩
  · rintro ⟨before, after, rfl, hstage⟩
    have hread : (read table style (reached table style before) terminator).stage = .terminated :=
      stage_read_eq_terminated_iff.mpr (.inr ⟨hstage, rfl⟩)
    unfold Terminated
    rw [reached_append, List.foldl_cons, foldl_read_terminated hread]
    exact hread

/-- Reading a command line in two parts. The first part may have been read without an error, up to
or beyond a terminator, or with one that no further word can take back. -/
theorem parse_append (table : Table) (style : Style) (first rest : List Bytes) :
    ((parse table style first).error = none → ¬ Terminated table style first →
      parse table style (first ++ rest) =
        ⟨(parse table style first).occurrences ++ (parse table style rest).occurrences,
          (parse table style first).positionals ++ (parse table style rest).positionals,
          (parse table style rest).error⟩) ∧
    ((parse table style first).error = none → Terminated table style first →
      parse table style (first ++ rest) =
        ⟨(parse table style first).occurrences,
          (parse table style first).positionals ++ rest, none⟩) ∧
    ∀ error, (parse table style first).error = some error →
      (∀ spelling, error ≠ .needsArgument spelling) →
      parse table style (first ++ rest) = parse table style first := by
  have hfirst := parse_eq_finish table style first
  refine ⟨fun hok h => ?_, fun _ h => ?_, fun error herror h => ?_⟩
  · rw [parse_eq_finish, reached_append,
      finish_foldl_read (stage_reached_of_not_terminated hok h), hfirst]
    rfl
  · rw [parse_eq_finish, reached_append, foldl_read_terminated h, hfirst]
    unfold finish
    rw [h]
    rfl
  · rw [parse_eq_finish, reached_append, foldl_read_failed (stage_reached_of_error herror h),
      hfirst]

def sampleTable : Table := [⟨"--output", "-o", .text []⟩, ⟨"--verbose", "-v", .count⟩]

def sampleStyle : Style := ⟨true, true, 2⟩

/-- The value of a flag that looks like a terminator, a terminator, and a flag with a value that it
does not take. -/
theorem parse_append_sample :
    ((parse sampleTable sampleStyle ["-vo", "--", "x"]).error = none ∧
      ¬ Terminated sampleTable sampleStyle ["-vo", "--", "x"] ∧
      parse sampleTable sampleStyle ["-vo", "--", "x", "y", "-o"] =
        ⟨[⟨"--verbose", "1"⟩, ⟨"--output", "--"⟩], ["x", "y"], some (.needsArgument "-o")⟩) ∧
    ((parse sampleTable sampleStyle ["x", "-v", "--", "-o"]).error = none ∧
      Terminated sampleTable sampleStyle ["x", "-v", "--", "-o"] ∧
      parse sampleTable sampleStyle ["x", "-v", "--", "-o", "--", "-q"] =
        ⟨[⟨"--verbose", "1"⟩], ["x", "-o", "--", "-q"], none⟩) ∧
    ((parse sampleTable sampleStyle ["x", "-v=1"]).error = some (.takesNoValue "-v") ∧
      parse sampleTable sampleStyle ["x", "-v=1", "-q"] =
        ⟨[], ["x"], some (.takesNoValue "-v")⟩) := by
  refine ⟨⟨by decide, by decide, ?_⟩, ⟨by decide, by decide, ?_⟩, ⟨by decide, ?_⟩⟩
  · exact ((parse_append _ _ ["-vo", "--", "x"] ["y", "-o"]).1 (by decide) (by decide)).trans
      (by decide)
  · exact ((parse_append _ _ ["x", "-v", "--", "-o"] ["--", "-q"]).2.1 (by decide)
      (by decide)).trans (by decide)
  · exact ((parse_append _ _ ["x", "-v=1"] ["-q"]).2.2 (.takesNoValue "-v") (by decide)
      (fun _ h => nomatch h)).trans (by decide)

end Elvis.Args
