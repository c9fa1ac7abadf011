import Elvis.Command.Flags
import Elvis.Proofs.Args.Answers
import Elvis.Proofs.Args.Words
import Elvis.Proofs.Suggest

/-!
# Unknown flags

A command line stops at the first spelling that stands for no flag, in a word of its own, in front
of an equals sign or among short flags (`error_eq_unknownFlag_iff`). The spellings that are then
suggested are the best of those of the registered flags; the spellings that every command line knows
are not among them, so they are missed where they would be suggested (`unknownFlag_suggests`).
-/

namespace Elvis.Args

open Byte

/-! ## Accepted spellings -/

/-- Every spelling that stands for a flag. -/
def Table.accepted (table : Table) : List Bytes := table.spellings.map Prod.fst

/-- The short flag needs no value, so another can stand behind it in the same word. -/
def Table.IsSwitch (table : Table) (letter : UInt8) : Prop :=
  ∃ name kind, table.lookup? [dash, letter] = some (name, kind) ∧ (kind = .switch ∨ kind = .count)

/-- What a word asks for in vain, where a flag can stand. -/
inductive AsksInVain (table : Table) (style : Style) (word : Bytes) : Bytes → Prop
  | assigned {spelling value : Bytes} : word = spelling ++ equals :: value → equals ∉ spelling →
      spelling ∉ table.accepted → AsksInVain table style word spelling
  | alone : equals ∉ word → ¬ (style.grouping ∧ isGroupWord word) → word ∉ table.accepted →
      AsksInVain table style word word
  | grouped {before after : Bytes} {b : UInt8} : equals ∉ word → style.grouping →
      isGroupWord word → word = dash :: (before ++ b :: after) →
      (∀ letter ∈ before, table.IsSwitch letter) → [dash, b] ∉ table.accepted →
      AsksInVain table style word [dash, b]

/-- Behind words that can be read, a word where a flag can stand asks for the spelling in vain. -/
def StopsAt (table : Table) (style : Style) (words : List Bytes) (spelling : Bytes) : Prop :=
  ∃ before word after, words = before ++ word :: after ∧
    (parse table style before).error = none ∧ ¬ Terminated table style before ∧
    word ≠ terminator ∧ isFlagWord word ∧ AsksInVain table style word spelling

/-- What is suggested for an unknown flag. -/
def suggestions (table : Table) (style : Style) (spelling : Bytes) : List Bytes :=
  if style.suggest then suggest spelling table.known 3 style.suggestDistance else []

/-- A line for each spelling. -/
def suggestedLines (items : List Bytes) : Bytes :=
  items.flatMap fun item => ("  " ++ item ++ "\n" : Bytes)

/-- The text that an unknown flag is answered with. -/
def answer (spelling : Bytes) : List Bytes → Bytes
  | [] => "unknown flag: " ++ spelling
  | items => "unknown flag: " ++ spelling ++ "\n\nDid you mean this?\n" ++ suggestedLines items

variable {table : Table} {style : Style} {spelling name value word c : Bytes} {kind : Kind}
  {words items : List Bytes} {error : ParseError} {p : Progress} {b : UInt8}

namespace Table

theorem mem_accepted_iff :
    c ∈ table.accepted ↔ c = "--help" ∨ c = "-h" ∨ c = "--version" ∨ c ∈ table.known := by
  have hknown : c ∈ (table.registered.flatMap specSpellings).map Prod.fst ↔ c ∈ table.known := by
    rw [List.map_flatMap]
    rfl
  unfold accepted spellings builtIn
  rw [List.map_append, List.mem_append, hknown]
  simp [or_assoc]

/-- The name of a flag has a kind. -/
theorem exists_lookup?_eq_some (h : spelling ∈ table.accepted) :
    ∃ found, table.lookup? spelling = some found := by
  obtain ⟨name, hname⟩ := exists_last?_eq_some h
  have hkinds : name ∈ table.kinds.map Prod.fst := by
    have hspelling := mem_spellings_name (mem_of_last?_eq_some hname)
    unfold kinds registered
    rw [List.map_append, List.mem_append]
    rcases mem_spellings_name_iff.mp hspelling with rfl | rfl | ⟨spec, hspec, hlong, rfl⟩
    · exact .inl (by decide)
    · exact .inl (by decide)
    · have hregistered : spec ∈ table.filter (!·.long.isEmpty) := by simp [hspec, hlong]
      exact .inr (List.mem_map_of_mem (List.mem_map_of_mem hregistered))
  obtain ⟨kind, hkind⟩ := exists_last?_eq_some hkinds
  exact ⟨_, lookup?_eq_some_iff.mpr ⟨hname, hkind⟩⟩

theorem lookup?_eq_none_iff : table.lookup? spelling = none ↔ spelling ∉ table.accepted := by
  constructor
  · intro h hmem
    obtain ⟨found, hfound⟩ := exists_lookup?_eq_some hmem
    cases h.symm.trans hfound
  · intro h
    refine Option.eq_none_iff_forall_ne_some.mpr ?_
    rintro ⟨name, kind⟩ hlookup
    exact h (List.mem_map_of_mem (mem_of_last?_eq_some (lookup?_eq_some_iff.mp hlookup).1))

end Table

/-! ## Words -/

theorem alone?_eq_none_iff : kind.alone? = none ↔ ¬ (kind = .switch ∨ kind = .count) := by
  cases kind <;> decide

theorem next_readValue_ne :
    (readValue name kind value).next ≠ .error (.unknownFlag spelling items) := by
  unfold readValue
  cases kind.accept? value <;> exact nofun

theorem next_readAssignment_iff {key : Bytes} :
    (readAssignment table style key value).next = .error (.unknownFlag spelling items) ↔
      key ∉ table.accepted ∧ spelling = key ∧ items = suggestions table style key := by
  rw [← Table.lookup?_eq_none_iff]
  unfold readAssignment
  constructor
  · intro h
    split at h
    · next hlookup =>
      cases h
      exact ⟨hlookup, rfl, rfl⟩
    · cases h
    · exact absurd h next_readValue_ne
  · rintro ⟨hlookup, rfl, rfl⟩
    rw [hlookup]
    rfl

theorem next_readAlone_iff {key : Bytes} :
    (readAlone table style key).next = .error (.unknownFlag spelling items) ↔
      key ∉ table.accepted ∧ spelling = key ∧ items = suggestions table style key := by
  rw [← Table.lookup?_eq_none_iff]
  unfold readAlone
  constructor
  · intro h
    split at h
    · next hlookup =>
      cases h
      exact ⟨hlookup, rfl, rfl⟩
    · split at h
      · cases h
      · cases h
  · rintro ⟨hlookup, rfl, rfl⟩
    rw [hlookup]
    rfl

/-- Short flags are read up to the first letter that stands for none. -/
theorem next_readGroup_iff {letters : Bytes} :
    (readGroup table style letters).next = .error (.unknownFlag spelling items) ↔
      ∃ before b after, letters = before ++ b :: after ∧
        (∀ letter ∈ before, table.IsSwitch letter) ∧ [dash, b] ∉ table.accepted ∧
        spelling = [dash, b] ∧ items = suggestions table style spelling := by
  constructor
  · intro h
    induction letters with
    | nil => cases h
    | cons b letters ih =>
      unfold readGroup at h
      dsimp only at h
      cases hlookup : table.lookup? [dash, b] with
      | none =>
        rw [hlookup] at h
        cases h
        have hb := Table.lookup?_eq_none_iff.mp hlookup
        exact ⟨[], b, letters, rfl, List.forall_mem_nil _, hb, rfl, rfl⟩
      | some found =>
        obtain ⟨name, kind⟩ := found
        rw [hlookup] at h
        dsimp only at h
        cases halone : kind.alone? with
        | some text =>
          rw [halone] at h
          obtain ⟨before, b', after, rfl, hbefore, hrest⟩ := ih h
          refine ⟨b :: before, b', after, rfl, List.forall_mem_cons.mpr ⟨?_, hbefore⟩, hrest⟩
          refine ⟨name, kind, hlookup, Decidable.byContradiction fun hkind => ?_⟩
          cases (alone?_eq_none_iff.mpr hkind).symm.trans halone
        | none =>
          -- what is left of the word is a value, or the next word is
          rw [halone] at h
          dsimp only at h
          split at h
          · cases h
          · exact absurd h next_readValue_ne
  · rintro ⟨before, b, after, rfl, hbefore, hb, rfl, rfl⟩
    induction before with
    | nil =>
      rw [List.nil_append, readGroup, Table.lookup?_eq_none_iff.mpr hb]
      rfl
    | cons letter before ih =>
      obtain ⟨⟨name, kind, hlookup, hkind⟩, hbefore⟩ := List.forall_mem_cons.mp hbefore
      rw [List.cons_append, readGroup, hlookup]
      dsimp only
      cases halone : kind.alone? with
      | none => exact absurd hkind (alone?_eq_none_iff.mp halone)
      | some text => exact ih hbefore

theorem exists_of_isGroupWord (h : isGroupWord word) : ∃ letters, word = dash :: letters := by
  match word, h with
  | first :: second :: third :: rest, h =>
    obtain ⟨hfirst, _⟩ := Bool.and_eq_true_iff.mp h
    exact ⟨second :: third :: rest, congrArg (· :: _) (beq_iff_eq.mp hfirst)⟩

/-- A word is read with an unknown flag if it asks for one in vain, and for which. -/
theorem next_readFlagWord_iff :
    (readFlagWord table style word).next = .error (.unknownFlag spelling items) ↔
      AsksInVain table style word spelling ∧ items = suggestions table style spelling := by
  unfold readFlagWord
  constructor
  · intro h
    by_cases hequals : equals ∈ word
    · obtain ⟨key, value, rfl, hkey⟩ := List.eq_append_cons_of_mem hequals
      rw [Bytes.cut_append hkey] at h
      obtain ⟨hnone, rfl, hitems⟩ := next_readAssignment_iff.mp h
      exact ⟨.assigned rfl hkey hnone, hitems⟩
    · rw [Bytes.cut_of_not_mem hequals] at h
      dsimp only at h
      split at h
      · next hgroup =>
        obtain ⟨hgrouping, hgroup⟩ := Bool.and_eq_true_iff.mp hgroup
        obtain ⟨letters, rfl⟩ := exists_of_isGroupWord hgroup
        obtain ⟨before, b, after, rfl, hbefore, hb, rfl, hitems⟩ := next_readGroup_iff.mp h
        exact ⟨.grouped hequals hgrouping hgroup rfl hbefore hb, hitems⟩
      · next hgroup =>
        rw [Bool.and_eq_true] at hgroup
        obtain ⟨hnone, rfl, hitems⟩ := next_readAlone_iff.mp h
        exact ⟨.alone hequals hgroup hnone, hitems⟩
  · rintro ⟨h, rfl⟩
    cases h with
    | assigned hword hequals hnone =>
      rw [hword, Bytes.cut_append hequals]
      exact next_readAssignment_iff.mpr ⟨hnone, rfl, rfl⟩
    | alone hequals hgroup hnone =>
      rw [Bytes.cut_of_not_mem hequals]
      dsimp only
      rw [if_neg (Bool.and_eq_true_iff.not.mpr hgroup)]
      exact next_readAlone_iff.mpr ⟨hnone, rfl, rfl⟩
    | @grouped before after b hequals hgrouping hgroup hword hbefore hb =>
      rw [Bytes.cut_of_not_mem hequals]
      dsimp only
      rw [if_pos (Bool.and_eq_true_iff.mpr ⟨hgrouping, hgroup⟩), hword]
      exact next_readGroup_iff.mpr ⟨before, b, after, rfl, hbefore, hb, rfl, rfl⟩

/-! ## Command lines -/

namespace Progress

theorem stage_addReading_eq_failed_iff {reading : Reading} :
    (p.addReading reading).stage = .failed error ↔ reading.next = .error error := by
  unfold addReading
  cases reading.next <;> simp

/-- Reading one more word ends at an unknown flag if the word asks for it in vain. -/
theorem stage_read_eq_failed_iff (hp : p.stage ≠ .failed (.unknownFlag spelling items)) :
    (read table style p word).stage = .failed (.unknownFlag spelling items) ↔
      p.stage = .within .free ∧ word ≠ terminator ∧ isFlagWord word ∧
        AsksInVain table style word spelling ∧ items = suggestions table style spelling := by
  rw [← next_readFlagWord_iff]
  unfold read
  split
  · next h =>
    split
    · next hword => simp [hword]
    · next hword =>
      split
      · next hflag => simp [stage_addReading_eq_failed_iff, h, hword, hflag]
      · next hflag => simp [addPositional, h, hflag]
  · next h => simp [stage_addReading_eq_failed_iff, h, next_readValue_ne]
  · next h => simp [addPositional, h]
  · next h => simpa [h] using hp

end Progress

open Progress

/-- A command line fails at an unknown flag if it stops there, and with what is then suggested. -/
theorem error_eq_unknownFlag_iff :
    (parse table style words).error = some (.unknownFlag spelling items) ↔
      StopsAt table style words spelling ∧ items = suggestions table style spelling := by
  constructor
  · intro herror
    have hstart : start.stage ≠ .failed (.unknownFlag spelling items) := nofun
    have hreached := stage_reached_of_error herror nofun
    obtain ⟨before, word, after, rfl, hbefore, hword⟩ := exists_first_read
      (P := fun q => q.stage = .failed (.unknownFlag spelling items)) hstart hreached
    obtain ⟨hfree, hne, hflag, hasks, hitems⟩ := (stage_read_eq_failed_iff hbefore).mp hword
    obtain ⟨hok, hterminated⟩ := stage_reached_eq_free_iff.mp hfree
    exact ⟨⟨before, word, after, rfl, hok, hterminated, hne, hflag, hasks⟩, hitems⟩
  · rintro ⟨⟨before, word, after, rfl, hok, hterminated, hne, hflag, hasks⟩, hitems⟩
    have hfree := stage_reached_eq_free_iff.mpr ⟨hok, hterminated⟩
    have hbefore : (reached table style before).stage ≠ .failed (.unknownFlag spelling items) := by
      rw [hfree]
      exact nofun
    have hword := (stage_read_eq_failed_iff hbefore).mpr ⟨hfree, hne, hflag, hasks, hitems⟩
    rw [← error?_reached, reached_append, List.foldl_cons, foldl_read_failed hword, hword]
    rfl

theorem AsksInVain.not_mem_accepted (h : AsksInVain table style word spelling) :
    spelling ∉ table.accepted := by
  cases h with
  | assigned _ _ hnone => exact hnone
  | alone _ _ hnone => exact hnone
  | grouped _ _ _ _ _ hnone => exact hnone

theorem message_unknownFlag (spelling : Bytes) (items : List Bytes) :
    (ParseError.unknownFlag spelling items).message = answer spelling items := by
  have hlines : Bytes.unlines (items.map fun item => "  " ++ item) = suggestedLines items :=
    List.flatMap_map _ _ items
  unfold ParseError.message ParseError.suggestionBlock
  dsimp only
  rw [hlines]
  cases items with
  | nil => exact List.append_nil _
  | cons item items => exact (List.append_assoc _ _ _).symm

/-! ## What is suggested -/

/-- The best of the registered flags are the best of all accepted spellings if those that every
command line knows are not among the best, or are registered too. -/
theorem suggest_known_iff {distance : Nat} :
    suggest spelling table.known 3 distance = suggest spelling table.accepted 3 distance ↔
      ∀ c ∈ suggest spelling table.accepted 3 distance,
        c = "--help" ∨ c = "-h" ∨ c = "--version" → c ∈ table.known := by
  have hsubset : ∀ c ∈ table.known, c ∈ table.accepted := fun c hc =>
    Table.mem_accepted_iff.mpr (.inr (.inr (.inr hc)))
  rw [suggest_eq_suggest_iff hsubset]
  refine forall₂_congr fun c hc => ⟨fun hknown _ => hknown, fun hbuiltIn => ?_⟩
  have hbest := (isRanking_ranking spelling table.accepted distance).bestCandidates 3
  rcases Table.mem_accepted_iff.mp (hbest.eligible c hc).mem with h | h | h | hknown
  · exact hbuiltIn (.inl h)
  · exact hbuiltIn (.inr (.inl h))
  · exact hbuiltIn (.inr (.inr h))
  · exact hknown

/-- A command line fails at an unknown flag if it stops there, and with an answer that suggests the
best of the registered flags. These are the best of all accepted spellings if those that every
command line knows are not among the best. -/
theorem unknownFlag_suggests (table : Table) (words : List Bytes) (spelling : Bytes)
    (items : List Bytes) (hsuggest : style.suggest = true) :
    ((parse table style words).error = some (.unknownFlag spelling items) ↔
      StopsAt table style words spelling ∧
        items = suggest spelling table.known 3 style.suggestDistance) ∧
    (StopsAt table style words spelling → spelling ∉ table.accepted) ∧
    (ParseError.unknownFlag spelling items).message = answer spelling items ∧
    (suggest spelling table.known 3 style.suggestDistance =
        suggest spelling table.accepted 3 style.suggestDistance ↔
      ∀ c ∈ suggest spelling table.accepted 3 style.suggestDistance,
        c = "--help" ∨ c = "-h" ∨ c = "--version" → c ∈ table.known) := by
  have hitems : suggestions table style spelling =
      suggest spelling table.known 3 style.suggestDistance := if_pos hsuggest
  rw [← hitems]
  refine ⟨error_eq_unknownFlag_iff, ?_, message_unknownFlag spelling items, ?_⟩
  · rintro ⟨_, _, _, _, _, _, _, _, hasks⟩
    exact hasks.not_mem_accepted
  · rw [hitems]
    exact suggest_known_iff

/-- A slip in front of an equals sign, behind a positional word and short flags. -/
theorem unknownFlag_suggests_enum :
    sampleStyle.suggest = true ∧
      StopsAt Command.table sampleStyle ["x", "-vq", "--enun=a:b", "-z"] "--enun" ∧
      (parse Command.table sampleStyle ["x", "-vq", "--enun=a:b", "-z"]).error =
        some (.unknownFlag "--enun" ["--enum"]) ∧
      (ParseError.unknownFlag "--enun" ["--enum"]).message =
        "unknown flag: --enun\n\nDid you mean this?\n  --enum\n" ∧
      suggest "--enun" Command.table.accepted 3 sampleStyle.suggestDistance =
        (["--enum"] : List Bytes) := by
  have hstops : StopsAt Command.table sampleStyle ["x", "-vq", "--enun=a:b", "-z"] "--enun" := by
    refine ⟨["x", "-vq"], "--enun=a:b", ["-z"], rfl, by decide, by decide, by decide, by decide, ?_⟩
    have hword : ("--enun=a:b" : Bytes) = "--enun" ++ equals :: "a:b" := rfl
    exact .assigned hword (by decide) (by decide)
  have hbest : suggest "--enun" Command.table.accepted 3 sampleStyle.suggestDistance =
      (["--enum"] : List Bytes) := by decide +kernel
  have hstyle : sampleStyle.suggest = true := rfl
  obtain ⟨herror, _, hmessage, hsame⟩ := unknownFlag_suggests Command.table
    ["x", "-vq", "--enun=a:b", "-z"] "--enun" ["--enum"] hstyle
  have hknown := hsame.mpr (by rw [hbest]; decide)
  exact ⟨hstyle, hstops, herror.mpr ⟨hstops, (hknown.trans hbest).symm⟩, hmessage, hbest⟩

/-- A slip in a spelling that every command line knows is answered without a suggestion. -/
theorem help_not_suggested :
    (parse Command.table sampleStyle ["--hlep"]).error = some (.unknownFlag "--hlep" []) ∧
      (ParseError.unknownFlag "--hlep" []).message = "unknown flag: --hlep" ∧
      suggest "--hlep" Command.table.accepted 3 sampleStyle.suggestDistance =
        (["--help"] : List Bytes) ∧
      answer "--hlep" ["--help"] = "unknown flag: --hlep\n\nDid you mean this?\n  --help\n" :=
  ⟨by decide +kernel, rfl, by decide +kernel, rfl⟩

end Elvis.Args
