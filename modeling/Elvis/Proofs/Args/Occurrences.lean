import Elvis.Proofs.Args.Concatenation

/-!
# What is recorded

Every occurrence that is read of a command line is one of a flag of the table, and its value has
the form in which values of that flag are recorded. This holds of all that is read before an error,
too.
-/

namespace Elvis.Args

variable {table : Table} {style : Style} {spelling name value recorded word : Bytes} {kind : Kind}
  {o : Occurrence} {words : List Bytes}

/-! ## Values -/

/-- The form in which a value is recorded. -/
def Kind.Records : Kind → Bytes → Prop
  | switch, value => value = switchText true ∨ value = switchText false
  | count, value => value = "1"
  | number, value => (Integer.read32? value).isSome
  | text, _ => True

theorem Kind.records_of_accept? (hkind : kind ≠ .count) (h : kind.accept? value = some recorded) :
    kind.Records recorded := by
  cases kind with
  | count => exact absurd rfl hkind
  | text => trivial
  | switch =>
    obtain ⟨b, _, rfl⟩ := Option.map_eq_some_iff.mp h
    cases b
    · exact .inr rfl
    · exact .inl rfl
  | number =>
    have h : (if (Integer.read32? value).isSome then some value else none) = some recorded := h
    split at h
    · next hread =>
      cases h
      exact hread
    · cases h

theorem Kind.records_of_alone? (h : kind.alone? = some recorded) : kind.Records recorded := by
  cases kind with
  | switch =>
    cases h
    exact .inl rfl
  | count =>
    cases h
    exact rfl
  | number | text => cases h

/-- A recorded value is accepted again, and as it stands. -/
theorem Kind.accept?_of_records (h : kind.Records value) : kind.accept? value = some value := by
  cases kind with
  | text => rfl
  | number => exact if_pos h
  | switch =>
    rcases h with rfl | rfl
    · decide
    · decide
  | count =>
    obtain rfl : value = "1" := h
    decide

/-! ## Occurrences -/

/-- The occurrence is one of a flag of the table. -/
def Recorded (table : Table) (o : Occurrence) : Prop :=
  ∃ spelling kind, table.lookup? spelling = some (o.name, kind) ∧ kind.Records o.value

/-- A flag whose value is awaited is one of the table. -/
def State.Found (table : Table) : State → Prop
  | free => True
  | awaiting spelling name kind =>
      table.lookup? spelling = some (name, kind) ∧ kind.alone? = none

/-- What a word yields belongs to flags of the table. -/
structure Reading.Found (table : Table) (reading : Reading) : Prop where
  occurrences : ∀ o ∈ reading.occurrences, Recorded table o
  next : ∀ state, reading.next = .ok state → state.Found table

theorem Reading.found_failed (error : ParseError) : (failed error).Found table :=
  ⟨nofun, nofun⟩

theorem Reading.found_of_recorded (h : Recorded table o) : Found table ⟨[o], .ok .free⟩ where
  occurrences o' ho := by
    obtain rfl := List.mem_singleton.mp ho
    exact h
  next state h := by
    cases h
    trivial

theorem Reading.found_awaiting (hlookup : table.lookup? spelling = some (name, kind))
    (halone : kind.alone? = none) : Found table ⟨[], .ok (.awaiting spelling name kind)⟩ where
  occurrences _ h := nomatch h
  next state h := by
    cases h
    exact ⟨hlookup, halone⟩

theorem Reading.Found.after {reading : Reading} (h : reading.Found table)
    (ho : Recorded table o) : (reading.after o).Found table :=
  ⟨List.forall_mem_cons.mpr ⟨ho, h.occurrences⟩, h.next⟩

/-! ## Words -/

theorem found_readValue (hlookup : table.lookup? spelling = some (name, kind))
    (hkind : kind ≠ .count) : (readValue name kind value).Found table := by
  unfold readValue
  split
  · next haccept =>
    exact Reading.found_of_recorded ⟨spelling, kind, hlookup, kind.records_of_accept? hkind haccept⟩
  · exact Reading.found_failed _

theorem found_readAssignment : (readAssignment table style spelling value).Found table := by
  unfold readAssignment
  split
  · exact Reading.found_failed _
  · exact Reading.found_failed _
  · next name kind hcount hlookup => exact found_readValue hlookup hcount

theorem found_readAlone : (readAlone table style spelling).Found table := by
  unfold readAlone
  split
  · exact Reading.found_failed _
  · next name kind hlookup =>
    split
    · next halone =>
      exact Reading.found_of_recorded ⟨spelling, kind, hlookup, kind.records_of_alone? halone⟩
    · next halone => exact Reading.found_awaiting hlookup halone

theorem found_readGroup : (readGroup table style word).Found table := by
  induction word with
  | nil =>
    refine ⟨nofun, fun state h => ?_⟩
    cases h
    trivial
  | cons b rest ih =>
    rw [readGroup]
    split
    · exact Reading.found_failed _
    · next name kind hlookup =>
      split
      · next halone => exact ih.after ⟨_, kind, hlookup, kind.records_of_alone? halone⟩
      · next halone =>
        split
        · exact Reading.found_awaiting hlookup halone
        · refine found_readValue hlookup ?_
          rintro rfl
          cases halone

theorem found_readFlagWord : (readFlagWord table style word).Found table := by
  unfold readFlagWord
  split
  · exact found_readAssignment
  · split
    · exact found_readGroup
    · exact found_readAlone

/-! ## Command lines -/

theorem recorded_of_mem_parseFrom {state : State} (h : state.Found table) :
    ∀ o ∈ (parseFrom table style state words).occurrences, Recorded table o := by
  induction words generalizing state with
  | nil => cases state <;> exact fun _ ho => absurd ho List.not_mem_nil
  | cons word words ih =>
    -- the occurrences of a word, then those of the words that it leaves to be read
    have hreading : ∀ reading : Reading, reading.Found table →
        ∀ o ∈ (Progress.resumed table style reading words).occurrences, Recorded table o := by
      intro reading hfound
      unfold Progress.resumed
      cases hnext : reading.next with
      | error error => exact hfound.occurrences
      | ok state =>
        intro o ho
        rcases List.mem_append.mp ho with ho | ho
        · exact hfound.occurrences o ho
        · exact ih (hfound.next state hnext) o ho
    cases state with
    | awaiting spelling name kind =>
      refine hreading _ (found_readValue h.1 ?_)
      rintro rfl
      cases h.2
    | free =>
      rw [parseFrom]
      split
      · exact fun _ ho => absurd ho List.not_mem_nil
      · split
        · exact hreading _ found_readFlagWord
        · exact ih h

theorem recorded_of_mem_parse (ho : o ∈ (parse table style words).occurrences) :
    Recorded table o := by
  have hfree : State.free.Found table := trivial
  exact recorded_of_mem_parseFrom hfree o ho

end Elvis.Args
