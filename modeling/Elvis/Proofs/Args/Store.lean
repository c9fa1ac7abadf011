import Elvis.Args.Query

/-!
# The values of each flag

The values that a command line holds for each flag are those that it gives to the flag, in order
(`CommandLine.values_eq`).
-/

namespace Elvis.Args

namespace Store

variable {key name : Bytes} {vs : List Bytes} {rest : Store}

theorem values_cons_self : values ((name, vs) :: rest) name = vs := by
  unfold values
  rw [List.lookup_cons_self, Option.getD_some]

theorem values_cons_of_ne (h : key ≠ name) :
    values ((key, vs) :: rest) name = values rest name := by
  unfold values
  rw [List.lookup_cons, beq_false_of_ne (Ne.symm h)]

/-- Recording adds one value to one flag. -/
theorem values_record (store : Store) (o : Occurrence) (name : Bytes) :
    (store.record o).values name =
      store.values name ++ if o.name = name then [o.value] else [] := by
  induction store with
  | nil =>
    rw [record]
    split
    · next h =>
      rw [h, values_cons_self]
      rfl
    · next h => rw [values_cons_of_ne h, List.append_nil]
  | cons entry rest ih =>
    obtain ⟨key, vs⟩ := entry
    rw [record]
    by_cases hkey : key = name
    · subst hkey
      split
      · next h => rw [values_cons_self, values_cons_self, if_pos h.symm]
      · next h => rw [values_cons_self, values_cons_self, if_neg (Ne.symm h), List.append_nil]
    · split
      · next h =>
        rw [values_cons_of_ne hkey, values_cons_of_ne hkey, if_neg fun ho => hkey (h.trans ho),
          List.append_nil]
      · rw [values_cons_of_ne hkey, values_cons_of_ne hkey, ih]

theorem values_foldl_record (os : List Occurrence) (store : Store) (name : Bytes) :
    (os.foldl record store).values name =
      store.values name ++ (os.filter (·.name = name)).map (·.value) := by
  induction os generalizing store with
  | nil => exact (List.append_nil _).symm
  | cons o os ih =>
    rw [List.foldl_cons, ih, values_record, List.filter_cons, List.append_assoc]
    by_cases h : o.name = name
    · rw [if_pos h, if_pos (decide_eq_true h)]
      rfl
    · rw [if_neg h, if_neg (by simpa using h), List.nil_append]

end Store

namespace CommandLine

theorem values_store (line : CommandLine) (name : Bytes) :
    line.store.values name =
      (line.parsed.occurrences.filter (·.name = name)).map (·.value) :=
  Store.values_foldl_record _ [] name

/-- A flag has the values of its occurrences. -/
theorem values_eq (line : CommandLine) (spelling : Bytes) :
    line.values spelling = match line.table.resolve? spelling with
      | some name => (line.parsed.occurrences.filter (·.name = name)).map (·.value)
      | none => [] := by
  unfold values
  cases line.table.resolve? spelling with
  | none => rfl
  | some name => exact line.values_store name

end CommandLine

end Elvis.Args
