import Elvis.Args.Parser
import Mathlib.Data.List.Nodup

/-!
# Looking flags up

Of the flags that share a spelling the one that was registered last has it. In a table of distinct
names every name stands for its flag; in any table every spelling stands for a registered name.
-/

namespace Elvis.Args.Table

open Byte

section Entries

variable {α : Type} {entries others : List (Bytes × α)} {key : Bytes} {x : α}

theorem mem_of_last?_eq_some (h : last? entries key = some x) : (key, x) ∈ entries := by
  obtain ⟨⟨key', x'⟩, hmem, rfl⟩ := List.mem_map.mp (List.mem_of_getLast? h)
  obtain ⟨hentry, hkey⟩ := List.mem_filter.mp hmem
  obtain rfl : key' = key := of_decide_eq_true hkey
  exact hentry

theorem exists_last?_eq_some (h : key ∈ entries.map Prod.fst) :
    ∃ x, last? entries key = some x := by
  obtain ⟨entry, hentry, hkey⟩ := List.mem_map.mp h
  have hmem : entry.2 ∈ (entries.filter (·.1 = key)).map Prod.snd :=
    List.mem_map_of_mem (List.mem_filter.mpr ⟨hentry, decide_eq_true hkey⟩)
  exact ⟨_, List.getLast?_eq_some_getLast (List.ne_nil_of_mem hmem)⟩

theorem last?_eq_some_of_unique (h : (key, x) ∈ entries)
    (hunique : ∀ y, (key, y) ∈ entries → y = x) : last? entries key = some x := by
  obtain ⟨y, hy⟩ := exists_last?_eq_some (List.mem_map_of_mem h : (key, x).1 ∈ _)
  rw [hy, hunique y (mem_of_last?_eq_some hy)]

theorem last?_append_of_eq_some (h : last? entries key = some x) :
    last? (others ++ entries) key = some x := by
  unfold last? at *
  rw [List.filter_append, List.map_append, List.getLast?_append, h, Option.some_or]

/-- With distinct keys no entry hides another. -/
theorem last?_eq_some_of_nodup (hnodup : (entries.map Prod.fst).Nodup) (h : (key, x) ∈ entries) :
    last? entries key = some x := by
  refine last?_eq_some_of_unique h fun y hy => ?_
  have heq : (key, y) = (key, x) := List.inj_on_of_nodup_map hnodup hy h rfl
  exact congrArg Prod.snd heq

end Entries

variable {table : Table} {spec : FlagSpec} {spelling name : Bytes} {kind : Kind}

/-! ## The spellings of a table -/

theorem mem_specSpellings_iff : (spelling, name) ∈ specSpellings spec ↔
    name = spec.long ∧ (spelling = spec.long ∨ spec.short ≠ [] ∧ spelling = spec.short) := by
  unfold specSpellings
  rw [List.mem_cons, Prod.mk.injEq]
  split
  · next h => simp [List.isEmpty_iff.mp h, and_comm]
  · next h =>
    rw [List.isEmpty_iff] at h
    rw [List.mem_singleton, Prod.mk.injEq]
    tauto

theorem mem_spellings_iff : (spelling, name) ∈ table.spellings ↔
    (spelling, name) ∈ builtIn ∨
      ∃ spec ∈ table, spec.long ≠ [] ∧ (spelling, name) ∈ specSpellings spec := by
  unfold spellings registered
  simp [and_assoc]

/-- What is found has a name of its own: that of a flag, or one that every table knows. -/
theorem name_of_resolve?_eq_some (h : table.resolve? spelling = some name) :
    name = "--help" ∨ name = "--version" ∨ ∃ spec ∈ table, name = spec.long := by
  rcases mem_spellings_iff.mp (mem_of_last?_eq_some h) with h | ⟨spec, hspec, _, h⟩
  · simp only [builtIn, List.mem_cons, Prod.mk.injEq, List.not_mem_nil, or_false] at h
    tauto
  · exact .inr (.inr ⟨spec, hspec, (mem_specSpellings_iff.mp h).1⟩)

theorem lookup?_eq_some_iff : table.lookup? spelling = some (name, kind) ↔
    table.resolve? spelling = some name ∧ last? table.kinds name = some kind := by
  unfold lookup?
  simp only [Option.bind_eq_bind, Option.bind_eq_some_iff, Option.pure_def, Option.some.injEq,
    Prod.mk.injEq]
  constructor
  · rintro ⟨name', hname, kind', hkind, rfl, rfl⟩
    exact ⟨hname, hkind⟩
  · rintro ⟨hname, hkind⟩
    exact ⟨name, hname, kind, hkind, rfl, rfl⟩

end Elvis.Args.Table
