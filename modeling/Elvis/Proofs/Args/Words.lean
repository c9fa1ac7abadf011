import Elvis.Args.Parser
import Elvis.Proofs.Bytes.SplitJoin

/-!
# Words that give one flag

A flag with its value behind an equals sign, or alone if it needs no value, is read by itself,
whatever words stand around it. So a command line of such words gives their flags in order.
-/

namespace Elvis.Args

open Byte

variable {table : Table} {style : Style} {spelling value name text word : Bytes} {kind : Kind}
  {o : Occurrence} {os : List Occurrence} {words : List Bytes}

theorem isFlagWord_append (h : isFlagWord spelling) (rest : Bytes) :
    isFlagWord (spelling ++ rest) := by
  match spelling, h with
  | _ :: _ :: _, h => exact h

theorem assignment_ne_terminator : spelling ++ "=" ++ value ≠ terminator := by
  intro h
  have hmem : equals ∈ spelling ++ "=" ++ value :=
    List.mem_append_left _ (List.mem_append_right _ List.mem_cons_self)
  rw [h] at hmem
  exact absurd hmem (by decide)

/-- Where a flag can stand, the word gives this one and nothing else. -/
structure Gives (table : Table) (style : Style) (word : Bytes) (o : Occurrence) : Prop where
  ne_terminator : word ≠ terminator
  isFlagWord : isFlagWord word
  reading : readFlagWord table style word = ⟨[o], .ok .free⟩

theorem readFlagWord_assignment (hequals : equals ∉ spelling) (value : Bytes) :
    readFlagWord table style (spelling ++ "=" ++ value) =
      readAssignment table style spelling value := by
  have hsplit : spelling ++ "=" ++ value = spelling ++ equals :: value := by
    rw [List.append_assoc]
    rfl
  unfold readFlagWord
  rw [hsplit, Bytes.cut_append hequals]

theorem readFlagWord_alone (hgroup : ¬ isGroupWord spelling) (hequals : equals ∉ spelling) :
    readFlagWord table style spelling = readAlone table style spelling := by
  unfold readFlagWord
  rw [Bytes.cut_of_not_mem hequals]
  exact if_neg (by simp [hgroup])

theorem readAssignment_of_lookup? (hlookup : table.lookup? spelling = some (name, kind))
    (hkind : kind ≠ .count) (value : Bytes) :
    readAssignment table style spelling value = readValue name kind value := by
  unfold readAssignment
  rw [hlookup]
  cases kind with
  | count => exact absurd rfl hkind
  | switch | number | text => rfl

theorem gives_assignment (hword : isFlagWord spelling) (hequals : equals ∉ spelling)
    (hlookup : table.lookup? spelling = some (name, kind)) (hkind : kind ≠ .count)
    (haccept : kind.accept? value = some text) :
    Gives table style (spelling ++ "=" ++ value) ⟨name, text⟩ := by
  refine ⟨assignment_ne_terminator, isFlagWord_append (isFlagWord_append hword _) _, ?_⟩
  rw [readFlagWord_assignment hequals, readAssignment_of_lookup? hlookup hkind]
  unfold readValue
  rw [haccept]

theorem gives_alone (hword : isFlagWord spelling) (hgroup : ¬ isGroupWord spelling)
    (hterminator : spelling ≠ terminator) (hequals : equals ∉ spelling)
    (hlookup : table.lookup? spelling = some (name, kind)) (halone : kind.alone? = some text) :
    Gives table style spelling ⟨name, text⟩ := by
  refine ⟨hterminator, hword, ?_⟩
  rw [readFlagWord_alone hgroup hequals]
  unfold readAlone
  rw [hlookup]
  dsimp only
  rw [halone]

/-- The words give these flags and nothing else, whatever words follow. -/
def Reads (table : Table) (style : Style) (words : List Bytes) (os : List Occurrence) : Prop :=
  ∀ rest, parse table style (words ++ rest) = (parse table style rest).after os

theorem reads_nil : Reads table style [] [] := fun _ => rfl

theorem Reads.append {words' : List Bytes} {os' : List Occurrence}
    (h : Reads table style words os) (h' : Reads table style words' os') :
    Reads table style (words ++ words') (os ++ os') := by
  intro rest
  rw [List.append_assoc, h, h']
  simp [Parsed.after]

theorem Gives.reads (h : Gives table style word o) : Reads table style [word] [o] := by
  intro rest
  unfold parse
  rw [List.singleton_append, parseFrom, if_neg h.ne_terminator, if_pos h.isFlagWord, h.reading]

theorem reads_map {α : Type} {xs : List α} {f : α → Bytes} {g : α → Occurrence}
    (h : ∀ x ∈ xs, Gives table style (f x) (g x)) :
    Reads table style (xs.map f) (xs.map g) := by
  induction xs with
  | nil => exact reads_nil
  | cons x xs ih =>
    obtain ⟨hx, hxs⟩ := List.forall_mem_cons.mp h
    exact hx.reads.append (ih hxs)

end Elvis.Args
