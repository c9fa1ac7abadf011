import Elvis.Bytes
import Mathlib.Data.List.Basic

/-!
# Beginnings and ends of texts

A reader takes a fixed text away from the beginning of what it reads, or a beginning and an end
from a line.
-/

namespace Elvis.Bytes

theorem dropPrefix?_append (p rest : Bytes) : (p ++ rest).dropPrefix? p = some rest :=
  List.dropPrefix?_append_of_beq rest (beq_self_eq_true p)

theorem length_dropPrefix?_le {text p rest : Bytes} (h : text.dropPrefix? p = some rest) :
    rest.length ≤ text.length := by
  obtain ⟨_, rfl, _⟩ := List.dropPrefix?_eq_some_iff.mp h
  simp

/-- What stands between a beginning and an end of a line. -/
def between? (opening closing line : Bytes) : Option Bytes :=
  (line.dropPrefix? opening).bind (·.dropSuffix? closing)

theorem between?_append (opening text closing : Bytes) :
    between? opening closing (opening ++ (text ++ closing)) = some text := by
  unfold between?
  rw [dropPrefix?_append, Option.bind_some]
  exact List.dropSuffix?_eq_some_iff.mpr ⟨closing, rfl, beq_self_eq_true closing⟩

end Elvis.Bytes
