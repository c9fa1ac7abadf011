import Elvis.Proofs.Shell.DoubleQuotes

/-!
# Text inside here-documents

In an unquoted here-document a backslash makes the next byte literal if this is a dollar sign, a
backquote or a backslash, and joins two lines if it is a newline; in front of any other byte it is
literal itself. What `Shell.hereDocText` writes is read as the text that it was given, whatever
follows it (`readBody_hereDocText`).
-/

namespace Elvis.Shell

open Byte

variable {b : UInt8}

/-! ## The body of a here-document -/

/-- What a shell takes a part of the body for: a byte that stands for itself, one that begins an
expansion, or the end of a line that the next line continues. -/
inductive BodyPart
  | literal (b : UInt8)
  | expansion (b : UInt8)
  | joined
deriving DecidableEq, Repr

def readBody : Bytes → List BodyPart
  | [] => []
  | [b] => [if isExpansion b then .expansion b else .literal b]
  | b :: next :: rest =>
      if b = backslash then
        if next = newline then .joined :: readBody rest
        else if isExpansion next || next == backslash then .literal next :: readBody rest
        else .literal backslash :: readBody (next :: rest)
      else if isExpansion b then .expansion b :: readBody (next :: rest)
      else .literal b :: readBody (next :: rest)

/-- The last dollar sign stands behind a backslash that is literal. -/
example : readBody "\\a\\$\\\n\\\\$" =
    [.literal backslash, .literal 0x61, .literal dollar, .joined, .literal backslash,
      .expansion dollar] := by decide

/-! ## Escaped text -/

theorem hereDocText_cons (b : UInt8) (s : Bytes) :
    hereDocText (b :: s) =
      (if isHereDocSpecial b then [backslash, b] else [b]) ++ hereDocText s :=
  rfl

theorem hereDocText_append (s t : Bytes) : hereDocText (s ++ t) = hereDocText s ++ hereDocText t :=
  List.flatMap_append

theorem isHereDocSpecial_iff : isHereDocSpecial b ↔ isExpansion b ∨ b = backslash := by
  simp only [isHereDocSpecial, isExpansion, Bool.or_eq_true, beq_iff_eq]
  exact or_assoc.trans or_comm

theorem readBody_cons (hb : ¬ isHereDocSpecial b) (rest : Bytes) :
    readBody (b :: rest) = .literal b :: readBody rest := by
  obtain ⟨hexpansion, hbackslash⟩ := not_or.mp (isHereDocSpecial_iff.not.mp hb)
  cases rest with
  | nil => exact congrArg ([·]) (if_neg hexpansion)
  | cons next rest => rw [readBody, if_neg hbackslash, if_neg hexpansion]

theorem readBody_escaped (hb : isHereDocSpecial b) (rest : Bytes) :
    readBody (backslash :: b :: rest) = .literal b :: readBody rest := by
  have hescapable : (isExpansion b || b == backslash) = true := by
    rw [Bool.or_eq_true, beq_iff_eq]
    exact isHereDocSpecial_iff.mp hb
  have hnewline : b ≠ newline := by
    rintro rfl
    cases hb
  rw [readBody, if_pos rfl, if_neg hnewline, if_pos hescapable]

/-- Nothing of the text is left open, so it does not matter what follows. -/
theorem readBody_hereDocText_append (s rest : Bytes) :
    readBody (hereDocText s ++ rest) = s.map .literal ++ readBody rest := by
  induction s with
  | nil => rfl
  | cons b s ih =>
    rw [hereDocText_cons, List.append_assoc, List.map_cons, List.cons_append, ← ih]
    split
    · next hb => exact readBody_escaped hb _
    · next hb => exact readBody_cons hb _

/-- Escaped text is read byte by byte as the text that it was: nothing in it is expanded, and no
line of it continues another. -/
theorem readBody_hereDocText (s t : Bytes) :
    readBody (hereDocText s) = s.map .literal ∧
      readBody (hereDocText s ++ hereDocText t) = (s ++ t).map .literal ∧
      ∀ rest, readBody (hereDocText s ++ rest) = s.map .literal ++ readBody rest := by
  have hread (s : Bytes) : readBody (hereDocText s) = s.map .literal := by
    have happend := readBody_hereDocText_append s []
    rwa [List.append_nil, readBody, List.append_nil] at happend
  refine ⟨hread s, ?_, readBody_hereDocText_append s⟩
  rw [← hereDocText_append]
  exact hread (s ++ t)

end Elvis.Shell
