import Elvis.Integer
import Mathlib.Data.List.Basic
import Mathlib.Data.List.TakeWhile

/-!
# Decimal integers

The decimal form of an integer is read back as the integer.
-/

namespace Elvis.Integer

open Byte

variable {b : UInt8} {n : Int}

/-! ## Digits -/

theorem toNat_of_isDigit {c : Char} (h : c.isDigit) : c.toNat.toUInt8.toNat = c.toNat := by
  have hlt : c.toNat < 256 := by
    have hnine : c.toNat ≤ 57 := (Char.isDigit_iff_toNat.mp h).2
    omega
  simpa using Nat.mod_eq_of_lt hlt

theorem isDigit_iff_toNat : isDigit b ↔ 48 ≤ b.toNat ∧ b.toNat ≤ 57 := by
  unfold isDigit
  rw [Bool.and_eq_true, decide_eq_true_iff, decide_eq_true_iff]
  exact Iff.rfl

theorem isDigit_of_mem_decimal {n : Nat} (h : b ∈ Bytes.decimal n) : isDigit b := by
  obtain ⟨c, hc, rfl⟩ := List.mem_map.mp h
  have hdigit := Nat.isDigit_of_mem_toDigits (by decide) (by decide) hc
  rw [isDigit_iff_toNat, toNat_of_isDigit hdigit]
  exact Char.isDigit_iff_toNat.mp hdigit

theorem decimal_ne_nil (n : Nat) : Bytes.decimal n ≠ [] := by
  unfold Bytes.decimal
  simp

theorem natural_decimal (n : Nat) : natural (Bytes.decimal n) = n := by
  have hdigits := Nat.ofDigitChars_toDigits (n := n) (b := 10) (by decide) (by decide)
  rw [Nat.ofDigitChars_eq_foldl] at hdigits
  unfold natural Bytes.decimal
  rw [List.foldl_map]
  refine (List.foldl_ext _ _ _ fun total c hc => ?_).trans hdigits
  have hdigit := Nat.isDigit_of_mem_toDigits (by decide) (by decide) hc
  unfold digitValue
  rw [toNat_of_isDigit hdigit]
  rfl

theorem readNatural?_decimal (n : Nat) : readNatural? (Bytes.decimal n) = some n := by
  have hdigits : (Bytes.decimal n).all isDigit :=
    List.all_eq_true.mpr fun _ => isDigit_of_mem_decimal
  unfold readNatural?
  simp [decimal_ne_nil, hdigits, natural_decimal]

/-! ## Signs and blanks -/

theorem not_isBlank_of_isDigit (h : isDigit b) : ¬ isBlank b := by
  obtain ⟨hzero, _⟩ := isDigit_iff_toNat.mp h
  intro hblank
  unfold isBlank at hblank
  rw [Bool.or_eq_true, Bool.and_eq_true, beq_iff_eq, decide_eq_true_iff,
    decide_eq_true_iff] at hblank
  rcases hblank with rfl | ⟨_, hlast⟩
  · exact absurd hzero (by decide)
  · have hlast : b.toNat ≤ 13 := hlast
    omega

theorem not_isBlank_of_mem_ofInt (h : b ∈ Bytes.ofInt n) : ¬ isBlank b := by
  cases n with
  | ofNat n => exact not_isBlank_of_isDigit (isDigit_of_mem_decimal h)
  | negSucc n =>
    rcases List.mem_cons.mp h with rfl | h
    · decide
    · exact not_isBlank_of_isDigit (isDigit_of_mem_decimal h)

theorem trim_eq_self {s : Bytes} (h : ∀ b ∈ s, ¬ isBlank b) : s.trim = s := by
  have hdrop {t : Bytes} (ht : ∀ b ∈ t, ¬ isBlank b) : t.dropWhile isBlank = t := by
    refine List.dropWhile_eq_self_iff.mpr fun hlen => ?_
    exact ht _ (List.getElem_mem hlen)
  unfold Bytes.trim
  rw [hdrop h, hdrop fun b hb => h b (List.mem_reverse.mp hb), List.reverse_reverse]

theorem readSigned?_ofInt (n : Int) : readSigned? (Bytes.ofInt n) = some n := by
  cases n with
  | negSucc n =>
    show readSigned? (dash :: Bytes.decimal (n + 1)) = _
    rw [readSigned?, if_pos rfl, readNatural?_decimal]
    rfl
  | ofNat n =>
    -- the first byte is a digit, so it is no sign
    obtain ⟨b, rest, hdecimal⟩ := List.exists_cons_of_ne_nil (decimal_ne_nil n)
    have hb : isDigit b := isDigit_of_mem_decimal (hdecimal ▸ List.mem_cons_self)
    have hdash : b ≠ dash := by
      rintro rfl
      cases hb
    have hplus : b ≠ plus := by
      rintro rfl
      cases hb
    have hread := readNatural?_decimal n
    show readSigned? (Bytes.decimal n) = _
    rw [hdecimal] at hread ⊢
    rw [readSigned?, if_neg hdash, if_neg hplus, hread]
    rfl

/-- A number of 32 bits is given back by its decimal form. -/
theorem read32?_ofInt (h : fits 32 n) : read32? (Bytes.ofInt n) = some n := by
  unfold read32?
  rw [trim_eq_self fun _ => not_isBlank_of_mem_ofInt, readSigned?_ofInt]
  exact Option.filter_eq_some_iff.mpr ⟨rfl, h⟩

end Elvis.Integer
