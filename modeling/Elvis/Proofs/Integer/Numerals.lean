import Elvis.Proofs.Integer
import Mathlib.Data.List.DropRight
import Mathlib.Data.Nat.Digits.Defs

/-!
# Integers from texts

A decimal text is an optional sign and digits, and denotes one integer. The readers accept just
these texts within their number of bits, blanks in front of them and, in 32 bits, behind them
(`reads_decimal`). This is also what is accepted by a conversion of the number at the beginning of a
text, if it must neither leave anything of the text nor leave the range of its results.
-/

namespace Elvis.Integer

open Byte

/-! ## Decimal texts -/

def blanks : Bytes := [space, tab, newline, verticalTab, formFeed, carriageReturn]

/-- The number that the digits have by their places. -/
def placeValue (digits : Bytes) : Nat := Nat.ofDigits 10 (digits.map (·.toNat - 48)).reverse

/-- A sign, or none, with what it multiplies the number by. -/
inductive Sign : Bytes → Int → Prop
  | none : Sign [] 1
  | plus : Sign [plus] 1
  | minus : Sign [dash] (-1)

/-- The text is an optional sign and at least one digit, and denotes the integer. -/
inductive Denotes : Bytes → Int → Prop
  | intro {sign digits : Bytes} {factor : Int} : Sign sign factor → digits ≠ [] →
      (∀ b ∈ digits, isDigit b) → Denotes (sign ++ digits) (factor * placeValue digits)

/-! ## The number at the beginning of a text -/

/-- What is found at the beginning of a text: a number, or the nearest one in range, whether it was
out of range, and how many bytes were read. -/
structure Conversion where
  value : Int
  overflow : Bool
  length : Nat
deriving DecidableEq, Repr

/-- The integer of 64 bits that is nearest. -/
def clamp (n : Int) : Int := max (-bound 64) (min n (bound 64 - 1))

/-- A sign at the beginning of a text, if there is one, and what follows. -/
def cutSign : Bytes → Bytes × Bytes
  | [] => ([], [])
  | b :: rest => if b = dash ∨ b = plus then ([b], rest) else ([], b :: rest)

/-- The number with a sign, which may be empty. -/
def signed (sign : Bytes) (k : Nat) : Int := if sign = [dash] then -k else k

/-- What is found where these bytes were read. Without digits nothing is. -/
def Conversion.ofParts (front sign digits : Bytes) : Conversion :=
  if digits = [] then ⟨0, false, 0⟩
  else
    ⟨clamp (signed sign (natural digits)), !fits 64 (signed sign (natural digits)),
      (front ++ sign ++ digits).length⟩

/-- Converts the number at the beginning of a text, which a zero byte ends: blanks, an optional sign
and as many digits as there are. -/
def convert (s : Bytes) : Conversion :=
  let text := s.takeWhile (· != 0)
  let number := text.dropWhile isBlank
  .ofParts (text.takeWhile isBlank) (cutSign number).1 ((cutSign number).2.takeWhile isDigit)

/-- The number of a text that is converted as a whole. -/
def convertWhole? (s : Bytes) : Option Int :=
  let found := convert s
  if s = [] ∨ found.overflow ∨ found.length ≠ s.length then none else some found.value

variable {b : UInt8} {s number front back sign digits : Bytes} {n : Int}

/-! ## Bytes of decimal texts -/

theorem isBlank_iff : isBlank b ↔ b ∈ blanks := by
  have hall : ∀ k < 256, isBlank (UInt8.ofNat k) = decide (UInt8.ofNat k ∈ blanks) := by
    decide +kernel
  have hb := hall b.toNat b.toNat_lt
  rw [UInt8.ofNat_toNat] at hb
  rw [hb, decide_eq_true_iff]

theorem Denotes.ne_nil (h : Denotes number n) : number ≠ [] := by
  cases h with
  | intro _ hne _ => exact fun hnil => hne (List.append_eq_nil_iff.mp hnil).2

/-- Bytes that are neither signs nor digits do not occur. -/
theorem Denotes.not_mem (h : Denotes number n) (hdash : b ≠ dash) (hplus : b ≠ plus)
    (hdigit : ¬ isDigit b) : b ∉ number := by
  cases h with
  | intro hsign _ hdigits =>
    rw [List.mem_append, not_or]
    constructor
    · cases hsign with
      | none => exact List.not_mem_nil
      | plus => exact List.mem_singleton.not.mpr hplus
      | minus => exact List.mem_singleton.not.mpr hdash
    · exact fun hmem => hdigit (hdigits b hmem)

theorem Denotes.not_isBlank (h : Denotes number n) (hb : b ∈ number) : ¬ isBlank b := by
  intro hblank
  refine h.not_mem ?_ ?_ (fun hdigit => not_isBlank_of_isDigit hdigit hblank) hb
  · rintro rfl
    cases hblank
  · rintro rfl
    cases hblank

/-! ## Signs and digits -/

theorem cutSign_append (s : Bytes) : (cutSign s).1 ++ (cutSign s).2 = s := by
  cases s with
  | nil => rfl
  | cons b rest =>
    rw [cutSign]
    split <;> rfl

theorem exists_sign_cutSign (s : Bytes) : ∃ factor, Sign (cutSign s).1 factor := by
  cases s with
  | nil => exact ⟨1, .none⟩
  | cons b rest =>
    rw [cutSign]
    split
    · next hb =>
      rcases hb with rfl | rfl
      · exact ⟨-1, .minus⟩
      · exact ⟨1, .plus⟩
    · exact ⟨1, .none⟩

/-- A digit is no sign. -/
theorem cutSign_of_digits {factor : Int} (hsign : Sign sign factor) (hne : digits ≠ [])
    (hdigits : ∀ b ∈ digits, isDigit b) : cutSign (sign ++ digits) = (sign, digits) := by
  cases hsign with
  | plus | minus => rfl
  | none =>
    obtain ⟨b, rest, rfl⟩ := List.exists_cons_of_ne_nil hne
    have hb : isDigit b := hdigits b List.mem_cons_self
    refine if_neg ?_
    rintro (rfl | rfl)
    · cases hb
    · cases hb

theorem Sign.signed_eq {factor : Int} (h : Sign sign factor) (k : Nat) :
    signed sign k = factor * k := by
  cases h with
  | none | plus => exact (Int.one_mul _).symm
  | minus => exact (Int.neg_one_mul _).symm

theorem natural_eq_placeValue (digits : Bytes) : natural digits = placeValue digits := by
  unfold natural placeValue
  rw [Nat.ofDigits_eq_foldr, List.foldr_reverse, List.foldl_map]
  refine List.foldl_ext _ _ _ fun total b _ => ?_
  rw [Nat.add_comm]
  rfl

theorem readNatural?_eq_some_iff {k : Nat} : readNatural? s = some k ↔
    s ≠ [] ∧ (∀ b ∈ s, isDigit b) ∧ k = placeValue s := by
  unfold readNatural?
  rw [natural_eq_placeValue, Option.ite_none_right_eq_some, Bool.and_eq_true, List.all_eq_true,
    Option.some.injEq, and_assoc, eq_comm (a := k)]
  simp

theorem readSigned?_eq (s : Bytes) :
    readSigned? s = (readNatural? (cutSign s).2).map (signed (cutSign s).1) := by
  cases s with
  | nil => rfl
  | cons b rest =>
    rw [readSigned?, cutSign]
    by_cases hdash : b = dash
    · subst hdash
      rw [if_pos rfl, if_pos (.inl rfl)]
      cases readNatural? rest <;> rfl
    · by_cases hplus : b = plus
      · subst hplus
        rw [if_neg hdash, if_pos rfl, if_pos (.inr rfl)]
        rfl
      · rw [if_neg hdash, if_neg hplus, if_neg (not_or.mpr ⟨hdash, hplus⟩)]
        rfl

theorem readSigned?_eq_some_iff : readSigned? s = some n ↔ Denotes s n := by
  rw [readSigned?_eq, Option.map_eq_some_iff]
  constructor
  · rintro ⟨k, hk, rfl⟩
    obtain ⟨hne, hdigits, rfl⟩ := readNatural?_eq_some_iff.mp hk
    obtain ⟨factor, hsign⟩ := exists_sign_cutSign s
    have hdenotes := Denotes.intro hsign hne hdigits
    rwa [cutSign_append, ← hsign.signed_eq] at hdenotes
  · intro h
    cases h with
    | @intro sign digits factor hsign hne hdigits =>
      rw [cutSign_of_digits hsign hne hdigits]
      exact ⟨_, readNatural?_eq_some_iff.mpr ⟨hne, hdigits, rfl⟩, hsign.signed_eq _⟩

/-! ## Blanks around a number -/

theorem forall_isBlank_iff : (∀ b ∈ s, isBlank b) ↔ ∀ b ∈ s, b ∈ blanks :=
  forall₂_congr fun _ _ => isBlank_iff

theorem Denotes.takeWhile_isBlank (h : Denotes number n) (rest : Bytes) :
    (number ++ rest).takeWhile isBlank = [] := by
  obtain ⟨b, others, rfl⟩ := List.exists_cons_of_ne_nil h.ne_nil
  exact List.takeWhile_cons_of_neg (h.not_isBlank List.mem_cons_self)

theorem Denotes.dropWhile_isBlank (h : Denotes number n) (rest : Bytes) :
    (number ++ rest).dropWhile isBlank = number ++ rest := by
  obtain ⟨b, others, rfl⟩ := List.exists_cons_of_ne_nil h.ne_nil
  exact List.dropWhile_cons_of_neg (h.not_isBlank List.mem_cons_self)

/-- Behind its blanks the text is a number. -/
theorem denotes_dropWhile_iff : Denotes (s.dropWhile isBlank) n ↔
    ∃ front number, s = front ++ number ∧ (∀ b ∈ front, b ∈ blanks) ∧ Denotes number n := by
  constructor
  · intro h
    refine ⟨_, _, List.takeWhile_append_dropWhile.symm, forall_isBlank_iff.mp ?_, h⟩
    exact fun b hb => List.mem_takeWhile_imp hb
  · rintro ⟨front, number, rfl, hfront, h⟩
    have hdrop := h.dropWhile_isBlank []
    rw [List.append_nil] at hdrop
    rwa [List.dropWhile_append_of_pos (forall_isBlank_iff.mpr hfront), hdrop]

/-- Between its blanks the text is a number. -/
theorem denotes_trim_iff : Denotes s.trim n ↔ ∃ front number back,
    s = front ++ number ++ back ∧ (∀ b ∈ front, b ∈ blanks) ∧ (∀ b ∈ back, b ∈ blanks) ∧
      Denotes number n := by
  constructor
  · intro h
    have hfront : ∀ b ∈ s.takeWhile isBlank, isBlank b := fun b hb => List.mem_takeWhile_imp hb
    have hback : ∀ b ∈ ((s.dropWhile isBlank).reverse.takeWhile isBlank).reverse, isBlank b :=
      fun b hb => List.mem_takeWhile_imp (List.mem_reverse.mp hb)
    refine ⟨_, _, _, ?_, forall_isBlank_iff.mp hfront, forall_isBlank_iff.mp hback, h⟩
    unfold Bytes.trim
    rw [List.append_assoc, ← List.reverse_append, List.takeWhile_append_dropWhile,
      List.reverse_reverse, List.takeWhile_append_dropWhile]
  · rintro ⟨front, number, back, rfl, hfront, hback, h⟩
    have hreverse : ∀ b ∈ back.reverse, isBlank b :=
      fun b hb => forall_isBlank_iff.mpr hback b (List.mem_reverse.mp hb)
    have hlast : number.reverse.dropWhile isBlank = number.reverse := by
      refine List.dropWhile_eq_self_iff.mpr fun hlength => h.not_isBlank ?_
      exact List.mem_reverse.mp (List.getElem_mem hlength)
    unfold Bytes.trim
    rwa [List.append_assoc, List.dropWhile_append_of_pos (forall_isBlank_iff.mpr hfront),
      h.dropWhile_isBlank, List.reverse_append, List.dropWhile_append_of_pos hreverse, hlast,
      List.reverse_reverse]

/-- Trimmed text has no blanks in front. -/
theorem dropWhile_trim (s : Bytes) : s.trim.dropWhile isBlank = s.trim := by
  have hlead : s.trim <+: s.dropWhile isBlank := List.rdropWhile_prefix isBlank _
  refine List.dropWhile_eq_self_iff.mpr fun hlength => ?_
  rw [hlead.getElem hlength]
  exact List.dropWhile_get_zero_not isBlank s _

theorem read64?_eq_some_iff : read64? s = some n ↔
    (∃ front number, s = front ++ number ∧ (∀ b ∈ front, b ∈ blanks) ∧ Denotes number n) ∧
      fits 64 n := by
  unfold read64?
  rw [Option.filter_eq_some_iff, readSigned?_eq_some_iff, denotes_dropWhile_iff]

theorem read32?_eq_some_iff : read32? s = some n ↔ (∃ front number back,
    s = front ++ number ++ back ∧ (∀ b ∈ front, b ∈ blanks) ∧ (∀ b ∈ back, b ∈ blanks) ∧
      Denotes number n) ∧ fits 32 n := by
  unfold read32?
  rw [Option.filter_eq_some_iff, readSigned?_eq_some_iff, denotes_trim_iff]

/-! ## Conversion -/

theorem clamp_of_fits (h : fits 64 n) : clamp n = n := by
  unfold fits at h
  rw [Bool.and_eq_true, decide_eq_true_iff, decide_eq_true_iff] at h
  unfold clamp
  omega

/-- Blanks and a number are converted as a whole. -/
theorem convert_append (hfront : ∀ b ∈ front, isBlank b) (h : Denotes number n) :
    convert (front ++ number) = ⟨clamp n, !fits 64 n, (front ++ number).length⟩ := by
  have htext : (front ++ number).takeWhile (· != 0) = front ++ number := by
    refine List.takeWhile_eq_self_iff.mpr fun b hb => bne_iff_ne.mpr ?_
    rintro rfl
    rcases List.mem_append.mp hb with hb | hb
    · exact absurd (hfront 0 hb) (by decide)
    · exact h.not_mem (by decide) (by decide) (by decide) hb
  have htake := h.takeWhile_isBlank []
  have hdrop := h.dropWhile_isBlank []
  rw [List.append_nil] at htake hdrop
  unfold convert
  dsimp only
  rw [htext, List.takeWhile_append_of_pos hfront, List.dropWhile_append_of_pos hfront, htake, hdrop,
    List.append_nil]
  cases h with
  | intro hsign hne hdigits =>
    rw [cutSign_of_digits hsign hne hdigits, List.takeWhile_eq_self_iff.mpr hdigits,
      Conversion.ofParts, if_neg hne, natural_eq_placeValue, hsign.signed_eq, List.append_assoc]

/-- The bytes that are read of a text are its beginning. -/
theorem parts_lead (text : Bytes) :
    text.takeWhile isBlank ++ (cutSign (text.dropWhile isBlank)).1 ++
      (cutSign (text.dropWhile isBlank)).2.takeWhile isDigit <+: text := by
  have hnumber (number : Bytes) :
      (cutSign number).1 ++ (cutSign number).2.takeWhile isDigit <+: number := by
    have hdigits := List.takeWhile_prefix (l := (cutSign number).2) isDigit
    have hread := (List.prefix_append_right_inj (cutSign number).1).mpr hdigits
    rwa [cutSign_append] at hread
  have hread := (List.prefix_append_right_inj (text.takeWhile isBlank)).mpr
    (hnumber (text.dropWhile isBlank))
  rwa [List.takeWhile_append_dropWhile, ← List.append_assoc] at hread

/-- What is converted as a whole is blanks and a number. -/
theorem denotes_of_length_convert (hne : s ≠ []) (h : (convert s).length = s.length) :
    ∃ front number n, s = front ++ number ∧ (∀ b ∈ front, isBlank b) ∧ Denotes number n := by
  unfold convert Conversion.ofParts at h
  dsimp only at h
  split at h
  · exact absurd (List.length_eq_zero_iff.mp h.symm) hne
  · next hdigits =>
    have hs := ((parts_lead _).trans (List.takeWhile_prefix _)).eq_of_length h
    obtain ⟨factor, hsign⟩ := exists_sign_cutSign ((s.takeWhile (· != 0)).dropWhile isBlank)
    rw [List.append_assoc] at hs
    exact ⟨_, _, _, hs.symm, fun b hb => List.mem_takeWhile_imp hb,
      .intro hsign hdigits fun b hb => List.mem_takeWhile_imp hb⟩

theorem convertWhole?_eq_some_iff : convertWhole? s = some n ↔
    (∃ front number, s = front ++ number ∧ (∀ b ∈ front, b ∈ blanks) ∧ Denotes number n) ∧
      fits 64 n := by
  unfold convertWhole?
  rw [Option.ite_none_left_eq_some, Option.some.injEq]
  simp only [not_or, Bool.not_eq_true, Decidable.not_not]
  constructor
  · rintro ⟨⟨hne, hoverflow, hlength⟩, rfl⟩
    obtain ⟨front, number, n, rfl, hfront, h⟩ := denotes_of_length_convert hne hlength
    rw [convert_append hfront h] at hoverflow ⊢
    have hfits : fits 64 n := by simpa using hoverflow
    rw [clamp_of_fits hfits]
    exact ⟨⟨front, number, rfl, forall_isBlank_iff.mp hfront, h⟩, hfits⟩
  · rintro ⟨⟨front, number, rfl, hfront, h⟩, hfits⟩
    rw [convert_append (forall_isBlank_iff.mpr hfront) h]
    refine ⟨⟨fun hnil => h.ne_nil (List.append_eq_nil_iff.mp hnil).2, ?_, rfl⟩, clamp_of_fits hfits⟩
    exact congrArg not hfits

/-! ## Reading -/

theorem fits_64_iff : fits 64 n ↔ -2 ^ 63 ≤ n ∧ n ≤ 2 ^ 63 - 1 := by
  have hbound : bound 64 = 9223372036854775808 := rfl
  unfold fits
  rw [Bool.and_eq_true, decide_eq_true_iff, decide_eq_true_iff, hbound]
  omega

theorem fits_32_iff : fits 32 n ↔ -2 ^ 31 ≤ n ∧ n ≤ 2 ^ 31 - 1 := by
  have hbound : bound 32 = 2147483648 := rfl
  unfold fits
  rw [Bool.and_eq_true, decide_eq_true_iff, decide_eq_true_iff, hbound]
  omega

/-- A conversion of the whole text finds what the readers read. -/
theorem read64?_eq_convertWhole? (s : Bytes) : read64? s = convertWhole? s :=
  Option.ext fun _ => read64?_eq_some_iff.trans convertWhole?_eq_some_iff.symm

theorem read32?_eq_convertWhole? (s : Bytes) :
    read32? s = (convertWhole? s.trim).filter (fits 32) := by
  have hfits : (fun n => fits 64 n && fits 32 n) = fits 32 := by
    funext n
    refine Bool.eq_iff_iff.mpr (Bool.and_eq_true_iff.trans (and_iff_right_of_imp fun h => ?_))
    rw [fits_32_iff] at h
    rw [fits_64_iff]
    omega
  rw [← read64?_eq_convertWhole?]
  unfold read32? read64?
  rw [dropWhile_trim, Option.filter_filter, hfits]

/-- The readers accept the decimal texts in range, and give the integers that these denote: the
same as a conversion of the whole text. -/
theorem reads_decimal (s : Bytes) (n : Int) :
    (read64? s = some n ↔
      (∃ front number, s = front ++ number ∧ (∀ b ∈ front, b ∈ blanks) ∧ Denotes number n) ∧
        -2 ^ 63 ≤ n ∧ n ≤ 2 ^ 63 - 1) ∧
    (read32? s = some n ↔
      (∃ front number back, s = front ++ number ++ back ∧ (∀ b ∈ front, b ∈ blanks) ∧
        (∀ b ∈ back, b ∈ blanks) ∧ Denotes number n) ∧ -2 ^ 31 ≤ n ∧ n ≤ 2 ^ 31 - 1) ∧
    read64? s = convertWhole? s ∧ read32? s = (convertWhole? s.trim).filter (fits 32) := by
  rw [← fits_64_iff, ← fits_32_iff]
  exact ⟨read64?_eq_some_iff, read32?_eq_some_iff, read64?_eq_convertWhole? s,
    read32?_eq_convertWhole? s⟩

/-- A zero byte ends what is converted, so nothing behind it can be left out. -/
example : convertWhole? (Bytes.ofString "12" ++ [0]) = none ∧
    convert (Bytes.ofString " +9223372036854775808x") = ⟨9223372036854775807, true, 21⟩ := by
  decide

end Elvis.Integer
