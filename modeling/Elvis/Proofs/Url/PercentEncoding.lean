import Elvis.Proofs.Script.UrlParameters
import Mathlib.Logic.ExistsUnique

/-!
# Percent-encoding

A URL component is read by taking each escape for the byte that it stands for. What
`Url.percentEncode` writes is read back, whatever bytes it is given, and it writes just the
components in which no escape stands for an unreserved byte, each for one text
(`percentEncode_lossless`). None of its bytes means anything inside double quotes or braces, or
separates the parts of a URL.
-/

namespace Elvis.Url

open Byte

/-! ## Components -/

/-- The bytes that need no escape. -/
def Unreserved (b : UInt8) : Prop :=
  isLetter b ∨ isDigit b ∨ b = dash ∨ b = dot ∨ b = underscore ∨ b = tilde

/-- The digits of an escape as they are written. -/
def hexDigits : Bytes := "0123456789ABCDEF"

/-- The number that a hexadecimal digit stands for; it may be of either case. -/
def hexValue? (b : UInt8) : Option Nat := hexDigits.idxOf? (toUpper b)

/-- The byte that an escape with these digits stands for. -/
def byteOf (high low : Nat) : UInt8 := UInt8.ofNat (16 * high + low)

/-- The text that a component stands for. A percent sign is followed by two hexadecimal digits; all
other bytes stand for themselves. -/
def percentDecode? : Bytes → Option Bytes
  | [] => some []
  | b :: rest =>
      if b = percent then
        match rest with
        | first :: second :: rest => do
            let high ← hexValue? first
            let low ← hexValue? second
            let text ← percentDecode? rest
            return byteOf high low :: text
        | _ => none
      else (percentDecode? rest).map (b :: ·)

/-- Unreserved bytes, and escapes with upper-case digits for bytes of which `escaped` holds. -/
inductive IsComponent (escaped : UInt8 → Prop) : Bytes → Prop
  | nil : IsComponent escaped []
  | unreserved {b : UInt8} {rest : Bytes} :
      Unreserved b → IsComponent escaped rest → IsComponent escaped (b :: rest)
  | escape {first second : UInt8} {high low : Nat} {rest : Bytes} :
      hexDigits[high]? = some first → hexDigits[low]? = some second →
      escaped (byteOf high low) → IsComponent escaped rest →
      IsComponent escaped (percent :: first :: second :: rest)

variable {b first second : UInt8} {high low : Nat} {s t rest : Bytes}

theorem isUnreserved_iff : isUnreserved b ↔ Unreserved b := by
  unfold isUnreserved Unreserved
  simp only [Bool.or_eq_true, beq_iff_eq, or_assoc]

theorem ne_percent_of_unreserved (h : Unreserved b) : b ≠ percent := by
  rintro rfl
  exact absurd (isUnreserved_iff.mpr h) (by decide)

/-! ## Digits -/

theorem lt_of_hexDigits (h : hexDigits[high]? = some first) : high < 16 :=
  (List.getElem?_eq_some_iff.mp h).1

theorem hexValue?_of_hexDigits (h : hexDigits[high]? = some first) :
    hexValue? first = some high := by
  have hvalues : ∀ n < 16, (hexDigits[n]?).bind hexValue? = some n := by decide
  have hvalue := hvalues high (lt_of_hexDigits h)
  rwa [h] at hvalue

theorem hexDigits_toNat {n : UInt8} (h : n.toNat < 16) :
    hexDigits[n.toNat]? = some (hexDigit n) := by
  have hdigits : ∀ k < 16, hexDigits[k]? = some (hexDigit (UInt8.ofNat k)) := by decide
  simpa using hdigits n.toNat h

theorem byteOf_toNat (b : UInt8) : byteOf (b / 16).toNat (b % 16).toNat = b := by
  have hparts : 16 * (b / 16).toNat + (b % 16).toNat = b.toNat := by
    rw [UInt8.toNat_div, UInt8.toNat_mod]
    exact Nat.div_add_mod b.toNat 16
  unfold byteOf
  rw [hparts, UInt8.ofNat_toNat]

/-- A byte has one escape. -/
theorem byteOf_injective {high' low' : Nat} (hhigh : high < 16) (hlow : low < 16)
    (hhigh' : high' < 16) (hlow' : low' < 16) (h : byteOf high low = byteOf high' low') :
    high = high' ∧ low = low' := by
  have hnat := congrArg UInt8.toNat h
  simp only [byteOf, UInt8.toNat_ofNat'] at hnat
  omega

/-! ## Writing -/

theorem percentEncode_cons (b : UInt8) (s : Bytes) :
    percentEncode (b :: s) = encodeByte b ++ percentEncode s :=
  List.flatMap_cons

theorem percentEncode_append (s t : Bytes) :
    percentEncode (s ++ t) = percentEncode s ++ percentEncode t :=
  List.flatMap_append

theorem encodeByte_of_unreserved (h : Unreserved b) : encodeByte b = [b] :=
  if_pos (isUnreserved_iff.mpr h)

theorem exists_escape (h : ¬ Unreserved b) : ∃ high low first second,
    hexDigits[high]? = some first ∧ hexDigits[low]? = some second ∧ byteOf high low = b ∧
      encodeByte b = [percent, first, second] := by
  have hhigh : (b / 16).toNat < 16 := by
    have hbyte := b.toNat_lt
    rw [UInt8.toNat_div]
    show b.toNat / 16 < 16
    omega
  have hlow : (b % 16).toNat < 16 := by
    rw [UInt8.toNat_mod]
    exact Nat.mod_lt _ (by decide)
  exact ⟨_, _, _, _, hexDigits_toNat hhigh, hexDigits_toNat hlow, byteOf_toNat b,
    if_neg fun hunreserved => h (isUnreserved_iff.mp hunreserved)⟩

/-- A byte is escaped with the digits of any escape that stands for it. -/
theorem encodeByte_byteOf (hfirst : hexDigits[high]? = some first)
    (hsecond : hexDigits[low]? = some second) (h : ¬ Unreserved (byteOf high low)) :
    encodeByte (byteOf high low) = [percent, first, second] := by
  obtain ⟨high', low', first', second', hfirst', hsecond', hbyte, hencode⟩ := exists_escape h
  obtain ⟨rfl, rfl⟩ := byteOf_injective (lt_of_hexDigits hfirst') (lt_of_hexDigits hsecond')
    (lt_of_hexDigits hfirst) (lt_of_hexDigits hsecond) hbyte
  obtain rfl : first' = first := Option.some.inj (hfirst'.symm.trans hfirst)
  obtain rfl : second' = second := Option.some.inj (hsecond'.symm.trans hsecond)
  exact hencode

/-! ## Reading what was written -/

theorem percentDecode?_cons (h : b ≠ percent) (rest : Bytes) :
    percentDecode? (b :: rest) = (percentDecode? rest).map (b :: ·) := by
  rw [percentDecode?.eq_def]
  exact if_neg h

theorem percentDecode?_escape (hfirst : hexDigits[high]? = some first)
    (hsecond : hexDigits[low]? = some second) (rest : Bytes) :
    percentDecode? (percent :: first :: second :: rest) =
      (percentDecode? rest).map (byteOf high low :: ·) := by
  rw [percentDecode?, if_pos rfl, hexValue?_of_hexDigits hfirst, hexValue?_of_hexDigits hsecond]
  cases percentDecode? rest <;> rfl

theorem percentDecode?_percentEncode (s : Bytes) : percentDecode? (percentEncode s) = some s := by
  induction s with
  | nil => rfl
  | cons b s ih =>
    rw [percentEncode_cons]
    by_cases hb : Unreserved b
    · rw [encodeByte_of_unreserved hb, List.singleton_append,
        percentDecode?_cons (ne_percent_of_unreserved hb), ih]
      rfl
    · obtain ⟨high, low, first, second, hfirst, hsecond, rfl, hencode⟩ := exists_escape hb
      rw [hencode, List.cons_append, List.cons_append, List.singleton_append,
        percentDecode?_escape hfirst hsecond, ih]
      rfl

theorem percentEncode_injective : Function.Injective percentEncode := by
  intro s t h
  have hread := congrArg percentDecode? h
  rw [percentDecode?_percentEncode, percentDecode?_percentEncode] at hread
  exact Option.some.inj hread

/-! ## What is written -/

theorem isComponent_percentEncode (s : Bytes) : IsComponent (¬ Unreserved ·) (percentEncode s) := by
  induction s with
  | nil => exact .nil
  | cons b s ih =>
    rw [percentEncode_cons]
    by_cases hb : Unreserved b
    · rw [encodeByte_of_unreserved hb]
      exact .unreserved hb ih
    · obtain ⟨high, low, first, second, hfirst, hsecond, rfl, hencode⟩ := exists_escape hb
      rw [hencode]
      exact .escape hfirst hsecond hb ih

theorem exists_percentEncode_eq (h : IsComponent (¬ Unreserved ·) t) :
    ∃ s, percentEncode s = t := by
  induction h with
  | nil => exact ⟨[], rfl⟩
  | @unreserved b rest hb _ ih =>
    obtain ⟨s, rfl⟩ := ih
    refine ⟨b :: s, ?_⟩
    rw [percentEncode_cons, encodeByte_of_unreserved hb]
    rfl
  | @escape first second high low rest hfirst hsecond hescaped _ ih =>
    obtain ⟨s, rfl⟩ := ih
    refine ⟨byteOf high low :: s, ?_⟩
    rw [percentEncode_cons, encodeByte_byteOf hfirst hsecond hescaped]
    rfl

/-- The bytes that separate the parts of a URL. -/
def separators : Bytes := "&=?#"

theorem not_mem_separators (h : b ∈ percentEncode s) : b ∉ separators := by
  intro hseparator
  rcases isUnreserved_or_percent b h with hunreserved | rfl
  · have hseparators : separators.filter isUnreserved = [] := rfl
    exact List.filter_eq_nil_iff.mp hseparators b hseparator hunreserved
  · exact absurd hseparator (by decide)

/-! ## Encodings -/

/-- A way to write texts as URL components from which they can be told, and which can stand in a
URL inside double quotes. -/
structure Lossless (encode : Bytes → Bytes) : Prop where
  decode : ∀ s, percentDecode? (encode s) = some s
  component : ∀ s, IsComponent (¬ Unreserved ·) (encode s)
  plain : ∀ s, ∀ b ∈ encode s, Shell.isPlainInBraces b ∧ b ∉ separators
  /-- Each component without needless escapes is that of one text. -/
  unique : ∀ component, IsComponent (¬ Unreserved ·) component → ∃! s, encode s = component
  append : ∀ s t, encode (s ++ t) = encode s ++ encode t

theorem percentEncode_lossless : Lossless percentEncode where
  decode := percentDecode?_percentEncode
  component := isComponent_percentEncode
  plain _ b hb := ⟨Script.isPlainInBraces_of_mem_percentEncode b hb, not_mem_separators hb⟩
  unique component h := by
    obtain ⟨s, hs⟩ := exists_percentEncode_eq h
    exact ⟨s, hs, fun t ht => percentEncode_injective (ht.trans hs.symm)⟩
  append := percentEncode_append

example : percentEncode "50% of \x7b~é\x7d" = "50%25%20of%20%7B~%C3%A9%7D" := by decide

/-- Lower-case digits are read as well. -/
example : percentDecode? "a%2f%C3%a9" = some (Bytes.ofString "a/é") := by decide

end Elvis.Url
