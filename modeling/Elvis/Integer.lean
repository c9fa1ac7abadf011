import Elvis.Bytes

/-!
Decimal integers: blanks, an optional sign, digits and nothing else, within a number of bits.
-/

namespace Elvis.Integer

def digitValue (b : UInt8) : Nat := b.toNat - Byte.zero.toNat

def natural (digits : Bytes) : Nat := digits.foldl (fun n b => 10 * n + digitValue b) 0

/-- At least one digit and nothing else. -/
def readNatural? (s : Bytes) : Option Nat :=
  if !s.isEmpty && s.all Byte.isDigit then some (natural s) else none

/-- An optional sign and digits. -/
def readSigned? : Bytes → Option Int
  | [] => none
  | b :: rest =>
      if b = Byte.dash then (readNatural? rest).map fun n => -(n : Int)
      else if b = Byte.plus then (readNatural? rest).map Int.ofNat
      else (readNatural? (b :: rest)).map Int.ofNat

/-- One more than the largest integer of `bits` bits in two's complement. -/
def bound (bits : Nat) : Nat := Nat.pow 2 (bits - 1)

def fits (bits : Nat) (n : Int) : Bool := -(bound bits : Int) ≤ n && n < (bound bits : Int)

/-- The integer of `bits` bits that differs from `n` by a multiple of their number. -/
def wrap (bits : Nat) (n : Int) : Int := n.bmod (2 * bound bits)

/-- A 64-bit integer, blanks allowed in front. -/
def read64? (s : Bytes) : Option Int :=
  (readSigned? (s.dropWhile Byte.isBlank)).filter (fits 64)

/-- A 32-bit integer, blanks allowed at both ends. -/
def read32? (s : Bytes) : Option Int := (readSigned? s.trim).filter (fits 32)

end Elvis.Integer
