/-!
Texts are byte strings: names, URLs and directive texts may hold any bytes, and lengths, order,
patterns and percent-encoding all count bytes.
-/

namespace Elvis

abbrev Bytes := List UInt8

namespace Byte

abbrev tab : UInt8 := 0x09
abbrev newline : UInt8 := 0x0a
abbrev verticalTab : UInt8 := 0x0b
abbrev formFeed : UInt8 := 0x0c
abbrev carriageReturn : UInt8 := 0x0d
abbrev space : UInt8 := 0x20
abbrev doubleQuote : UInt8 := 0x22
abbrev dollar : UInt8 := 0x24
abbrev percent : UInt8 := 0x25
abbrev singleQuote : UInt8 := 0x27
abbrev closingParen : UInt8 := 0x29
abbrev star : UInt8 := 0x2a
abbrev plus : UInt8 := 0x2b
abbrev comma : UInt8 := 0x2c
abbrev dash : UInt8 := 0x2d
abbrev dot : UInt8 := 0x2e
abbrev slash : UInt8 := 0x2f
abbrev zero : UInt8 := 0x30
abbrev colon : UInt8 := 0x3a
abbrev equals : UInt8 := 0x3d
abbrev backslash : UInt8 := 0x5c
abbrev underscore : UInt8 := 0x5f
abbrev backquote : UInt8 := 0x60
abbrev bar : UInt8 := 0x7c
abbrev closingBrace : UInt8 := 0x7d
abbrev tilde : UInt8 := 0x7e

def isLower (b : UInt8) : Bool := 0x61 ≤ b && b ≤ 0x7a

def isUpper (b : UInt8) : Bool := 0x41 ≤ b && b ≤ 0x5a

def isDigit (b : UInt8) : Bool := 0x30 ≤ b && b ≤ 0x39

def isLetter (b : UInt8) : Bool := isLower b || isUpper b

/-- The blanks of the shell: space, tab, newline, vertical tab, form feed, carriage return. -/
def isBlank (b : UInt8) : Bool := b == space || (tab ≤ b && b ≤ carriageReturn)

/-- Only the letters `a` to `z` have an upper-case form. -/
def toUpper (b : UInt8) : UInt8 := if isLower b then b - 0x20 else b

end Byte

namespace Bytes

/-- The UTF-8 bytes of a text. -/
def ofString (text : String) : Bytes := text.toUTF8.data.toList

instance : Coe String Bytes := ⟨ofString⟩

/-- The decimal digits of a number, without leading zeros. -/
def decimal (n : Nat) : Bytes := (Nat.toDigits 10 n).map fun digit => digit.toNat.toUInt8

def ofInt : Int → Bytes
  | .ofNat n => decimal n
  | .negSucc n => Byte.dash :: decimal (n + 1)

def toUpper (s : Bytes) : Bytes := s.map Byte.toUpper

/-- The items between the separators; empty items are kept, so there is always one. -/
def split (separator : UInt8) : Bytes → List Bytes
  | [] => [[]]
  | b :: rest =>
      if b = separator then [] :: split separator rest
      else
        match split separator rest with
        | [] => [[b]]
        | item :: items => (b :: item) :: items

def join (separator : Bytes) (items : List Bytes) : Bytes := separator.intercalate items

/-- Comma-separated items; the empty text has none. -/
def commaItems (s : Bytes) : List Bytes := if s.isEmpty then [] else split Byte.comma s

def joinCommas (items : List Bytes) : Bytes := join [Byte.comma] items

/-- The text up to the first `b`, and what follows it if there is one. -/
def cut (b : UInt8) (s : Bytes) : Bytes × Option Bytes :=
  match s.dropWhile (· != b) with
  | [] => (s, none)
  | _ :: rest => (s.takeWhile (· != b), some rest)

/-- Without blanks at either end. -/
def trim (s : Bytes) : Bytes :=
  ((s.dropWhile Byte.isBlank).reverse.dropWhile Byte.isBlank).reverse

/-- Unsigned byte order, a proper beginning first. -/
def le (a b : Bytes) : Bool := (compare a b).isLE

def sort (items : List Bytes) : List Bytes := items.mergeSort le

def spaces (n : Nat) : Bytes := List.replicate n Byte.space

/-- Filled up with spaces on the right. -/
def padTo (width : Nat) (s : Bytes) : Bytes := s ++ spaces (width - s.length)

/-- Each line ended by a newline. -/
def unlines (lines : List Bytes) : Bytes := lines.flatMap (· ++ [Byte.newline])

end Bytes

end Elvis
