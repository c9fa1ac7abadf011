import Elvis.Bytes

/-!
URLs: percent-encoding of a component, and the split of a URL into its scheme and the rest.
-/

namespace Elvis.Url

open Byte

/-- The bytes that stand for themselves in every URL component. -/
def isUnreserved (b : UInt8) : Bool :=
  isLetter b || isDigit b || b == dash || b == dot || b == underscore || b == tilde

/-- The upper-case hexadecimal digit of a number below 16. -/
def hexDigit (n : UInt8) : UInt8 := if n < 10 then 0x30 + n else 0x37 + n

def encodeByte (b : UInt8) : Bytes :=
  if isUnreserved b then [b] else [percent, hexDigit (b / 16), hexDigit (b % 16)]

/-- Every byte that is not unreserved becomes `%` and two upper-case hexadecimal digits. -/
def percentEncode (s : Bytes) : Bytes := s.flatMap encodeByte

/-- What separates a scheme from the rest of a URL. -/
def schemeMark : Bytes := "://"

def isSchemeByte (b : UInt8) : Bool :=
  isLetter b || isDigit b || b == plus || b == dash || b == dot

/-- A letter, then letters, digits, `+`, `-` and `.`. -/
def isScheme : Bytes → Bool
  | [] => false
  | b :: rest => isLetter b && rest.all isSchemeByte

/-- The text before the first `://` and the text after it. -/
def cutSchemeMark : Bytes → Option (Bytes × Bytes)
  | [] => none
  | b :: rest =>
      if schemeMark.isPrefixOf (b :: rest) then some ([], (b :: rest).drop schemeMark.length)
      else (cutSchemeMark rest).map fun (before, after) => (b :: before, after)

/-- The explicit scheme of a URL, if it has one, and the rest. -/
def splitScheme (url : Bytes) : Option Bytes × Bytes :=
  match cutSchemeMark url with
  | some (scheme, rest) => if isScheme scheme then (some scheme, rest) else (none, url)
  | none => (none, url)

def withScheme (scheme rest : Bytes) : Bytes := scheme ++ schemeMark ++ rest

end Elvis.Url
