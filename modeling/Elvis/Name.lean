import Elvis.Bytes

/-!
Which texts may name an option, an enum value or an elvis.
-/

namespace Elvis.Name

open Byte

/-- One lower-case word: `[a-z]+`. -/
def isWord (name : Bytes) : Bool := !name.isEmpty && name.all isLower

/-- The global options of every elvis, which none may define again. -/
def reserved : List Bytes :=
  ["browser", "elvi", "g", "graphical", "h", "help", "lh", "p", "print", "o", "new", "ns",
   "newscreen", "t", "text", "q", "quote", "version", "bookmark-search-elvis", "custom-search",
   "escape-url-args", "local-help"]

def isReserved (name : Bytes) : Bool := reserved.contains name

def isEnumValueByte (b : UInt8) : Bool :=
  isLower b || isDigit b || b == underscore || b == plus || b == dash

/-- `[a-z0-9][a-z0-9_+-]*`. -/
def isEnumValue : Bytes → Bool
  | [] => false
  | b :: rest => (isLower b || isDigit b) && rest.all isEnumValueByte

/-- A file name: not empty, not `.` or `..`, and without a slash. -/
def isElvisName (name : Bytes) : Bool :=
  !name.isEmpty && name != "." && name != ".." && !name.contains slash

/-- A shell identifier byte stays, any other becomes an underscore. -/
def toIdentifier (name : Bytes) : Bytes :=
  name.map fun b => if isLetter b || isDigit b then b else underscore

end Elvis.Name

namespace Elvis.YesNo

/-- The two words of a boolean option. -/
def text (b : Bool) : Bytes := if b then "yes" else "no"

def read? (s : Bytes) : Option Bool :=
  if s = "yes" then some true else if s = "no" then some false else none

end Elvis.YesNo
