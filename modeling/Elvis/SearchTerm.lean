import Elvis.Bytes

/-!
Search terms of the form `KEYWORD:VALUE`.
-/

namespace Elvis.SearchTerm

def containsBlank (s : Bytes) : Bool := s.any Byte.isBlank

/-- `KEYWORD:VALUE`, the value in double quotes when it contains a blank; none without a value. -/
def inlineToken? (keyword value : Bytes) : Option Bytes :=
  if value.isEmpty then none
  else if containsBlank value then some (keyword ++ ":\"" ++ value ++ "\"")
  else some (keyword ++ ":" ++ value)

end Elvis.SearchTerm
