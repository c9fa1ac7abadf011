import Elvis.Bytes

/-!
Quoting for a POSIX shell: single-quoted words, text inside double quotes, text inside an unquoted
here-document, and the labels of a `case` arm.
-/

namespace Elvis.Shell

open Byte

/-- A quote leaves the quoted span, stands behind a backslash, and the span is entered again. -/
def quoteByte (b : UInt8) : Bytes :=
  if b = singleQuote then [singleQuote, backslash, singleQuote, singleQuote] else [b]

/-- One shell word that reads as `s`, with nothing in it expanded. -/
def singleQuoted (s : Bytes) : Bytes := singleQuote :: (s.flatMap quoteByte ++ [singleQuote])

/-- After the backslashes at its beginning, the text ends or goes on with a double quote. -/
def quoteFollows : Bytes → Bool
  | [] => true
  | b :: rest => if b = backslash then quoteFollows rest else b == doubleQuote

/-- Text for the inside of double quotes, where `$` and a backquote keep their meaning.
A backslash is doubled when the run it stands in ends at a double quote or at the end. -/
def doubleQuotable : Bytes → Bytes
  | [] => []
  | b :: rest =>
      if b = backslash then
        if quoteFollows rest then backslash :: backslash :: doubleQuotable rest
        else backslash :: doubleQuotable rest
      else if b = doubleQuote then backslash :: doubleQuote :: doubleQuotable rest
      else b :: doubleQuotable rest

/-- The bytes that mean something inside an unquoted here-document. -/
def isHereDocSpecial (b : UInt8) : Bool := b == backslash || b == dollar || b == backquote

/-- Text that reads literally inside an unquoted here-document. -/
def hereDocText (s : Bytes) : Bytes :=
  s.flatMap fun b => if isHereDocSpecial b then [backslash, b] else [b]

/-- A `case` label that matches each of the items and nothing else. -/
def caseLabel (items : List Bytes) : Bytes := Bytes.join "|" (items.map singleQuoted)

end Elvis.Shell
