import Elvis.Script.ListContext

/-!
The end of the script of an elvis: it collects the URL parameters and the inlined search terms, and
opens the base URL or the search URL.
-/

namespace Elvis.Script

/-- A piece of a double-quoted word. -/
inductive Piece
  | text (s : Bytes)
  | value (name : Bytes)
  | urlEscaped (name : Bytes)
  | withoutAmpersand (name : Bytes)
  | orElse (name fallback : Bytes)
deriving DecidableEq, Repr

inductive Statement
  | clear (target : Bytes)
  | assign (target : Bytes) (word : List Piece)
  | forEachItem (listVariable target : Bytes) (word : List Piece)
deriving DecidableEq, Repr

namespace Piece

def render : Piece → Bytes
  | text s => s
  | value name => "$\x7b" ++ name ++ "\x7d"
  | urlEscaped name => "$(w3_url_escape \"$" ++ name ++ "\")"
  | withoutAmpersand name => "$\x7b" ++ name ++ "#&\x7d"
  | orElse name fallback => "$\x7b" ++ name ++ ":-" ++ fallback ++ "\x7d"

end Piece

namespace Statement

def assignment (target : Bytes) (word : List Piece) : Bytes :=
  target ++ "=\"" ++ word.flatMap Piece.render ++ "\""

def lines : Statement → List Bytes
  | clear target => [target ++ "="]
  | assign target word => [assignment target word]
  | forEachItem listVariable target word =>
      Script.forEachItem listVariable [assignment target word]

end Statement

/-- The value of a variable, URL-encoded if the mapping says so. -/
def mappedValue (m : Mapping) (name : Bytes) : Piece :=
  if m.urlEncode then .urlEscaped name else .value name

/-- Adds the parameter of a mapping. An empty list still sends its parameter, with an empty
value. -/
def mappingStatements (set : OptionSet) (separator : Bytes) (m : Mapping) : List Statement :=
  let variableName := set.variableName m.target
  let key := Url.percentEncode m.parameter ++ "="
  if m.perItem then
    [.clear "_sr_list_param",
     .forEachItem variableName "_sr_list_param"
       [.value "_sr_list_param", .text ("&" ++ key), mappedValue m "_sr_elem"],
     .assign "_sr_list_param" [.withoutAmpersand "_sr_list_param"],
     .assign "_sr_params" [.value "_sr_params", .text separator, .orElse "_sr_list_param" key]]
  else
    [.assign "_sr_params"
      [.value "_sr_params", .text (separator ++ key), mappedValue m variableName]]

/-- The parameters in the order of the mappings, an ampersand between them. -/
def parameterStatements (set : OptionSet) : List Mapping → List Statement
  | [] => []
  | first :: rest =>
      .clear "_sr_params" :: mappingStatements set [] first ++
        rest.flatMap (mappingStatements set "&")

def urlParameters (set : OptionSet) : List Bytes :=
  match parameterStatements set set.mappings with
  | [] => []
  | statements => statements.flatMap Statement.lines ++ [[]]

/-- `_sr_inline` adds the term of a keyword and a value, unless the value is empty; a value with a
blank in it is put in double quotes. -/
def inlineHelper : List Bytes :=
  ["_sr_inlines=",
   "_sr_inline () \x7b",
   indent "case \"$2\" in",
   indent (indent "'') ;;"),
   indent (indent "*[[:space:]]*) _sr_inlines=\"$\x7b_sr_inlines\x7d $1:\\\"$2\\\"\" ;;"),
   indent (indent "*) _sr_inlines=\"$\x7b_sr_inlines\x7d $1:$2\" ;;"),
   indent "esac",
   "\x7d"]

def inlineLines (set : OptionSet) (i : Inlining) : List Bytes :=
  let call (value : Bytes) : Bytes :=
    "_sr_inline " ++ Shell.singleQuoted i.keyword ++ " \"$" ++ value ++ "\""
  if i.perItem then forEachItem (set.variableName i.target) [call "_sr_elem"]
  else [call (set.variableName i.target)]

def inlinedTerms (set : OptionSet) : List Bytes :=
  if set.inlinings.isEmpty then []
  else inlineHelper ++ set.inlinings.flatMap (inlineLines set) ++ [[]]

/-- What follows the search URL: the search terms under the query parameter, then the URL
parameters. -/
def searchQuery (set : OptionSet) : Bytes :=
  let parameters : Bytes := if set.mappings.isEmpty then "" else "$\x7b_sr_params\x7d"
  if set.settings.appendSearchArgs then
    match set.settings.queryParameter with
    | some parameter =>
        Url.percentEncode parameter ++ "=$\x7bescaped_args\x7d" ++
          (if set.mappings.isEmpty then "" else "&" ++ parameters : Bytes)
    | none => "$\x7bescaped_args\x7d"
  else parameters

def dispatch (set : OptionSet) : List Bytes :=
  let terms : Bytes := if set.inlinings.isEmpty then "" else "$_sr_inlines"
  let opening : List Bytes :=
    ["if [ -z \"$w3_args\" ]; then", indent "w3_browse_url \"$base_url\"", "else"]
  let escapeTerms : List Bytes :=
    if set.settings.appendSearchArgs then
      [indent ("escaped_args=$(w3_url_of_arg \"$w3_args" ++ terms ++ "\")")]
    else []
  let closing : List Bytes :=
    [indent ("w3_browse_url \"$\x7bsearch_url\x7d" ++ searchQuery set ++ "\""), "fi"]
  opening ++ escapeTerms ++ closing

end Elvis.Script
