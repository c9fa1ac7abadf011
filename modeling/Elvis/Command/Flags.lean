import Elvis.Args.Table
import Elvis.Bytes

/-!
The flags of the command line and its usage text.
-/

namespace Elvis.Command

/-- A flag with the placeholder of its value and a description for the usage text. -/
structure Flag where
  spec : Args.FlagSpec
  placeholder : Bytes
  description : Bytes
  hidden : Bool
deriving DecidableEq, Repr

namespace Flag

def text (long short placeholder description : Bytes) : Flag :=
  ⟨⟨long, short, .text []⟩, placeholder, description, false⟩

def switch (long short description : Bytes) : Flag :=
  ⟨⟨long, short, .switch false⟩, [], description, false⟩

end Flag

def program : Bytes := "mkelvis"

/-- One flag for each type of directive, in the order in which they are documented. -/
def directiveFlags : List Flag :=
  [.text "--flag" "-F" "NAME:TARGET:VALUE" "define a flag (an alias with a value)",
   .text "--yes-no" "-Y" "NAME:yes|no" "define a boolean option",
   { Flag.text "--bool" "" "NAME:yes|no" "same as --yes-no" with hidden := true },
   .text "--enum" "-E" "NAME:DEFAULT:V1,V2,..." "define an option with a fixed set of values",
   .text "--anything" "-A" "NAME:DEFAULT" "define an unchecked option",
   .text "--alias" "" "NAME:TARGET:TYPE" "define an alias to an option or a flag",
   .text "--list" "" "NAME:enum|anything:D1,D2,...[:V1,V2,...]"
     "define a repeatable (cumulative) option",
   .text "--map" "" "VARIABLE:PARAMETER[:yes|no]" "map a variable to a URL parameter",
   .text "--list-map" "" "VARIABLE:PARAMETER[:yes|no]"
     "map each item of a list to a URL parameter",
   .text "--inline" "" "VARIABLE:KEYWORD" "add KEYWORD:VALUE to the search terms",
   .text "--list-inline" "" "VARIABLE:KEYWORD"
     "add KEYWORD:ITEM to the search terms for each list item",
   .text "--collapse" "" "VARIABLE:V1,V2,RESULT[:VA,VB,RESULT2...]"
     "rewrite values of a variable; the first matching group wins",
   .text "--metavar" "" "VARIABLE:METAVAR" "set the metavar of an option (shown upper-cased)",
   .text "--describe" "" "VARIABLE:DESCRIPTION" "set the -local-help description of an option",
   .switch "--use-results-option" "" "define a -results=NUM option",
   .switch "--use-language-option" "" "define a -language=ISOCODE option"]

def settingFlags : List Flag :=
  [.text "--description" "" "DESCRIPTION"
     "description of the elvis (default: \"Search NAME\")",
   .text "--query-parameter" "-Q" "PARAMETER" "URL parameter that carries the search terms",
   .switch "--no-append-args" "" "do not append the search terms to the search URL",
   .switch "--insecure" "" "default to http instead of https",
   .switch "--no-completions" "" "do not generate completion hooks",
   ⟨⟨"--num-tabs", "", .number 1⟩, "N", "tabs after the elvis name in the '# elvis:' line", false⟩,
   .text "--output" "-o" "FILE" "output file, - for stdout (default: the elvis name)",
   .switch "--bash-completion" ""
     "write a bash completion file (default: NAME.completion) instead"]

def ambientFlags : List Flag :=
  [⟨⟨"--verbose", "-v", .count⟩, [], "more output; repeat for debug output", false⟩,
   .switch "--quiet" "-q" "only report errors",
   ⟨⟨"--color", "", .text "auto"⟩, "WHEN", "colour diagnostics: auto, always or never", false⟩]

def flags : List Flag := directiveFlags ++ settingFlags ++ ambientFlags

def table : Args.Table := flags.map (·.spec)

/-- The spellings of a flag and the placeholder of its value; without a short spelling, its room
is left blank. -/
def Flag.heading (f : Flag) : Bytes :=
  let short := if f.spec.short.isEmpty then Bytes.spaces 4 else f.spec.short ++ ", "
  let placeholder : Bytes := if f.placeholder.isEmpty then "" else " " ++ f.placeholder
  short ++ f.spec.long ++ placeholder

/-- The flags that every command line knows. -/
def builtInRows : List (Bytes × Bytes) :=
  [("-h, --help", "help for " ++ program), ("    --version", "print the version and exit")]

def usageRows : List (Bytes × Bytes) :=
  (flags.filter (!·.hidden)).map (fun f => (f.heading, f.description)) ++ builtInRows

/-- The width of the first column of the usage text. -/
def usageWidth : Nat := (usageRows.map fun row => row.1.length).foldl max 0

def usageRow (row : Bytes × Bytes) : Bytes :=
  "  " ++ row.1.padTo (usageWidth + 3) ++ row.2

def usageLines : List Bytes :=
  let opening : List Bytes :=
    ["Usage:",
     "  " ++ program ++ " NAME BASE_URL SEARCH_URL [flags]",
     "",
     "Generate a surfraw elvis named NAME.",
     "",
     "Flags:"]
  opening ++ usageRows.map usageRow

def usage : Bytes := Bytes.unlines usageLines

end Elvis.Command
