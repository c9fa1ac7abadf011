import Elvis.Help
import Elvis.Version

/-!
The beginning of the script of an elvis: who it is, what its usage text says, and the defaults of
its variables.
-/

namespace Elvis.Script

def indent (line : Bytes) : Bytes := "    " ++ line

/-- Line ends become spaces. -/
def oneLine (s : Bytes) : Bytes :=
  s.map fun b => if b = Byte.newline || b = Byte.carriageReturn then Byte.space else b

/-- The URLs stay open to parameter expansion and command substitution. -/
def header (set : OptionSet) : List Bytes :=
  let tabs := List.replicate set.settings.numTabs.toNat Byte.tab
  ["# elvis: " ++ set.settings.name ++ tabs ++ "-- " ++ oneLine set.description,
   generatedBy set.settings.generator,
   ". surfraw || exit 1",
   "",
   "base_url=\"" ++ set.urls.base ++ "\"",
   "search_url=\"" ++ set.urls.search ++ "\"",
   ""]

/-- What stands in the here-document of the usage hook after the description. -/
def usageOptions (set : OptionSet) : List Bytes :=
  if set.hasOptions then "Local options:" :: Help.lines set else []

def usageHook (set : OptionSet) : List Bytes :=
  let opening : List Bytes :=
    ["w3_usage_hook () \x7b",
     indent "cat <<EOF",
     "Usage: $w3_argv0 [options] [search words]...",
     "Description:",
     "  " ++ Shell.hereDocText set.description]
  let closing : List Bytes := ["EOF", indent "w3_global_usage", "\x7d", ""]
  opening ++ usageOptions set ++ closing

/-- The default of a special option is an expansion, any other is literal. -/
def defaultWord (d : Declaration) : Bytes :=
  match d with
  | .special kind => "\"" ++ kind.default ++ "\""
  | _ => Shell.singleQuoted d.defaultText

def defaultCommand : VariableType → Bytes
  | .bool => "defyn"
  | _ => "def"

def defaultLine (set : OptionSet) (v : Variable) : Bytes :=
  indent (defaultCommand v.type ++ " " ++ set.variableName v.name ++ " " ++
    defaultWord v.declaration)

/-- The default an example variable of the type would have. -/
def exampleDefault : VariableType → Bytes
  | .bool => "yes"
  | .enum => "'value'"
  | .list => "'first,second'"
  | .anything => "'anything'"
  | .special => "\"$SURFRAW_results\""

/-- Stands for the defaults of a type of which there are no variables. -/
def exampleLine (set : OptionSet) (type : VariableType) : Bytes :=
  let name : Bytes := if type = .special then "results" else "NAME"
  indent ("# " ++ defaultCommand type ++ " " ++ set.variableName name ++ " " ++
    exampleDefault type)

def defaultLines (set : OptionSet) (type : VariableType) : List Bytes :=
  match set.variablesOfType type with
  | [] => [exampleLine set type]
  | vars => vars.map (defaultLine set)

def configHook (set : OptionSet) : List Bytes :=
  let opening : List Bytes := ["w3_config_hook () \x7b"]
  let noDefaults : List Bytes := if set.hasOptions then [] else [indent ":"]
  let closing : List Bytes := ["\x7d", ""]
  opening ++ VariableType.buckets.flatMap (defaultLines set) ++ noDefaults ++ closing

end Elvis.Script
