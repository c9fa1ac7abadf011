import Elvis.Directive.Basic
import Elvis.Name
import Elvis.Url

/-!
The option set of one elvis: its variables, its flags, and everything that refers to them.
-/

namespace Elvis

/-- What is said about an elvis as a whole. -/
structure Settings where
  name : Bytes
  baseUrl : Bytes
  searchUrl : Bytes
  description : Option Bytes
  queryParameter : Option Bytes
  appendSearchArgs : Bool
  enableCompletions : Bool
  insecure : Bool
  numTabs : Int
  generator : Bytes
deriving DecidableEq, Repr

/-- The URLs of an elvis under one scheme. -/
structure Urls where
  scheme : Bytes
  base : Bytes
  search : Bytes
  /-- The base URL without its scheme. -/
  display : Bytes
deriving DecidableEq, Repr

/-- A declared variable with what other directives say about it, names in declaration order. -/
structure Variable where
  declaration : Declaration
  givenMetavar : Option Bytes
  givenDescription : Option Bytes
  aliases : List Bytes
  flags : List Bytes
deriving DecidableEq, Repr

/-- A flag with the type of its target and its aliases in declaration order. -/
structure Flag where
  name : Bytes
  target : Bytes
  targetType : VariableType
  value : Bytes
  aliases : List Bytes
deriving DecidableEq, Repr

/-- The positions of named elements. The first entry of a name counts. -/
structure NameIndex where
  entries : List (Bytes × Nat)
deriving DecidableEq, Repr

/-- The parts stand in the order of their directives. Variables, flags and aliases are indexed by
their names. -/
structure OptionSet where
  settings : Settings
  urls : Urls
  vars : List Variable
  flags : List Flag
  aliases : List Alias
  collapses : List Collapse
  mappings : List Mapping
  inlinings : List Inlining
  variableIndex : NameIndex
  flagIndex : NameIndex
  aliasIndex : NameIndex
deriving DecidableEq, Repr

namespace NameIndex

def empty : NameIndex := ⟨[]⟩

def position? (index : NameIndex) (name : Bytes) : Option Nat :=
  (index.entries.find? (·.1 = name)).map (·.2)

def contains (index : NameIndex) (name : Bytes) : Bool := (index.position? name).isSome

def insert (index : NameIndex) (name : Bytes) (position : Nat) : NameIndex :=
  ⟨index.entries ++ [(name, position)]⟩

end NameIndex

namespace Variable

def name (v : Variable) : Bytes := v.declaration.name

def type (v : Variable) : VariableType := v.declaration.type

/-- The option's own name and then its aliases. -/
def names (v : Variable) : List Bytes := v.name :: v.aliases

/-- The given metavar, else that of a special option, else the name in upper case. -/
def metavar (v : Variable) : Bytes :=
  match v.givenMetavar, v.declaration with
  | some text, _ => text
  | none, .special kind => kind.metavar
  | none, declaration => declaration.name.toUpper

def defaultDescription : Declaration → Bytes
  | .bool name _ => "A bool option for '" ++ name ++ "'"
  | .enum name _ _ => "An enum option for '" ++ name ++ "'"
  | .anything name _ => "An unchecked option for '" ++ name ++ "'"
  | .list name elements _ =>
      "A repeatable (cumulative) '" ++ elements.type.name ++ "' list option for '" ++ name ++ "'"
  | .special kind => kind.description

def description (v : Variable) : Bytes :=
  v.givenDescription.getD (defaultDescription v.declaration)

end Variable

namespace Declaration

/-- The text of the default: the word of a bool, the items of a list joined by commas, and for a
special option an expansion of its global variable. -/
def defaultText : Declaration → Bytes
  | bool _ default => YesNo.text default
  | enum _ default _ => default
  | anything _ default => default
  | list _ _ defaults => Bytes.joinCommas defaults
  | special kind => kind.default

end Declaration

namespace Flag

/-- The flag's own name and then its aliases. -/
def names (f : Flag) : List Bytes := f.name :: f.aliases

/-- The value as a list of items. -/
def items (f : Flag) : List Bytes := f.value.commaItems

end Flag

namespace OptionSet

def findVariable? (set : OptionSet) (name : Bytes) : Option Variable := do
  let position ← set.variableIndex.position? name
  set.vars[position]?

def findFlag? (set : OptionSet) (name : Bytes) : Option Flag := do
  let position ← set.flagIndex.position? name
  set.flags[position]?

def variablesOfType (set : OptionSet) (type : VariableType) : List Variable :=
  set.vars.filter (·.type = type)

def flagsOfType (set : OptionSet) (type : VariableType) : List Flag :=
  set.flags.filter (·.targetType = type)

/-- The variables by type, those of one type in declaration order. -/
def bucketedVariables (set : OptionSet) : List Variable :=
  VariableType.buckets.flatMap set.variablesOfType

/-- The flags by the type of their targets, in the same order as the variables. -/
def bucketedFlags (set : OptionSet) : List Flag := VariableType.buckets.flatMap set.flagsOfType

def hasOptions (set : OptionSet) : Bool := !set.vars.isEmpty

def hasLists (set : OptionSet) : Bool := set.vars.any (·.type = .list)

/-- The shell variable that holds the value of an option. -/
def variableName (set : OptionSet) (option : Bytes) : Bytes :=
  "SURFRAW_" ++ set.settings.name ++ "_" ++ option

/-- The description of the elvis, and where it searches. -/
def description (set : OptionSet) : Bytes :=
  set.settings.description.getD ("Search " ++ set.settings.name) ++ " (" ++ set.urls.display ++ ")"

/-- What the help table says about a flag. -/
def flagDescription (set : OptionSet) (f : Flag) : Bytes :=
  match f.targetType with
  | .list =>
      let elements :=
        match (set.findVariable? f.target).map Variable.declaration with
        | some (.list _ elements _) => elements
        | _ => .anything
      "An alias for the '" ++ elements.type.name ++ "' list option '" ++ f.target ++
        "' with the values '" ++ Bytes.joinCommas f.items ++ "'"
  | _ => "An alias for -" ++ f.target ++ "=" ++ f.value

end OptionSet

end Elvis
