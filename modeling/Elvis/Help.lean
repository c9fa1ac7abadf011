import Elvis.OptionSet.Basic
import Elvis.Shell.Quote
import Elvis.Spelling

/-!
The table of local options that an elvis shows: for each option and each flag the spellings, the
valid values, a description, and for an option where its value comes from.
-/

namespace Elvis.Help

/-- Where the value of an option comes from: its own variable and the global one, if any. -/
structure Source where
  ownVariable : Bytes
  globalVariable : Option Bytes
deriving DecidableEq, Repr

/-- One option or flag. Each header holds its spellings in one form, by name. -/
structure Entry where
  headers : List (List Bytes)
  values : List Bytes
  description : Bytes
  source : Option Source
deriving DecidableEq, Repr

def headerText (cells : List Bytes) : Bytes := "  " ++ Bytes.join ", " cells

/-- The spellings of one form, in the byte order of the names. -/
def cells (form : Form) (metavar : Bytes) (names : List Bytes) : List Bytes :=
  (Bytes.sort names).map (form.cell metavar)

/-- How many bytes of a text end with its last equals sign. -/
def afterLastEquals (s : Bytes) : Nat :=
  s.length - (s.reverse.takeWhile (· != Byte.equals)).length

namespace Entry

/-- The headers, then one value a line under the value of the last header. -/
def lines (entry : Entry) : List Bytes :=
  let headers := entry.headers.map headerText
  headers ++ entry.values.map (Bytes.spaces (afterLastEquals (headers.getLastD [])) ++ ·)

def width (entry : Entry) : Nat := (entry.lines.map List.length).foldl max 0

/-- The description stands beside the first line, a bar beside the others. -/
def tableRows (width : Nat) (description : Bytes) : List Bytes → List Bytes
  | [] => []
  | first :: rest =>
      (first.padTo width ++ "    " ++ Shell.hereDocText description) ::
        rest.map fun line => line.padTo width ++ "  | "

def sourceRows (width : Nat) (source : Source) : List Bytes :=
  let indent := Bytes.spaces (width + 4)
  [indent ++ "Default: $" ++ source.ownVariable,
   indent ++ "Environment: " ++ source.ownVariable ++
     match source.globalVariable with
     | some globalVariable => ", " ++ globalVariable
     | none => []]

def rows (width : Nat) (entry : Entry) : List Bytes :=
  tableRows width entry.description entry.lines ++
    match entry.source with
    | some source => sourceRows width source
    | none => []

end Entry

def variableEntry (set : OptionSet) (v : Variable) : Entry :=
  { headers := v.type.helpForms.map fun form => cells form v.metavar v.names
    values := v.declaration.values?.getD []
    description := v.description
    source := some
      { ownVariable := set.variableName v.name
        globalVariable :=
          match v.declaration with
          | .special kind => some kind.globalVariable
          | _ => none } }

def flagEntry (set : OptionSet) (f : Flag) : Entry :=
  { headers := f.targetType.helpFlagForms.map fun form => cells form [] f.names
    values := []
    description := set.flagDescription f
    source := none }

/-- The options and then the flags, each by type. -/
def entries (set : OptionSet) : List Entry :=
  VariableType.helpOrder.flatMap (fun type => (set.variablesOfType type).map (variableEntry set)) ++
    VariableType.helpOrder.flatMap fun type => (set.flagsOfType type).map (flagEntry set)

/-- The column at which the first column of the table ends. -/
def tableWidth (set : OptionSet) : Nat := ((entries set).map Entry.width).foldl max 0

/-- The lines of the table; none for an elvis without options. -/
def lines (set : OptionSet) : List Bytes :=
  if set.hasOptions then (entries set).flatMap (Entry.rows (tableWidth set)) else []

end Elvis.Help
