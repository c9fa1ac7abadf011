import Elvis.Script.ListContext

/-!
What the script does with the values of variables before it searches: values of enums are checked,
and collapses replace them.
-/

namespace Elvis.Script

/-- Refuses a value that is not among the allowed ones. -/
def membershipCheck (value option : Bytes) (allowed : List Bytes) : List Bytes :=
  ["case \"$" ++ value ++ "\" in",
   indent (Shell.caseLabel allowed ++ ") ;;"),
   indent ("*) err \"invalid value '$" ++ value ++ "' for -" ++ option ++
     "; must be one of: " ++ Bytes.join ", " allowed ++ "\" ;;"),
   "esac"]

/-- The check of one variable: of its value, or of each item of a list. -/
def variableCheck (set : OptionSet) (v : Variable) : List Bytes :=
  match v.declaration.values? with
  | none => []
  | some allowed =>
      if v.type = .list then
        forEachItem (set.variableName v.name) (membershipCheck "_sr_elem" v.name allowed)
      else membershipCheck (set.variableName v.name) v.name allowed

def valueChecks (set : OptionSet) : List Bytes :=
  match set.bucketedVariables.flatMap (variableCheck set) with
  | [] => []
  | lines => lines ++ [[]]

/-- One arm of a collapse: prints the replacement of the values it matches. -/
def branchLine (branch : Branch) : Bytes :=
  indent (indent (Shell.caseLabel branch.patterns ++ ") printf '%s\\n' \"" ++
    Shell.doubleQuotable branch.replacement ++ "\" ;;"))

/-- A function that prints what its argument is collapsed to; the first branch that matches wins. -/
def collapseFunction (name : Bytes) (branches : List Branch) : List Bytes :=
  let opening : List Bytes := [name ++ " () \x7b", indent "case \"$1\" in"]
  let closing : List Bytes :=
    [indent (indent "*) printf '%s\\n' \"$1\" ;;"), indent "esac", "\x7d"]
  opening ++ branches.map branchLine ++ closing

/-- Applies a collapse to the value of a variable, or to each item of a list. -/
def applyCollapse (name variableName : Bytes) (isList : Bool) : List Bytes :=
  if isList then
    let start : List Bytes := ["_sr_collapsed="]
    let addItem : Bytes :=
      "_sr_collapsed=\"$\x7b_sr_collapsed\x7d,$(" ++ name ++ " \"$_sr_elem\")\""
    let store : List Bytes := [variableName ++ "=\"$\x7b_sr_collapsed#,\x7d\""]
    start ++ forEachItem variableName [addItem] ++ store
  else [variableName ++ "=\"$(" ++ name ++ " \"$" ++ variableName ++ "\")\""]

/-- The collapse at a position; positions count from one. -/
def collapseLines (set : OptionSet) (position : Nat) (c : Collapse) : List Bytes :=
  let name := "_sr_collapse_" ++ Bytes.decimal position
  let isList := ((set.findVariable? c.target).map Variable.type) = some .list
  collapseFunction name c.branches ++
    applyCollapse name (set.variableName c.target) isList ++ [[]]

def collapses (set : OptionSet) : List Bytes :=
  (set.collapses.zipIdx 1).flatMap fun (c, position) => collapseLines set position c

end Elvis.Script
