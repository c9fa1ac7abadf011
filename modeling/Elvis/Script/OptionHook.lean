import Elvis.Script.Header

/-!
The option parser of an elvis: one `case` arm for each form of an option or a flag, with the labels
of all its names and the action they share.
-/

namespace Elvis.Script

/-- The value an action works with: the one given on the command line, or a fixed one. -/
inductive Operand
  | given
  | literal (value : Bytes)
  | yes
deriving DecidableEq, Repr

inductive Action
  | nothing
  | setYesNo (target : Bytes) (value : Operand)
  | setText (target : Bytes) (value : Operand)
  | addItems (target : Bytes) (items : Operand)
  | removeItems (target : Bytes) (items : Operand)
  | clearItems (target : Bytes)
deriving DecidableEq, Repr

structure Arm where
  labels : List Bytes
  action : Action
deriving DecidableEq, Repr

def Operand.word : Operand → Bytes
  | given => "\"$optarg\""
  | literal value => Shell.singleQuoted value
  | yes => "yes"

def Action.command : Action → Bytes
  | nothing => ":"
  | setYesNo target value => "setoptyn " ++ target ++ " " ++ value.word
  | setText target value => "setopt " ++ target ++ " " ++ value.word
  | addItems target items => "_sr_list_add " ++ target ++ " " ++ items.word
  | removeItems target items => "_sr_list_remove " ++ target ++ " " ++ items.word
  | clearItems target => "_sr_list_clear " ++ target

/-- The items that can be removed from a list: an empty item matches nothing. -/
def removable (items : List Bytes) : List Bytes := items.filter (!·.isEmpty)

/-- The actions on an option, in the order of its labels. The bare name of a bool means yes. -/
def variableActions (set : OptionSet) (v : Variable) : List Action :=
  let target := set.variableName v.name
  match v.type with
  | .bool => [.setYesNo target .given, .setYesNo target .yes]
  | .list => [.addItems target .given, .removeItems target .given, .clearItems target]
  | _ => [.setText target .given]

/-- The actions of a flag, in the order of its labels. Without items there is nothing to add or
remove. -/
def flagActions (set : OptionSet) (f : Flag) : List Action :=
  let target := set.variableName f.target
  let withItems (act : Bytes → Operand → Action) (items : List Bytes) : Action :=
    if items.isEmpty then .nothing else act target (.literal (Bytes.joinCommas items))
  match f.targetType with
  | .bool => [.setYesNo target (.literal f.value)]
  | .list => [withItems .addItems f.items, withItems .removeItems (removable f.items)]
  | _ => [.setText target (.literal f.value)]

/-- Puts each label into the arm at its position. Labels past the last arm are dropped. -/
def addLabels : List Arm → List Bytes → List Arm
  | arm :: arms, label :: labels =>
      { arm with labels := arm.labels ++ [label] } :: addLabels arms labels
  | arms, _ => arms

/-- An arm for each action, with the labels of all names. -/
def armsFor (type : VariableType) (asFlag : Bool) (names : List Bytes) (actions : List Action) :
    List Arm :=
  names.foldl (fun arms name => addLabels arms ((OptionType.var type).labels asFlag name))
    (actions.map fun action => ⟨[], action⟩)

def variableArms (set : OptionSet) (v : Variable) : List Arm :=
  armsFor v.type false v.names (variableActions set v)

def flagArms (set : OptionSet) (f : Flag) : List Arm :=
  armsFor f.targetType true f.names (flagActions set f)

/-- All arms but the last, which refuses what no label matches. -/
def arms (set : OptionSet) : List Arm :=
  set.bucketedVariables.flatMap (variableArms set) ++ set.bucketedFlags.flatMap (flagArms set)

def Arm.line (arm : Arm) : Bytes :=
  indent (indent (Bytes.join "|" arm.labels ++ ") " ++ arm.action.command ++ " ;;"))

def optionHook (set : OptionSet) : List Bytes :=
  let opening : List Bytes :=
    ["w3_parse_option_hook () \x7b",
     indent "opt=\"$1\"",
     indent "optarg=\"$2\"",
     indent "case \"$opt\" in"]
  let closing : List Bytes :=
    [indent (indent "*) return 1 ;;"), indent "esac", indent "return 0", "\x7d", ""]
  opening ++ (arms set).map Arm.line ++ closing

end Elvis.Script
