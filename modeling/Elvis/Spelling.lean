import Elvis.OptionType

/-!
The spellings of an option on the command line of an elvis. A form says what is done with the
option and whether a value follows; with a name it gives a `case` label of the option parser, a
word to complete, and a cell of the help table.
-/

namespace Elvis

inductive Verb
  | set
  | add
  | remove
  | clear
deriving DecidableEq, Repr

/-- What stands before the name. -/
def Verb.lead : Verb → Bytes
  | set => []
  | add => "add-"
  | remove => "remove-"
  | clear => "clear-"

structure Form where
  verb : Verb
  takesValue : Bool
deriving DecidableEq, Repr

namespace Form

/-- The spelling without dash and value. -/
def word (form : Form) (name : Bytes) : Bytes := form.verb.lead ++ name

/-- The spelling up to its value. -/
def stem (form : Form) (name : Bytes) : Bytes := Byte.dash :: form.word name

/-- A pattern for the spelling, with `*` for the value. -/
def label (form : Form) (name : Bytes) : Bytes :=
  form.stem name ++ (if form.takesValue then "=*" else "" : Bytes)

/-- The spelling as it is completed, without the dash. -/
def completion (form : Form) (name : Bytes) : Bytes :=
  form.word name ++ (if form.takesValue then "=" else "" : Bytes)

/-- The spelling as it is documented. -/
def cell (form : Form) (metavar name : Bytes) : Bytes :=
  form.stem name ++ (if form.takesValue then "=" ++ metavar else "" : Bytes)

end Form

namespace VariableType

/-- The forms of an option, in the order of the option parser. -/
def forms : VariableType → List Form
  | bool => [⟨.set, true⟩, ⟨.set, false⟩]
  | list => [⟨.add, true⟩, ⟨.remove, true⟩, ⟨.clear, false⟩]
  | _ => [⟨.set, true⟩]

/-- The forms of a flag, by the type of its target. -/
def flagForms : VariableType → List Form
  | list => [⟨.add, false⟩, ⟨.remove, false⟩]
  | _ => [⟨.set, false⟩]

/-- The forms of an option in the order of the help table, where a bool always takes a value. -/
def helpForms : VariableType → List Form
  | list => [⟨.add, true⟩, ⟨.clear, false⟩, ⟨.remove, true⟩]
  | _ => [⟨.set, true⟩]

/-- The forms of a flag in the order of the help table. -/
def helpFlagForms : VariableType → List Form
  | list => [⟨.add, false⟩, ⟨.remove, false⟩]
  | _ => [⟨.set, false⟩]

/-- The forms of an option in the order of completion, the bare name first. -/
def completionForms : VariableType → List Form
  | bool => [⟨.set, false⟩, ⟨.set, true⟩]
  | list => [⟨.add, true⟩, ⟨.remove, true⟩, ⟨.clear, false⟩]
  | _ => [⟨.set, true⟩]

/-- The forms of an option that are completed with a value. -/
def valueForms : VariableType → List Form
  | list => [⟨.add, true⟩, ⟨.remove, true⟩]
  | _ => [⟨.set, true⟩]

/-- The forms of a flag in the order of completion. -/
def completionFlagForms : VariableType → List Form
  | list => [⟨.add, false⟩, ⟨.remove, false⟩]
  | _ => [⟨.set, false⟩]

end VariableType

namespace OptionType

/-- The forms of a name of this type; `asFlag` asks for those without a value. -/
def forms : OptionType → Bool → List Form
  | var type, asFlag => if asFlag then type.flagForms else type.forms
  | _, asFlag => [⟨.set, !asFlag⟩]

def labels (type : OptionType) (asFlag : Bool) (name : Bytes) : List Bytes :=
  (type.forms asFlag).map (·.label name)

end OptionType

end Elvis
