import Elvis.OptionSet.Basic
import Elvis.Spelling

/-!
What can be completed after the name of an elvis: its spellings, and the values of the options
whose values are known.
-/

namespace Elvis

/-- The values that complete any of the labels. -/
structure ValueCompletion where
  labels : List Bytes
  values : List Bytes
deriving DecidableEq, Repr

/-- The words are spellings without the dash. -/
structure Completions where
  values : List ValueCompletion
  words : List Bytes
deriving DecidableEq, Repr

namespace Completions

/-- The values to offer for an option: the two words of a bool, the valid values of an enum. -/
def offeredValues : Declaration → List Bytes
  | .bool .. => [YesNo.text true, YesNo.text false]
  | declaration => declaration.values?.getD []

def variableWords (v : Variable) : List Bytes :=
  v.names.flatMap fun name => v.type.completionForms.map (·.completion name)

def flagWords (f : Flag) : List Bytes :=
  f.names.flatMap fun name => f.targetType.completionFlagForms.map (·.completion name)

/-- The labels of an option that are followed by a value. -/
def valueLabels (v : Variable) : List Bytes :=
  v.names.flatMap fun name => v.type.valueForms.map (·.label name)

def valueCompletion? (v : Variable) : Option ValueCompletion :=
  let values := offeredValues v.declaration
  if values.isEmpty then none else some ⟨valueLabels v, values⟩

/-- The options and then the flags, each by type and with its aliases. -/
def ofOptions (set : OptionSet) : Completions :=
  { values := set.bucketedVariables.filterMap valueCompletion?
    words := set.bucketedVariables.flatMap variableWords ++ set.bucketedFlags.flatMap flagWords }

end Completions

end Elvis
