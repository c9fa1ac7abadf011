import Elvis.Error
import Elvis.Integer
import Elvis.OptionSet.Basic
import Elvis.Spelling

/-!
The conditions on the settings of an elvis, on the values of its options, and on their spellings.
-/

namespace Elvis.Check

def settings (s : Settings) : Except Cause Unit :=
  if !Name.isElvisName s.name then .error (.invalidElvisName s.name)
  else if s.numTabs < 1 then .error .noTabs
  else if s.queryParameter = some [] then .error .emptyQueryParameter
  else if s.queryParameter.isSome && !s.appendSearchArgs then .error .unusedQueryParameter
  else .ok ()

/-- Why the value of a flag does not fit its target, if it does not. -/
def misfit? (f : FlagDeclaration) : Declaration → Option Misfit
  | .bool .. => if (YesNo.read? f.value).isSome then none else some (.notYesNo f.name f.value)
  | .enum name _ values => if values.contains f.value then none else some (.notInEnum f.name name)
  | .list _ (.enum values) _ =>
      if f.value.commaItems.all values.contains then none
      else some (.notInEnumList f.name f.value values)
  | .special .results => if (Integer.read64? f.value).isSome then none else some .notAnInteger
  | _ => none

/-- Defaults are among the valid values. -/
def default : Declaration → Except Cause Unit
  | .enum name default values =>
      if values.contains default then .ok () else .error (.invalidEnumDefault name default values)
  | .list name (.enum values) defaults =>
      if defaults.all values.contains then .ok ()
      else .error (.invalidListDefault name defaults values)
  | _ => .ok ()

/-- Mapped variables need a query parameter, unless search arguments are not appended. -/
def queryParameter (s : Settings) (mappings : List Mapping) : Except Cause Unit :=
  if !mappings.isEmpty && s.queryParameter.isNone && s.appendSearchArgs then
    .error .missingQueryParameter
  else .ok ()

/-- A spelling the option parser accepts, and who accepts it. -/
structure Claim where
  label : Bytes
  stem : Bytes
  owner : Owner
deriving DecidableEq, Repr

def claimsOf (forms : List Form) (name : Bytes) (owner : Owner) : List Claim :=
  forms.map fun form => ⟨form.label name, form.stem name, owner⟩

def variableClaims (v : Variable) : List Claim :=
  claimsOf v.type.forms v.name (.option v.type v.name) ++
    v.aliases.flatMap fun name => claimsOf v.type.forms name (.aliasing name)

def flagClaims (f : Flag) : List Claim :=
  claimsOf f.targetType.flagForms f.name (.flag f.name) ++
    f.aliases.flatMap fun name => claimsOf f.targetType.flagForms name (.aliasing name)

/-- Every spelling of the option parser, in the order in which it looks for them. -/
def claims (set : OptionSet) : List Claim :=
  set.bucketedVariables.flatMap variableClaims ++ set.bucketedFlags.flatMap flagClaims

/-- No claim repeats the label of one before it. -/
def distinctLabels (before : List Claim) : List Claim → Except Cause Unit
  | [] => .ok ()
  | claim :: rest =>
      match before.find? (·.label = claim.label) with
      | some first => .error (.sharedSpelling claim.stem first.owner claim.owner)
      | none => distinctLabels (before ++ [claim]) rest

def spellings (set : OptionSet) : Except Cause Unit := distinctLabels [] (claims set)

end Elvis.Check
