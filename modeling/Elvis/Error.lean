import Elvis.Directive.Basic

/-!
Why a set of directives is refused: the causes, the kind each is reported under, and their wording.
-/

namespace Elvis

/-- What is wrong with the text of one directive. -/
inductive Fault
  | fieldCount (fields : List Bytes)
  | invalidName (name : Bytes)
  | reservedName (name : Bytes)
  | notYesNo (text : Bytes)
  | invalidEnumValue (text : Bytes)
  | repeatedEnumValue (text : Bytes)
  | unknownListType (text : Bytes)
  | missingListValues
  | unexpectedListValues
  | unknownSpecial (text : Bytes)
  | unknownAliasType (text : Bytes)
  | emptyParameter
  | invalidKeyword (text : Bytes)
  | incompleteGroup (text : Bytes)
  | invalidMetavar (text : Bytes)
deriving DecidableEq, Repr

/-- A place where a directive refers to a declared option. -/
inductive Reference
  | flag (name target : Bytes)
  | aliasing (name target : Bytes) (type : AliasTarget)
  | metavar (target text : Bytes)
  | describe (target : Bytes)
  | collapse (target : Bytes)
  | map (target : Bytes)
  | inline (target : Bytes)
deriving DecidableEq, Repr

/-- Why a value does not fit the target of a flag. -/
inductive Misfit
  | notYesNo (flag value : Bytes)
  | notInEnum (flag target : Bytes)
  | notInEnumList (flag value : Bytes) (allowed : List Bytes)
  | notAnInteger
deriving DecidableEq, Repr

/-- Who accepts a spelling. -/
inductive Owner
  | option (type : VariableType) (name : Bytes)
  | flag (name : Bytes)
  | aliasing (name : Bytes)
deriving DecidableEq, Repr

inductive Cause
  | malformed (type : DirectiveType) (fault : Fault)
  | aliasTypedAlias (name : Bytes)
  | invalidElvisName (name : Bytes)
  | noTabs
  | emptyQueryParameter
  | unusedQueryParameter
  | duplicateVariable (name : Bytes)
  | duplicateSpecial (kind : SpecialKind)
  | duplicateName (name : Bytes)
  | flagWithoutVariable (name target : Bytes)
  | unresolved (reference : Reference) (hint : Option Bytes)
  | misfit (reason : Misfit)
  | aliasChain (name target : Bytes)
  | aliasTypeMismatch (name : Bytes) (claimed : VariableType) (target : Bytes)
      (actual : VariableType)
  | mappedItemwise (target : Bytes) (actual : VariableType)
  | inlinedItemwise (target : Bytes) (actual : VariableType)
  | invalidEnumDefault (name default : Bytes) (allowed : List Bytes)
  | invalidListDefault (name : Bytes) (defaults allowed : List Bytes)
  | missingQueryParameter
  | schemeMismatch
  | sharedSpelling (stem : Bytes) (first second : Owner)
deriving DecidableEq, Repr

inductive ErrorKind
  | malformedDirective
  | duplicateName
  | unresolvedReference
  | invalidAliasChain
  | invalidDefault
  | missingQueryParameter
  | schemeMismatch
  | invalidFlagValue
  | typeMismatch
  | invalidSetting
deriving DecidableEq, Repr

/-- A cause, and the position and type of the directive to blame if there is one. -/
structure CompileError where
  cause : Cause
  blame : Option (Nat × DirectiveType)
deriving DecidableEq, Repr

def quoted (s : Bytes) : Bytes := "'" ++ s ++ "'"

def quotedList (items : List Bytes) : Bytes := quoted (Bytes.joinCommas items)

namespace Fault

def message : Fault → Bytes
  | fieldCount fields =>
      quoted (Bytes.join ":" fields) ++ " has " ++ Bytes.decimal fields.length ++
        " colon-delimited field" ++ (if fields.length = 1 then "" else "s" : Bytes)
  | invalidName name => "name " ++ quoted name ++ " is an invalid variable name for an elvis"
  | reservedName name =>
      "option name " ++ quoted name ++ " is global, which cannot be overridden by elvi"
  | notYesNo text => "bool " ++ quoted text ++ " must be one of the following: no, yes"
  | invalidEnumValue text =>
      "enum value " ++ quoted text ++ " must match the regex '^[a-z0-9][a-z0-9_+-]*$'"
  | repeatedEnumValue text => "enum value " ++ quoted text ++ " is listed more than once"
  | unknownListType text =>
      "list type " ++ quoted text ++ " must be one of the following: anything, enum"
  | missingListValues => "enum lists must specify their valid values"
  | unexpectedListValues => "valid values may only be given for enum lists"
  | unknownSpecial text => quoted text ++ " is an unsupported special option"
  | unknownAliasType text =>
      "alias type " ++ quoted text ++
        " must be one of the following: anything, bool, enum, flag, list, special, yes-no"
  | emptyParameter => "URL parameter must not be empty"
  | invalidKeyword text => "keyword " ++ quoted text ++ " must match the regex '^[a-z]+$'"
  | incompleteGroup text =>
      "collapse group " ++ quoted text ++ " needs at least one value and a result"
  | invalidMetavar text => "metavar " ++ quoted text ++ " must match the regex '^[a-z]+$'"

end Fault

namespace Reference

def message : Reference → Bytes
  | flag name _ =>
      "flag option " ++ quoted name ++ " does not target any existing 'bool', 'enum', 'list', " ++
        "'anything', or 'special' option"
  | aliasing name _ type =>
      "alias " ++ quoted name ++ " does not target any option of matching type (" ++
        quoted type.name ++ ")"
  | metavar target text =>
      "metavar for " ++ quoted target ++ " with the value " ++ quoted text ++
        " targets a non-existent variable"
  | describe target => "description for " ++ quoted target ++ " targets a non-existent variable"
  | collapse target => "collapse " ++ quoted target ++ " does not target any existing variable"
  | map target => "URL parameter " ++ quoted target ++ " does not target any existing variable"
  | inline target => "inlining " ++ quoted target ++ " does not target any existing variable"

end Reference

namespace Misfit

def message : Misfit → Bytes
  | notYesNo flag value =>
      "bool " ++ quoted value ++ " of flag " ++ quoted flag ++
        " must be one of the following: no, yes"
  | notInEnum flag target =>
      "value of flag " ++ quoted flag ++ " to enum " ++ quoted target ++ " is not a valid value"
  | notInEnumList flag value allowed =>
      "enum list flag option " ++ flag ++ "'s value (" ++ quoted value ++
        ") must be a subset of its target's values (" ++ quotedList allowed ++ ")"
  | notAnInteger => "value for special 'results' option must be an integer"

end Misfit

namespace Owner

def describe : Owner → Bytes
  | option type name => type.name ++ " " ++ quoted name
  | flag name => "flag " ++ quoted name
  | aliasing name => "alias " ++ quoted name

end Owner

namespace Cause

def kind : Cause → ErrorKind
  | malformed .. => .malformedDirective
  | aliasTypedAlias _ | aliasChain .. => .invalidAliasChain
  | invalidElvisName _ | noTabs | emptyQueryParameter | unusedQueryParameter => .invalidSetting
  | duplicateVariable _ | duplicateSpecial _ | duplicateName _ | sharedSpelling .. =>
      .duplicateName
  | flagWithoutVariable .. | aliasTypeMismatch .. | mappedItemwise .. | inlinedItemwise .. =>
      .typeMismatch
  | unresolved .. => .unresolvedReference
  | misfit _ => .invalidFlagValue
  | invalidEnumDefault .. | invalidListDefault .. => .invalidDefault
  | missingQueryParameter => .missingQueryParameter
  | schemeMismatch => .schemeMismatch

def message : Cause → Bytes
  | malformed type fault =>
      fault.message ++ "; " ++ type.name ++ " requires " ++ type.grammar
  | aliasTypedAlias name => "alias " ++ quoted name ++ " may not target another alias"
  | invalidElvisName name =>
      "elvis name " ++ quoted name ++ " is invalid; elvis names may not be paths"
  | noTabs => "there must be at least one tab after the elvis name"
  | emptyQueryParameter => "the query parameter must not be empty"
  | unusedQueryParameter =>
      "a query parameter cannot be used when search arguments are not appended"
  | duplicateVariable name => "the variable name " ++ quoted name ++ " is duplicated"
  | duplicateSpecial kind => "cannot have two " ++ quoted kind.name ++ " special options"
  | duplicateName name =>
      "the non-variable-creating option name " ++ quoted name ++ " is duplicated"
  | flagWithoutVariable name target =>
      "flag option " ++ quoted name ++ " targets " ++ quoted target ++
        ", which does not create a variable"
  | unresolved reference hint =>
      reference.message ++
        match hint with
        | some name => " (did you mean " ++ quoted name ++ "?)"
        | none => []
  | misfit reason => reason.message
  | aliasChain name target => "alias " ++ quoted name ++ " targets the alias " ++ quoted target
  | aliasTypeMismatch name claimed target actual =>
      (Reference.aliasing name target (.var claimed)).message ++ "; " ++ quoted target ++
        " is a " ++ actual.name ++ " option"
  | mappedItemwise target actual =>
      "list URL parameter " ++ quoted target ++ " must target a list option, not a " ++
        actual.name ++ " option"
  | inlinedItemwise target actual =>
      "list inlining " ++ quoted target ++ " must target a list option, not a " ++
        actual.name ++ " option"
  | invalidEnumDefault name default allowed =>
      "enum default value " ++ quoted default ++ " of " ++ quoted name ++ " must be within " ++
        quotedList allowed
  | invalidListDefault name defaults allowed =>
      "enum list option " ++ name ++ "'s defaults (" ++ quotedList defaults ++
        ") must be a subset of its valid values (" ++ quotedList allowed ++ ")"
  | missingQueryParameter =>
      "mapping variables without a defined query parameter is forbidden"
  | schemeMismatch => "the schemes of both URLs must be the same"
  | sharedSpelling stem first second =>
      "option " ++ quoted stem ++ " is defined by both " ++ first.describe ++ " and " ++
        second.describe

end Cause

namespace ErrorKind

def name : ErrorKind → Bytes
  | malformedDirective => "malformed directive"
  | duplicateName => "duplicate name"
  | unresolvedReference => "unresolved reference"
  | invalidAliasChain => "invalid alias chain"
  | invalidDefault => "invalid default"
  | missingQueryParameter => "missing query parameter"
  | schemeMismatch => "scheme mismatch"
  | invalidFlagValue => "invalid flag value"
  | typeMismatch => "type mismatch"
  | invalidSetting => "invalid setting"

end ErrorKind

namespace CompileError

def kind (e : CompileError) : ErrorKind := e.cause.kind

def message (e : CompileError) : Bytes := e.cause.message

/-- The message, after the directive to blame; directives count from one. -/
def describe (e : CompileError) : Bytes :=
  match e.blame with
  | none => e.message
  | some (position, type) =>
      "directive #" ++ Bytes.decimal (position + 1) ++ " (--" ++ type.name ++ "): " ++ e.message

end CompileError

end Elvis
