import Elvis.Error
import Elvis.Name

/-!
Reading the text of a directive. A colon ends a field and a comma ends an item of a list, and
neither can be escaped. Fields are checked from the left, unless said otherwise.
-/

namespace Elvis.Directive

/-- Refuses the directive for a fault in its text. -/
def refuse {α : Type} (type : DirectiveType) (fault : Fault) : Except Cause α :=
  .error (.malformed type fault)

/-- A name that refers to something declared elsewhere. -/
def readReference (type : DirectiveType) (name : Bytes) : Except Cause Bytes :=
  if Name.isWord name then .ok name else refuse type (.invalidName name)

/-- A name that declares something. -/
def readDeclared (type : DirectiveType) (name : Bytes) : Except Cause Bytes := do
  let name ← readReference type name
  if Name.isReserved name then refuse type (.reservedName name) else .ok name

def readYesNo (type : DirectiveType) (text : Bytes) : Except Cause Bool :=
  match YesNo.read? text with
  | some b => .ok b
  | none => refuse type (.notYesNo text)

def readEnumValue (type : DirectiveType) (text : Bytes) : Except Cause Bytes :=
  if Name.isEnumValue text then .ok text else refuse type (.invalidEnumValue text)

/-- Enum values that differ from each other and from the values `before` them. -/
def readEnumValues (type : DirectiveType) (before : List Bytes) :
    List Bytes → Except Cause (List Bytes)
  | [] => .ok []
  | text :: rest => do
      let value ← readEnumValue type text
      if before.contains value then refuse type (.repeatedEnumValue value)
      else return value :: (← readEnumValues type (value :: before) rest)

/-- The valid values of an enum, separated by commas. -/
def readValues (type : DirectiveType) (text : Bytes) : Except Cause (List Bytes) :=
  readEnumValues type [] text.commaItems

def readBool : List Bytes → Except Cause Directive
  | [name, default] => do
      return .declare (.bool (← readDeclared .bool name) (← readYesNo .bool default))
  | fields => refuse .bool (.fieldCount fields)

def readEnum : List Bytes → Except Cause Directive
  | [name, default, values] => do
      return .declare (.enum (← readDeclared .enum name) (← readEnumValue .enum default)
        (← readValues .enum values))
  | fields => refuse .enum (.fieldCount fields)

def readAnything : List Bytes → Except Cause Directive
  | [name, default] => do
      return .declare (.anything (← readDeclared .anything name) default)
  | fields => refuse .anything (.fieldCount fields)

/-- Only the items of an enum list have valid values, and must have them. -/
def readElements (elements : Bytes) (values : Option Bytes) : Except Cause Elements :=
  if elements = VariableType.enum.name then
    match values with
    | none => refuse .list .missingListValues
    | some text =>
        if text.isEmpty then refuse .list .missingListValues
        else do return .enum (← readValues .list text)
  else if elements = VariableType.anything.name then
    match values with
    | none => .ok .anything
    | some _ => refuse .list .unexpectedListValues
  else refuse .list (.unknownListType elements)

def readList : List Bytes → Except Cause Directive
  | [name, elements, defaults] => do
      return .declare (.list (← readDeclared .list name) (← readElements elements none)
        defaults.commaItems)
  | [name, elements, defaults, values] => do
      return .declare (.list (← readDeclared .list name) (← readElements elements (some values))
        defaults.commaItems)
  | fields => refuse .list (.fieldCount fields)

def readSpecial : List Bytes → Except Cause Directive
  | [kind] =>
      match SpecialKind.ofName? kind with
      | some kind => .ok (.declare (.special kind))
      | none => refuse .special (.unknownSpecial kind)
  | fields => refuse .special (.fieldCount fields)

def readFlag : List Bytes → Except Cause Directive
  | [name, target, value] => do
      return .flag ⟨← readDeclared .flag name, ← readReference .flag target, value⟩
  | fields => refuse .flag (.fieldCount fields)

/-- An alias may not say that it targets an alias. -/
def readAliasTarget (name typeName : Bytes) : Except Cause AliasTarget :=
  match OptionType.ofName? typeName with
  | some (.var type) => .ok (.var type)
  | some .flag => .ok .flag
  | some .aliasing => .error (.aliasTypedAlias name)
  | none => refuse .aliasing (.unknownAliasType typeName)

def readAlias : List Bytes → Except Cause Directive
  | [name, target, typeName] => do
      return .aliasing ⟨← readDeclared .aliasing name, ← readReference .aliasing target,
        ← readAliasTarget name typeName⟩
  | fields => refuse .aliasing (.fieldCount fields)

def readParameter (type : DirectiveType) (text : Bytes) : Except Cause Bytes :=
  if text.isEmpty then refuse type .emptyParameter else .ok text

/-- Values are URL-encoded unless the third field says no. -/
def readMapping (perItem : Bool) (fields : List Bytes) : Except Cause Directive :=
  let type := if perItem then .listMap else .map
  match fields with
  | [target, parameter] => do
      return .map ⟨← readReference type target, ← readParameter type parameter, true, perItem⟩
  | [target, parameter, urlEncode] => do
      return .map ⟨← readReference type target, ← readParameter type parameter,
        ← readYesNo type urlEncode, perItem⟩
  | fields => refuse type (.fieldCount fields)

def readKeyword (type : DirectiveType) (text : Bytes) : Except Cause Bytes :=
  if Name.isWord text then .ok text else refuse type (.invalidKeyword text)

/-- The keyword is checked before the name. -/
def readInlining (perItem : Bool) (fields : List Bytes) : Except Cause Directive :=
  let type := if perItem then .listInline else .inline
  match fields with
  | [target, keyword] => do
      let keyword ← readKeyword type keyword
      return .inline ⟨← readReference type target, keyword, perItem⟩
  | fields => refuse type (.fieldCount fields)

/-- At least one value, and what replaces it. -/
def readBranch (group : Bytes) : Except Cause Branch :=
  match (Bytes.split Byte.comma group).reverse with
  | replacement :: pattern :: patterns => .ok ⟨(pattern :: patterns).reverse, replacement⟩
  | _ => refuse .collapse (.incompleteGroup group)

def readCollapse : List Bytes → Except Cause Directive
  | target :: group :: groups => do
      return .collapse ⟨← readReference .collapse target, ← (group :: groups).mapM readBranch⟩
  | fields => refuse .collapse (.fieldCount fields)

def readMetavarText (text : Bytes) : Except Cause Bytes :=
  if Name.isWord text then .ok text.toUpper else refuse .metavar (.invalidMetavar text)

/-- The metavar is checked before the name, and kept in upper case. -/
def readMetavar : List Bytes → Except Cause Directive
  | [target, text] => do
      let text ← readMetavarText text
      return .metavar (← readReference .metavar target) text
  | fields => refuse .metavar (.fieldCount fields)

def readDescribe : List Bytes → Except Cause Directive
  | [target, text] => do return .describe (← readReference .describe target) text
  | fields => refuse .describe (.fieldCount fields)

/-- Reads the text of a directive of the given type. -/
def parse (type : DirectiveType) (text : Bytes) : Except Cause Directive :=
  let fields := Bytes.split Byte.colon text
  match type with
  | .bool => readBool fields
  | .enum => readEnum fields
  | .anything => readAnything fields
  | .list => readList fields
  | .special => readSpecial fields
  | .flag => readFlag fields
  | .aliasing => readAlias fields
  | .map => readMapping false fields
  | .listMap => readMapping true fields
  | .inline => readInlining false fields
  | .listInline => readInlining true fields
  | .collapse => readCollapse fields
  | .metavar => readMetavar fields
  | .describe => readDescribe fields

/-- A directive before it is read. -/
structure Source where
  type : DirectiveType
  text : Bytes
deriving DecidableEq, Repr

/-- Reads directives that stand at the positions from `position` on. -/
def parseFrom (position : Nat) : List Source → Except CompileError (List Directive)
  | [] => .ok []
  | source :: rest =>
      match parse source.type source.text with
      | .error cause => .error ⟨cause, some (position, source.type)⟩
      | .ok directive => (parseFrom (position + 1) rest).map (directive :: ·)

/-- Reads all directives; the first that cannot be read is blamed. -/
def parseAll (sources : List Source) : Except CompileError (List Directive) := parseFrom 0 sources

end Elvis.Directive
