import Elvis.Name
import Elvis.Directive.Basic
import Elvis.Proofs.Bytes.SplitJoin

/-!
# The grammar of directives

Which directives can be written down (`Directive.WellFormed`) and how each is written
(`Directive.printedForms`): its fields joined by colons, the items of a list joined by commas.
Nothing here refers to the reader.
-/

namespace Elvis

/-! ## Words -/

/-- A letter from `a` to `z`. -/
def Byte.Lower (b : UInt8) : Prop := 0x61 ≤ b ∧ b ≤ 0x7a

/-- A digit from `0` to `9`. -/
def Byte.Digit (b : UInt8) : Prop := 0x30 ≤ b ∧ b ≤ 0x39

/-- A byte of `[a-z0-9_+-]`. -/
def Byte.InEnum (b : UInt8) : Prop :=
  Lower b ∨ Digit b ∨ b = underscore ∨ b = plus ∨ b = dash

/-- A text that matches `[a-z]+`. -/
def LowerWord (s : Bytes) : Prop := s ≠ [] ∧ ∀ b ∈ s, Byte.Lower b

/-- A text that matches `[a-z0-9][a-z0-9_+-]*`. -/
def EnumWord : Bytes → Prop
  | [] => False
  | b :: rest => (Byte.Lower b ∨ Byte.Digit b) ∧ ∀ c ∈ rest, Byte.InEnum c

/-- A name that an option may be given. -/
def Declarable (name : Bytes) : Prop := LowerWord name ∧ name ∉ Name.reserved

/-- A text that can stand in a field of its own. -/
def IsField (s : Bytes) : Prop := Byte.colon ∉ s

instance (b : UInt8) : Decidable (Byte.Lower b) :=
  inferInstanceAs (Decidable (0x61 ≤ b ∧ b ≤ 0x7a))

instance (b : UInt8) : Decidable (Byte.Digit b) :=
  inferInstanceAs (Decidable (0x30 ≤ b ∧ b ≤ 0x39))

instance (b : UInt8) : Decidable (Byte.InEnum b) :=
  inferInstanceAs (Decidable
    (Byte.Lower b ∨ Byte.Digit b ∨ b = Byte.underscore ∨ b = Byte.plus ∨ b = Byte.dash))

instance (s : Bytes) : Decidable (IsField s) := inferInstanceAs (Decidable (Byte.colon ∉ s))

/-- A text that can stand among the items of a comma list. -/
def IsItem (s : Bytes) : Prop := Byte.colon ∉ s ∧ Byte.comma ∉ s

/-- The single empty item would read as the list without items. -/
def IsItemList (items : List Bytes) : Prop := items ≠ [[]] ∧ ∀ item ∈ items, IsItem item

/-- The valid values of an enum, which must differ from each other. -/
def EnumValues (values : List Bytes) : Prop := (∀ v ∈ values, EnumWord v) ∧ values.Nodup

def Byte.toLower (b : UInt8) : UInt8 := if Byte.isUpper b then b + 0x20 else b

def Bytes.toLower (s : Bytes) : Bytes := s.map Byte.toLower

/-! ## Directives that can be written -/

def Elements.WellFormed : Elements → Prop
  | anything => True
  | enum values => values ≠ [] ∧ EnumValues values

def Declaration.WellFormed : Declaration → Prop
  | bool name _ => Declarable name
  | enum name default values => Declarable name ∧ EnumWord default ∧ EnumValues values
  | anything name default => Declarable name ∧ IsField default
  | list name elements defaults => Declarable name ∧ elements.WellFormed ∧ IsItemList defaults
  | special _ => True

/-- At least one pattern; the replacement is the last piece. -/
def Branch.WellFormed (b : Branch) : Prop :=
  b.patterns ≠ [] ∧ ∀ piece ∈ b.patterns ++ [b.replacement], IsItem piece

/-- The names follow the name rules, and no text holds a separator that would end it. A metavar is
the upper-case form of a word. -/
def Directive.WellFormed : Directive → Prop
  | declare d => d.WellFormed
  | flag f => Declarable f.name ∧ LowerWord f.target ∧ IsField f.value
  | aliasing a => Declarable a.name ∧ LowerWord a.target
  | map m => LowerWord m.target ∧ m.parameter ≠ [] ∧ IsField m.parameter
  | inline i => LowerWord i.target ∧ LowerWord i.keyword
  | collapse c => LowerWord c.target ∧ c.branches ≠ [] ∧ ∀ b ∈ c.branches, b.WellFormed
  | metavar target text => LowerWord target ∧ ∃ word, LowerWord word ∧ text = word.toUpper
  | describe target text => LowerWord target ∧ IsField text

/-! ## Printing -/

/-- The spellings of a target type; `bool` has an older one beside its name. -/
def AliasTarget.spellings : AliasTarget → List Bytes
  | var .bool => ["bool", "yes-no"]
  | target => [target.name]

def Declaration.fields : Declaration → List Bytes
  | bool name default => [name, YesNo.text default]
  | enum name default values => [name, default, Bytes.joinCommas values]
  | anything name default => [name, default]
  | list name elements defaults =>
      [name, elements.type.name, Bytes.joinCommas defaults] ++
        (elements.values?.map Bytes.joinCommas).toList
  | special kind => [kind.name]

def Branch.group (b : Branch) : Bytes := Bytes.joinCommas (b.patterns ++ [b.replacement])

/-- The ways to lay a directive out in fields. Only a mapping that encodes its values, where `yes`
may be left out, and an alias of a `bool` have two. -/
def Directive.fieldForms : Directive → List (List Bytes)
  | declare d => [d.fields]
  | flag f => [[f.name, f.target, f.value]]
  | aliasing a => a.targetType.spellings.map fun typeName => [a.name, a.target, typeName]
  | map m =>
      if m.urlEncode then [[m.target, m.parameter], [m.target, m.parameter, "yes"]]
      else [[m.target, m.parameter, "no"]]
  | inline i => [[i.target, i.keyword]]
  | collapse c => [c.target :: c.branches.map Branch.group]
  | metavar target text => [[target, text.toLower]]
  | describe target text => [[target, text]]

def Directive.printedForms (d : Directive) : List Bytes :=
  d.fieldForms.map (Bytes.join [Byte.colon])

/-- A directive with a field that may be spelled in two ways. -/
def Directive.hasShortForm : Directive → Bool
  | map m => m.urlEncode
  | aliasing a => a.targetType = .var .bool
  | _ => false

end Elvis
