import Elvis.OptionType

/-!
Directives: what the author of an elvis declares about its options, one statement each.
-/

namespace Elvis

/-- What the items of a list option may be. -/
inductive Elements
  | anything
  | enum (values : List Bytes)
deriving DecidableEq, Repr

/-- The declaration of an option that owns a variable. -/
inductive Declaration
  | bool (name : Bytes) (default : Bool)
  | enum (name default : Bytes) (values : List Bytes)
  | anything (name default : Bytes)
  | list (name : Bytes) (elements : Elements) (defaults : List Bytes)
  | special (kind : SpecialKind)
deriving DecidableEq, Repr

/-- A name that sets the target to a fixed value. -/
structure FlagDeclaration where
  name : Bytes
  target : Bytes
  value : Bytes
deriving DecidableEq, Repr

/-- Another name of an option or a flag. -/
structure Alias where
  name : Bytes
  target : Bytes
  targetType : AliasTarget
deriving DecidableEq, Repr

/-- A URL parameter that carries a variable, once for each item when `perItem` is set. -/
structure Mapping where
  target : Bytes
  parameter : Bytes
  urlEncode : Bool
  perItem : Bool
deriving DecidableEq, Repr

/-- A search term `KEYWORD:VALUE`, one for each item when `perItem` is set. -/
structure Inlining where
  target : Bytes
  keyword : Bytes
  perItem : Bool
deriving DecidableEq, Repr

/-- Values matched exactly, and the shell text that replaces them. -/
structure Branch where
  patterns : List Bytes
  replacement : Bytes
deriving DecidableEq, Repr

/-- Replaces values of a variable; the first branch that matches wins. -/
structure Collapse where
  target : Bytes
  branches : List Branch
deriving DecidableEq, Repr

inductive Directive
  | declare (d : Declaration)
  | flag (f : FlagDeclaration)
  | aliasing (a : Alias)
  | map (m : Mapping)
  | inline (i : Inlining)
  | collapse (c : Collapse)
  | metavar (target text : Bytes)
  | describe (target text : Bytes)
deriving DecidableEq, Repr

inductive DirectiveType
  | bool
  | enum
  | anything
  | list
  | special
  | flag
  | aliasing
  | map
  | listMap
  | inline
  | listInline
  | collapse
  | metavar
  | describe
deriving DecidableEq, Repr

namespace Elements

/-- The type of one item. -/
def type : Elements → VariableType
  | anything => .anything
  | enum _ => .enum

/-- The values an item must be one of, if its values are checked. -/
def values? : Elements → Option (List Bytes)
  | anything => none
  | enum values => some values

end Elements

namespace Declaration

def name : Declaration → Bytes
  | bool name _ | enum name _ _ | anything name _ | list name _ _ => name
  | special kind => kind.name

def type : Declaration → VariableType
  | bool .. => .bool
  | enum .. => .enum
  | anything .. => .anything
  | list .. => .list
  | special _ => .special

/-- The values the option, or each of its items, must be one of, if they are checked. -/
def values? : Declaration → Option (List Bytes)
  | enum _ _ values => some values
  | list _ elements _ => elements.values?
  | _ => none

end Declaration

namespace DirectiveType

def all : List DirectiveType :=
  [bool, enum, anything, list, special, flag, aliasing, map, listMap, inline, listInline, collapse,
   metavar, describe]

def name : DirectiveType → Bytes
  | bool => "yes-no"
  | enum => "enum"
  | anything => "anything"
  | list => "list"
  | special => "special"
  | flag => "flag"
  | aliasing => "alias"
  | map => "map"
  | listMap => "list-map"
  | inline => "inline"
  | listInline => "list-inline"
  | collapse => "collapse"
  | metavar => "metavar"
  | describe => "describe"

/-- The type of a name; `bool` is another spelling of `yes-no`. -/
def ofName? (text : Bytes) : Option DirectiveType :=
  if text = "bool" then some bool else all.find? (·.name = text)

/-- The grammar of the directive's text. -/
def grammar : DirectiveType → Bytes
  | bool => "NAME:yes|no"
  | enum => "NAME:DEFAULT:V1,V2,..."
  | anything => "NAME:DEFAULT"
  | list => "NAME:enum|anything:D1,D2,...[:V1,V2,...]"
  | special => "results|language"
  | flag => "NAME:TARGET:VALUE"
  | aliasing => "NAME:TARGET:TARGET_TYPE"
  | map | listMap => "VARIABLE:PARAMETER[:yes|no]"
  | inline | listInline => "VARIABLE:KEYWORD"
  | collapse => "VARIABLE:V1,V2,RESULT[:VA,VB,RESULT2...]"
  | metavar => "VARIABLE:METAVAR"
  | describe => "VARIABLE:DESCRIPTION"

end DirectiveType

namespace Declaration

def directiveType : Declaration → DirectiveType
  | bool .. => .bool
  | enum .. => .enum
  | anything .. => .anything
  | list .. => .list
  | special _ => .special

end Declaration

namespace Directive

def type : Directive → DirectiveType
  | declare d => d.directiveType
  | flag _ => .flag
  | aliasing _ => .aliasing
  | map m => if m.perItem then .listMap else .map
  | inline i => if i.perItem then .listInline else .inline
  | collapse _ => .collapse
  | metavar .. => .metavar
  | describe .. => .describe

def declaration? : Directive → Option Declaration
  | declare d => some d
  | _ => none

def flag? : Directive → Option FlagDeclaration
  | flag f => some f
  | _ => none

def alias? : Directive → Option Alias
  | aliasing a => some a
  | _ => none

def mapping? : Directive → Option Mapping
  | map m => some m
  | _ => none

def inlining? : Directive → Option Inlining
  | inline i => some i
  | _ => none

def collapse? : Directive → Option Collapse
  | collapse c => some c
  | _ => none

/-- The metavar the directive gives to the variable. -/
def metavarOf? (name : Bytes) : Directive → Option Bytes
  | metavar target text => if target = name then some text else none
  | _ => none

/-- The description the directive gives to the variable. -/
def descriptionOf? (name : Bytes) : Directive → Option Bytes
  | describe target text => if target = name then some text else none
  | _ => none

end Directive

end Elvis
