import Elvis.Bytes

/-!
The types of options, by whether they own a variable, and their names.
-/

namespace Elvis

/-- The types of options that own a variable. -/
inductive VariableType
  | bool
  | enum
  | list
  | anything
  | special
deriving DecidableEq, Repr

/-- A flag sets a variable to a fixed value; an alias is another name of an option or a flag. -/
inductive OptionType
  | var (type : VariableType)
  | flag
  | aliasing
deriving DecidableEq, Repr

/-- What an alias says it stands for. -/
inductive AliasTarget
  | var (type : VariableType)
  | flag
deriving DecidableEq, Repr

/-- The options that are also global options of every elvis. -/
inductive SpecialKind
  | results
  | language
deriving DecidableEq, Repr

namespace VariableType

def name : VariableType → Bytes
  | bool => "bool"
  | enum => "enum"
  | list => "list"
  | anything => "anything"
  | special => "special"

/-- The order of the generated script. -/
def buckets : List VariableType := [bool, enum, list, anything, special]

/-- The order of the help table. -/
def helpOrder : List VariableType := [bool, enum, anything, special, list]

end VariableType

namespace OptionType

def all : List OptionType := VariableType.buckets.map var ++ [flag, aliasing]

def name : OptionType → Bytes
  | var type => type.name
  | flag => "flag"
  | aliasing => "alias"

/-- The type of a name; `yes-no` is an older spelling of `bool`. -/
def ofName? (text : Bytes) : Option OptionType :=
  if text = "yes-no" then some (var .bool) else all.find? (·.name = text)

def createsVariable : OptionType → Bool
  | var _ => true
  | _ => false

end OptionType

namespace AliasTarget

def name : AliasTarget → Bytes
  | var type => type.name
  | flag => OptionType.flag.name

end AliasTarget

namespace SpecialKind

def name : SpecialKind → Bytes
  | results => "results"
  | language => "language"

def ofName? (text : Bytes) : Option SpecialKind := [results, language].find? (·.name = text)

/-- The global variable that holds the value for every elvis. -/
def globalVariable : SpecialKind → Bytes
  | results => "SURFRAW_results"
  | language => "SURFRAW_lang"

/-- The default, an expansion of the global variable; an unset language is English. -/
def default : SpecialKind → Bytes
  | results => "$SURFRAW_results"
  | language => "$\x7bSURFRAW_lang:=en\x7d"

def metavar : SpecialKind → Bytes
  | results => "NUM"
  | language => "ISOCODE"

def description : SpecialKind → Bytes
  | results => "Number of search results returned"
  | language => "Two letter language code (resembles ISO country codes)"

end SpecialKind

end Elvis
