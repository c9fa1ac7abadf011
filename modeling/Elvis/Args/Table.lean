import Elvis.Integer

/-!
The flags of a command line: how each is spelled, what values it takes, and what it is when it is
not given.
-/

namespace Elvis.Args

/-- What a flag takes. A switch may be given a yes or no; a count takes nothing and adds up. -/
inductive Kind
  | switch
  | count
  | number
  | text
deriving DecidableEq, Repr

/-- A kind with the default of the flag. -/
inductive Default
  | switch (value : Bool)
  | count
  | number (value : Int)
  | text (value : Bytes)
deriving DecidableEq, Repr

/-- A flag with its spellings; a flag without a short one has an empty one there. -/
structure FlagSpec where
  long : Bytes
  short : Bytes
  default : Default
deriving DecidableEq, Repr

/-- The words of a switch as they are recorded. -/
def switchText (b : Bool) : Bytes := if b then "true" else "false"

def readSwitch? (text : Bytes) : Option Bool :=
  let word := text.trim
  if (["1", "true", "yes", "on"] : List Bytes).contains word then some true
  else if (["0", "false", "no", "off"] : List Bytes).contains word then some false
  else none

namespace Default

def kind : Default → Kind
  | switch _ => .switch
  | count => .count
  | number _ => .number
  | text _ => .text

/-- The default as it would be given; a count has none. -/
def text? : Default → Option Bytes
  | switch value => some (switchText value)
  | count => none
  | number value => some (Bytes.ofInt value)
  | text value => some value

end Default

namespace Kind

/-- What is recorded for a given value, if the flag takes it: a switch is recorded by its own
words, a number as it stands. -/
def accept? (kind : Kind) (value : Bytes) : Option Bytes :=
  match kind with
  | switch => (readSwitch? value).map switchText
  | number | count => if (Integer.read32? value).isSome then some value else none
  | text => some value

/-- What is recorded for the flag alone, if it needs no value. -/
def alone? : Kind → Option Bytes
  | switch => some (switchText true)
  | count => some "1"
  | _ => none

end Kind

/-- The flags in the order in which they are registered; of two that share a spelling the later one
has it. -/
abbrev Table := List FlagSpec

namespace Table

/-- Flags with an empty name are not registered. -/
def registered (table : Table) : List FlagSpec := table.filter (!·.long.isEmpty)

/-- Every command line knows these. -/
def builtIn : List (Bytes × Bytes) :=
  [("--help", "--help"), ("-h", "--help"), ("--version", "--version")]

def specSpellings (spec : FlagSpec) : List (Bytes × Bytes) :=
  (spec.long, spec.long) :: if spec.short.isEmpty then [] else [(spec.short, spec.long)]

/-- Every spelling with the name of its flag, in the order of registration. -/
def spellings (table : Table) : List (Bytes × Bytes) :=
  builtIn ++ table.registered.flatMap specSpellings

def builtInKinds : List (Bytes × Kind) := [("--help", .switch), ("--version", .switch)]

def kinds (table : Table) : List (Bytes × Kind) :=
  builtInKinds ++ table.registered.map fun spec => (spec.long, spec.default.kind)

/-- The last entry under a key. -/
def last? {α : Type} (entries : List (Bytes × α)) (key : Bytes) : Option α :=
  ((entries.filter (·.1 = key)).map Prod.snd).getLast?

/-- The name of the flag that a spelling stands for. -/
def resolve? (table : Table) (spelling : Bytes) : Option Bytes := last? table.spellings spelling

/-- The name and the kind of the flag that a spelling stands for. -/
def lookup? (table : Table) (spelling : Bytes) : Option (Bytes × Kind) := do
  let name ← table.resolve? spelling
  let kind ← last? table.kinds name
  return (name, kind)

/-- The default of a flag, as it would be given. -/
def default? (table : Table) (name : Bytes) : Option Bytes :=
  last? (table.registered.filterMap fun spec => spec.default.text?.map (spec.long, ·)) name

/-- The spellings to suggest. -/
def known (table : Table) : List Bytes :=
  table.registered.flatMap fun spec => (specSpellings spec).map Prod.fst

end Table

end Elvis.Args
