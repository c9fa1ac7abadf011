import Elvis.Args.Parser

/-!
Asking a command line about its flags. A flag that was given more than once has its last value; one
that was not given has its default, if it is known, and else the default of the asker.
-/

namespace Elvis.Args

/-- The values that were given to each flag, in the order in which they were given. -/
abbrev Store := List (Bytes × List Bytes)

namespace Store

/-- Puts the value behind those that the flag has. -/
def record : Store → Occurrence → Store
  | [], o => [(o.name, [o.value])]
  | (name, values) :: rest, o =>
      if name = o.name then (name, values ++ [o.value]) :: rest else (name, values) :: record rest o

def values (store : Store) (name : Bytes) : List Bytes := (store.lookup name).getD []

end Store

/-- A command line that was read by the flags of a table. -/
structure CommandLine where
  table : Table
  parsed : Parsed
deriving DecidableEq, Repr

namespace CommandLine

def ofWords (table : Table) (style : Style) (words : List Bytes) : CommandLine :=
  ⟨table, parse table style words⟩

/-- Every flag is recorded as it is read. -/
def store (line : CommandLine) : Store := line.parsed.occurrences.foldl Store.record []

/-- The values of a flag in the order in which they were given. -/
def values (line : CommandLine) (spelling : Bytes) : List Bytes :=
  match line.table.resolve? spelling with
  | some name => line.store.values name
  | none => []

def has (line : CommandLine) (spelling : Bytes) : Bool := !(line.values spelling).isEmpty

/-- The last value of the flag or its default, read by `read?`. -/
def get {α : Type} (read? : Bytes → Option α) (line : CommandLine) (spelling : Bytes)
    (default : α) : α :=
  match (line.values spelling).getLast? with
  | some value => (read? value).getD default
  | none => (((line.table.resolve? spelling).bind line.table.default?).bind read?).getD default

def getSwitch (line : CommandLine) (spelling : Bytes) (default : Bool) : Bool :=
  line.get readSwitch? spelling default

def getNumber (line : CommandLine) (spelling : Bytes) (default : Int) : Int :=
  line.get Integer.read32? spelling default

def getText (line : CommandLine) (spelling : Bytes) (default : Bytes) : Bytes :=
  line.get some spelling default

/-- The sum of the values in 32 bits; a value that is no number counts nothing. -/
def count (line : CommandLine) (spelling : Bytes) : Int :=
  let add (total : Int) (value : Bytes) : Int := total + (Integer.read32? value).getD 0
  Integer.wrap 32 ((line.values spelling).foldl add 0)

end CommandLine

end Elvis.Args
