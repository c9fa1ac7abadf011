import Elvis.Args.Table
import Elvis.Suggest

/-!
Reading a command line. A flag with a value is `--long VALUE`, `--long=VALUE`, `-s VALUE`, `-sVALUE`
or `-s=VALUE`; short switches can be grouped. The words are read from the left, one at a time; what
is read before the first error is kept.
-/

namespace Elvis.Args

/-- How a command line is read. -/
structure Style where
  grouping : Bool
  suggest : Bool
  suggestDistance : Nat
deriving DecidableEq, Repr

/-- A flag that was given, under its name, and its value. -/
structure Occurrence where
  name : Bytes
  value : Bytes
deriving DecidableEq, Repr

inductive ParseError
  | unknownFlag (spelling : Bytes) (suggestions : List Bytes)
  | takesNoValue (spelling : Bytes)
  | needsArgument (spelling : Bytes)
  | invalidArgument (value name : Bytes)
deriving DecidableEq, Repr

/-- What was read, each part in the order of the command line. -/
structure Parsed where
  occurrences : List Occurrence
  positionals : List Bytes
  error : Option ParseError
deriving DecidableEq, Repr

/-- Between two words: any word may follow, or the next word is the value of a flag. -/
inductive State
  | free
  | awaiting (spelling name : Bytes) (kind : Kind)
deriving DecidableEq, Repr

/-- What one word yields: the flags in it, and an error or what may follow. -/
structure Reading where
  occurrences : List Occurrence
  next : Except ParseError State

namespace ParseError

def suggestionBlock (suggestions : List Bytes) : Bytes :=
  if suggestions.isEmpty then []
  else "\n\nDid you mean this?\n" ++ Bytes.unlines (suggestions.map fun s => "  " ++ s)

def message : ParseError → Bytes
  | unknownFlag spelling suggestions =>
      "unknown flag: " ++ spelling ++ suggestionBlock suggestions
  | takesNoValue spelling => "flag does not take a value: " ++ spelling
  | needsArgument spelling => "flag needs an argument: " ++ spelling
  | invalidArgument value name => "invalid argument \"" ++ value ++ "\" for \"" ++ name ++ "\""

end ParseError

namespace Parsed

def failed (error : ParseError) : Parsed := ⟨[], [], some error⟩

def after (occurrences : List Occurrence) (parsed : Parsed) : Parsed :=
  { parsed with occurrences := occurrences ++ parsed.occurrences }

def afterPositional (word : Bytes) (parsed : Parsed) : Parsed :=
  { parsed with positionals := word :: parsed.positionals }

end Parsed

namespace Reading

def failed (error : ParseError) : Reading := ⟨[], .error error⟩

def after (occurrence : Occurrence) (reading : Reading) : Reading :=
  { reading with occurrences := occurrence :: reading.occurrences }

end Reading

def unknownFlag (table : Table) (style : Style) (spelling : Bytes) : ParseError :=
  .unknownFlag spelling
    (if style.suggest then suggest spelling table.known 3 style.suggestDistance else [])

/-- Records the value of a flag, if it takes it. -/
def readValue (name : Bytes) (kind : Kind) (value : Bytes) : Reading :=
  match kind.accept? value with
  | some text => ⟨[⟨name, text⟩], .ok .free⟩
  | none => .failed (.invalidArgument value name)

/-- A flag and its value in one word, an equals sign between them. -/
def readAssignment (table : Table) (style : Style) (spelling value : Bytes) : Reading :=
  match table.lookup? spelling with
  | none => .failed (unknownFlag table style spelling)
  | some (_, .count) => .failed (.takesNoValue spelling)
  | some (name, kind) => readValue name kind value

/-- A flag in a word of its own. -/
def readAlone (table : Table) (style : Style) (spelling : Bytes) : Reading :=
  match table.lookup? spelling with
  | none => .failed (unknownFlag table style spelling)
  | some (name, kind) =>
      match kind.alone? with
      | some text => ⟨[⟨name, text⟩], .ok .free⟩
      | none => ⟨[], .ok (.awaiting spelling name kind)⟩

/-- Short flags in one word. What follows the first that needs a value is the value. -/
def readGroup (table : Table) (style : Style) : Bytes → Reading
  | [] => ⟨[], .ok .free⟩
  | b :: rest =>
      let spelling := [Byte.dash, b]
      match table.lookup? spelling with
      | none => .failed (unknownFlag table style spelling)
      | some (name, kind) =>
          match kind.alone? with
          | some text => (readGroup table style rest).after ⟨name, text⟩
          | none =>
              if rest.isEmpty then ⟨[], .ok (.awaiting spelling name kind)⟩
              else readValue name kind rest

/-- Begins with a dash and is not a dash alone. -/
def isFlagWord : Bytes → Bool
  | b :: _ :: _ => b == Byte.dash
  | _ => false

/-- More than one byte after a single dash. -/
def isGroupWord : Bytes → Bool
  | b :: second :: _ :: _ => b == Byte.dash && second != Byte.dash
  | _ => false

def readFlagWord (table : Table) (style : Style) (word : Bytes) : Reading :=
  match word.cut Byte.equals with
  | (spelling, some value) => readAssignment table style spelling value
  | (_, none) =>
      if style.grouping && isGroupWord word then readGroup table style word.tail
      else readAlone table style word

/-- Every word after this one is positional. -/
def terminator : Bytes := "--"

/-- Reads the words that follow a state. -/
def parseFrom (table : Table) (style : Style) : State → List Bytes → Parsed
  | .free, [] => ⟨[], [], none⟩
  | .awaiting spelling _ _, [] => .failed (.needsArgument spelling)
  | .awaiting _ name kind, word :: rest =>
      let reading := readValue name kind word
      match reading.next with
      | .error error => ⟨reading.occurrences, [], some error⟩
      | .ok state => (parseFrom table style state rest).after reading.occurrences
  | .free, word :: rest =>
      if word = terminator then ⟨[], rest, none⟩
      else if isFlagWord word then
        let reading := readFlagWord table style word
        match reading.next with
        | .error error => ⟨reading.occurrences, [], some error⟩
        | .ok state => (parseFrom table style state rest).after reading.occurrences
      else (parseFrom table style .free rest).afterPositional word

def parse (table : Table) (style : Style) (words : List Bytes) : Parsed :=
  parseFrom table style .free words

end Elvis.Args
