import Elvis.Bytes

/-!
A file system as far as writing one file needs it: directories, regular files with their modes, and
the calls that create a temporary file, write to it and rename it, with the errors they report.
-/

namespace Elvis

/-- The names from the root down. -/
abbrev Location := List Bytes

structure File where
  mode : Nat
  content : Bytes
deriving DecidableEq, Repr

/-- Relative paths start at `here`. The root is a directory even when it is not listed. -/
structure FileSystem where
  directories : List Location
  files : List (Location × File)
  here : Location
deriving DecidableEq, Repr

/-- The errors of these calls, and any `other` error by its text. -/
inductive SystemError
  | noEntry
  | notDirectory
  | isDirectory
  | nameTooLong
  | busy
  | invalidArgument
  | fileExists
  | other (text : Bytes)
deriving DecidableEq, Repr

def SystemError.message : SystemError → Bytes
  | noEntry => "No such file or directory"
  | notDirectory => "Not a directory"
  | isDirectory => "Is a directory"
  | nameTooLong => "File name too long"
  | busy => "Device or resource busy"
  | invalidArgument => "Invalid argument"
  | fileExists => "File exists"
  | other text => text

namespace FileSystem

/-- The longest name in a directory. -/
def nameLimit : Nat := 255

/-- A path must be shorter. -/
def pathLimit : Nat := 4096

/-- System calls read a path up to its first zero byte. -/
def callText (path : Bytes) : Bytes := path.takeWhile (· != 0)

def isDirectory (fs : FileSystem) (location : Location) : Bool :=
  location.isEmpty || fs.directories.contains location

def file? (fs : FileSystem) (location : Location) : Option File :=
  (fs.files.find? (·.1 = location)).map Prod.snd

/-- One step down from a directory. -/
def enter (fs : FileSystem) (location : Location) (name : Bytes) : Except SystemError Location :=
  if name = "." then .ok location
  else if name = ".." then .ok location.dropLast
  else if nameLimit < name.length then .error .nameTooLong
  else if fs.isDirectory (location ++ [name]) then .ok (location ++ [name])
  else if (fs.file? (location ++ [name])).isSome then .error .notDirectory
  else .error .noEntry

/-- Where a path ends: the directory it leads to, and a last name that may or may not be there. A
path of slashes only has an empty last name. -/
structure Place where
  parent : Location
  name : Bytes
  slashAfter : Bool
deriving DecidableEq, Repr

def place (fs : FileSystem) (path : Bytes) : Except SystemError Place :=
  if path.isEmpty then .error .noEntry
  else if pathLimit ≤ path.length then .error .nameTooLong
  else do
    let start := if path.head? = some Byte.slash then [] else fs.here
    let names := (Bytes.split Byte.slash path).filter (!·.isEmpty)
    let parent ← names.dropLast.foldlM fs.enter start
    return ⟨parent, names.getLastD [], path.getLast? = some Byte.slash⟩

/-- Names that stand for a directory that is already there. -/
def Place.isSpecial (p : Place) : Bool := p.name.isEmpty || p.name = "." || p.name = ".."

def Place.location (p : Place) : Location := p.parent ++ [p.name]

/-- A file that is open for writing: its path, and where it is. -/
structure OpenFile where
  path : Bytes
  location : Location
deriving DecidableEq, Repr

/-- Creates a file where there is nothing yet, and opens it. -/
def create (fs : FileSystem) (path : Bytes) (file : File) :
    Except SystemError (FileSystem × OpenFile) := do
  let place ← fs.place path
  if place.isSpecial then .error .fileExists
  else if nameLimit < place.name.length then .error .nameTooLong
  else if place.slashAfter then .error .isDirectory
  else if fs.isDirectory place.location || (fs.file? place.location).isSome then .error .fileExists
  else return ({ fs with files := fs.files ++ [(place.location, file)] }, ⟨path, place.location⟩)

/-- The six bytes of a template that are replaced to make a name that is not taken. -/
def blank : Bytes := "XXXXXX"

/-- The replacement of the blank in an attempt: six digits. -/
def stamp (attempt : Nat) : Bytes :=
  let digits := Bytes.decimal attempt
  List.replicate (blank.length - digits.length) Byte.zero ++ digits

/-- The text of a template before its blank and after it, when what follows the blank has
`suffixLength` bytes. -/
def cutTemplate? (template : Bytes) (suffixLength : Nat) : Option (Bytes × Bytes) :=
  let body := template.take (template.length - suffixLength)
  let before := body.take (body.length - blank.length)
  if before ++ blank ++ template.drop body.length = template ∧ suffixLength ≤ template.length then
    some (before, template.drop body.length)
  else none

/-- Creates the file under the first path that is not taken. -/
def createFirst (fs : FileSystem) (file : File) :
    List Bytes → Except SystemError (FileSystem × OpenFile)
  | [] => .error .fileExists
  | path :: rest =>
      match fs.create path file with
      | .error .fileExists => fs.createFirst file rest
      | result => result

/-- A temporary file is empty, and only its owner may read and write it. -/
def emptyFile : File := ⟨0o600, []⟩

/-- So many stamps have six digits. -/
def stampLimit : Nat := 1000000

/-- Creates and opens an empty file whose path is the template with its blank filled in. Of so many
attempts, one finds a path that is not taken, unless all stamps are. -/
def createTemporary (fs : FileSystem) (template : Bytes) (suffixLength : Nat) :
    Except SystemError (FileSystem × OpenFile) :=
  match cutTemplate? (callText template) suffixLength with
  | none => .error .invalidArgument
  | some (before, suffix) =>
      let attempts := List.range (min stampLimit (fs.files.length + fs.directories.length + 1))
      fs.createFirst emptyFile (attempts.map fun attempt => before ++ stamp attempt ++ suffix)

/-- Changes the file at the location. -/
def update (fs : FileSystem) (location : Location) (change : File → File) : FileSystem :=
  { fs with
    files := fs.files.map fun entry =>
      if entry.1 = location then (entry.1, change entry.2) else entry }

/-- Writes bytes behind those that the file holds. -/
def append (fs : FileSystem) (location : Location) (bytes : Bytes) : FileSystem :=
  fs.update location fun file => { file with content := file.content ++ bytes }

def setMode (fs : FileSystem) (location : Location) (mode : Nat) : FileSystem :=
  fs.update location fun file => { file with mode }

/-- Puts the file at the source in the place of what is at the target, in one step. -/
def rename (fs : FileSystem) (source target : Bytes) : Except SystemError FileSystem := do
  let old ← fs.place (callText source)
  let new ← fs.place (callText target)
  if old.isSpecial || new.isSpecial then .error .busy
  else
    match fs.file? old.location with
    | none => .error .noEntry
    | some file =>
        if nameLimit < new.name.length then .error .nameTooLong
        else if new.slashAfter then .error .notDirectory
        else if fs.isDirectory new.location then .error .isDirectory
        else
          let others := fs.files.filter fun entry =>
            entry.1 ≠ old.location && entry.1 ≠ new.location
          return { fs with files := others ++ [(new.location, file)] }

end FileSystem

/-- How the system answers a call that writes to an open file. -/
inductive WriteAnswer
  /-- So many of the bytes are written, or all of them if there are no more. -/
  | accepted (count : Nat)
  /-- A signal came before anything was written. -/
  | interrupted
  | failed (error : SystemError)
deriving DecidableEq, Repr

/-- The calls of the system that put a file in its place, and how it answers the calls on the open
file. There is one answer for each write, and writes after the last answer write everything. -/
structure SystemCalls where
  createTemporary :
    FileSystem → Bytes → Nat → Except SystemError (FileSystem × FileSystem.OpenFile)
  writes : List WriteAnswer
  sync : Option SystemError
  setMode : Option SystemError
  close : Option SystemError
  rename : FileSystem → Bytes → Bytes → Except SystemError FileSystem

/-- The calls as they go in a file system that is always ready to write. -/
def FileSystem.calls : SystemCalls :=
  { createTemporary
    writes := []
    sync := none
    setMode := none
    close := none
    rename }

end Elvis
