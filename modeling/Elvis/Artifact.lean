import Elvis.FileSystem

/-!
A file that the command line generates, and how it is put in its place: it is written to a
temporary file beside its path, which is then renamed, so that the path never holds a part of it.
-/

namespace Elvis

/-- A file to write for the elvis of the given name. -/
structure Artifact where
  path : Bytes
  elvisName : Bytes
  content : Bytes
  mode : Nat
deriving DecidableEq, Repr

/-- Why an artifact is not in its place. -/
inductive WriteFailure
  | noTemporary (directory : Bytes) (error : SystemError)
  | notWritten (temporary : Bytes) (error : SystemError)
  | notRenamed (temporary path : Bytes) (error : SystemError)
deriving DecidableEq, Repr

def WriteFailure.message : WriteFailure → Bytes
  | noTemporary directory error =>
      "cannot create a temporary file in '" ++ directory ++ "': " ++ error.message
  | notWritten temporary error => "cannot write '" ++ temporary ++ "': " ++ error.message
  | notRenamed temporary path error =>
      "cannot rename '" ++ temporary ++ "' to '" ++ path ++ "': " ++ error.message

namespace Artifact

/-- What comes before the last slash of a path: the current directory if there is no slash, the
root if there is nothing before it. -/
def directoryOf (path : Bytes) : Bytes :=
  match path.reverse.dropWhile (· != Byte.slash) with
  | [] => "."
  | _ :: rest => if rest.isEmpty then "/" else rest.reverse

def temporarySuffix : Bytes := ".mkelvis.tmp"

/-- The path of the temporary file, with a blank to fill in. -/
def template (artifact : Artifact) : Bytes :=
  directoryOf artifact.path ++ "/" ++ artifact.elvisName ++ "." ++ FileSystem.blank ++
    temporarySuffix

/-- Writes all of the content to the file at the location. What a write leaves over is written by
the next one, and a write that is interrupted is made again. -/
def writeAll (location : Location) :
    FileSystem → Bytes → List WriteAnswer → FileSystem × Option SystemError
  | fs, [], _ => (fs, none)
  | fs, content, [] => (fs.append location content, none)
  | fs, content, .accepted count :: answers =>
      writeAll location (fs.append location (content.take count)) (content.drop count) answers
  | fs, content, .interrupted :: answers => writeAll location fs content answers
  | fs, _, .failed e :: _ => (fs, some e)

/-- Gives the open file its content and its mode and closes it. It is also closed if that fails, and
then it does not matter how that goes. -/
def fill (calls : SystemCalls) (fs : FileSystem) (location : Location) (content : Bytes)
    (mode : Nat) : FileSystem × Option SystemError :=
  match writeAll location fs content calls.writes with
  | (fs, some e) => (fs, some e)
  | (fs, none) =>
      match calls.sync with
      | some e => (fs, some e)
      | none =>
          match calls.setMode with
          | some e => (fs, some e)
          | none => (fs.setMode location mode, calls.close)

/-- Writes the artifact. If it cannot be filled or renamed, the temporary file stays. -/
def write (calls : SystemCalls) (fs : FileSystem) (artifact : Artifact) :
    FileSystem × Option WriteFailure :=
  match calls.createTemporary fs artifact.template temporarySuffix.length with
  | .error e => (fs, some (.noTemporary (directoryOf artifact.path) e))
  | .ok (created, temporary) =>
      match fill calls created temporary.location artifact.content artifact.mode with
      | (filled, some e) => (filled, some (.notWritten temporary.path e))
      | (filled, none) =>
          match calls.rename filled temporary.path artifact.path with
          | .error e => (filled, some (.notRenamed temporary.path artifact.path e))
          | .ok renamed => (renamed, none)

end Artifact

end Elvis
