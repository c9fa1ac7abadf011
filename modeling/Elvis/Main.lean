import Elvis.Command.Request

/-!
The command line program: it asks the library what its arguments request, and does that with the
real streams and files.
-/

namespace Elvis.Main

def textOf (s : Bytes) : String := (String.fromUTF8? ⟨s.toArray⟩).getD ""

/-- What the system says of an error. -/
def reason : IO.Error → SystemError
  | .otherError _ text | .resourceBusy _ text | .resourceVanished _ text
  | .unsupportedOperation _ text | .hardwareFault _ text | .unsatisfiedConstraints _ text
  | .illegalOperation _ text | .protocolError _ text | .timeExpired _ text
  | .alreadyExists _ _ text | .interrupted _ _ text | .noFileOrDirectory _ _ text
  | .invalidArgument _ _ text | .permissionDenied _ _ text | .resourceExhausted _ _ text
  | .inappropriateType _ _ text | .noSuchThing _ _ text | .userError text =>
      .other (Bytes.ofString text)
  | .unexpectedEof => .other "Input/output error"

def rights (mode : Nat) : IO.FileRight :=
  let access (shift : Nat) : IO.AccessRight :=
    ⟨mode.testBit (shift + 2), mode.testBit (shift + 1), mode.testBit shift⟩
  ⟨access 6, access 3, access 0⟩

def terminal : IO Terminal := do
  let isTerminal ← (← IO.getStderr).isTty
  return ⟨isTerminal, (← IO.getEnv "NO_COLOR").isSome, (← IO.getEnv "TERM") == some "dumb"⟩

/-- Whether all of the content arrived. -/
def send (stream : IO.FS.Stream) (content : Bytes) : IO Bool := do
  try
    stream.write ⟨content.toArray⟩
    stream.flush
    return true
  catch _ => return false

/-- Creates a file that was not there, trying other stamps while the name is taken. -/
def createTemporary (before suffix : Bytes) :
    Nat → IO (Except SystemError (Bytes × IO.FS.Handle))
  | 0 => return .error .fileExists
  | attempts + 1 => do
      let path := before ++ FileSystem.stamp (← IO.rand 0 999999) ++ suffix
      try
        return .ok (path, ← IO.FS.Handle.mk (textOf path) .writeNew)
      catch
        | .alreadyExists .. => createTemporary before suffix attempts
        | e => return .error (reason e)

def fill (temporary : Bytes) (file : IO.FS.Handle) (artifact : Artifact) :
    IO (Option SystemError) := do
  try
    file.write ⟨artifact.content.toArray⟩
    file.flush
    IO.setAccessRights (textOf temporary) (rights artifact.mode)
    return none
  catch e => return some (reason e)

def install (temporary path : Bytes) : IO (Option SystemError) := do
  try
    IO.FS.rename (textOf temporary) (textOf path)
    return none
  catch e => return some (reason e)

/-- Writes an artifact and says what went wrong, if something did. -/
def writeArtifact (artifact : Artifact) : IO (Option WriteFailure) := do
  let directory := Artifact.directoryOf artifact.path
  match FileSystem.cutTemplate? artifact.template Artifact.temporarySuffix.length with
  | none => return some (.noTemporary directory .invalidArgument)
  | some (before, suffix) =>
      match ← createTemporary before suffix 1000 with
      | .error e => return some (.noTemporary directory e)
      | .ok (temporary, file) =>
          match ← fill temporary file artifact with
          | some e => return some (.notWritten temporary e)
          | none =>
              return (← install temporary artifact.path).map (.notRenamed temporary artifact.path)

def perform : Command.Request → IO Command.Report
  | .answer report => return report
  | .print content diagnostics errors => do
      let arrived ← send (← IO.getStdout) content
      return { Command.printed arrived content diagnostics errors with output := [] }
  | .write artifact diagnostics errors => do
      return Command.written artifact diagnostics errors (← writeArtifact artifact)

end Elvis.Main

def main (args : List String) : IO UInt32 := do
  let words := args.map Elvis.Bytes.ofString
  let report ← Elvis.Main.perform (Elvis.Command.request (← Elvis.Main.terminal) words)
  let _ ← Elvis.Main.send (← IO.getStdout) report.output
  let _ ← Elvis.Main.send (← IO.getStderr) report.errors
  return report.code.number.toUInt32
