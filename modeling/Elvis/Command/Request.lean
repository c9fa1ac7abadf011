import Elvis.Args.Query
import Elvis.Artifact
import Elvis.Command.Flags
import Elvis.Compile
import Elvis.Diagnostics

/-!
What a command line asks for: it is answered at once, or it asks for a generated file on the output
stream or in the file system.
-/

namespace Elvis.Command

open Args (CommandLine)
open Directive (Source)

inductive ExitCode
  | ok
  | usage
  | systemError
deriving DecidableEq, Repr

def ExitCode.number : ExitCode → Nat
  | ok => 0
  | usage => 64
  | systemError => 71

/-- The exit code and what is written to the two streams. -/
structure Report where
  code : ExitCode
  output : Bytes
  errors : Bytes
deriving DecidableEq, Repr

/-- A file has diagnostics written before it, and more to come after it. -/
inductive Request
  | answer (report : Report)
  | print (content : Bytes) (diagnostics : Diagnostics) (errors : Bytes)
  | write (artifact : Artifact) (diagnostics : Diagnostics) (errors : Bytes)
deriving DecidableEq, Repr

def style : Args.Style := ⟨true, true, 2⟩

/-- The first line of a script. -/
def interpreterLine : Bytes := "#!/bin/sh\n"

def usageHint : Bytes := "Run '" ++ program ++ " --help' for usage.\n"

def countOf (n : Nat) (noun : Bytes) : Bytes :=
  Bytes.decimal n ++ " " ++ noun ++ (if n = 1 then "" else "s" : Bytes)

def refused (errors : Bytes) : Request := .answer ⟨.usage, [], errors⟩

/-- The directive that a flag gives, if it gives one. A special option is given by a switch. -/
def sourceOf? (o : Args.Occurrence) : Option Source :=
  if o.name = "--use-results-option" then specialIf .results
  else if o.name = "--use-language-option" then specialIf .language
  else if List.isPrefixOf [Byte.dash, Byte.dash] o.name then
    (DirectiveType.ofName? (o.name.drop 2)).map (⟨·, o.value⟩)
  else none
where
  specialIf (kind : SpecialKind) : Option Source :=
    if o.value = Args.switchText true then some ⟨.special, kind.name⟩ else none

/-- The text of a flag that was given. -/
def given? (line : CommandLine) (flag : Bytes) : Option Bytes :=
  if line.has flag then some (line.getText flag []) else none

def settingsOf (line : CommandLine) (name baseUrl searchUrl : Bytes) : Settings :=
  { name
    baseUrl
    searchUrl
    description := given? line "--description"
    queryParameter := given? line "--query-parameter"
    appendSearchArgs := !line.getSwitch "--no-append-args" false
    enableCompletions := !line.getSwitch "--no-completions" false
    insecure := line.getSwitch "--insecure" false
    numTabs := line.getNumber "--num-tabs" 1
    generator := program }

def diagnosticsOf (terminal : Terminal) (line : CommandLine) (mode : ColorMode) : Diagnostics :=
  { program
    threshold := .ofVerbosity (line.count "--verbose") (line.getSwitch "--quiet" false)
    color := mode.enabled terminal }

/-- The generated file: the completion file, or the script with its first line. -/
def generate (completion : Bool) (settings : Settings) (sources : List Source) :
    Except CompileError Bytes :=
  if completion then compileBashCompletion settings sources
  else (compile settings sources).map (interpreterLine ++ ·)

/-- An elvis can be run, a completion file is only read. -/
def modeOf (completion : Bool) : Nat := if completion then 0o644 else 0o755

/-- Where the generated file goes: without an order to the contrary, to a file named for the
elvis. -/
def outputPath (line : CommandLine) (completion : Bool) (name : Bytes) : Bytes :=
  (given? line "--output").getD (if completion then name ++ ".completion" else name)

/-- Compiles an elvis and says where its file goes. -/
def compileRequest (diagnostics : Diagnostics) (line : CommandLine)
    (name baseUrl searchUrl : Bytes) : Request :=
  let settings := settingsOf line name baseUrl searchUrl
  let sources := line.parsed.occurrences.filterMap sourceOf?
  let errors := diagnostics.debug
    ("compiling " ++ countOf sources.length "directive" ++ " for '" ++ name ++ "'")
  let completion := line.getSwitch "--bash-completion" false
  match generate completion settings sources with
  | .error e =>
      refused (errors ++ diagnostics.error e.describe ++ diagnostics.debug e.kind.name)
  | .ok content =>
      let path := outputPath line completion name
      if path = "-" then .print content diagnostics errors
      else .write ⟨path, name, content, modeOf completion⟩ diagnostics errors

/-- Help and version need nothing else; an elvis needs a name and two URLs. -/
def lineRequest (diagnostics : Diagnostics) (line : CommandLine) : Request :=
  if line.getSwitch "--help" false then .answer ⟨.ok, usage, []⟩
  else if line.getSwitch "--version" false then
    .answer ⟨.ok, Bytes.unlines [versionStamp program], []⟩
  else
    match line.parsed.positionals with
    | [name, baseUrl, searchUrl] => compileRequest diagnostics line name baseUrl searchUrl
    | words =>
        refused
          (diagnostics.error
            ("expected NAME BASE_URL SEARCH_URL, got " ++ countOf words.length "argument") ++
            usageHint)

/-- What the words after the name of the program ask for. -/
def request (terminal : Terminal) (words : List Bytes) : Request :=
  let line := CommandLine.ofWords table style words
  let plain : Diagnostics := ⟨program, .warning, ColorMode.auto.enabled terminal⟩
  match line.parsed.error with
  | some e => refused (plain.error e.message ++ usageHint)
  | none =>
      let colorName := line.getText "--color" "auto"
      match ColorMode.ofName? colorName with
      | none =>
          refused
            (plain.error
              ("invalid argument \"" ++ colorName ++
                "\" for \"--color\"; must be auto, always or never"))
      | some mode => lineRequest (diagnosticsOf terminal line mode) line

/-- What is reported of content for the output stream. -/
def printed (outputWorks : Bool) (content : Bytes) (diagnostics : Diagnostics) (errors : Bytes) :
    Report :=
  if outputWorks then ⟨.ok, content, errors⟩
  else ⟨.systemError, [], errors ++ diagnostics.error "cannot write to standard output"⟩

/-- What is reported of a file, by how writing it went. -/
def written (artifact : Artifact) (diagnostics : Diagnostics) (errors : Bytes) :
    Option WriteFailure → Report
  | none => ⟨.ok, [], errors ++ diagnostics.info ("wrote '" ++ artifact.path ++ "'")⟩
  | some failure => ⟨.systemError, [], errors ++ diagnostics.error failure.message⟩

/-- Runs a command line with the given calls of the system. Nothing arrives on an output stream
that does not work. -/
def runWith (calls : SystemCalls) (terminal : Terminal) (outputWorks : Bool) (fs : FileSystem)
    (words : List Bytes) : Report × FileSystem :=
  match request terminal words with
  | .answer report => (if outputWorks then report else { report with output := [] }, fs)
  | .print content diagnostics errors => (printed outputWorks content diagnostics errors, fs)
  | .write artifact diagnostics errors =>
      let (fs, failure) := artifact.write calls fs
      (written artifact diagnostics errors failure, fs)

/-- Runs a command line in a file system. -/
def run (terminal : Terminal) (outputWorks : Bool) (fs : FileSystem) (words : List Bytes) :
    Report × FileSystem :=
  runWith FileSystem.calls terminal outputWorks fs words

end Elvis.Command
