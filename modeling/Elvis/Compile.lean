import Elvis.Completion.Bash
import Elvis.Directive.Parser
import Elvis.OptionSet.Build
import Elvis.Script

/-!
From settings and directives to the files of an elvis: its script, and its completion file for
bash.
-/

namespace Elvis

open Directive (Source)

def optionSet (settings : Settings) (sources : List Source) : Except CompileError OptionSet := do
  OptionSet.build settings (← Directive.parseAll sources)

/-- The script, or the first error; nothing is rendered then. -/
def compile (settings : Settings) (sources : List Source) : Except CompileError Bytes :=
  (optionSet settings sources).map Script.render

/-- Fails on the same directives as `compile`. -/
def compileBashCompletion (settings : Settings) (sources : List Source) :
    Except CompileError Bytes :=
  (optionSet settings sources).map Completion.Bash.file

end Elvis
