import Elvis.Script.CompletionHook
import Elvis.Script.OptionHook
import Elvis.Script.Search
import Elvis.Script.ValueCheck

/-!
The script of an elvis, without the line that names its interpreter.
-/

namespace Elvis.Script

def parseArguments : List Bytes := ["w3_config", "w3_parse_args \"$@\"", ""]

/-- The sections of the script in their order. List functions are there if there are lists, the
completion hook if it is asked for and there is something to complete. -/
def lines (set : OptionSet) : List Bytes :=
  header set ++ usageHook set ++ configHook set ++
    (if set.hasLists then listHelpers else []) ++
    optionHook set ++
    (if set.settings.enableCompletions && set.hasOptions then completionHook set else []) ++
    parseArguments ++ valueChecks set ++ collapses set ++ urlParameters set ++ inlinedTerms set ++
    dispatch set

def render (set : OptionSet) : Bytes := Bytes.unlines (lines set)

end Elvis.Script
