import Elvis.Completion
import Elvis.Script.Header

/-!
The completion hook of an elvis: the values of the options whose values are known, and the
spellings of all.
-/

namespace Elvis.Script

def valueArm (completion : ValueCompletion) : Bytes :=
  indent (indent (Bytes.join "|" completion.labels ++ ") echo " ++
    Bytes.join " " completion.values ++ " ;;"))

def completionHook (set : OptionSet) : List Bytes :=
  let completions := Completions.ofOptions set
  let opening : List Bytes :=
    ["w3_complete_hook_opt () \x7b", indent "opt=\"$1\"", indent "case \"$opt\" in"]
  let closing : List Bytes :=
    [indent (indent ("*) mkopts " ++ Bytes.join " " completions.words ++ " ;;")),
     indent "esac",
     "\x7d",
     ""]
  opening ++ completions.values.map valueArm ++ closing

end Elvis.Script
