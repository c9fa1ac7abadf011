import Elvis.Completion
import Elvis.Shell.Quote
import Elvis.Version

/-!
The completion file of an elvis for bash.
-/

namespace Elvis.Completion.Bash

def functionName (set : OptionSet) : Bytes :=
  "_surfraw_" ++ Name.toIdentifier set.settings.name ++ "_complete"

/-- The function looks at the whole word under the cursor, even where `=` ends a word for bash. -/
def opening (set : OptionSet) : List Bytes :=
  ["# bash completion for the " ++ set.settings.name ++ " elvis",
   generatedBy set.settings.generator,
   functionName set ++ "() \x7b",
   "  local cur word prefix",
   "  cur=\"$\x7bCOMP_LINE:0:COMP_POINT\x7d\"",
   "  cur=\"$\x7bcur##*[[:space:]]\x7d\"",
   "  word=\"$\x7bcur#*=\x7d\"",
   "  prefix=\"$\x7bcur%%=*\x7d=\"",
   "  [[ \"$COMP_WORDBREAKS\" == *=* ]] && prefix=\"\"",
   "  COMPREPLY=()",
   "  case \"$cur\" in"]

/-- Offers the values after one of the labels. -/
def valueArm (completion : ValueCompletion) : List Bytes :=
  ["    " ++ Bytes.join "|" completion.labels ++ ")",
   "      COMPREPLY=( $(compgen -P \"$prefix\" -W \"" ++ Bytes.join " " completion.values ++
     "\" -- \"$word\") )",
   "      ;;"]

/-- Offers the spellings; no blank follows one that takes a value. -/
def wordArms (words : List Bytes) : List Bytes :=
  ["    -*=*)",
   "      ;;",
   "    -*)",
   "      COMPREPLY=( $(compgen -W \"" ++ Bytes.join " " words ++ "\" -- \"$cur\") )",
   "      if [[ $\x7b#COMPREPLY[@]\x7d -eq 1 && \"$\x7bCOMPREPLY[0]\x7d\" == *= ]]; then",
   "        compopt -o nospace",
   "      fi",
   "      ;;"]

def closing (set : OptionSet) : List Bytes :=
  ["  esac",
   "\x7d",
   "complete -F " ++ functionName set ++ " " ++ Shell.singleQuoted set.settings.name]

def lines (set : OptionSet) : List Bytes :=
  let completions := Completions.ofOptions set
  opening set ++ completions.values.flatMap valueArm ++
    wordArms (completions.words.map (Byte.dash :: ·)) ++ closing set

def file (set : OptionSet) : Bytes := Bytes.unlines (lines set)

end Elvis.Completion.Bash
