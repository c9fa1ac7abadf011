import Elvis.Script.Header

/-!
Comma-separated lists in the script: shell functions that split a list at its commas, and the loop
over the items of one.
-/

namespace Elvis.Script

/-- Makes commas split words and keeps patterns from matching files. -/
def enterListContext : List Bytes :=
  ["_sr_in_list_context=no",
   "_sr_enter_list_context () \x7b",
   "    if [ \"$_sr_in_list_context\" = yes ]; then",
   "        err \"already in a list context\"",
   "    fi",
   "    _sr_in_list_context=yes",
   "    _sr_saved_ifs=\"$IFS\"",
   "    case \"$-\" in",
   "        *f*) _sr_noglob_was_set=yes ;;",
   "        *) _sr_noglob_was_set=no ;;",
   "    esac",
   "    IFS=,",
   "    set -f",
   "\x7d"]

/-- Splits words and matches files as before. -/
def leaveListContext : List Bytes :=
  ["_sr_leave_list_context () \x7b",
   "    if [ \"$_sr_in_list_context\" = no ]; then",
   "        err \"not in a list context\"",
   "    fi",
   "    IFS=\"$_sr_saved_ifs\"",
   "    if [ \"$_sr_noglob_was_set\" = no ]; then",
   "        set +f",
   "    fi",
   "    _sr_in_list_context=no",
   "\x7d"]

/-- Appends the items of `$2` to the list in the variable that `$1` names. -/
def listAdd : List Bytes :=
  ["_sr_list_add () \x7b",
   "    eval \"_sr_current=\\\"\\$\x7b$1\x7d\\\"\"",
   "    if [ -z \"$_sr_current\" ]; then",
   "        eval \"$1=\\\"\\$2\\\"\"",
   "    else",
   "        eval \"$1=\\\"\\$\x7b_sr_current\x7d,\\$2\\\"\"",
   "    fi",
   "\x7d"]

/-- Removes every item that is one of `$2` from the list in the variable that `$1` names. -/
def listRemove : List Bytes :=
  ["_sr_list_remove () \x7b",
   "    eval \"_sr_current=\\\"\\$\x7b$1\x7d\\\"\"",
   "    _sr_result=",
   "    _sr_enter_list_context",
   "    for _sr_elem in $_sr_current; do",
   "        _sr_keep=yes",
   "        for _sr_pat in $2; do",
   "            if [ -n \"$_sr_pat\" ] && [ \"$_sr_elem\" = \"$_sr_pat\" ]; then",
   "                _sr_keep=no",
   "                break",
   "            fi",
   "        done",
   "        if [ \"$_sr_keep\" = yes ]; then",
   "            _sr_result=\"$\x7b_sr_result\x7d,$\x7b_sr_elem\x7d\"",
   "        fi",
   "    done",
   "    _sr_leave_list_context",
   "    eval \"$1=\\\"\\$\x7b_sr_result#,\x7d\\\"\"",
   "\x7d"]

def listClear : List Bytes := ["_sr_list_clear () \x7b", "    eval \"$1=\"", "\x7d"]

/-- The functions that the rest of the script changes and reads lists with. -/
def listHelpers : List Bytes :=
  enterListContext ++ leaveListContext ++ listAdd ++ listRemove ++ listClear ++ [[]]

/-- Runs the body once for each item of a list variable, with the item in `_sr_elem`. -/
def forEachItem (listVariable : Bytes) (body : List Bytes) : List Bytes :=
  let opening : List Bytes :=
    ["_sr_enter_list_context", "for _sr_elem in $" ++ listVariable ++ "; do"]
  let closing : List Bytes := ["done", "_sr_leave_list_context"]
  opening ++ body.map indent ++ closing

end Elvis.Script
