import Elvis.Proofs.Bytes.Affix
import Mathlib.Logic.Function.Basic

/-!
# Running assignments

A small part of a POSIX shell: assignments of double-quoted words, in which variables and the
escaping of a value for a URL are expanded, and loops over the items of a list variable. Lines are
read from their text; where they say anything else, the run fails.
-/

namespace Elvis.Shell

open Byte

/-! ## Words -/

/-- The values of the variables. -/
abbrev Env := Bytes → Bytes

/-- What the lines rely on: the items that the value of a list variable splits into, and what
`w3_url_escape` prints. -/
structure Runtime where
  items : Bytes → List Bytes
  urlEscape : Bytes → Bytes

def isNameByte (b : UInt8) : Bool := isLetter b || isDigit b || b == underscore

/-- The name of a variable. -/
def isName : Bytes → Bool
  | [] => false
  | b :: rest => (isLetter b || b == underscore) && rest.all isNameByte

/-- A byte that stands for itself in double quotes. -/
def isPlain (b : UInt8) : Bool :=
  b != doubleQuote && b != dollar && b != backslash && b != backquote

/-- The same for the inside of braces. -/
def isPlainInBraces (b : UInt8) : Bool := isPlain b && b != closingBrace

/-- The name at the beginning of the text, and what follows it. -/
def readName (text : Bytes) : Option (Bytes × Bytes) :=
  if isName (text.takeWhile isNameByte) then
    some (text.takeWhile isNameByte, text.dropWhile isNameByte)
  else none

/-- The value without one ampersand at its beginning. -/
def withoutAmpersand (value : Bytes) : Bytes := (value.dropPrefix? "&").getD value

/-- The value, or the fallback where it is empty. -/
def orElse (value fallback : Bytes) : Bytes := if value = [] then fallback else value

/-- What `$\x7bNAME\x7d`, `$\x7bNAME#&\x7d` and `$\x7bNAME:-WORD\x7d` stand for, read from behind
the name on, and what follows them. -/
def expandBraces (value text : Bytes) : Option (Bytes × Bytes) :=
  let plain := (text.dropPrefix? "\x7d").map (value, ·)
  let stripped := (text.dropPrefix? "#&\x7d").map (withoutAmpersand value, ·)
  let replaced := do
    let text ← text.dropPrefix? ":-"
    let rest ← (text.dropWhile isPlainInBraces).dropPrefix? "\x7d"
    some (orElse value (text.takeWhile isPlainInBraces), rest)
  plain.or (stripped.or replaced)

/-- What stands behind a dollar sign. -/
def expandDollar (r : Runtime) (env : Env) (text : Bytes) : Option (Bytes × Bytes) :=
  let braces := do
    let text ← text.dropPrefix? "\x7b"
    let (name, text) ← readName text
    expandBraces (env name) text
  let escaped := do
    let text ← text.dropPrefix? "(w3_url_escape \"$"
    let (name, text) ← readName text
    let rest ← text.dropPrefix? "\")"
    some (r.urlEscape (env name), rest)
  braces.or escaped

theorem length_readName_le {text name rest : Bytes} (h : readName text = some (name, rest)) :
    rest.length ≤ text.length := by
  unfold readName at h
  split at h
  · cases h
    exact (List.dropWhile_sublist _).length_le
  · cases h

theorem length_expandBraces_le {value text result rest : Bytes}
    (h : expandBraces value text = some (result, rest)) : rest.length ≤ text.length := by
  simp only [expandBraces, Option.or_eq_some_iff, Option.map_eq_some_iff, Option.bind_eq_bind,
    Option.bind_eq_some_iff, Option.some.injEq, Prod.mk.injEq] at h
  rcases h with ⟨_, h, _, rfl⟩ | ⟨_, ⟨_, h, _, rfl⟩ | ⟨_, text', h, _, h', _, rfl⟩⟩
  · exact Bytes.length_dropPrefix?_le h
  · exact Bytes.length_dropPrefix?_le h
  · have hword : (text'.dropWhile isPlainInBraces).length ≤ text'.length :=
      (List.dropWhile_sublist _).length_le
    have hopening := Bytes.length_dropPrefix?_le h
    have hclosing := Bytes.length_dropPrefix?_le h'
    omega

theorem length_expandDollar_le {r : Runtime} {env : Env} {text result rest : Bytes}
    (h : expandDollar r env text = some (result, rest)) : rest.length ≤ text.length := by
  simp only [expandDollar, Option.or_eq_some_iff, Option.bind_eq_bind, Option.bind_eq_some_iff,
    Option.some.injEq, Prod.mk.injEq, Prod.exists] at h
  rcases h with ⟨_, hopening, _, _, hname, hclosing⟩ |
    ⟨_, _, hopening, _, _, hname, _, hclosing, _, rfl⟩
  · have hopening := Bytes.length_dropPrefix?_le hopening
    have hname := length_readName_le hname
    have hclosing := length_expandBraces_le hclosing
    omega
  · have hopening := Bytes.length_dropPrefix?_le hopening
    have hname := length_readName_le hname
    have hclosing := Bytes.length_dropPrefix?_le hclosing
    omega

/-- The value of a word in double quotes that ends the line, read from behind its first quote. -/
def expand (r : Runtime) (env : Env) : Bytes → Option Bytes
  | [] => none
  | b :: text =>
      if b = doubleQuote then if text = [] then some [] else none
      else if b = dollar then
        match _h : expandDollar r env text with
        | some (value, rest) => (expand r env rest).map (value ++ ·)
        | none => none
      else if isPlain b then (expand r env text).map (b :: ·)
      else none
termination_by text => text.length
decreasing_by
  · exact Nat.lt_succ_of_le (length_expandDollar_le _h)
  · exact Nat.lt_succ_self _

/-! ## Lines -/

/-- The assignment of nothing, or of a word in double quotes. -/
def assign (r : Runtime) (env : Env) (line : Bytes) : Option Env := do
  let (target, text) ← readName line
  let word ← text.dropPrefix? "="
  let value ← if word = [] then some [] else (word.dropPrefix? "\"").bind (expand r env)
  some (Function.update env target value)

/-- Where a run stands: outside of lists, between the lines that enter and leave the list context,
or in a loop over the items of a variable, with the lines of its body so far. -/
inductive Context
  | outside
  | inList
  | inLoop (listVariable : Bytes) (body : List Bytes)
deriving DecidableEq, Repr

structure State where
  context : Context
  env : Env

/-- Runs the assignments once for each item, with the item in `_sr_elem`. -/
def runLoop (r : Runtime) (body : List Bytes) (env : Env) (items : List Bytes) : Option Env :=
  items.foldlM (fun env item => body.foldlM (assign r) (Function.update env "_sr_elem" item)) env

/-- The variable of a loop over the items of a list. -/
def loopVariable? (line : Bytes) : Option Bytes := do
  let name ← Bytes.between? "for _sr_elem in $" "; do" line
  if isName name then some name else none

def step (r : Runtime) (state : State) (line : Bytes) : Option State :=
  match state.context with
  | .outside =>
      if line = [] then some state
      else if line = "_sr_enter_list_context" then some { state with context := .inList }
      else (assign r state.env line).map ({ state with env := · })
  | .inList =>
      if line = "_sr_leave_list_context" then some { state with context := .outside }
      else (loopVariable? line).map fun name => { state with context := .inLoop name [] }
  | .inLoop name body =>
      if line = "done" then
        (runLoop r body state.env (r.items name)).map fun env => ⟨.inList, env⟩
      else some { state with context := .inLoop name (body ++ [line.dropWhile (· = space)]) }

def run (r : Runtime) (lines : List Bytes) (state : State) : Option State :=
  lines.foldlM (step r) state

variable {r : Runtime} {env env' : Env} {name text rest line : Bytes} {b : UInt8}

/-! ## Reading names -/

theorem isNameByte_of_mem (h : isName name) : ∀ b ∈ name, isNameByte b := by
  cases name with
  | nil => cases h
  | cons first others =>
    simp only [isName, Bool.and_eq_true, Bool.or_eq_true, List.all_eq_true] at h
    obtain ⟨hfirst, hothers⟩ := h
    refine List.forall_mem_cons.mpr ⟨?_, hothers⟩
    unfold isNameByte
    rcases hfirst with hletter | hunderscore
    · simp [hletter]
    · simp [hunderscore]

theorem readName_append (h : isName name) (hb : isNameByte b = false) :
    readName (name ++ b :: rest) = some (name, b :: rest) := by
  have hbytes := isNameByte_of_mem h
  have htake : (name ++ b :: rest).takeWhile isNameByte = name := by
    rw [List.takeWhile_append_of_pos hbytes, List.takeWhile_cons_of_neg (by simp [hb]),
      List.append_nil]
  have hdrop : (name ++ b :: rest).dropWhile isNameByte = b :: rest := by
    rw [List.dropWhile_append_of_pos hbytes, List.dropWhile_cons_of_neg (by simp [hb])]
  unfold readName
  rw [htake, hdrop, if_pos h]

/-! ## Expanding words -/

theorem expand_plain (h : isPlain b) :
    expand r env (b :: text) = (expand r env text).map (b :: ·) := by
  have hquote : b ≠ doubleQuote := by
    rintro rfl
    cases h
  have hdollar : b ≠ dollar := by
    rintro rfl
    cases h
  rw [expand, if_neg hquote, if_neg hdollar, if_pos h]

theorem expand_text (h : ∀ b ∈ text, isPlain b) :
    expand r env (text ++ rest) = (expand r env rest).map (text ++ ·) := by
  induction text with
  | nil => simp
  | cons b text ih =>
    obtain ⟨hb, htext⟩ := List.forall_mem_cons.mp h
    rw [List.cons_append, expand_plain hb, ih htext, Option.map_map]
    rfl

theorem expand_dollar {value : Bytes} (h : expandDollar r env text = some (value, rest)) :
    expand r env (dollar :: text) = (expand r env rest).map (value ++ ·) := by
  rw [expand, if_neg (by decide), if_pos rfl]
  split
  · next h' =>
    rw [h] at h'
    cases h'
    rfl
  · next h' =>
    rw [h] at h'
    cases h'

theorem expandDollar_braces (h : isName name) (hb : isNameByte b = false) {result : Bytes × Bytes}
    (hresult : expandBraces (env name) (b :: text) = some result) :
    expandDollar r env ("\x7b" ++ (name ++ b :: text)) = some result := by
  unfold expandDollar
  simp only [Bytes.dropPrefix?_append, readName_append h hb, Option.bind_eq_bind, Option.bind_some,
    hresult, Option.some_or]

theorem expandDollar_urlEscape (h : isName name) :
    expandDollar r env ("(w3_url_escape \"$" ++ (name ++ ("\")" ++ rest))) =
      some (r.urlEscape (env name), rest) := by
  have hname : readName (name ++ ("\")" ++ rest)) = some (name, "\")" ++ rest) :=
    readName_append h rfl
  unfold expandDollar
  simp only [Bytes.dropPrefix?_append, hname, Option.bind_eq_bind, Option.bind_some]
  rfl

theorem expandBraces_value {value : Bytes} :
    expandBraces value ("\x7d" ++ rest) = some (value, rest) := by
  unfold expandBraces
  rw [Bytes.dropPrefix?_append]
  rfl

theorem expandBraces_withoutAmpersand {value : Bytes} :
    expandBraces value ("#&\x7d" ++ rest) = some (withoutAmpersand value, rest) := by
  unfold expandBraces
  rw [Bytes.dropPrefix?_append]
  rfl

theorem expandBraces_orElse {value fallback : Bytes} (h : ∀ b ∈ fallback, isPlainInBraces b) :
    expandBraces value (":-" ++ (fallback ++ ("\x7d" ++ rest))) =
      some (orElse value fallback, rest) := by
  have htake : (fallback ++ ("\x7d" ++ rest)).takeWhile isPlainInBraces = fallback := by
    rw [List.takeWhile_append_of_pos h]
    exact List.append_nil _
  have hdrop : (fallback ++ ("\x7d" ++ rest)).dropWhile isPlainInBraces = "\x7d" ++ rest := by
    rw [List.dropWhile_append_of_pos h]
    rfl
  unfold expandBraces
  simp only [Bytes.dropPrefix?_append, htake, hdrop, Option.bind_eq_bind, Option.bind_some]
  rfl

/-! ## Running lines -/

theorem run_cons (r : Runtime) (lines : List Bytes) (state : State) :
    run r (line :: lines) state = (step r state line).bind (run r lines) :=
  List.foldlM_cons

theorem run_append (r : Runtime) (lines lines' : List Bytes) (state : State) :
    run r (lines ++ lines') state = (run r lines state).bind (run r lines') :=
  List.foldlM_append

/-- A line that assigns is none of the other lines. -/
theorem step_of_assign (h : assign r env line = some env') :
    step r ⟨.outside, env⟩ line = some ⟨.outside, env'⟩ := by
  have hempty : line ≠ [] := by
    rintro rfl
    cases h
  have henter : line ≠ "_sr_enter_list_context" := by
    rintro rfl
    cases h
  unfold step
  dsimp only
  rw [if_neg hempty, if_neg henter, h]
  rfl

end Elvis.Shell
