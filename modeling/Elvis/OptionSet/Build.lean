import Elvis.OptionSet.Check
import Elvis.OptionSet.Declared
import Elvis.Suggest

/-!
Building the option set of an elvis from its settings and directives. The directives are gone
through four times: variables are entered first, then flags, then aliases, and last what is said
about variables. So a directive may refer to what is declared behind it. The first violated
condition refuses the elvis.
-/

namespace Elvis

namespace Urls

/-- Both URLs under the scheme that either of them names. -/
def resolve (settings : Settings) : Except Cause Urls :=
  let (baseScheme, baseRest) := Url.splitScheme settings.baseUrl
  let (searchScheme, searchRest) := Url.splitScheme settings.searchUrl
  let under (scheme : Bytes) : Urls :=
    ⟨scheme, Url.withScheme scheme baseRest, Url.withScheme scheme searchRest, baseRest⟩
  match baseScheme, searchScheme with
  | some base, some search => if base = search then .ok (under base) else .error .schemeMismatch
  | some scheme, none | none, some scheme => .ok (under scheme)
  | none, none => .ok (under (if settings.insecure then "http" else "https"))

end Urls

namespace Variable

/-- A variable that nothing refers to yet. -/
def declared (d : Declaration) : Variable := ⟨d, none, none, [], []⟩

def addAlias (name : Bytes) (v : Variable) : Variable := { v with aliases := v.aliases ++ [name] }

def addFlag (name : Bytes) (v : Variable) : Variable := { v with flags := v.flags ++ [name] }

def setMetavar (text : Bytes) (v : Variable) : Variable := { v with givenMetavar := some text }

def setDescription (text : Bytes) (v : Variable) : Variable :=
  { v with givenDescription := some text }

end Variable

def Flag.addAlias (name : Bytes) (f : Flag) : Flag := { f with aliases := f.aliases ++ [name] }

namespace OptionSet

/-- Without options, and with URLs that are still to be resolved. -/
def blank (settings : Settings) : OptionSet :=
  { settings
    urls := ⟨[], [], [], []⟩
    vars := []
    flags := []
    aliases := []
    collapses := []
    mappings := []
    inlinings := []
    variableIndex := .empty
    flagIndex := .empty
    aliasIndex := .empty }

def pushVariable (set : OptionSet) (v : Variable) : OptionSet :=
  { set with
    vars := set.vars ++ [v]
    variableIndex := set.variableIndex.insert v.name set.vars.length }

def pushFlag (set : OptionSet) (f : Flag) : OptionSet :=
  { set with
    flags := set.flags ++ [f]
    flagIndex := set.flagIndex.insert f.name set.flags.length }

def pushAlias (set : OptionSet) (a : Alias) : OptionSet :=
  { set with
    aliases := set.aliases ++ [a]
    aliasIndex := set.aliasIndex.insert a.name set.aliases.length }

def updateVariable (set : OptionSet) (position : Nat) (update : Variable → Variable) : OptionSet :=
  { set with vars := set.vars.modify position update }

def updateFlag (set : OptionSet) (position : Nat) (update : Flag → Flag) : OptionSet :=
  { set with flags := set.flags.modify position update }

/-- The variable of the name, and where it stands. -/
def variableAt? (set : OptionSet) (name : Bytes) : Option (Nat × Variable) := do
  let position ← set.variableIndex.position? name
  let v ← set.vars[position]?
  return (position, v)

/-- The variable that a mistyped name may stand for. -/
def hint? (set : OptionSet) (name : Bytes) : Option Bytes :=
  (suggest name (set.vars.map (·.name)) 1 2).head?

def unresolved {α : Type} (set : OptionSet) (reference : Reference) (name : Bytes) :
    Except Cause α :=
  .error (.unresolved reference (set.hint? name))

/-- The variable that a directive refers to. -/
def resolveVariable (set : OptionSet) (reference : Reference) (name : Bytes) :
    Except Cause (Nat × Variable) :=
  match set.variableAt? name with
  | some found => .ok found
  | none => set.unresolved reference name

/-- Enters a variable. Its name must be new. -/
def addVariable (set : OptionSet) (d : Declaration) : Except Cause OptionSet :=
  if set.variableIndex.contains d.name then .error (.duplicateVariable d.name)
  else .ok (set.pushVariable (.declared d))

/-- A special option that is there already is reported as such. -/
def registerVariable (set : OptionSet) : Directive → Except Cause OptionSet
  | .declare (.special kind) =>
      if set.variableIndex.contains kind.name then .error (.duplicateSpecial kind)
      else set.addVariable (.special kind)
  | .declare d => set.addVariable d
  | _ => .ok set

/-- Attaches what a directive says about a variable. Items are visited one by one only in lists. -/
def attach (set : OptionSet) : Directive → Except Cause OptionSet
  | .metavar target text => do
      let (position, _) ← set.resolveVariable (.metavar target text) target
      return set.updateVariable position (.setMetavar text)
  | .describe target text => do
      let (position, _) ← set.resolveVariable (.describe target) target
      return set.updateVariable position (.setDescription text)
  | .collapse c => do
      let _ ← set.resolveVariable (.collapse c.target) c.target
      return { set with collapses := set.collapses ++ [c] }
  | .map m => do
      let (_, v) ← set.resolveVariable (.map m.target) m.target
      if m.perItem && v.type ≠ .list then .error (.mappedItemwise m.target v.type)
      else return { set with mappings := set.mappings ++ [m] }
  | .inline i => do
      let (_, v) ← set.resolveVariable (.inline i.target) i.target
      if i.perItem && v.type ≠ .list then .error (.inlinedItemwise i.target v.type)
      else return { set with inlinings := set.inlinings ++ [i] }
  | _ => .ok set

end OptionSet

/-- An option set under construction, and the names that its flags and aliases have taken. -/
structure Builder where
  set : OptionSet
  taken : List Bytes

namespace Builder

/-- Enters what has the name. Flags and aliases share their names with no other flag or alias. -/
def enter (b : Builder) (name : Bytes) (update : OptionSet → OptionSet) : Except Cause Builder :=
  if b.taken.contains name then .error (.duplicateName name)
  else .ok ⟨update b.set, b.taken ++ [name]⟩

/-- A flag targets a variable with a value that fits it. -/
def resolveFlag (otherNames : List Bytes) (b : Builder) : Directive → Except Cause Builder
  | .flag f =>
      match b.set.variableAt? f.target with
      | none =>
          if otherNames.contains f.target then .error (.flagWithoutVariable f.name f.target)
          else b.set.unresolved (.flag f.name f.target) f.target
      | some (position, v) =>
          match Check.misfit? f v.declaration with
          | some reason => .error (.misfit reason)
          | none =>
              b.enter f.name fun set =>
                (set.updateVariable position (.addFlag f.name)).pushFlag
                  ⟨f.name, v.name, v.type, f.value, []⟩
  | _ => .ok b

/-- The target of an alias is not there: an alias of an alias is called a chain. -/
def missingTarget (aliasNames : List Bytes) (b : Builder) (a : Alias) : Except Cause Builder :=
  if aliasNames.contains a.target then .error (.aliasChain a.name a.target)
  else b.set.unresolved (.aliasing a.name a.target a.targetType) a.target

/-- An alias targets a flag, or a variable of the type it names. -/
def resolveAlias (aliasNames : List Bytes) (b : Builder) : Directive → Except Cause Builder
  | .aliasing a =>
      match a.targetType with
      | .flag =>
          match b.set.flagIndex.position? a.target with
          | none => b.missingTarget aliasNames a
          | some position =>
              b.enter a.name fun set => (set.updateFlag position (.addAlias a.name)).pushAlias a
      | .var type =>
          match b.set.variableAt? a.target with
          | none => b.missingTarget aliasNames a
          | some (position, v) =>
              if v.type = type then
                b.enter a.name fun set =>
                  (set.updateVariable position (.addAlias a.name)).pushAlias a
              else .error (.aliasTypeMismatch a.name type v.name v.type)
  | _ => .ok b

end Builder

namespace OptionSet

/-- Blames no directive. -/
def unblamed {α : Type} (result : Except Cause α) : Except CompileError α :=
  result.mapError (⟨·, none⟩)

/-- Takes the directives from the left, the first at the position, and blames the first that the
step refuses. -/
def pass {σ : Type} (step : σ → Directive → Except Cause σ) (state : σ) (position : Nat) :
    List Directive → Except CompileError σ
  | [] => .ok state
  | d :: rest =>
      match step state d with
      | .error cause => .error ⟨cause, some (position, d.type)⟩
      | .ok next => pass step next (position + 1) rest

/-- The conditions are checked in a fixed order: settings, declarations, flags, aliases, other
references, defaults, the query parameter, the URLs, and last the spellings. -/
def build (settings : Settings) (directives : List Directive) : Except CompileError OptionSet := do
  unblamed (Check.settings settings)
  let set ← pass registerVariable (blank settings) 0 directives
  let builder : Builder := ⟨set, []⟩
  let builder ← pass (Builder.resolveFlag (Declared.otherNames directives)) builder 0 directives
  let builder ← pass (Builder.resolveAlias (Declared.aliasNames directives)) builder 0 directives
  let set ← pass attach builder.set 0 directives
  unblamed (set.vars.forM fun v => Check.default v.declaration)
  unblamed (Check.queryParameter settings set.mappings)
  let urls ← unblamed (Urls.resolve settings)
  let set := { set with urls }
  unblamed (Check.spellings set)
  return set

end OptionSet

end Elvis
