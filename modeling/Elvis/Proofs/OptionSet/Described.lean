import Elvis.Proofs.OptionSet.Index

/-!
# What directives describe

The option set of some directives, and the conditions on each of them, as plain functions of all
directives: nothing is entered, looked up at a position or pushed. `ofChecked` builds the set by
these; it is what the passes of `build` come to (`build_eq_ofChecked`).
-/

namespace Elvis

namespace OptionSet

def variableOf (directives : List Directive) (d : Declaration) : Variable :=
  { declaration := d
    givenMetavar := Declared.metavar? directives d.name
    givenDescription := Declared.description? directives d.name
    aliases := ((Declared.aliases directives).filter fun a =>
      a.targetType ≠ .flag && a.target = d.name).map (·.name)
    flags := ((Declared.flags directives).filter (·.target = d.name)).map (·.name) }

/-- The flag with the type of its target, which must be declared. -/
def flagOf? (directives : List Directive) (f : FlagDeclaration) : Option Flag :=
  (Declared.find? directives f.target).map fun d =>
    { name := f.name
      target := f.target
      targetType := d.type
      value := f.value
      aliases := ((Declared.aliases directives).filter fun a =>
        a.targetType = .flag && a.target = f.name).map (·.name) }

/-- The option set that the directives describe. -/
def ofDirectives (settings : Settings) (urls : Urls) (directives : List Directive) : OptionSet :=
  { settings
    urls
    vars := (Declared.declarations directives).map (variableOf directives)
    flags := (Declared.flags directives).filterMap (flagOf? directives)
    aliases := Declared.aliases directives
    collapses := Declared.collapses directives
    mappings := Declared.mappings directives
    inlinings := Declared.inlinings directives
    variableIndex := .ofNames (Declared.variableNames directives)
    flagIndex :=
      .ofNames (((Declared.flags directives).filterMap (flagOf? directives)).map (·.name))
    aliasIndex := .ofNames (Declared.aliasNames directives) }

end OptionSet

namespace Check

/-- The variable a mistyped name may stand for. -/
def hint (directives : List Directive) (name : Bytes) : Option Bytes :=
  (suggest name (Declared.variableNames directives) 1 2).head?

def unresolved {α : Type} (directives : List Directive) (reference : Reference) (name : Bytes) :
    Except Cause α :=
  .error (.unresolved reference (hint directives name))

/-- A variable may be declared once. -/
def declaration (before : List Directive) : Directive → Except Cause Unit
  | .declare d =>
      if (Declared.variableNames before).contains d.name then
        match d with
        | .special kind => .error (.duplicateSpecial kind)
        | _ => .error (.duplicateVariable d.name)
      else .ok ()
  | _ => .ok ()

/-- Flags and aliases share their names with no other flag or alias. -/
def freshName (taken : List Bytes) (name : Bytes) : Except Cause Unit :=
  if taken.contains name then .error (.duplicateName name) else .ok ()

/-- A flag targets a variable with a value that fits it. -/
def flag (directives before : List Directive) : Directive → Except Cause Unit
  | .flag f =>
      match Declared.find? directives f.target with
      | none =>
          if (Declared.otherNames directives).contains f.target then
            .error (.flagWithoutVariable f.name f.target)
          else unresolved directives (.flag f.name f.target) f.target
      | some d =>
          match misfit? f d with
          | some reason => .error (.misfit reason)
          | none => freshName (Declared.flagNames before) f.name
  | _ => .ok ()

/-- The target of an alias is not declared: an alias of an alias is called a chain. -/
def aliasTargetMissing (directives : List Directive) (a : Alias) : Except Cause Unit :=
  if (Declared.aliasNames directives).contains a.target then .error (.aliasChain a.name a.target)
  else unresolved directives (.aliasing a.name a.target a.targetType) a.target

def aliasTarget (directives : List Directive) (a : Alias) : Except Cause Unit :=
  match a.targetType with
  | .flag =>
      if (Declared.flagNames directives).contains a.target then .ok ()
      else aliasTargetMissing directives a
  | .var type =>
      match Declared.find? directives a.target with
      | none => aliasTargetMissing directives a
      | some d =>
          if d.type = type then .ok () else .error (.aliasTypeMismatch a.name type a.target d.type)

/-- An alias targets a flag, or a variable of the type it names. -/
def aliasing (directives before : List Directive) : Directive → Except Cause Unit
  | .aliasing a => do
      aliasTarget directives a
      freshName (Declared.flagNames directives ++ Declared.aliasNames before) a.name
  | _ => .ok ()

/-- The other directives refer to variables, and item by item only to lists. -/
def reference (directives : List Directive) : Directive → Except Cause Unit
  | .metavar target text => do
      let _ ← variableOf (.metavar target text) target
  | .describe target _ => do
      let _ ← variableOf (.describe target) target
  | .collapse c => do
      let _ ← variableOf (.collapse c.target) c.target
  | .map m => do
      let d ← variableOf (.map m.target) m.target
      if m.perItem && d.type ≠ .list then .error (.mappedItemwise m.target d.type)
  | .inline i => do
      let d ← variableOf (.inline i.target) i.target
      if i.perItem && d.type ≠ .list then .error (.inlinedItemwise i.target d.type)
  | _ => .ok ()
where
  variableOf (place : Reference) (name : Bytes) : Except Cause Declaration :=
    match Declared.find? directives name with
    | some d => .ok d
    | none => unresolved directives place name

end Check

namespace OptionSet

/-- Checks the directives from the left and blames the first that fails. The check sees the
directives before the one it looks at. -/
def checkEach (check : List Directive → Directive → Except Cause Unit)
    (before : List Directive) : List Directive → Except CompileError Unit
  | [] => .ok ()
  | d :: rest =>
      match check before d with
      | .error cause => .error ⟨cause, some (before.length, d.type)⟩
      | .ok () => checkEach check (before ++ [d]) rest

/-- The described set, if every condition holds. -/
def ofChecked (settings : Settings) (directives : List Directive) :
    Except CompileError OptionSet := do
  unblamed (Check.settings settings)
  checkEach Check.declaration [] directives
  checkEach (Check.flag directives) [] directives
  checkEach (Check.aliasing directives) [] directives
  checkEach (fun _ => Check.reference directives) [] directives
  unblamed ((Declared.declarations directives).forM Check.default)
  unblamed (Check.queryParameter settings (Declared.mappings directives))
  let urls ← unblamed (Urls.resolve settings)
  let set := ofDirectives settings urls directives
  unblamed (Check.spellings set)
  return set

end OptionSet

end Elvis
