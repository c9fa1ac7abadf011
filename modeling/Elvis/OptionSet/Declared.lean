import Elvis.Directive.Basic

/-!
What a list of directives declares, in the order of the directives.
-/

namespace Elvis.Declared

def declarations (directives : List Directive) : List Declaration :=
  directives.filterMap Directive.declaration?

def flags (directives : List Directive) : List FlagDeclaration :=
  directives.filterMap Directive.flag?

def aliases (directives : List Directive) : List Alias := directives.filterMap Directive.alias?

def mappings (directives : List Directive) : List Mapping :=
  directives.filterMap Directive.mapping?

def inlinings (directives : List Directive) : List Inlining :=
  directives.filterMap Directive.inlining?

def collapses (directives : List Directive) : List Collapse :=
  directives.filterMap Directive.collapse?

def variableNames (directives : List Directive) : List Bytes :=
  (declarations directives).map (·.name)

def flagNames (directives : List Directive) : List Bytes := (flags directives).map (·.name)

def aliasNames (directives : List Directive) : List Bytes := (aliases directives).map (·.name)

/-- The names that own no variable. -/
def otherNames (directives : List Directive) : List Bytes :=
  flagNames directives ++ aliasNames directives

def find? (directives : List Directive) (name : Bytes) : Option Declaration :=
  (declarations directives).find? (·.name = name)

/-- The last metavar given to a variable. -/
def metavar? (directives : List Directive) (name : Bytes) : Option Bytes :=
  (directives.filterMap (Directive.metavarOf? name)).getLast?

/-- The last description given to a variable. -/
def description? (directives : List Directive) (name : Bytes) : Option Bytes :=
  (directives.filterMap (Directive.descriptionOf? name)).getLast?

end Elvis.Declared
