import Elvis.Integer
import Elvis.OptionSet.Basic
import Elvis.OptionSet.Declared
import Elvis.Proofs.Url
import Elvis.Spelling

/-!
# Well-formed option sets

Which settings and directives describe an elvis (`OptionSet.WellFormed`). Every condition speaks of
the directives as a whole: none depends on their order (`OptionSet.WellFormed.perm`).
-/

namespace Elvis

/-! ## What refers to what -/

/-- The directives declare a variable of the name so. -/
def Declares (ds : List Directive) (name : Bytes) (d : Declaration) : Prop :=
  .declare d ∈ ds ∧ d.name = name

def DeclaresFlag (ds : List Directive) (name : Bytes) (f : FlagDeclaration) : Prop :=
  .flag f ∈ ds ∧ f.name = name

/-- An alias of a variable names its type. -/
def Alias.Resolves (ds : List Directive) (a : Alias) : Prop :=
  match a.targetType with
  | .flag => ∃ f, DeclaresFlag ds a.target f
  | .var type => ∃ d, Declares ds a.target d ∧ d.type = type

/-- What a directive demands of the variable that it refers to without giving it a name: a variable
whose items are visited one by one has to be a list. -/
structure Use where
  target : Bytes
  perItem : Bool

def Directive.use? : Directive → Option Use
  | metavar target _ | describe target _ => some ⟨target, false⟩
  | collapse c => some ⟨c.target, false⟩
  | map m => some ⟨m.target, m.perItem⟩
  | inline i => some ⟨i.target, i.perItem⟩
  | declare _ | flag _ | aliasing _ => none

/-! ## Values -/

/-- The values that a flag may give to the variable. An empty value stands for no items. -/
def Declaration.Accepts (value : Bytes) : Declaration → Prop
  | bool .. => value = "yes" ∨ value = "no"
  | enum _ _ values => value ∈ values
  | list _ (.enum values) _ => ∀ item ∈ value.commaItems, item ∈ values
  | special .results => ∃ n, Integer.read64? value = some n
  | _ => True

/-- The default is one of the values, where the values are given. -/
def Declaration.DefaultFits : Declaration → Prop
  | enum _ default values => default ∈ values
  | list _ (.enum values) defaults => ∀ item ∈ defaults, item ∈ values
  | _ => True

/-! ## Names on the command line -/

/-- A name with the type of the variable that it sets in the end, to a fixed value if it is a
flag. -/
structure OptionName where
  type : VariableType
  asFlag : Bool
  name : Bytes
deriving DecidableEq, Repr

/-- The spellings of a name. -/
def OptionName.labels (o : OptionName) : List Bytes :=
  (OptionType.var o.type).labels o.asFlag o.name

/-- The name that a directive adds to the command line. -/
inductive Names (ds : List Directive) : Directive → OptionName → Prop
  | option {d : Declaration} : Names ds (.declare d) ⟨d.type, false, d.name⟩
  | flag {f : FlagDeclaration} {d : Declaration} :
      Declares ds f.target d → Names ds (.flag f) ⟨d.type, true, f.name⟩
  | optionAlias {a : Alias} {type : VariableType} :
      a.targetType = .var type → Names ds (.aliasing a) ⟨type, false, a.name⟩
  | flagAlias {a : Alias} {f : FlagDeclaration} {d : Declaration} :
      a.targetType = .flag → DeclaresFlag ds a.target f → Declares ds f.target d →
      Names ds (.aliasing a) ⟨d.type, true, a.name⟩

/-- Two directives add names that are spelled alike. -/
def SharesSpelling (ds : List Directive) (x y : Directive) : Prop :=
  ∃ o p, Names ds x o ∧ Names ds y p ∧ ∃ label, label ∈ o.labels ∧ label ∈ p.labels

/-! ## The conditions -/

structure Settings.WellFormed (s : Settings) : Prop where
  /-- The name of an elvis is the name of a file. -/
  name : s.name ∉ [[], ".", ".."] ∧ Byte.slash ∉ s.name
  numTabs : 1 ≤ s.numTabs
  queryParameter : ∀ p, s.queryParameter = some p → p ≠ [] ∧ s.appendSearchArgs
  /-- The schemes that the two URLs name agree. -/
  schemes : ∀ b c, Url.HasScheme s.baseUrl b → Url.HasScheme s.searchUrl c → b = c

/-- The names and references of the directives fit together, and so do the values. -/
structure OptionSet.WellFormed (s : Settings) (ds : List Directive) : Prop where
  settings : s.WellFormed
  variableNames : (Declared.variableNames ds).Nodup
  /-- Flags and aliases share one name space. -/
  otherNames : (Declared.otherNames ds).Nodup
  flags : ∀ f, .flag f ∈ ds → ∃ d, Declares ds f.target d ∧ d.Accepts f.value
  aliases : ∀ a, .aliasing a ∈ ds → a.Resolves ds
  uses : ∀ x ∈ ds, ∀ u, x.use? = some u →
    ∃ d, Declares ds u.target d ∧ (u.perItem → d.type = .list)
  defaults : ∀ d, .declare d ∈ ds → d.DefaultFits
  /-- A mapped variable needs a parameter for the search terms, unless they are not sent. -/
  queryParameter : ∀ m, .map m ∈ ds → s.appendSearchArgs → s.queryParameter.isSome
  spellings : ds.Pairwise fun x y => ¬ SharesSpelling ds x y

/-! ## Order -/

variable {ds ds' : List Directive} {s : Settings}

theorem SharesSpelling.symm {x y : Directive} (h : SharesSpelling ds x y) :
    SharesSpelling ds y x := by
  obtain ⟨o, p, ho, hp, label, hl⟩ := h
  exact ⟨p, o, hp, ho, label, hl.symm⟩

theorem Declares.perm {name : Bytes} {d : Declaration} (hp : ds.Perm ds')
    (h : Declares ds name d) : Declares ds' name d :=
  ⟨hp.mem_iff.mp h.1, h.2⟩

theorem DeclaresFlag.perm {name : Bytes} {f : FlagDeclaration} (hp : ds.Perm ds')
    (h : DeclaresFlag ds name f) : DeclaresFlag ds' name f :=
  ⟨hp.mem_iff.mp h.1, h.2⟩

theorem Alias.Resolves.perm {a : Alias} (hp : ds.Perm ds') (h : a.Resolves ds) :
    a.Resolves ds' := by
  unfold Alias.Resolves at *
  split at h
  · obtain ⟨f, hf⟩ := h
    exact ⟨f, hf.perm hp⟩
  · obtain ⟨d, hd, ht⟩ := h
    exact ⟨d, hd.perm hp, ht⟩

theorem Names.perm {x : Directive} {o : OptionName} (hp : ds.Perm ds') (h : Names ds x o) :
    Names ds' x o := by
  cases h with
  | option => exact .option
  | flag hd => exact .flag (hd.perm hp)
  | optionAlias ht => exact .optionAlias ht
  | flagAlias ht hf hd => exact .flagAlias ht (hf.perm hp) (hd.perm hp)

theorem SharesSpelling.perm {x y : Directive} (hp : ds.Perm ds') (h : SharesSpelling ds x y) :
    SharesSpelling ds' x y := by
  obtain ⟨o, p, ho, hn, hl⟩ := h
  exact ⟨o, p, ho.perm hp, hn.perm hp, hl⟩

/-- The order of the directives does not matter. -/
theorem OptionSet.WellFormed.perm (hp : ds.Perm ds') (h : WellFormed s ds) : WellFormed s ds' where
  settings := h.settings
  variableNames := ((hp.filterMap _).map _).nodup_iff.mp h.variableNames
  otherNames := (((hp.filterMap _).map _).append ((hp.filterMap _).map _)).nodup_iff.mp h.otherNames
  flags f hf := by
    obtain ⟨d, hd, ha⟩ := h.flags f (hp.mem_iff.mpr hf)
    exact ⟨d, hd.perm hp, ha⟩
  aliases a ha := (h.aliases a (hp.mem_iff.mpr ha)).perm hp
  uses x hx u hu := by
    obtain ⟨d, hd, ht⟩ := h.uses x (hp.mem_iff.mpr hx) u hu
    exact ⟨d, hd.perm hp, ht⟩
  defaults d hd := h.defaults d (hp.mem_iff.mpr hd)
  queryParameter m hm := h.queryParameter m (hp.mem_iff.mpr hm)
  spellings := by
    refine (hp.pairwise_iff fun hxy hyx => hxy hyx.symm).mp (h.spellings.imp fun hxy hyx => ?_)
    exact hxy (hyx.perm hp.symm)

end Elvis
