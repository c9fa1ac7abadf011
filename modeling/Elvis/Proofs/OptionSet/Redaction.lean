import Elvis.Proofs.OptionSet.Acceptance

/-!
# Redaction

Some texts of directives mean nothing to an option set: the default of an unchecked option, and the
value of a flag that sets one. A redaction puts other texts in their place. It changes neither what
directives are accepted nor anything else in the set that they describe.
-/

namespace Elvis

/-! ## Literal defaults -/

/-- Without a default that could be any text. -/
def Declaration.withoutDefault : Declaration → Declaration
  | anything name _ => anything name []
  | list name .anything _ => list name .anything []
  | d => d

/-- What is the same for all literal defaults is the same without them. -/
theorem Declaration.look_withoutDefault {α : Type} {look : Declaration → α}
    (hanything : ∀ name default, look (.anything name default) = look (.anything name []))
    (hlist : ∀ name defaults, look (.list name .anything defaults) = look (.list name .anything []))
    (d : Declaration) : look d.withoutDefault = look d := by
  cases d with
  | anything name default => exact (hanything name default).symm
  | list name elements defaults =>
    cases elements with
    | anything => exact (hlist name defaults).symm
    | enum values => rfl
  | bool | enum | special => rfl

/-! ## Redactions -/

/-- Other texts for the defaults that could be any text, and for the values of flags. -/
structure Redaction where
  declaration : Declaration → Declaration
  value : FlagDeclaration → Bytes
  withoutDefault : ∀ d, (declaration d).withoutDefault = d.withoutDefault

namespace Redaction

variable (r : Redaction) {s : Settings} {urls : Urls} {ds : List Directive}

def flag (f : FlagDeclaration) : FlagDeclaration := { f with value := r.value f }

def directive : Directive → Directive
  | .declare d => .declare (r.declaration d)
  | .flag f => .flag (r.flag f)
  | x => x

def directives (ds : List Directive) : List Directive := ds.map r.directive

@[simp] theorem directive_declare (d : Declaration) :
    r.directive (.declare d) = .declare (r.declaration d) := rfl

@[simp] theorem directive_flag (f : FlagDeclaration) : r.directive (.flag f) = .flag (r.flag f) :=
  rfl

@[simp] theorem directive_aliasing (a : Alias) : r.directive (.aliasing a) = .aliasing a := rfl

@[simp] theorem name_flag (f : FlagDeclaration) : (r.flag f).name = f.name := rfl

@[simp] theorem target_flag (f : FlagDeclaration) : (r.flag f).target = f.target := rfl

/-- What does not look at literal defaults does not see the redaction. -/
theorem unseen {α : Type} (look : Declaration → α)
    (hanything : ∀ name default, look (.anything name default) = look (.anything name []))
    (hlist : ∀ name defaults, look (.list name .anything defaults) = look (.list name .anything []))
    (d : Declaration) : look (r.declaration d) = look d := by
  rw [← Declaration.look_withoutDefault hanything hlist, r.withoutDefault,
    Declaration.look_withoutDefault hanything hlist]

@[simp] theorem name_declaration (d : Declaration) : (r.declaration d).name = d.name :=
  r.unseen _ (fun _ _ => rfl) (fun _ _ => rfl) d

@[simp] theorem type_declaration (d : Declaration) : (r.declaration d).type = d.type :=
  r.unseen _ (fun _ _ => rfl) (fun _ _ => rfl) d

theorem accepts_declaration (value : Bytes) (d : Declaration) :
    (r.declaration d).Accepts value ↔ d.Accepts value :=
  iff_of_eq (r.unseen (Declaration.Accepts value) (fun _ _ => rfl) (fun _ _ => rfl) d)

theorem defaultFits_declaration (d : Declaration) :
    (r.declaration d).DefaultFits ↔ d.DefaultFits :=
  iff_of_eq (r.unseen Declaration.DefaultFits (fun _ _ => rfl) (fun _ _ => rfl) d)

/-- One directive takes the place of another that is the same for the redaction. -/
theorem directives_between_congr {before after : List Directive} {x y : Directive}
    (h : r.directive x = r.directive y) :
    r.directives (before ++ x :: after) = r.directives (before ++ y :: after) := by
  simp [directives, h]

/-! ## What the directives declare -/

@[simp] theorem declarations_directives (ds : List Directive) :
    Declared.declarations (r.directives ds) = (Declared.declarations ds).map r.declaration := by
  unfold Declared.declarations directives
  rw [List.filterMap_map, List.map_filterMap]
  exact List.filterMap_congr fun x _ => by cases x <;> rfl

@[simp] theorem flags_directives (ds : List Directive) :
    Declared.flags (r.directives ds) = (Declared.flags ds).map r.flag := by
  unfold Declared.flags directives
  rw [List.filterMap_map, List.map_filterMap]
  exact List.filterMap_congr fun x _ => by cases x <;> rfl

/-- What is picked neither from declarations nor from flags. -/
theorem filterMap_directives {α : Type} {pick : Directive → Option α}
    (hpick : ∀ x, pick (r.directive x) = pick x) :
    (r.directives ds).filterMap pick = ds.filterMap pick := by
  unfold directives
  rw [List.filterMap_map]
  exact List.filterMap_congr fun x _ => hpick x

@[simp] theorem aliases_directives : Declared.aliases (r.directives ds) = Declared.aliases ds :=
  r.filterMap_directives fun x => by cases x <;> rfl

@[simp] theorem mappings_directives : Declared.mappings (r.directives ds) = Declared.mappings ds :=
  r.filterMap_directives fun x => by cases x <;> rfl

@[simp] theorem inlinings_directives :
    Declared.inlinings (r.directives ds) = Declared.inlinings ds :=
  r.filterMap_directives fun x => by cases x <;> rfl

@[simp] theorem collapses_directives :
    Declared.collapses (r.directives ds) = Declared.collapses ds :=
  r.filterMap_directives fun x => by cases x <;> rfl

@[simp] theorem metavar?_directives (name : Bytes) :
    Declared.metavar? (r.directives ds) name = Declared.metavar? ds name :=
  congrArg List.getLast? (r.filterMap_directives fun x => by cases x <;> rfl)

@[simp] theorem description?_directives (name : Bytes) :
    Declared.description? (r.directives ds) name = Declared.description? ds name :=
  congrArg List.getLast? (r.filterMap_directives fun x => by cases x <;> rfl)

@[simp] theorem variableNames_directives :
    Declared.variableNames (r.directives ds) = Declared.variableNames ds := by
  simp [Declared.variableNames, Function.comp_def]

@[simp] theorem aliasNames_directives :
    Declared.aliasNames (r.directives ds) = Declared.aliasNames ds := by
  simp [Declared.aliasNames]

@[simp] theorem otherNames_directives :
    Declared.otherNames (r.directives ds) = Declared.otherNames ds := by
  simp [Declared.otherNames, Declared.flagNames, Function.comp_def]

theorem find?_directives (name : Bytes) :
    Declared.find? (r.directives ds) name = (Declared.find? ds name).map r.declaration := by
  unfold Declared.find?
  rw [declarations_directives, List.find?_map]
  simp only [Function.comp_def, name_declaration]

/-! ## Acceptance -/

theorem declares_iff {name : Bytes} {e : Declaration} :
    Declares (r.directives ds) name e ↔ ∃ d, Declares ds name d ∧ r.declaration d = e := by
  unfold Declares
  rw [← Declared.mem_declarations, declarations_directives, List.mem_map]
  constructor
  · rintro ⟨⟨d, hd, rfl⟩, hname⟩
    exact ⟨d, ⟨Declared.mem_declarations.mp hd, (r.name_declaration d) ▸ hname⟩, rfl⟩
  · rintro ⟨d, ⟨hd, hname⟩, rfl⟩
    exact ⟨⟨d, Declared.mem_declarations.mpr hd, rfl⟩, (r.name_declaration d).trans hname⟩

theorem declaresFlag_iff {name : Bytes} {g : FlagDeclaration} :
    DeclaresFlag (r.directives ds) name g ↔ ∃ f, DeclaresFlag ds name f ∧ r.flag f = g := by
  unfold DeclaresFlag
  rw [← Declared.mem_flags, flags_directives, List.mem_map]
  constructor
  · rintro ⟨⟨f, hf, rfl⟩, hname⟩
    exact ⟨f, ⟨Declared.mem_flags.mp hf, hname⟩, rfl⟩
  · rintro ⟨f, ⟨hf, hname⟩, rfl⟩
    exact ⟨⟨f, Declared.mem_flags.mpr hf, rfl⟩, hname⟩

theorem resolves_iff {a : Alias} : a.Resolves (r.directives ds) ↔ a.Resolves ds := by
  unfold Alias.Resolves
  split
  · simp [r.declaresFlag_iff]
  · simp [r.declares_iff]

theorem names_iff {x : Directive} {o : OptionName} :
    Names (r.directives ds) (r.directive x) o ↔ Names ds x o := by
  constructor
  · intro h
    cases x with
    | declare d =>
      cases h
      have hname : Names ds (.declare d) ⟨d.type, false, d.name⟩ := .option
      simpa using hname
    | flag f =>
      cases h with
      | flag he =>
        obtain ⟨d, hd, rfl⟩ := r.declares_iff.mp he
        simpa using Names.flag (f := f) hd
    | aliasing a =>
      cases h with
      | optionAlias ht => exact .optionAlias ht
      | flagAlias ht hg he =>
        obtain ⟨f, hf, rfl⟩ := r.declaresFlag_iff.mp hg
        obtain ⟨d, hd, rfl⟩ := r.declares_iff.mp he
        simpa using Names.flagAlias ht hf hd
    | _ => cases h
  · intro h
    cases h with
    | @option d =>
      have hname : Names (r.directives ds) (.declare (r.declaration d))
        ⟨(r.declaration d).type, false, (r.declaration d).name⟩ := .option
      simpa using hname
    | flag hd => simpa using Names.flag (f := r.flag _) (r.declares_iff.mpr ⟨_, hd, rfl⟩)
    | optionAlias ht => exact .optionAlias ht
    | flagAlias ht hf hd =>
      simpa using Names.flagAlias ht (r.declaresFlag_iff.mpr ⟨_, hf, rfl⟩)
        (r.declares_iff.mpr ⟨_, hd, rfl⟩)

theorem sharesSpelling_iff {x y : Directive} :
    SharesSpelling (r.directives ds) (r.directive x) (r.directive y) ↔ SharesSpelling ds x y := by
  unfold SharesSpelling
  simp only [r.names_iff]

theorem use?_directive (x : Directive) : (r.directive x).use? = x.use? := by
  cases x <;> rfl

/-- The redacted values may be wrong for a flag where its own are. -/
theorem flags_iff (hvalue : ∀ f, .flag f ∈ ds → ∀ d, Declares ds f.target d →
      (d.Accepts (r.value f) ↔ d.Accepts f.value)) :
    (∀ g, .flag g ∈ r.directives ds → ∃ e, Declares (r.directives ds) g.target e ∧
        e.Accepts g.value) ↔
      ∀ f, .flag f ∈ ds → ∃ d, Declares ds f.target d ∧ d.Accepts f.value := by
  have hflag : ∀ f, .flag f ∈ ds → ((∃ e, Declares (r.directives ds) f.target e ∧
      e.Accepts (r.value f)) ↔ ∃ d, Declares ds f.target d ∧ d.Accepts f.value) := by
    intro f hf
    simp only [r.declares_iff]
    constructor
    · rintro ⟨_, ⟨d, hd, rfl⟩, haccepts⟩
      exact ⟨d, hd, (hvalue f hf d hd).mp ((r.accepts_declaration _ d).mp haccepts)⟩
    · rintro ⟨d, hd, haccepts⟩
      exact ⟨_, ⟨d, hd, rfl⟩, (r.accepts_declaration _ d).mpr ((hvalue f hf d hd).mpr haccepts)⟩
  simp only [← @Declared.mem_flags (r.directives ds), flags_directives, List.forall_mem_map,
    Declared.mem_flags]
  exact forall₂_congr hflag

theorem uses_iff :
    (∀ x ∈ r.directives ds, ∀ u, x.use? = some u →
        ∃ e, Declares (r.directives ds) u.target e ∧ (u.perItem → e.type = .list)) ↔
      ∀ x ∈ ds, ∀ u, x.use? = some u →
        ∃ d, Declares ds u.target d ∧ (u.perItem → d.type = .list) := by
  rw [directives, List.forall_mem_map, ← directives]
  simp [r.use?_directive, r.declares_iff]

theorem spellings_iff :
    (r.directives ds).Pairwise (fun x y => ¬SharesSpelling (r.directives ds) x y) ↔
      ds.Pairwise fun x y => ¬SharesSpelling ds x y := by
  conv_lhs => rw [directives, List.pairwise_map, ← directives]
  simp only [r.sharesSpelling_iff]

/-- Directives are accepted with other texts exactly if they are accepted. -/
theorem wellFormed_directives_iff (hvalue : ∀ f, .flag f ∈ ds → ∀ d, Declares ds f.target d →
      (d.Accepts (r.value f) ↔ d.Accepts f.value)) :
    OptionSet.WellFormed s (r.directives ds) ↔ OptionSet.WellFormed s ds := by
  have haliases : (∀ a, .aliasing a ∈ r.directives ds → a.Resolves (r.directives ds)) ↔
      ∀ a, .aliasing a ∈ ds → a.Resolves ds := by
    simp only [← Declared.mem_aliases, aliases_directives, r.resolves_iff]
  have hdefaults : (∀ e, .declare e ∈ r.directives ds → e.DefaultFits) ↔
      ∀ d, .declare d ∈ ds → d.DefaultFits := by
    simp only [← Declared.mem_declarations, declarations_directives, List.forall_mem_map,
      r.defaultFits_declaration]
  have hquery : (∀ m, .map m ∈ r.directives ds → s.appendSearchArgs → s.queryParameter.isSome) ↔
      ∀ m, .map m ∈ ds → s.appendSearchArgs → s.queryParameter.isSome := by
    simp only [← Declared.mem_mappings, mappings_directives]
  constructor
  · intro h
    exact
      { settings := h.settings
        variableNames := r.variableNames_directives ▸ h.variableNames
        otherNames := r.otherNames_directives ▸ h.otherNames
        flags := (r.flags_iff hvalue).mp h.flags
        aliases := haliases.mp h.aliases
        uses := r.uses_iff.mp h.uses
        defaults := hdefaults.mp h.defaults
        queryParameter := hquery.mp h.queryParameter
        spellings := r.spellings_iff.mp h.spellings }
  · intro h
    exact
      { settings := h.settings
        variableNames := r.variableNames_directives.symm ▸ h.variableNames
        otherNames := r.otherNames_directives.symm ▸ h.otherNames
        flags := (r.flags_iff hvalue).mpr h.flags
        aliases := haliases.mpr h.aliases
        uses := r.uses_iff.mpr h.uses
        defaults := hdefaults.mpr h.defaults
        queryParameter := hquery.mpr h.queryParameter
        spellings := r.spellings_iff.mpr h.spellings }

/-! ## The option set -/

def setVariable (v : Variable) : Variable := { v with declaration := r.declaration v.declaration }

def setFlag (f : Flag) : Flag := { f with value := r.value f.declaration }

@[simp] theorem name_setFlag (f : Flag) : (r.setFlag f).name = f.name := rfl

def optionSet (set : OptionSet) : OptionSet :=
  { set with vars := set.vars.map r.setVariable, flags := set.flags.map r.setFlag }

theorem variableOf_directives (d : Declaration) :
    OptionSet.variableOf (r.directives ds) (r.declaration d) =
      r.setVariable (OptionSet.variableOf ds d) := by
  have hflags : ((Declared.flags (r.directives ds)).filter (·.target = d.name)).map (·.name) =
      ((Declared.flags ds).filter (·.target = d.name)).map (·.name) := by
    rw [flags_directives, List.filter_map, List.map_map]
    rfl
  unfold OptionSet.variableOf
  rw [name_declaration, metavar?_directives, description?_directives, aliases_directives, hflags]
  rfl

theorem flagOf?_directives (f : FlagDeclaration) :
    OptionSet.flagOf? (r.directives ds) (r.flag f) =
      (OptionSet.flagOf? ds f).map r.setFlag := by
  unfold OptionSet.flagOf?
  rw [target_flag, r.find?_directives, Option.map_map, Option.map_map, aliases_directives]
  simp only [Function.comp_def, type_declaration]
  rfl

/-- Redacted directives describe the redacted set. -/
theorem ofDirectives_directives :
    OptionSet.ofDirectives s urls (r.directives ds) =
      r.optionSet (OptionSet.ofDirectives s urls ds) := by
  simp [OptionSet.ofDirectives, optionSet, List.map_filterMap, List.filterMap_map,
    Function.comp_def, variableOf_directives, flagOf?_directives]

end Redaction

end Elvis
