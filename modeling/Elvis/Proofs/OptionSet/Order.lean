import Elvis.Proofs.Directive.PrintParse
import Elvis.Proofs.OptionSet.Acceptance

/-!
# The order of directives

Directives fall into twelve classes. Only the order within a class matters: with another order of
the classes, the same option set is built up to the order of its variables, and even that is the
same within each type.
-/

namespace Elvis

open Keyed

/-! ## Classes -/

/-- The types whose directives are kept in one list count as one class. -/
def DirectiveType.orderClass : DirectiveType → DirectiveType
  | listMap => map
  | listInline => inline
  | type => type

def Directive.orderClass (d : Directive) : DirectiveType := d.type.orderClass

def Directive.Source.orderClass (source : Source) : DirectiveType := source.type.orderClass

def VariableType.directiveType : VariableType → DirectiveType
  | bool => .bool
  | enum => .enum
  | list => .list
  | anything => .anything
  | special => .special

/-- The set with other variables, each where it stands. -/
def OptionSet.withVars (set : OptionSet) (vars : List Variable) : OptionSet :=
  { set with vars, variableIndex := .ofNames (vars.map (·.name)) }

variable {s : Settings} {urls : Urls} {ds ds' : List Directive} {set : OptionSet}
  {sources sources' : List Directive.Source}

/-! ## Reading -/

namespace Directive

def Source.read? (source : Source) : Option Directive :=
  match parse source.type source.text with
  | .ok d => some d
  | .error _ => none

theorem Source.read?_eq_some_iff {source : Source} {d : Directive} :
    source.read? = some d ↔ parse source.type source.text = .ok d := by
  unfold Source.read?
  cases parse source.type source.text with
  | error cause => simp
  | ok d' => simp

theorem parseAll_eq_ok_iff :
    parseAll sources = .ok ds ↔
      (∀ source ∈ sources, ∃ d, source.read? = some d) ∧ sources.filterMap Source.read? = ds := by
  unfold parseAll
  rw [parseFrom_eq_ok_iff]
  simp only [← Source.read?_eq_some_iff]
  induction sources generalizing ds with
  | nil => simp [eq_comm]
  | cons source rest ih =>
    rw [List.forall₂_cons_left_iff, List.forall_mem_cons]
    constructor
    · rintro ⟨d, tail, hd, htail, rfl⟩
      obtain ⟨hrest, rfl⟩ := ih.mp htail
      exact ⟨⟨⟨d, hd⟩, hrest⟩, List.filterMap_cons_some hd⟩
    · rintro ⟨⟨⟨d, hd⟩, hrest⟩, rfl⟩
      exact ⟨d, _, hd, ih.mpr ⟨hrest, rfl⟩, List.filterMap_cons_some hd⟩

/-- A text is read as a directive of the type that it was given. -/
theorem Source.orderClass_eq {source : Source} {d : Directive} (h : source.read? = some d) :
    source.orderClass = d.orderClass := by
  obtain ⟨htype, _⟩ := parse_eq_ok_iff.mp (Source.read?_eq_some_iff.mp h)
  unfold Source.orderClass Directive.orderClass
  rw [htype]

theorem parseAll_of_sameOrder (h : SameOrder Source.orderClass sources sources')
    (hread : parseAll sources = .ok ds) :
    ∃ ds', parseAll sources' = .ok ds' ∧ SameOrder Directive.orderClass ds ds' := by
  obtain ⟨hall, rfl⟩ := parseAll_eq_ok_iff.mp hread
  refine ⟨_, parseAll_eq_ok_iff.mpr ⟨fun source hs => ?_, rfl⟩, ?_⟩
  · exact hall source (h.perm.mem_iff.mpr hs)
  · exact h.filterMap id fun _ _ => Source.orderClass_eq

end Directive

/-! ## What the directives declare -/

namespace Declared

theorem flags_eq (h : SameOrder Directive.orderClass ds ds') : flags ds = flags ds' := by
  refine h.filterMap_eq (k := .flag) fun d f hd => ?_
  cases d with
  | flag => rfl
  | _ => cases hd

theorem aliases_eq (h : SameOrder Directive.orderClass ds ds') : aliases ds = aliases ds' := by
  refine h.filterMap_eq (k := .aliasing) fun d a hd => ?_
  cases d with
  | aliasing => rfl
  | _ => cases hd

theorem collapses_eq (h : SameOrder Directive.orderClass ds ds') :
    collapses ds = collapses ds' := by
  refine h.filterMap_eq (k := .collapse) fun d c hd => ?_
  cases d with
  | collapse => rfl
  | _ => cases hd

/-- Mappings of values and of items are kept in one list. -/
theorem mappings_eq (h : SameOrder Directive.orderClass ds ds') : mappings ds = mappings ds' := by
  refine h.filterMap_eq (k := .map) fun d m hd => ?_
  cases d with
  | map m =>
    obtain ⟨_, _, _, perItem⟩ := m
    cases perItem <;> rfl
  | _ => cases hd

theorem inlinings_eq (h : SameOrder Directive.orderClass ds ds') :
    inlinings ds = inlinings ds' := by
  refine h.filterMap_eq (k := .inline) fun d i hd => ?_
  cases d with
  | inline i =>
    obtain ⟨_, _, perItem⟩ := i
    cases perItem <;> rfl
  | _ => cases hd

theorem metavar?_eq (h : SameOrder Directive.orderClass ds ds') (name : Bytes) :
    metavar? ds name = metavar? ds' name := by
  refine congrArg List.getLast? (h.filterMap_eq (k := .metavar) fun d text hd => ?_)
  cases d with
  | metavar => rfl
  | _ => cases hd

theorem description?_eq (h : SameOrder Directive.orderClass ds ds') (name : Bytes) :
    description? ds name = description? ds' name := by
  refine congrArg List.getLast? (h.filterMap_eq (k := .describe) fun d text hd => ?_)
  cases d with
  | describe => rfl
  | _ => cases hd

theorem find?_perm (hp : ds.Perm ds') (h : (variableNames ds).Nodup) (name : Bytes) :
    find? ds name = find? ds' name := by
  have h' : (variableNames ds').Nodup := ((hp.filterMap _).map _).nodup_iff.mp h
  refine Option.ext fun d => ?_
  rw [find?_eq_some_iff h, find?_eq_some_iff h']
  exact ⟨fun hd => hd.perm hp, fun hd => hd.perm hp.symm⟩

end Declared

/-! ## The option set -/

namespace OptionSet

theorem variableOf_eq (h : SameOrder Directive.orderClass ds ds') (d : Declaration) :
    variableOf ds d = variableOf ds' d := by
  unfold variableOf
  rw [Declared.metavar?_eq h, Declared.description?_eq h, Declared.aliases_eq h,
    Declared.flags_eq h]

theorem flagOf?_eq (h : SameOrder Directive.orderClass ds ds')
    (hnames : (Declared.variableNames ds).Nodup) (f : FlagDeclaration) :
    flagOf? ds f = flagOf? ds' f := by
  unfold flagOf?
  rw [Declared.find?_perm h.perm hnames, Declared.aliases_eq h]

theorem ofDirectives_eq_withVars (h : SameOrder Directive.orderClass ds ds')
    (hnames : (Declared.variableNames ds).Nodup) :
    ofDirectives s urls ds' = (ofDirectives s urls ds).withVars (ofDirectives s urls ds').vars := by
  have hflags : (Declared.flags ds').filterMap (flagOf? ds') =
      (Declared.flags ds).filterMap (flagOf? ds) := by
    rw [Declared.flags_eq h]
    exact List.filterMap_congr fun f _ => (flagOf?_eq h hnames f).symm
  have haliases : Declared.aliasNames ds' = Declared.aliasNames ds :=
    congrArg (List.map _) (Declared.aliases_eq h).symm
  unfold withVars
  rw [map_name_vars]
  unfold ofDirectives
  rw [hflags, haliases, Declared.aliases_eq h, Declared.collapses_eq h, Declared.mappings_eq h,
    Declared.inlinings_eq h]

theorem sameOrder_vars (h : SameOrder Directive.orderClass ds ds') :
    SameOrder Variable.type (ofDirectives s urls ds).vars (ofDirectives s urls ds').vars := by
  have hvars (es : List Directive) : (ofDirectives s urls es).vars =
      es.filterMap fun x => x.declaration?.map (variableOf es) :=
    List.map_filterMap
  have hvariables : variableOf ds' = variableOf ds := funext fun d => (variableOf_eq h d).symm
  rw [hvars, hvars, hvariables]
  refine h.filterMap VariableType.directiveType fun x v hx => ?_
  obtain ⟨d, hd, rfl⟩ := Option.map_eq_some_iff.mp hx
  cases x <;> cases hd
  cases d <;> rfl

theorem build_of_sameOrder (h : SameOrder Directive.orderClass ds ds')
    (hbuild : build s ds = .ok set) :
    ∃ vars, build s ds' = .ok (set.withVars vars) ∧ SameOrder Variable.type set.vars vars ∧
      set.Indexed := by
  obtain ⟨hw, urls, hurls, rfl⟩ := build_eq_ok_iff.mp hbuild
  refine ⟨_, build_eq_ok_iff.mpr ⟨hw.perm h.perm, urls, hurls, ?_⟩, sameOrder_vars h,
    indexed_ofDirectives hw.variableNames⟩
  exact ofDirectives_eq_withVars h hw.variableNames

end OptionSet

end Elvis
