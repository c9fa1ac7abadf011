import Elvis.Compile
import Elvis.Proofs.Help.Rows
import Elvis.Proofs.OptionSet.CrossLinks
import Elvis.Proofs.Script.Mentions

/-!
# The texts of an option set

Where nothing in settings and directives reads like a name that the script adds, no text of the
option set mentions a list function (`CleanSet`), and what works on lists is there only for
variables that are lists.
-/

namespace Elvis

open Script (Plain Clean Opens)

/-! ## Plain settings and directives -/

structure Settings.Plain (s : Settings) : Prop where
  name : Script.Plain s.name
  baseUrl : Script.Plain s.baseUrl
  searchUrl : Script.Plain s.searchUrl
  description : ∀ text ∈ s.description, Script.Plain text
  queryParameter : ∀ text ∈ s.queryParameter, Script.Plain text
  generator : Script.Plain s.generator

/-- A directive that is laid out in plain fields. -/
def Directive.Plain (d : Directive) : Prop := ∃ fields ∈ d.fieldForms, ∀ f ∈ fields, Script.Plain f

variable {s : Settings} {urls : Urls} {ds : List Directive} {set : OptionSet} {d : Declaration}
  {sources : List Directive.Source}

theorem Directive.plain_of_parseAll (hread : Directive.parseAll sources = .ok ds)
    (h : ∀ source ∈ sources, Script.Plain source.text) : ∀ x ∈ ds, x.Plain := by
  have hparsed := parseFrom_eq_ok_iff.mp hread
  clear hread
  induction hparsed with
  | nil => exact List.forall_mem_nil _
  | cons hparse _ ih =>
    obtain ⟨hsource, hrest⟩ := List.forall_mem_cons.mp h
    refine List.forall_mem_cons.mpr ⟨?_, ih hrest⟩
    obtain ⟨_, _, htext⟩ := parse_eq_ok_iff.mp hparse
    obtain ⟨fields, hfields, heq⟩ := List.mem_map.mp htext
    refine ⟨fields, hfields, fun f hf => hsource.part ?_⟩
    rw [← heq]
    exact Bytes.infix_join_of_mem hf

/-! ## Parts of an option set -/

/-- The texts of a variable that the script shows. -/
structure CleanVariable (v : Variable) : Prop where
  names : ∀ name ∈ v.names, LowerWord name
  metavar : Clean v.metavar
  description : Clean v.description
  defaultText : Clean v.declaration.defaultText
  values : ∀ values ∈ v.declaration.values?, ∀ value ∈ values, Clean value

structure CleanFlag (f : Flag) : Prop where
  names : ∀ name ∈ f.names, LowerWord name
  target : LowerWord f.target
  value : Clean f.value
  items : ∀ item ∈ f.items, Clean item

structure CleanBranch (b : Branch) : Prop where
  patterns : ∀ pattern ∈ b.patterns, Clean pattern
  replacement : Clean b.replacement

/-- No text of the set mentions a list function, and only lists are visited item by item. -/
structure CleanSet (set : OptionSet) : Prop where
  name : Plain set.settings.name
  generator : Clean set.settings.generator
  description : Clean set.description
  base : Clean set.urls.base
  search : Clean set.urls.search
  queryParameter : ∀ parameter ∈ set.settings.queryParameter, Clean parameter
  vars : ∀ v ∈ set.vars, CleanVariable v
  flags : ∀ f ∈ set.flags, CleanFlag f ∧ (f.targetType = .list → set.hasLists)
  collapses : ∀ c ∈ set.collapses, LowerWord c.target ∧ ∀ b ∈ c.branches, CleanBranch b
  mappings : ∀ m ∈ set.mappings,
    LowerWord m.target ∧ Clean m.parameter ∧ (m.perItem → set.hasLists)
  inlinings : ∀ i ∈ set.inlinings,
    LowerWord i.target ∧ LowerWord i.keyword ∧ (i.perItem → set.hasLists)

/-! ## Declarations -/

theorem clean_typeName (type : VariableType) : Clean type.name := by
  cases type <;> decide

theorem clean_yesNo (b : Bool) : Clean (YesNo.text b) := by
  cases b <;> decide

namespace Declaration

theorem clean_defaultText (h : ∀ f ∈ d.fields, Plain f) : Clean d.defaultText := by
  cases d with
  | bool name default => exact clean_yesNo default
  | enum name default values =>
    exact (h default (List.mem_cons_of_mem _ List.mem_cons_self)).clean
  | anything name default =>
    exact (h default (List.mem_cons_of_mem _ List.mem_cons_self)).clean
  | list name elements defaults =>
    exact (h (Bytes.joinCommas defaults) (by simp [fields])).clean
  | special kind => cases kind <;> decide

theorem clean_values (h : ∀ f ∈ d.fields, Plain f) {values : List Bytes}
    (hvalues : values ∈ d.values?) : ∀ value ∈ values, Clean value := by
  have hfield : Bytes.joinCommas values ∈ d.fields := by
    cases d with
    | bool | anything | special => cases hvalues
    | enum =>
      cases hvalues
      simp [fields]
    | list name elements defaults =>
      have helements : elements.values? = some values := hvalues
      simp [fields, helements]
  exact fun value hvalue => ((h _ hfield).part (Bytes.infix_join_of_mem hvalue)).clean

theorem clean_description (h : Clean d.name) : Clean (Variable.defaultDescription d) := by
  cases d with
  | bool | enum | anything => exact Clean.between (by decide) h (by decide)
  | list name elements defaults =>
    unfold Variable.defaultDescription
    have hbeginning : Clean ("A repeatable (cumulative) '" ++ elements.type.name) :=
      Opens.append (by decide) (clean_typeName elements.type)
    exact (hbeginning.fence (by decide) h).append (by decide)
  | special kind => cases kind <;> decide

end Declaration

/-! ## Accepted sets -/

namespace OptionSet

theorem hasLists_of_mem {v : Variable} (hv : v ∈ set.vars) (htype : v.type = .list) :
    set.hasLists :=
  List.any_eq_true.mpr ⟨v, hv, decide_eq_true htype⟩

theorem hasLists_of_findVariable? {name : Bytes} {v : Variable}
    (h : set.findVariable? name = some v) (htype : v.type = .list) : set.hasLists :=
  hasLists_of_mem (mem_vars_of_findVariable? h) htype

theorem cleanVariable (hresolved : Resolved ds) (hw : ∀ x ∈ ds, x.WellFormed)
    (hplain : ∀ x ∈ ds, x.Plain) {v : Variable} (hv : v ∈ (ofDirectives s urls ds).vars) :
    CleanVariable v := by
  have hnames : ∀ name ∈ v.names, LowerWord name :=
    (wordNames_ofDirectives hresolved hw).variable hv
  have hname : LowerWord v.name := hnames _ List.mem_cons_self
  have hmetavar : ∀ b ∈ v.metavar, Byte.isUpper b := isUpper_of_mem_metavar hw hv
  obtain ⟨d, hd, rfl⟩ := mem_vars_iff.mp hv
  obtain ⟨_, hform, hfields⟩ := hplain _ hd
  obtain rfl := List.mem_singleton.mp hform
  have hdescription : Clean (variableOf ds d).description := by
    unfold Variable.description
    cases hgiven : (variableOf ds d).givenDescription with
    | some text =>
      obtain ⟨_, hform, hfields⟩ := hplain _ (Declared.mem_of_description? hgiven)
      obtain rfl := List.mem_singleton.mp hform
      exact (hfields _ (List.mem_cons_of_mem _ List.mem_cons_self)).clean
    | none => exact Declaration.clean_description (.of_lowerWord hname)
  exact
    { names := hnames
      metavar := .of_bytes hmetavar (by decide) (by decide)
      description := hdescription
      defaultText := Declaration.clean_defaultText hfields
      values := fun _ => Declaration.clean_values hfields }

theorem cleanFlag (hresolved : Resolved ds) (hw : ∀ x ∈ ds, x.WellFormed)
    (hplain : ∀ x ∈ ds, x.Plain) {f : Flag} (hf : f ∈ (ofDirectives s urls ds).flags) :
    CleanFlag f := by
  have hnames : ∀ name ∈ f.names, LowerWord name :=
    (wordNames_ofDirectives hresolved hw).flag hf
  obtain ⟨g, d, hg, _, rfl⟩ := (mem_flags_iff hresolved).mp hf
  obtain ⟨_, hform, hfields⟩ := hplain _ hg
  obtain rfl := List.mem_singleton.mp hform
  have hvalue : Plain g.value := hfields _ (by simp)
  have hitems : ∀ item ∈ g.value.commaItems, item <:+: g.value := by
    obtain ⟨_, _, hjoin⟩ := Bytes.commaItems_eq_iff.mp (Eq.refl g.value.commaItems)
    intro item hitem
    rw [hjoin]
    exact Bytes.infix_join_of_mem hitem
  exact
    { names := hnames
      target := (hw _ hg).2.1
      value := hvalue.clean
      items := fun item hitem => (hvalue.part (hitems item hitem)).clean }

theorem cleanBranches (hplain : ∀ x ∈ ds, x.Plain) {c : Collapse} (hc : .collapse c ∈ ds) :
    ∀ b ∈ c.branches, CleanBranch b := by
  obtain ⟨_, hform, hfields⟩ := hplain _ hc
  obtain rfl := List.mem_singleton.mp hform
  intro b hb
  have hgroup : Plain b.group := hfields _ (List.mem_cons_of_mem _ (List.mem_map_of_mem hb))
  have hpiece : ∀ piece ∈ b.patterns ++ [b.replacement], Clean piece := fun piece hpiece =>
    (hgroup.part (Bytes.infix_join_of_mem hpiece)).clean
  obtain ⟨hpatterns, hreplacement⟩ := List.forall_mem_append.mp hpiece
  exact ⟨hpatterns, hreplacement _ List.mem_cons_self⟩

theorem clean_description (hs : s.Plain) (hurls : Urls.resolve s = .ok urls) :
    Clean (ofDirectives s urls ds).description := by
  obtain ⟨_, _, _, hdisplay⟩ := Urls.resolve_eq_ok hurls
  have hgiven : Clean (s.description.getD ("Search " ++ s.name)) := by
    cases hdescription : s.description with
    | none => exact Opens.append (by decide) hs.name.clean
    | some text => exact (hs.description text hdescription).clean
  have hshown : Clean urls.display := by
    rw [hdisplay]
    exact (hs.baseUrl.part (Url.splitScheme_snd_suffix _).isInfix).clean
  exact (hgiven.fence (by decide) hshown).append (by decide)

/-- The texts of an accepted set are parts of those it was built from, or names. -/
theorem cleanSet_of_build (hs : s.Plain) (hw : ∀ x ∈ ds, x.WellFormed)
    (hplain : ∀ x ∈ ds, x.Plain) (h : build s ds = .ok set) : CleanSet set := by
  obtain ⟨hwell, urls, hurls, rfl⟩ := build_eq_ok_iff.mp h
  obtain ⟨hscheme, hbase, hsearch, _⟩ := Urls.resolve_eq_ok hurls
  have hbaseRest := (hs.baseUrl.part (Url.splitScheme_snd_suffix _).isInfix).clean
  have hsearchRest := (hs.searchUrl.part (Url.splitScheme_snd_suffix _).isInfix).clean
  refine
    { name := hs.name
      generator := hs.generator.clean
      description := clean_description hs hurls
      base := show Clean urls.base from hbase ▸ .withScheme hscheme hbaseRest
      search := show Clean urls.search from hsearch ▸ .withScheme hscheme hsearchRest
      queryParameter := fun parameter hparameter => (hs.queryParameter parameter hparameter).clean
      vars := fun v hv => cleanVariable hwell.resolved hw hplain hv
      flags := fun f hf => ?_
      collapses := fun c hc => ?_
      mappings := fun m hm => ?_
      inlinings := fun i hi => ?_ }
  · obtain ⟨v, hfind, htype⟩ := findVariable?_target hwell.resolved hf
    exact ⟨cleanFlag hwell.resolved hw hplain hf,
      fun hlist => hasLists_of_findVariable? hfind (htype.trans hlist)⟩
  · have hc := Declared.mem_collapses.mp hc
    exact ⟨(hw _ hc).1, cleanBranches hplain hc⟩
  · have hm := Declared.mem_mappings.mp hm
    obtain ⟨v, hfind, htype⟩ := findVariable?_use hwell hm rfl
    obtain ⟨fields, hform, hfields⟩ := hplain _ hm
    exact ⟨(hw _ hm).1, (hfields _ (Directive.parameter_mem_of_mem_fieldForms hform)).clean,
      fun hperItem => hasLists_of_findVariable? hfind (htype hperItem)⟩
  · have hi := Declared.mem_inlinings.mp hi
    obtain ⟨v, hfind, htype⟩ := findVariable?_use hwell hi rfl
    exact ⟨(hw _ hi).1, (hw _ hi).2,
      fun hperItem => hasLists_of_findVariable? hfind (htype hperItem)⟩

end OptionSet

end Elvis
