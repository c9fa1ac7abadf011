import Elvis.Proofs.OptionSet.Order
import Elvis.Proofs.Script.Literals

/-!
# Other texts in a list of directives

If settings and directives are accepted, they are accepted with any other text for the default of an
unchecked option or for the value of a flag that sets one. The two scripts differ only where they
show the text.
-/

namespace Elvis

/-- A variable that any text can be given to, and that is no list. -/
structure Declaration.TakesText (e : Declaration) (name : Bytes) : Prop where
  name : e.name = name
  type : e.type ≠ .list
  accepts : ∀ value, e.Accepts value

namespace Directive

/-- A directive that declares an unchecked option, or a list of unchecked items, with any text for
the default. -/
inductive DefaultField : (Bytes → Source) → Prop
  | anything {name : Bytes} :
      IsField name → DefaultField fun text => ⟨.anything, name ++ ":" ++ text⟩
  | list {name : Bytes} :
      IsField name → DefaultField fun text => ⟨.list, name ++ ":anything:" ++ text⟩

/-- A directive that declares a flag of an unchecked option, with any text for the value. -/
inductive ValueField (others : List Source) : (Bytes → Source) → Prop
  | anything {name target default : Bytes} :
      IsField name → IsField target → ⟨.anything, target ++ ":" ++ default⟩ ∈ others →
      ValueField others fun text => ⟨.flag, name ++ ":" ++ target ++ ":" ++ text⟩
  | language {name : Bytes} :
      IsField name → ⟨.special, "language"⟩ ∈ others →
      ValueField others fun text => ⟨.flag, name ++ ":language:" ++ text⟩

variable {source : Bytes → Source} {x : Bytes} {d : Directive} {ds : List Directive}
  {before after : List Source}

/-! ## Reading -/

theorem split_field {field : Bytes} (h : IsField field) (rest : Bytes) :
    Bytes.split Byte.colon (field ++ ":" ++ rest) = field :: Bytes.split Byte.colon rest := by
  have hsplit : Bytes.split Byte.colon (field ++ ":" ++ rest) =
      Bytes.split Byte.colon field ++ Bytes.split Byte.colon rest := by
    rw [List.append_assoc]
    exact Bytes.split_append field rest
  rw [hsplit, Bytes.split_of_not_mem h, List.singleton_append]

/-- A text that is read as one field is that field. -/
theorem eq_of_split_eq_singleton {text field : Bytes} (h : Bytes.split Byte.colon text = [field]) :
    text = field ∧ IsField text := by
  obtain ⟨_, hfield, rfl⟩ := Bytes.split_eq_iff.mp h
  rw [Bytes.join_singleton]
  exact ⟨rfl, hfield field List.mem_cons_self⟩

/-- If a default is read, every other text is read as a default as well. -/
theorem DefaultField.parse_eq_ok (h : DefaultField source)
    (hx : parse (source x).type (source x).text = .ok d) :
    IsField x ∧ ∃ declaration, Declaration.OfDefault declaration ∧ ∀ y, IsField y →
      parse (source y).type (source y).text = .ok (.declare (declaration y)) := by
  cases h with
  | @anything name hname =>
    have hfields : ∀ y, parse .anything (name ++ ":" ++ y) =
        readAnything (name :: Bytes.split Byte.colon y) := fun y =>
      congrArg readAnything (split_field hname y)
    obtain ⟨_, default, hread, _, hdeclarable⟩ :=
      readAnything_eq_ok_iff.mp ((hfields x).symm.trans hx)
    obtain ⟨rfl, hdefault⟩ := List.cons.inj hread
    obtain ⟨_, hfield⟩ := eq_of_split_eq_singleton hdefault
    refine ⟨hfield, _, .anything name, fun y hy => (hfields y).trans ?_⟩
    rw [Bytes.split_of_not_mem hy]
    exact readAnything_eq_ok_iff.mpr ⟨_, _, rfl, rfl, hdeclarable⟩
  | @list name hname =>
    have hfields : ∀ y, parse .list (name ++ ":anything:" ++ y) =
        readList (name :: VariableType.anything.name :: Bytes.split Byte.colon y) := by
      intro y
      have htype : IsField VariableType.anything.name := by decide
      have htext : name ++ ":anything:" ++ y =
          name ++ ":" ++ (VariableType.anything.name ++ ":" ++ y) := by
        simp only [List.append_assoc]
        rfl
      rw [parse, htext, split_field hname, split_field htype]
    obtain ⟨_, elements, defaults, hread, _, hdeclarable, _⟩ :=
      readList_eq_ok_iff.mp ((hfields x).symm.trans hx)
    obtain ⟨rfl, htail⟩ := List.cons.inj hread
    obtain ⟨htype, hdefaults⟩ := List.cons.inj htail
    cases elements with
    | enum values =>
      exact absurd htype (show VariableType.anything.name ≠ VariableType.enum.name by decide)
    | anything =>
      obtain ⟨_, hfield⟩ := eq_of_split_eq_singleton hdefaults
      refine ⟨hfield, _, .list name, fun y hy => (hfields y).trans ?_⟩
      obtain ⟨hne, hitems, hy'⟩ := Bytes.commaItems_eq_iff.mp (Eq.refl y.commaItems)
      rw [Bytes.split_of_not_mem hy]
      refine readList_eq_ok_iff.mpr
        ⟨_, .anything, y.commaItems, ?_, rfl, hdeclarable, trivial, hne, hitems⟩
      rw [Declaration.fields, ← hy']
      rfl

theorem parse_flag_eq_ok {name target : Bytes} (hname : IsField name) (htarget : IsField target)
    (hx : parse .flag (name ++ ":" ++ target ++ ":" ++ x) = .ok d) :
    IsField x ∧ ∀ y, IsField y →
      parse .flag (name ++ ":" ++ target ++ ":" ++ y) = .ok (.flag ⟨name, target, y⟩) := by
  have hfields : ∀ y, parse .flag (name ++ ":" ++ target ++ ":" ++ y) =
      readFlag (name :: target :: Bytes.split Byte.colon y) := by
    intro y
    have htext : name ++ ":" ++ target ++ ":" ++ y = name ++ ":" ++ (target ++ ":" ++ y) := by
      simp only [List.append_assoc]
    rw [parse, htext, split_field hname, split_field htarget]
  obtain ⟨f, hread, _, hdeclarable, hword⟩ := readFlag_eq_ok_iff.mp ((hfields x).symm.trans hx)
  obtain ⟨rfl, htail⟩ := List.cons.inj hread
  obtain ⟨rfl, hvalue⟩ := List.cons.inj htail
  obtain ⟨_, hfield⟩ := eq_of_split_eq_singleton hvalue
  refine ⟨hfield, fun y hy => (hfields y).trans ?_⟩
  rw [Bytes.split_of_not_mem hy]
  exact readFlag_eq_ok_iff.mpr ⟨⟨f.name, f.target, y⟩, rfl, rfl, hdeclarable, hword⟩

/-- If the value of a flag is read, every other text is read as its value as well, and the target is
declared as a variable that takes it. -/
theorem ValueField.parse_eq_ok {others : List Source} (h : ValueField others source)
    (hx : parse (source x).type (source x).text = .ok d) :
    IsField x ∧ ∃ name target,
      (∀ y, IsField y →
        parse (source y).type (source y).text = .ok (.flag ⟨name, target, y⟩)) ∧
      ∃ other ∈ others, ∀ d, parse other.type other.text = .ok d →
        ∃ e, d = .declare e ∧ e.TakesText target := by
  cases h with
  | @anything name target default hname htarget hother =>
    obtain ⟨hfield, hread⟩ := parse_flag_eq_ok hname htarget hx
    refine ⟨hfield, name, target, hread, _, hother, fun d hd => ?_⟩
    have hfields : parse .anything (target ++ ":" ++ default) =
        readAnything (target :: Bytes.split Byte.colon default) :=
      congrArg readAnything (split_field htarget default)
    obtain ⟨_, _, hread, rfl, _⟩ := readAnything_eq_ok_iff.mp (hfields.symm.trans hd)
    obtain ⟨rfl, _⟩ := List.cons.inj hread
    exact ⟨_, rfl, rfl, nofun, fun _ => trivial⟩
  | @language name hname hother =>
    have htext : ∀ y : Bytes,
        name ++ ":language:" ++ y = name ++ ":" ++ "language" ++ ":" ++ y := by
      intro y
      simp only [List.append_assoc]
      rfl
    simp only [htext] at hx ⊢
    obtain ⟨hfield, hread⟩ := parse_flag_eq_ok hname (by decide) hx
    refine ⟨hfield, name, "language", hread, _, hother, fun d hd => ?_⟩
    have hspecial : parse .special "language" = .ok (.declare (.special .language)) := rfl
    obtain rfl := Except.ok.inj (hspecial.symm.trans hd)
    exact ⟨_, rfl, rfl, nofun, fun _ => trivial⟩

/-- A directive between others is read on its own. -/
theorem parseAll_between {source : Source} :
    parseAll (before ++ source :: after) = .ok ds ↔
      ∃ ds₁ d ds₂, parseAll before = .ok ds₁ ∧ parse source.type source.text = .ok d ∧
        parseAll after = .ok ds₂ ∧ ds₁ ++ d :: ds₂ = ds := by
  simp only [parseAll_eq_ok_iff, ← Source.read?_eq_some_iff, List.filterMap_append]
  constructor
  · rintro ⟨hall, rfl⟩
    obtain ⟨hbefore, hsource, hafter⟩ := List.forall_mem_append.mp hall |>.imp_right
      List.forall_mem_cons.mp
    obtain ⟨d, hd⟩ := hsource
    exact ⟨_, d, _, ⟨hbefore, rfl⟩, hd, ⟨hafter, rfl⟩, by rw [List.filterMap_cons_some hd]⟩
  · rintro ⟨_, d, _, ⟨hbefore, rfl⟩, hd, ⟨hafter, rfl⟩, rfl⟩
    refine ⟨List.forall_mem_append.mpr ⟨hbefore, List.forall_mem_cons.mpr ⟨⟨d, hd⟩, hafter⟩⟩, ?_⟩
    rw [List.filterMap_cons_some hd]

theorem exists_mem_of_parseAll {ds₁ ds₂ : List Directive} {source : Source}
    (hbefore : parseAll before = .ok ds₁) (hafter : parseAll after = .ok ds₂)
    (h : source ∈ before ++ after) :
    ∃ d ∈ ds₁ ++ ds₂, parse source.type source.text = .ok d := by
  obtain ⟨hread₁, rfl⟩ := parseAll_eq_ok_iff.mp hbefore
  obtain ⟨hread₂, rfl⟩ := parseAll_eq_ok_iff.mp hafter
  obtain ⟨d, hd⟩ := List.forall_mem_append.mpr ⟨hread₁, hread₂⟩ source h
  rw [← List.filterMap_append]
  exact ⟨d, List.mem_filterMap.mpr ⟨source, h, hd⟩, Source.read?_eq_some_iff.mp hd⟩

end Directive

open Directive (Source)

variable {s : Settings} {urls : Urls} {before after : List Directive} {set : OptionSet}

namespace OptionSet

/-! ## Building -/

/-- The variables are described by what the others say, whatever their own declarations are. -/
theorem variableOf_between (d e : Declaration) :
    variableOf (before ++ .declare d :: after) = variableOf (before ++ .declare e :: after) := by
  funext
  simp [variableOf, Declared.metavar?, Declared.description?, Declared.aliases, Declared.flags,
    Directive.metavarOf?, Directive.descriptionOf?, Directive.alias?, Directive.flag?,
    List.filterMap_cons]

/-- A declaration with any text for its default describes one variable. -/
theorem hasSlot_vars (declaration : Bytes → Declaration) :
    HasSlot
      (fun text => (ofDirectives s urls (before ++ .declare (declaration text) :: after)).vars)
      fun text =>
        [variableOf (before ++ .declare (declaration []) :: after) (declaration text)] := by
  have hvars : ∀ text, (ofDirectives s urls (before ++ .declare (declaration text) :: after)).vars =
      (Declared.declarations before ++ [declaration text] ++ Declared.declarations after).map
        (variableOf (before ++ .declare (declaration []) :: after)) := by
    intro text
    rw [variableOf_between (declaration []) (declaration text)]
    simp [ofDirectives, Declared.declarations, Directive.declaration?]
  simp only [hvars]
  exact HasSlot.map _ ⟨_, _, fun _ => rfl⟩

theorem declarations_between (f : FlagDeclaration) :
    Declared.declarations (before ++ .flag f :: after) =
      Declared.declarations (before ++ after) := by
  simp [Declared.declarations, Directive.declaration?, List.filterMap_cons]

/-- A flag is described by its target and its aliases, whatever the other flags are. -/
theorem flagOf?_between (f g : FlagDeclaration) :
    flagOf? (before ++ .flag f :: after) = flagOf? (before ++ .flag g :: after) := by
  funext
  simp [flagOf?, Declared.find?, declarations_between, Declared.aliases, Directive.alias?,
    List.filterMap_cons]

/-- A flag with any text for its value is one flag of the set. -/
theorem hasSlot_flags {name target : Bytes} {g : Flag}
    (hg : flagOf? (before ++ .flag ⟨name, target, []⟩ :: after) ⟨name, target, []⟩ = some g) :
    HasSlot (fun text =>
        (ofDirectives s urls (before ++ .flag ⟨name, target, text⟩ :: after)).flags)
      fun text => [{ g with value := text }] := by
  have hflag : ∀ text, flagOf? (before ++ .flag ⟨name, target, text⟩ :: after)
      ⟨name, target, text⟩ = some { g with value := text } := by
    intro text
    rw [flagOf?_between ⟨name, target, text⟩ ⟨name, target, []⟩]
    obtain ⟨d, hd, rfl⟩ := Option.map_eq_some_iff.mp hg
    exact Option.map_eq_some_iff.mpr ⟨d, hd, rfl⟩
  have hflags : ∀ text,
      (ofDirectives s urls (before ++ .flag ⟨name, target, text⟩ :: after)).flags =
        (Declared.flags before).filterMap
          (flagOf? (before ++ .flag ⟨name, target, []⟩ :: after)) ++
        [{ g with value := text }] ++
        (Declared.flags after).filterMap
          (flagOf? (before ++ .flag ⟨name, target, []⟩ :: after)) := by
    intro text
    rw [flagOf?_between ⟨name, target, []⟩ ⟨name, target, text⟩]
    simp [ofDirectives, Declared.flags, Directive.flag?, hflag]
  exact ⟨_, _, hflags⟩

/-- Directives that are the same for a redaction are accepted alike. -/
theorem WellFormed.of_redacted (r : Redaction) {ds ds' : List Directive}
    (hsame : r.directives ds = r.directives ds')
    (hvalue : ∀ f, .flag f ∈ ds → ∀ d, Declares ds f.target d →
      (d.Accepts (r.value f) ↔ d.Accepts f.value))
    (hvalue' : ∀ f, .flag f ∈ ds' → ∀ d, Declares ds' f.target d →
      (d.Accepts (r.value f) ↔ d.Accepts f.value)) (h : WellFormed s ds) : WellFormed s ds' := by
  have hredacted := (r.wellFormed_directives_iff hvalue).mpr h
  rw [hsame] at hredacted
  exact (r.wellFormed_directives_iff hvalue').mp hredacted

/-! ## Defaults -/

section Defaults

variable {declaration : Bytes → Declaration}

theorem directives_ofDefaults (h : Declaration.OfDefault declaration) (x y : Bytes) :
    Redaction.ofDefaults.directives (before ++ .declare (declaration x) :: after) =
      Redaction.ofDefaults.directives (before ++ .declare (declaration y) :: after) := by
  refine Redaction.directives_between_congr _ ?_
  cases h <;> rfl

theorem WellFormed.of_default (hd : Declaration.OfDefault declaration) {x : Bytes}
    (h : WellFormed s (before ++ .declare (declaration x) :: after)) (y : Bytes) :
    WellFormed s (before ++ .declare (declaration y) :: after) :=
  h.of_redacted Redaction.ofDefaults (directives_ofDefaults hd x y) (fun _ _ _ _ => Iff.rfl)
    fun _ _ _ _ => Iff.rfl

theorem hasSlot_render_of_default (h : Declaration.OfDefault declaration) :
    HasSlot (fun text =>
        Script.render (ofDirectives s urls (before ++ .declare (declaration text) :: after)))
      Shell.singleQuoted := by
  have hredacted : ∀ text, Redaction.ofDefaults.optionSet
      (ofDirectives s urls (before ++ .declare (declaration text) :: after)) =
        ofDirectives s urls (Redaction.ofDefaults.directives
          (before ++ .declare (declaration []) :: after)) := by
    intro text
    rw [← Redaction.ofDirectives_directives, directives_ofDefaults h text []]
  exact Script.hasSlot_render_default hredacted (hasSlot_vars declaration) (fun _ => rfl) h

end Defaults

/-! ## Values of flags -/

section Values

variable {name target : Bytes} {e : Declaration}

theorem directives_ofValues (x y : Bytes) :
    (Redaction.ofValues target).directives (before ++ .flag ⟨name, target, x⟩ :: after) =
      (Redaction.ofValues target).directives (before ++ .flag ⟨name, target, y⟩ :: after) := by
  refine Redaction.directives_between_congr _ ?_
  simp [Redaction.directive, Redaction.flag, Redaction.ofValues]

theorem hasOptions_of_mem {v : Variable} (h : v ∈ set.vars) : set.hasOptions := by
  simpa [hasOptions] using List.ne_nil_of_mem h

/-- The only variable of the target's name takes any text. -/
theorem declares_target_iff {x : Bytes} (he : .declare e ∈ before ++ after)
    (htakes : e.TakesText target)
    (h : WellFormed s (before ++ .flag ⟨name, target, x⟩ :: after)) (y : Bytes) (d : Declaration) :
    Declares (before ++ .flag ⟨name, target, y⟩ :: after) target d ↔ d = e := by
  have hnames := h.variableNames
  rw [Declared.variableNames, declarations_between] at hnames
  unfold Declares
  rw [← Declared.mem_declarations, declarations_between]
  constructor
  · rintro ⟨hd, hname⟩
    exact List.inj_on_of_nodup_map hnames hd (Declared.mem_declarations.mpr he)
      (hname.trans htakes.name.symm)
  · rintro rfl
    exact ⟨Declared.mem_declarations.mpr he, htakes.name⟩

theorem WellFormed.of_value {x : Bytes} (he : .declare e ∈ before ++ after)
    (htakes : e.TakesText target)
    (h : WellFormed s (before ++ .flag ⟨name, target, x⟩ :: after)) (y : Bytes) :
    WellFormed s (before ++ .flag ⟨name, target, y⟩ :: after) := by
  have hvalue : ∀ y f, .flag f ∈ before ++ .flag ⟨name, target, y⟩ :: after →
      ∀ d, Declares (before ++ .flag ⟨name, target, y⟩ :: after) f.target d →
        (d.Accepts ((Redaction.ofValues target).value f) ↔ d.Accepts f.value) := by
    intro y f _ d hd
    by_cases hf : f.target = target
    · obtain rfl := (declares_target_iff he htakes h y d).mp (hf ▸ hd)
      exact iff_of_true (htakes.accepts _) (htakes.accepts _)
    · exact iff_of_eq (congrArg (Declaration.Accepts · d) (if_neg hf))
  exact h.of_redacted (Redaction.ofValues target) (directives_ofValues x y) (hvalue x) (hvalue y)

theorem hasSlots_render_of_value {x : Bytes} (he : .declare e ∈ before ++ after)
    (htakes : e.TakesText target)
    (h : WellFormed s (before ++ .flag ⟨name, target, x⟩ :: after)) :
    ∃ p₀ p₁ p₂, ∀ text,
      Script.render (ofDirectives s urls (before ++ .flag ⟨name, target, text⟩ :: after)) =
        p₀ ++ Shell.hereDocText text ++ p₁ ++ Shell.singleQuoted text ++ p₂ := by
  obtain ⟨g, hg, htype, rfl⟩ : ∃ g,
      flagOf? (before ++ .flag ⟨name, target, []⟩ :: after) ⟨name, target, []⟩ = some g ∧
        g.targetType = e.type ∧ g.target = target :=
    ⟨_, (flagOf?_eq_some_iff (h.of_value he htakes []).variableNames).mpr
      ⟨e, (declares_target_iff he htakes h [] e).mpr rfl, rfl⟩, rfl, rfl⟩
  have hredacted : ∀ text, (Redaction.ofValues g.target).optionSet
      (ofDirectives s urls (before ++ .flag ⟨name, g.target, text⟩ :: after)) =
        ofDirectives s urls ((Redaction.ofValues g.target).directives
          (before ++ .flag ⟨name, g.target, []⟩ :: after)) := by
    intro text
    rw [← Redaction.ofDirectives_directives, directives_ofValues text []]
  have hdeclared : .declare e ∈ before ++ .flag ⟨name, g.target, []⟩ :: after :=
    ((declares_target_iff he htakes h [] e).mpr rfl).1
  have hoptions :
      (ofDirectives s urls (before ++ .flag ⟨name, g.target, []⟩ :: after)).hasOptions :=
    hasOptions_of_mem (mem_vars_iff.mpr ⟨e, hdeclared, rfl⟩)
  refine Script.hasSlots_render_value hredacted (hasSlot_flags hg) ?_ (htype ▸ htakes.type)
  rwa [Redaction.ofDirectives_directives, Redaction.hasOptions_optionSet]

end Values

end OptionSet

theorem compile_eq_ok_iff {sources : List Source} {script : Bytes} :
    compile s sources = .ok script ↔
      ∃ ds, Directive.parseAll sources = .ok ds ∧ OptionSet.WellFormed s ds ∧
        ∃ urls, Urls.resolve s = .ok urls ∧
          Script.render (OptionSet.ofDirectives s urls ds) = script := by
  unfold compile optionSet
  rw [map_eq_ok_iff]
  simp only [bind_eq_ok_iff, OptionSet.build_eq_ok_iff]
  constructor
  · rintro ⟨_, ⟨ds, hread, hw, urls, hurls, rfl⟩, rfl⟩
    exact ⟨ds, hread, hw, urls, hurls, rfl⟩
  · rintro ⟨ds, hread, hw, urls, hurls, rfl⟩
    exact ⟨_, ⟨ds, hread, hw, urls, hurls, rfl⟩, rfl⟩

/-! ## Scripts -/

variable {sources₁ sources₂ : List Source} {source : Bytes → Source} {x script : Bytes}

/-- Any text is accepted for a default, and shown once. -/
theorem compile_default (h : compile s (sources₁ ++ source x :: sources₂) = .ok script)
    (hsource : Directive.DefaultField source) :
    IsField x ∧ ∃ pre post, ∀ y, IsField y →
      compile s (sources₁ ++ source y :: sources₂) =
        .ok (pre ++ Shell.singleQuoted y ++ post) := by
  obtain ⟨_, hread, hw, urls, hurls, _⟩ := compile_eq_ok_iff.mp h
  obtain ⟨ds₁, d, ds₂, hread₁, hx, hread₂, rfl⟩ := Directive.parseAll_between.mp hread
  obtain ⟨hfield, declaration, hdefault, hparse⟩ := hsource.parse_eq_ok hx
  obtain rfl := Except.ok.inj ((hparse x hfield).symm.trans hx)
  obtain ⟨pre, post, hslot⟩ := OptionSet.hasSlot_render_of_default hdefault
  refine ⟨hfield, pre, post, fun y hy => compile_eq_ok_iff.mpr
    ⟨_, ?_, hw.of_default hdefault y, urls, hurls, hslot y⟩⟩
  exact Directive.parseAll_between.mpr ⟨ds₁, _, ds₂, hread₁, hparse y hy, hread₂, rfl⟩

/-- Any text is accepted for the value of a flag, and shown twice. -/
theorem compile_value (h : compile s (sources₁ ++ source x :: sources₂) = .ok script)
    (hsource : Directive.ValueField (sources₁ ++ sources₂) source) :
    IsField x ∧ ∃ p₀ p₁ p₂, ∀ y, IsField y →
      compile s (sources₁ ++ source y :: sources₂) =
        .ok (p₀ ++ Shell.hereDocText y ++ p₁ ++ Shell.singleQuoted y ++ p₂) := by
  obtain ⟨_, hread, hw, urls, hurls, _⟩ := compile_eq_ok_iff.mp h
  obtain ⟨ds₁, d, ds₂, hread₁, hx, hread₂, rfl⟩ := Directive.parseAll_between.mp hread
  obtain ⟨hfield, name, target, hparse, other, hother, htarget⟩ := hsource.parse_eq_ok hx
  obtain rfl := Except.ok.inj ((hparse x hfield).symm.trans hx)
  obtain ⟨d, hd, hparsed⟩ := Directive.exists_mem_of_parseAll hread₁ hread₂ hother
  obtain ⟨e, rfl, htakes⟩ := htarget d hparsed
  obtain ⟨p₀, p₁, p₂, hslots⟩ := OptionSet.hasSlots_render_of_value hd htakes hw
  refine ⟨hfield, p₀, p₁, p₂, fun y hy => compile_eq_ok_iff.mpr
    ⟨_, ?_, hw.of_value hd htakes y, urls, hurls, hslots y⟩⟩
  exact Directive.parseAll_between.mpr ⟨ds₁, _, ds₂, hread₁, hparse y hy, hread₂, rfl⟩

/-- A literal text may be replaced by any other that is one field: it stays accepted, and of the
script nothing changes but the places that show the text. -/
theorem compile_literal (h : compile s (sources₁ ++ source x :: sources₂) = .ok script) :
    (Directive.DefaultField source → IsField x ∧ ∃ pre post, ∀ y, IsField y →
      compile s (sources₁ ++ source y :: sources₂) =
        .ok (pre ++ Shell.singleQuoted y ++ post)) ∧
    (Directive.ValueField (sources₁ ++ sources₂) source → IsField x ∧ ∃ p₀ p₁ p₂, ∀ y, IsField y →
      compile s (sources₁ ++ source y :: sources₂) =
        .ok (p₀ ++ Shell.hereDocText y ++ p₁ ++ Shell.singleQuoted y ++ p₂)) :=
  ⟨compile_default h, compile_value h⟩

/-- A flag of the unchecked option of the sample. -/
def flaggedSources : List Source := ⟨.flag, "home:near:here"⟩ :: OptionSet.sampleSources

/-- Other texts for the default of the unchecked option, and for the value of its flag. -/
theorem compile_literal_sample :
    (∃ pre post, ∀ y, IsField y →
      compile OptionSet.sampleSettings
          (flaggedSources.take 3 ++ ⟨.anything, "near" ++ ":" ++ y⟩ :: flaggedSources.drop 4) =
        .ok (pre ++ Shell.singleQuoted y ++ post)) ∧
    ∃ p₀ p₁ p₂, ∀ y, IsField y →
      compile OptionSet.sampleSettings
          ([] ++ ⟨.flag, "home" ++ ":" ++ "near" ++ ":" ++ y⟩ :: OptionSet.sampleSources) =
        .ok (p₀ ++ Shell.hereDocText y ++ p₁ ++ Shell.singleQuoted y ++ p₂) := by
  have hname : IsField "near" := by decide
  obtain ⟨script, hdefault⟩ : ∃ script, compile OptionSet.sampleSettings
      (flaggedSources.take 3 ++ ⟨.anything, "near" ++ ":" ++ ""⟩ :: flaggedSources.drop 4) =
        .ok script := ⟨_, rfl⟩
  obtain ⟨script', hvalue⟩ : ∃ script, compile OptionSet.sampleSettings
      ([] ++ ⟨.flag, "home" ++ ":" ++ "near" ++ ":" ++ "here"⟩ :: OptionSet.sampleSources) =
        .ok script := ⟨_, rfl⟩
  have hmem : (⟨.anything, "near" ++ ":" ++ ""⟩ : Source) ∈ [] ++ OptionSet.sampleSources := by
    decide
  exact ⟨((compile_literal (x := "") hdefault).1 (.anything hname)).2,
    ((compile_literal (x := "here") hvalue).2 (.anything (by decide) hname hmem)).2⟩

end Elvis
