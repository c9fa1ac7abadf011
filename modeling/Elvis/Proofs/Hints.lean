import Elvis.Proofs.Blame
import Elvis.Proofs.Directive.Refusals
import Elvis.Proofs.Script.Labels
import Elvis.Proofs.Suggest

/-!
# Hints

A reference that finds nothing is reported with a hint: the name that comes first of those close to
it, if any is. The hint names a variable, also where the name of a flag is meant
(`unresolved_hint`).
-/

namespace Elvis

/-! ## Close names -/

/-- The name begins with the one that is sought, or lies within two edits of it. -/
def IsClose (sought name : Bytes) : Prop :=
  sought <+: name ∨ ∃ n ≤ 2, Edits n sought name

/-- The hint for a name among others: the close name before all others, if any is close. -/
inductive IsHint (sought : Bytes) (names : List Bytes) : Option Bytes → Prop
  | none : (∀ name ∈ names, name ≠ sought → ¬ IsClose sought name) →
      IsHint sought names none
  | some {name : Bytes} : name ∈ names → name ≠ sought → IsClose sought name →
      (∀ other ∈ names, other ≠ sought → other ≠ name → IsClose sought other →
        Precedes sought name other) →
      IsHint sought names (some name)

/-- What a hint adds to a message. -/
def hintText : Option Bytes → Bytes
  | some name => " (did you mean '" ++ name ++ "'?)"
  | none => []

variable {s : Settings} {ds before : List Directive} {x : Directive} {cause : Cause}
  {sought name : Bytes} {names : List Bytes} {e : CompileError}

theorem isClose_iff (h : sought ≠ []) :
    IsClose sought name ↔ ∃ n ≤ 2, Scores sought name n := by
  constructor
  · intro hclose
    by_cases hlead : sought <+: name
    · exact ⟨0, Nat.zero_le 2, .lead h hlead⟩
    · obtain ⟨n, hn, hedits⟩ := hclose.resolve_left hlead
      have hleast := isLeast_editDistance sought name
      exact ⟨_, Nat.le_trans (hleast.2 hedits) hn, .edits (fun h => hlead h.2) hleast⟩
  · rintro ⟨n, hn, hscores⟩
    cases hscores with
    | lead _ hlead => exact .inl hlead
    | edits _ hleast => exact .inr ⟨n, hn, hleast.1⟩

theorem eligible_iff (h : sought ≠ []) (hnames : ∀ name ∈ names, name ≠ []) :
    Eligible sought names 2 name ↔ name ∈ names ∧ name ≠ sought ∧ IsClose sought name := by
  rw [isClose_iff h]
  constructor
  · intro heligible
    exact ⟨heligible.mem, heligible.ne_input, heligible.close⟩
  · rintro ⟨hmem, hne, hclose⟩
    exact ⟨hmem, hnames name hmem, hne, hclose⟩

theorem isHint_suggest (h : sought ≠ []) (hnames : ∀ name ∈ names, name ≠ []) :
    IsHint sought names (suggest sought names 1 2).head? := by
  cases hhead : (suggest sought names 1 2).head? with
  | none =>
    have hnone := (head?_suggest_eq_none_iff Nat.one_pos).mp hhead
    exact .none fun name hmem hne hclose =>
      hnone name ((eligible_iff h hnames).mpr ⟨hmem, hne, hclose⟩)
  | some name =>
    obtain ⟨heligible, hfirst⟩ := head?_suggest_eq_some Nat.one_pos hhead
    obtain ⟨hmem, hne, hclose⟩ := (eligible_iff h hnames).mp heligible
    refine .some hmem hne hclose fun other hother hotherNe hne' hotherClose => ?_
    exact hfirst other ((eligible_iff h hnames).mpr ⟨hother, hotherNe, hotherClose⟩) hne'

/-! ## Unresolved references -/

/-- The place where a directive refers to something declared. -/
def Directive.reference? : Directive → Option Reference
  | flag f => some (.flag f.name f.target)
  | aliasing a => some (.aliasing a.name a.target a.targetType)
  | metavar target text => some (.metavar target text)
  | describe target _ => some (.describe target)
  | collapse c => some (.collapse c.target)
  | map m => some (.map m.target)
  | inline i => some (.inline i.target)
  | declare _ => none

/-- The directive refers to a name that nothing has where it is looked up, and is hinted at a
variable. -/
inductive Directive.Unresolved (ds : List Directive) (x : Directive) : Cause → Prop
  | intro {registry : Registry} {name : Bytes} {reference : Reference} :
      x.target? = some (registry, name) → x.reference? = some reference →
      name ∉ registry.names ds →
      Unresolved ds x (.unresolved reference (Check.hint ds name))

namespace Check

open Directive (Unresolved)

theorem unresolved_of_declaration (h : declaration before x = .error cause)
    (hkind : cause.kind = .unresolvedReference) : x.Unresolved ds cause := by
  cases x with
  | declare d =>
    simp only [declaration] at h
    split at h
    · cases d <;> cases h <;> cases hkind
    · cases h
  | flag | aliasing | map | inline | collapse | metavar | describe => cases h

theorem unresolved_of_flag (h : flag ds before x = .error cause)
    (hkind : cause.kind = .unresolvedReference) : x.Unresolved ds cause := by
  cases x with
  | flag f =>
    simp only [flag] at h
    cases hfind : Declared.find? ds f.target with
    | none =>
      rw [hfind] at h
      dsimp only at h
      split at h
      · cases h
        cases hkind
      · cases h
        exact .intro rfl rfl (find?_eq_none_iff.mp hfind)
    | some d =>
      rw [hfind] at h
      dsimp only at h
      split at h
      · cases h
        cases hkind
      · rw [(kind_of_freshName_eq_error h).1] at hkind
        cases hkind
  | declare | aliasing | map | inline | collapse | metavar | describe => cases h

theorem unresolved_of_aliasTargetMissing {a : Alias}
    (hmissing : a.target ∉ a.targetType.registry.names ds)
    (h : aliasTargetMissing ds a = .error cause) (hkind : cause.kind = .unresolvedReference) :
    (Directive.aliasing a).Unresolved ds cause := by
  unfold aliasTargetMissing at h
  split at h
  · cases h
    cases hkind
  · cases h
    exact .intro rfl rfl hmissing

theorem unresolved_of_aliasing (h : aliasing ds before x = .error cause)
    (hkind : cause.kind = .unresolvedReference) : x.Unresolved ds cause := by
  cases x with
  | aliasing a =>
    rcases bind_unit_eq_error_iff.mp h with htarget | ⟨_, hfresh⟩
    · rcases aliasTarget_eq_error htarget with ⟨hmissing, h⟩ | ⟨_, _, _, _, _, rfl⟩
      · exact unresolved_of_aliasTargetMissing hmissing h hkind
      · cases hkind
    · rw [(kind_of_freshName_eq_error hfresh).1] at hkind
      cases hkind
  | declare | flag | map | inline | collapse | metavar | describe => cases h

/-- The check of a directive that refers to a variable, and perhaps to its items. -/
theorem unresolved_of_bind_variableOf {place : Reference} {check : Declaration → Except Cause Unit}
    (htarget : x.target? = some (.vars, name)) (hplace : x.reference? = some place)
    (hcheck : ∀ d, check d = .error cause → cause.kind = .typeMismatch)
    (h : (reference.variableOf ds place name >>= check) = .error cause)
    (hkind : cause.kind = .unresolvedReference) : x.Unresolved ds cause := by
  rcases bind_eq_error_iff.mp h with hvariable | ⟨d, _, hitems⟩
  · unfold reference.variableOf at hvariable
    cases hfind : Declared.find? ds name with
    | none =>
      rw [hfind] at hvariable
      cases hvariable
      exact .intro htarget hplace (find?_eq_none_iff.mp hfind)
    | some d =>
      rw [hfind] at hvariable
      cases hvariable
  · rw [hcheck d hitems] at hkind
    cases hkind

theorem unresolved_of_reference (h : Check.reference ds x = .error cause)
    (hkind : cause.kind = .unresolvedReference) : x.Unresolved ds cause := by
  cases x with
  | metavar | describe | collapse =>
    exact unresolved_of_bind_variableOf rfl rfl (fun _ hd => by cases hd) h hkind
  | map | inline =>
    refine unresolved_of_bind_variableOf rfl rfl (fun d hd => ?_) h hkind
    obtain ⟨rfl, _⟩ := itemwise_eq_error_iff.mp hd
    rfl
  | declare | flag | aliasing => cases h

theorem Refuses.unresolved (h : Refuses ds before x cause)
    (hkind : cause.kind = .unresolvedReference) : x.Unresolved ds cause := by
  cases h with
  | declaration h => exact unresolved_of_declaration h hkind
  | flag h => exact unresolved_of_flag h hkind
  | aliasing h => exact unresolved_of_aliasing h hkind
  | reference h => exact unresolved_of_reference h hkind

end Check

/-! ## Building -/

namespace OptionSet

/-- The directive at the blamed position is the one that refers to a name in vain. -/
def BlamesReference (ds : List Directive) (e : CompileError) : Prop :=
  ∃ position x, ds[position]? = some x ∧ e.blame = some (position, x.type) ∧
    x.Unresolved ds e.cause

theorem blamesReference_of_build (h : build s ds = .error e)
    (hkind : e.kind = .unresolvedReference) : BlamesReference ds e := by
  cases fails_of_build h with
  | @directive before after x cause hds hx =>
    have hposition : ds[before.length]? = some x := by simp [hds]
    exact ⟨before.length, x, hposition, rfl, hx.unresolved hkind⟩
  | whole hcause =>
    have hfault : AtFault s ds .unresolvedReference := hkind ▸ hcause.atFault
    cases hfault

end OptionSet

/-! ## Compiling -/

theorem lowerWord_of_target? {registry : Registry} (hw : x.WellFormed)
    (h : x.target? = some (registry, name)) : LowerWord name := by
  cases x with
  | declare => cases h
  | flag =>
    cases h
    exact hw.2.1
  | aliasing =>
    cases h
    exact hw.2
  | map | inline | collapse | metavar | describe =>
    cases h
    exact hw.1

theorem message_unresolved (reference : Reference) (hint : Option Bytes) :
    (Cause.unresolved reference hint).message = reference.message ++ hintText hint := by
  cases hint with
  | none => rfl
  | some name =>
    simp only [Cause.message, hintText, quoted, List.append_assoc]
    rfl

/-- The message on an unresolved reference ends with the hint for its name among those of the
variables, and with none if no variable has a close name. -/
theorem unresolved_hint {sources : List Directive.Source} (h : compile s sources = .error e)
    (hkind : e.kind = .unresolvedReference) :
    ∃ ds position x registry name reference hint,
      Directive.parseAll sources = .ok ds ∧ ds[position]? = some x ∧
      e.blame = some (position, x.type) ∧ x.target? = some (registry, name) ∧
      name ∉ registry.names ds ∧ x.reference? = some reference ∧
      e.message = reference.message ++ hintText hint ∧
      IsHint name (Registry.vars.names ds) hint := by
  have hset : optionSet s sources = .error e := map_eq_error_iff.mp h
  rcases bind_eq_error_iff.mp hset with hparse | ⟨ds, hparse, hbuild⟩
  · have htext := Directive.ofText_of_parseFrom hparse
    have hkind : e.cause.kind = .unresolvedReference := hkind
    generalize e.cause = cause at htext hkind
    cases htext <;> cases hkind
  · obtain ⟨position, x, hx, hblame, hunresolved⟩ := OptionSet.blamesReference_of_build hbuild hkind
    have hw := Directive.wellFormed_of_parseAll hparse
    have hnames : ∀ name ∈ Declared.variableNames ds, name ≠ [] := by
      intro name hname
      obtain ⟨d, hd, rfl⟩ := Declared.mem_variableNames.mp hname
      have hword : LowerWord d.name := lowerWord_of_names (hw _ hd) (@Names.option ds d)
      exact hword.1
    obtain ⟨cause, blame⟩ := e
    cases hunresolved with
    | @intro registry name reference htarget hreference hmissing =>
      have hword := lowerWord_of_target? (hw x (List.mem_of_getElem? hx)) htarget
      exact ⟨ds, position, x, registry, name, reference, _, hparse, hx, hblame, htarget, hmissing,
        hreference, message_unresolved _ _, isHint_suggest hword.1 hnames⟩

/-- A flag at a variable that nothing declares. -/
theorem unresolved_hint_flag :
    ∃ e, compile OptionSet.sampleSettings misdirectedSources = .error e ∧
      e.kind = .unresolvedReference ∧
      ∃ ds position x registry name reference hint,
        Directive.parseAll misdirectedSources = .ok ds ∧ ds[position]? = some x ∧
        e.blame = some (position, x.type) ∧ x.target? = some (registry, name) ∧
        name ∉ registry.names ds ∧ x.reference? = some reference ∧
        e.message = reference.message ++ hintText hint ∧
        IsHint name (Registry.vars.names ds) hint := by
  obtain ⟨e, he, hkind⟩ : ∃ e, compile OptionSet.sampleSettings misdirectedSources = .error e ∧
      e.kind = .unresolvedReference := ⟨_, rfl, rfl⟩
  exact ⟨e, he, hkind, unresolved_hint he hkind⟩

/-- One letter is missing in the name of the flag, and one is wrong if a variable is meant. -/
def misnamedSources : List Directive.Source :=
  [⟨.enum, "olde:new:new,old"⟩, ⟨.flag, "older:olde:old"⟩, ⟨.aliasing, "aged:oldr:flag"⟩]

/-- An alias of a flag is hinted at a variable, which is no flag, although a flag has a close
name. -/
theorem flag_hinted_at_variable :
    ∃ ds e x, Directive.parseAll misnamedSources = .ok ds ∧
      compile OptionSet.sampleSettings misnamedSources = .error e ∧
      e.kind = .unresolvedReference ∧ e.blame = some (2, .aliasing) ∧
      ds[2]? = some x ∧ x.target? = some (Registry.flags, ("oldr" : Bytes)) ∧
      e.message = (Reference.aliasing "aged" "oldr" .flag).message ++ hintText (some "olde") ∧
      ¬ IsHint "oldr" (Registry.flags.names ds) (some "olde") ∧
      IsHint "oldr" (Registry.flags.names ds) (some "older") := by
  have hclose : IsClose "oldr" "older" :=
    .inr ⟨1, by decide, .cons (.insert "old" 101 "r") .nil⟩
  refine ⟨_, _, _, rfl, rfl, rfl, rfl, rfl, rfl, by decide +kernel, ?_, ?_⟩
  · intro h
    cases h with
    | some hmem => exact absurd hmem (by decide)
  · refine .some (by decide) (by decide) hclose fun other hother _ hne => ?_
    exact absurd (List.mem_singleton.mp hother) hne

end Elvis
