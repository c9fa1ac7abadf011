import Elvis.Proofs.OptionSet.Names

/-!
# Spellings

The spellings of an option set are those of its names. The names of well-formed directives are
spelled differently, and this is what the last pass checks.
-/

namespace Elvis

variable {s : Settings} {urls : Urls} {ds : List Directive} {set : OptionSet}

/-! ## The spellings of one name -/

/-- The forms of a list differ in the first letter of their verbs. -/
theorem OptionName.nodup_labels (o : OptionName) : o.labels.Nodup := by
  obtain ⟨type, asFlag, name⟩ := o
  cases type with
  | bool =>
    cases asFlag with
    | false =>
      have hne : (Form.mk .set true).label name ≠ (Form.mk .set false).label name := by
        intro h
        have hlength := congrArg List.length h
        simp only [Form.label, List.length_append] at hlength
        exact absurd (Nat.add_left_cancel hlength) (by decide)
      exact List.nodup_cons.mpr ⟨by simpa using hne, List.nodup_singleton _⟩
    | true => exact List.nodup_singleton _
  | list =>
    cases asFlag with
    | false =>
      have hletters : (labels ⟨.list, false, name⟩).map (·[1]?) =
        [some 0x61, some 0x72, some 0x63] := rfl
      exact List.Nodup.of_map (·[1]?) (hletters ▸ by decide)
    | true =>
      have hletters : (labels ⟨.list, true, name⟩).map (·[1]?) = [some 0x61, some 0x72] := rfl
      exact List.Nodup.of_map (·[1]?) (hletters ▸ by decide)
  | enum | anything | special =>
    cases asFlag with
    | false => exact List.nodup_singleton _
    | true => exact List.nodup_singleton _

theorem OptionName.labels_ne_nil (o : OptionName) : o.labels ≠ [] := by
  obtain ⟨type, asFlag, name⟩ := o
  cases type <;> cases asFlag <;> exact List.cons_ne_nil _ _

/-! ## The spellings of an option set -/

theorem VariableType.mem_buckets (type : VariableType) : type ∈ buckets := by cases type <;> decide

namespace OptionSet

theorem bucketedVariables_perm (set : OptionSet) : set.bucketedVariables.Perm set.vars :=
  Keyed.regroup_perm (by decide) fun v _ => v.type.mem_buckets

theorem bucketedFlags_perm (set : OptionSet) : set.bucketedFlags.Perm set.flags :=
  Keyed.regroup_perm (by decide) fun f _ => f.targetType.mem_buckets

theorem nodup_optionNames (h : (set.optionNames.flatMap OptionName.labels).Nodup) :
    set.optionNames.Nodup :=
  Keyed.nodup_of_nodup_flatMap h fun o _ => o.labels_ne_nil

/-- The names of one option are spelled differently, so they are different. -/
theorem nodup_names_vars (h : (set.optionNames.flatMap OptionName.labels).Nodup) :
    ∀ v ∈ set.vars, v.names.Nodup :=
  fun v hv => ((List.nodup_flatMap.mp (nodup_optionNames h).of_append_left).1 v hv).of_map

theorem nodup_names_flags (h : (set.optionNames.flatMap OptionName.labels).Nodup) :
    ∀ f ∈ set.flags, f.names.Nodup :=
  fun f hf => ((List.nodup_flatMap.mp (nodup_optionNames h).of_append_right).1 f hf).of_map

theorem map_label_variableClaims (v : Variable) :
    (Check.variableClaims v).map (·.label) = v.optionNames.flatMap OptionName.labels := by
  unfold Check.variableClaims Check.claimsOf Variable.optionNames Variable.names
  simp only [List.map_append, List.map_map, List.map_flatMap, List.map_cons, List.flatMap_cons,
    List.flatMap_map]
  rfl

theorem map_label_flagClaims (f : Flag) :
    (Check.flagClaims f).map (·.label) = f.optionNames.flatMap OptionName.labels := by
  unfold Check.flagClaims Check.claimsOf Flag.optionNames Flag.names
  simp only [List.map_append, List.map_map, List.map_flatMap, List.map_cons, List.flatMap_cons,
    List.flatMap_map]
  rfl

theorem map_label_claims_perm (set : OptionSet) :
    ((Check.claims set).map (·.label)).Perm (set.optionNames.flatMap OptionName.labels) := by
  unfold Check.claims optionNames
  simp only [List.map_append, List.map_flatMap, map_label_variableClaims, map_label_flagClaims,
    List.flatMap_append, List.flatMap_assoc]
  exact (set.bucketedVariables_perm.flatMap_right _).append (set.bucketedFlags_perm.flatMap_right _)

end OptionSet

/-! ## The last pass -/

namespace Check

theorem distinctLabels_eq_ok_iff {before claims : List Check.Claim}
    (hbefore : (before.map (·.label)).Nodup) :
    distinctLabels before claims = .ok () ↔ ((before ++ claims).map (·.label)).Nodup := by
  induction claims generalizing before with
  | nil => simp [distinctLabels, hbefore]
  | cons claim claims ih =>
    have hsplit : before ++ claim :: claims = (before ++ [claim]) ++ claims := by simp
    have hfresh : ((before ++ [claim]).map (·.label)).Nodup ↔
        claim.label ∉ before.map (·.label) := by
      rw [List.map_append, List.nodup_append_comm]
      simp [hbefore]
    rw [distinctLabels, hsplit]
    cases hfind : before.find? (·.label = claim.label) with
    | none =>
      exact ih (hfresh.mpr (Keyed.find?_eq_none_iff.mp hfind))
    | some first =>
      have hmem : claim.label ∈ before.map (·.label) := by
        by_contra h
        rw [Keyed.find?_eq_none_iff.mpr h] at hfind
        cases hfind
      constructor
      · intro h
        cases h
      · intro h
        rw [List.map_append] at h
        exact absurd hmem (hfresh.mp h.of_append_left)

theorem spellings_eq_ok_iff (set : OptionSet) :
    spellings set = .ok () ↔ (set.optionNames.flatMap OptionName.labels).Nodup := by
  have hnil : (([] : List Check.Claim).map (·.label)).Nodup := List.nodup_nil
  unfold spellings
  rw [distinctLabels_eq_ok_iff hnil, List.nil_append, set.map_label_claims_perm.nodup_iff]

end Check

theorem OptionSet.nodup_labels_iff (h : Resolved ds) :
    ((ofDirectives s urls ds).optionNames.flatMap OptionName.labels).Nodup ↔
      ds.Pairwise fun x y => ¬ SharesSpelling ds x y := by
  rw [((optionNames_perm h).flatMap_right _).nodup_iff, List.nodup_flatMap,
    List.pairwise_filterMap]
  simp only [OptionName.nodup_labels, optionName?_eq_some_iff h, implies_true, true_and]
  refine List.Pairwise.iff fun x y => ?_
  constructor
  · intro hdisjoint hshare
    obtain ⟨o, p, ho, hp, label, hlo, hlp⟩ := hshare
    exact hdisjoint o ho p hp hlo hlp
  · intro hshare o ho p hp label hlo hlp
    exact hshare ⟨o, p, ho, hp, label, hlo, hlp⟩

end Elvis
