import Elvis.OptionSet.Build
import Mathlib.Data.List.Nodup

/-!
# Indexed lists

An index holds where each name of a list stands first. A lookup through it finds what a search of
the list finds, and where names are not repeated, what stands at the position of a name is all that
has the name.
-/

namespace Elvis

namespace NameIndex

/-- Every name with its position. -/
def ofNames (names : List Bytes) : NameIndex := ⟨names.zipIdx⟩

variable {names : List Bytes} {name : Bytes} {α : Type} {xs : List α} {key : α → Bytes}
  {position : Nat}

/-- Where an element is pushed, its name is entered with the number of elements before it. -/
theorem insert_ofNames {x : α} :
    (ofNames (xs.map key)).insert (key x) xs.length = ofNames ((xs ++ [x]).map key) := by
  simp [ofNames, insert, List.zipIdx_append]

theorem position?_ofNames : (ofNames names).position? name = names.findIdx? (· = name) := by
  rw [List.findIdx?_eq_fst_find?_zipIdx]
  rfl

theorem contains_ofNames : (ofNames names).contains name = names.contains name := by
  unfold contains
  rw [position?_ofNames, List.findIdx?_isSome, Bool.eq_iff_iff, List.any_eq_true,
    List.contains_iff_mem]
  constructor
  · rintro ⟨n, hn, heq⟩
    exact of_decide_eq_true heq ▸ hn
  · exact fun hn => ⟨name, hn, decide_eq_true rfl⟩

theorem position?_map_eq_none_iff :
    (ofNames (xs.map key)).position? name = none ↔ name ∉ xs.map key := by
  rw [position?_ofNames, List.findIdx?_eq_none_iff]
  simp only [decide_eq_false_iff_not]
  exact ⟨fun h hm => h name hm rfl, fun h n hn heq => h (heq ▸ hn)⟩

/-- A lookup through the index is a search. -/
theorem bind_position?_map :
    ((ofNames (xs.map key)).position? name).bind (xs[·]?) = xs.find? (key · = name) := by
  rw [position?_ofNames, List.findIdx?_map, List.find?_eq_bind_findIdx?_getElem?]
  rfl

theorem position?_map_eq_some_iff (h : (xs.map key).Nodup) :
    (ofNames (xs.map key)).position? name = some position ↔
      ∃ x, xs[position]? = some x ∧ key x = name := by
  rw [position?_ofNames, List.findIdx?_eq_some_iff_getElem]
  simp only [List.length_map, List.getElem_map, decide_eq_true_eq]
  constructor
  · rintro ⟨hlt, hkey, _⟩
    exact ⟨xs[position], List.getElem?_eq_getElem hlt, hkey⟩
  · rintro ⟨x, hx, hkey⟩
    obtain ⟨hlt, rfl⟩ := List.getElem?_eq_some_iff.mp hx
    have hpair := List.pairwise_iff_getElem.mp (List.pairwise_map.mp h)
    refine ⟨hlt, hkey, fun j hj hj' => ?_⟩
    exact hpair j position (Nat.lt_trans hj hlt) hlt hj (hj'.trans hkey.symm)

/-- What is done at the position of a name is done to everything that has the name. -/
theorem modify_eq_map (h : (xs.map key).Nodup)
    (hposition : (ofNames (xs.map key)).position? name = some position) (update : α → α) :
    xs.modify position update = xs.map fun x => if key x = name then update x else x := by
  refine List.ext_getElem? fun j => ?_
  rw [List.getElem?_modify, List.getElem?_map]
  cases hx : xs[j]? with
  | none => rfl
  | some x =>
    have hj : position = j ↔ key x = name := by
      constructor
      · rintro rfl
        obtain ⟨y, hy, hkey⟩ := (position?_map_eq_some_iff h).mp hposition
        rw [hx] at hy
        cases hy
        exact hkey
      · intro hkey
        have hat := (position?_map_eq_some_iff h).mpr ⟨x, hx, hkey⟩
        exact Option.some.inj (hposition.symm.trans hat)
    simp [hj]

end NameIndex

namespace OptionSet

variable {set : OptionSet} {name : Bytes} {position : Nat} {v : Variable}

theorem findVariable?_eq_find? (h : set.variableIndex = .ofNames (set.vars.map (·.name))) :
    set.findVariable? name = set.vars.find? (·.name = name) := by
  unfold findVariable?
  rw [h]
  exact NameIndex.bind_position?_map

theorem mem_vars_of_findVariable? (h : set.findVariable? name = some v) : v ∈ set.vars := by
  obtain ⟨position, _, hv⟩ := Option.bind_eq_some_iff.mp h
  exact List.mem_of_getElem? hv

theorem findFlag?_eq_find? (h : set.flagIndex = .ofNames (set.flags.map (·.name))) :
    set.findFlag? name = set.flags.find? (·.name = name) := by
  unfold findFlag?
  rw [h]
  exact NameIndex.bind_position?_map

/-- The index holds the variables, and no two of them have the same name. -/
structure Indexed (set : OptionSet) : Prop where
  nodup : (set.vars.map (·.name)).Nodup
  index : set.variableIndex = .ofNames (set.vars.map (·.name))

theorem Indexed.variableAt?_eq_some_iff (h : set.Indexed) :
    set.variableAt? name = some (position, v) ↔ set.vars[position]? = some v ∧ v.name = name := by
  have hposition : set.variableIndex.position? name = some position ↔
      ∃ v, set.vars[position]? = some v ∧ v.name = name :=
    h.index ▸ NameIndex.position?_map_eq_some_iff h.nodup
  unfold variableAt?
  constructor
  · intro hat
    obtain ⟨i, hi, hat⟩ := Option.bind_eq_some_iff.mp hat
    obtain ⟨w, hw, hat⟩ := Option.bind_eq_some_iff.mp hat
    cases hat
    obtain ⟨w, hw', hname⟩ := hposition.mp hi
    rw [hw] at hw'
    cases hw'
    exact ⟨hw, hname⟩
  · rintro ⟨hv, hname⟩
    rw [hposition.mpr ⟨v, hv, hname⟩]
    show (set.vars[position]?).bind _ = _
    rw [hv]
    rfl

theorem Indexed.variableAt?_eq_none_iff (h : set.Indexed) :
    set.variableAt? name = none ↔ name ∉ set.vars.map (·.name) := by
  rw [← not_iff_not, not_not, ← ne_eq, Option.ne_none_iff_exists', Prod.exists]
  simp only [h.variableAt?_eq_some_iff, List.mem_map]
  constructor
  · rintro ⟨_, v, hv, hname⟩
    exact ⟨v, List.mem_of_getElem? hv, hname⟩
  · rintro ⟨v, hv, hname⟩
    obtain ⟨i, hi⟩ := List.mem_iff_getElem?.mp hv
    exact ⟨i, v, hi, hname⟩

/-- A variable that was looked up is updated by its name. -/
theorem Indexed.updateVariable_eq (h : set.Indexed)
    (hat : set.variableAt? name = some (position, v)) (update : Variable → Variable) :
    set.updateVariable position update =
      { set with vars := set.vars.map fun v => if v.name = name then update v else v } := by
  obtain ⟨hv, hname⟩ := h.variableAt?_eq_some_iff.mp hat
  have hposition : (NameIndex.ofNames (set.vars.map (·.name))).position? name = some position :=
    (NameIndex.position?_map_eq_some_iff h.nodup).mpr ⟨v, hv, hname⟩
  unfold updateVariable
  rw [NameIndex.modify_eq_map h.nodup hposition]

end OptionSet

end Elvis
