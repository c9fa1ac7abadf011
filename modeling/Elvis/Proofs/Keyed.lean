import Mathlib.Data.List.Nodup
import Mathlib.Data.List.Perm.Basic

/-!
# Lists with keys

What a key finds in a list whose elements have different keys, how the items that several owners
pick from one list add up to that list, and lists whose elements are put together by their keys.
-/

namespace Elvis.Keyed

section Keys

variable {α κ : Type} [DecidableEq κ] {key : α → κ} {xs : List α} {x : α} {k : κ}

theorem find?_eq_some_iff (h : (xs.map key).Nodup) :
    xs.find? (fun y => key y = k) = some x ↔ x ∈ xs ∧ key x = k := by
  constructor
  · intro hf
    exact ⟨List.mem_of_find?_eq_some hf, by simpa using List.find?_some hf⟩
  · intro h
    obtain ⟨hx, hk⟩ := h
    cases hf : xs.find? (fun y => key y = k) with
    | none => exact absurd (decide_eq_true hk) (List.find?_eq_none.mp hf x hx)
    | some y =>
      have hy : key y = k := by simpa using List.find?_some hf
      have hyx := List.inj_on_of_nodup_map h (List.mem_of_find?_eq_some hf) hx (hy.trans hk.symm)
      rw [hyx]

theorem find?_eq_none_iff : xs.find? (fun y => key y = k) = none ↔ k ∉ xs.map key := by
  rw [List.find?_eq_none, List.mem_map]
  constructor
  · intro h hk
    obtain ⟨y, hy, hk⟩ := hk
    exact h y hy (decide_eq_true hk)
  · intro h y hy hk
    exact h ⟨y, hy, of_decide_eq_true hk⟩

theorem filter_eq_singleton (h : (xs.map key).Nodup) (hx : x ∈ xs) :
    xs.filter (fun y => key y = key x) = [x] := by
  induction xs with
  | nil => cases hx
  | cons y ys ih =>
    rw [List.map_cons, List.nodup_cons] at h
    rcases List.mem_cons.mp hx with rfl | hx
    · have hys : ys.filter (fun y => key y = key x) = [] := by
        refine List.filter_eq_nil_iff.mpr fun z hz hk => h.1 ?_
        rw [← of_decide_eq_true hk]
        exact List.mem_map_of_mem hz
      rw [List.filter_cons_of_pos (by simp), hys]
    · have hy : key y ≠ key x := fun hk => h.1 (hk ▸ List.mem_map_of_mem hx)
      rw [List.filter_cons_of_neg (by simpa using hy), ih h.2 hx]

/-- What stands in one of several lists without repetition stands in no other. -/
theorem filter_mem_eq_singleton {f : α → List κ} (h : (xs.flatMap f).Nodup) (hx : x ∈ xs)
    (hk : k ∈ f x) : xs.filter (k ∈ f ·) = [x] := by
  induction xs with
  | nil => cases hx
  | cons y ys ih =>
    rw [List.flatMap_cons, List.nodup_append] at h
    obtain ⟨_, hys, hdisjoint⟩ := h
    rcases List.mem_cons.mp hx with rfl | hx
    · have hnone : ys.filter (k ∈ f ·) = [] := by
        refine List.filter_eq_nil_iff.mpr fun z hz hkz => ?_
        exact hdisjoint k hk k (List.mem_flatMap.mpr ⟨z, hz, of_decide_eq_true hkz⟩) rfl
      rw [List.filter_cons_of_pos (by simpa using hk), hnone]
    · have hy : k ∉ f y := fun hky => hdisjoint k hky k (List.mem_flatMap.mpr ⟨x, hx, hk⟩) rfl
      rw [List.filter_cons_of_neg (by simpa using hy), ih hys hx]

end Keys

section Order

variable {α β κ : Type} [DecidableEq κ] {cls : α → κ} {xs ys : List α}

/-- The elements of each class stand in the same order in both lists. -/
def SameOrder (cls : α → κ) (xs ys : List α) : Prop :=
  ∀ k, xs.filter (cls · = k) = ys.filter (cls · = k)

theorem SameOrder.symm (h : SameOrder cls xs ys) : SameOrder cls ys xs := fun k => (h k).symm

theorem SameOrder.perm [DecidableEq α] (h : SameOrder cls xs ys) : xs.Perm ys := by
  refine List.perm_iff_count.mpr fun x => ?_
  have hclass (zs : List α) : (zs.filter (cls · = cls x)).count x = zs.count x :=
    List.count_filter (decide_eq_true rfl)
  rw [← hclass xs, h (cls x), hclass ys]

/-- What is picked from one class only is the same for both lists. -/
theorem SameOrder.filterMap_eq (h : SameOrder cls xs ys) {k : κ} {f : α → Option β}
    (hf : ∀ x b, f x = some b → cls x = k) : xs.filterMap f = ys.filterMap f := by
  have hclass (zs : List α) : (zs.filter (cls · = k)).filterMap f = zs.filterMap f := by
    rw [List.filterMap_filter]
    refine List.filterMap_congr fun x _ => ?_
    cases hx : f x with
    | none => rw [ite_self]
    | some b => rw [if_pos (decide_eq_true (hf x b hx))]
  rw [← hclass xs, h k, hclass ys]

/-- The images of the elements may fall into smaller classes. -/
theorem SameOrder.filterMap {κ' : Type} [DecidableEq κ'] {cls' : β → κ'}
    (h : SameOrder cls xs ys) (ofClass : κ' → κ) {f : α → Option β}
    (hf : ∀ x b, f x = some b → cls x = ofClass (cls' b)) :
    SameOrder cls' (xs.filterMap f) (ys.filterMap f) := by
  intro k
  rw [List.filter_filterMap, List.filter_filterMap]
  refine h.filterMap_eq (k := ofClass k) fun x b hx => ?_
  obtain ⟨hb, hk⟩ := Option.filter_eq_some_iff.mp hx
  rw [hf x b hb, of_decide_eq_true hk]

/-- `ys` holds the elements of `xs` by the rank of their classes, and those of one class in their
order. -/
structure StablyRanked (rank : κ → Nat) (cls : α → κ) (xs ys : List α) : Prop where
  perm : ys.Perm xs
  ranked : ys.Pairwise fun x y => rank (cls x) ≤ rank (cls y)
  sameOrder : SameOrder cls ys xs

end Order

variable {α β γ : Type} {owners : List α} {items : List β} {g : α → β → List γ}
  {h : β → List γ}

/-- An element that occurs twice repeats what it stands for. -/
theorem nodup_of_nodup_flatMap {f : α → List γ} {xs : List α} (h : (xs.flatMap f).Nodup)
    (hne : ∀ x ∈ xs, f x ≠ []) : xs.Nodup := by
  refine (List.nodup_flatMap.mp h).2.imp_of_mem fun {x y} hx _ hdisjoint heq => ?_
  subst heq
  obtain ⟨b, hb⟩ := List.exists_mem_of_ne_nil _ (hne x hx)
  exact hdisjoint hb hb

theorem flatMap_if {p : α → Bool} {f : α → List γ} {xs : List α} :
    (xs.flatMap fun x => if p x then f x else []) = (xs.filter p).flatMap f := by
  induction xs with
  | nil => rfl
  | cons x xs ih =>
    rw [List.flatMap_cons, ih]
    cases hp : p x with
    | true => rw [List.filter_cons_of_pos hp, List.flatMap_cons, if_pos rfl]
    | false =>
      rw [List.filter_cons_of_neg (Bool.eq_false_iff.mp hp), if_neg Bool.false_ne_true,
        List.nil_append]

/-- The items are visited owner by owner instead of in their order. -/
theorem flatMap_owned_perm (owns : α → β → Bool)
    (hown : ∀ b ∈ items, ((owners.filter (owns · b)).flatMap (g · b)).Perm (h b)) :
    (owners.flatMap fun a => (items.filter (owns a)).flatMap (g a)).Perm (items.flatMap h) := by
  induction items with
  | nil => simp
  | cons b bs ih =>
    -- each owner takes `b` before its other items, so the shares of `b` can be moved to the front
    obtain ⟨hb, hbs⟩ := List.forall_mem_cons.mp hown
    have hcons : ∀ a, ((b :: bs).filter (owns a)).flatMap (g a) =
        (if owns a b then g a b else []) ++ (bs.filter (owns a)).flatMap (g a) := by
      intro a
      cases ho : owns a b with
      | true => rw [List.filter_cons_of_pos ho, List.flatMap_cons, if_pos rfl]
      | false =>
        rw [List.filter_cons_of_neg (Bool.eq_false_iff.mp ho), if_neg Bool.false_ne_true,
          List.nil_append]
    simp only [hcons, List.flatMap_cons]
    refine (List.flatMap_append_perm owners _ _).symm.trans ?_
    rw [flatMap_if]
    exact hb.append (ih hbs)

/-- Two nested loops may be swapped. -/
theorem flatMap_map_swap_perm {f : α → β → γ} :
    (owners.flatMap fun a => items.map (f a)).Perm
      (items.flatMap fun b => owners.map (f · b)) := by
  have hall : ∀ b ∈ items, ((owners.filter fun _ => true).flatMap fun a => [f a b]).Perm
      (owners.map (f · b)) := by
    intro b _
    rw [List.filter_true, ← List.map_eq_flatMap]
  have hperm := flatMap_owned_perm (fun _ _ => true) hall
  simp only [List.filter_true, ← List.map_eq_flatMap] at hperm
  exact hperm

section Groups

variable {κ : Type} [DecidableEq κ] {keys : List κ} {key : β → κ}

theorem filter_keys {k : κ} (hkeys : keys.Nodup) (hk : k ∈ keys) : keys.filter (· = k) = [k] := by
  have hid : (keys.map id).Nodup := by rwa [List.map_id]
  exact filter_eq_singleton hid hk

/-- Putting the items with one key together, key by key, keeps them all. -/
theorem regroup_perm (hkeys : keys.Nodup) (hmem : ∀ b ∈ items, key b ∈ keys) :
    (keys.flatMap fun k => items.filter fun b => key b = k).Perm items := by
  have hsingle : ∀ b ∈ items, ((keys.filter fun k => key b = k).flatMap fun _ => [b]) = [b] := by
    intro b hb
    have hown : (keys.filter fun k => key b = k) = [key b] := by
      simpa [eq_comm] using filter_keys hkeys (hmem b hb)
    rw [hown, List.flatMap_singleton]
  simpa using flatMap_owned_perm (fun k b => key b = k) fun b hb => List.Perm.of_eq (hsingle b hb)

theorem key_of_mem_group {b : β} {k : κ} (hb : b ∈ items.filter (key · = k)) : key b = k :=
  of_decide_eq_true (List.mem_filter.mp hb).2

/-- The items with one key come from its own group only, where they stand in their order. -/
theorem regroup_sameOrder (hkeys : keys.Nodup) (hmem : ∀ b ∈ items, key b ∈ keys) :
    SameOrder key (keys.flatMap fun k => items.filter fun b => key b = k) items := by
  intro k
  -- a group has one key, so it is the class of `k` or holds none of it
  have hgroup : ∀ k', (items.filter (key · = k')).filter (key · = k) =
      if decide (k' = k) then items.filter (key · = k) else [] := by
    intro k'
    by_cases h : k' = k
    · subst h
      rw [if_pos (decide_eq_true rfl), List.filter_filter]
      simp only [Bool.and_self]
    · rw [if_neg (by simpa using h), List.filter_eq_nil_iff]
      intro b hb hk
      exact h ((key_of_mem_group hb).symm.trans (of_decide_eq_true hk))
  rw [List.filter_flatMap]
  simp only [hgroup]
  rw [flatMap_if]
  by_cases hk : k ∈ keys
  · rw [filter_keys hkeys hk, List.flatMap_singleton]
  · have hnone : items.filter (key · = k) = [] :=
      List.filter_eq_nil_iff.mpr fun b hb h => hk (of_decide_eq_true h ▸ hmem b hb)
    rw [hnone, List.flatMap_eq_nil_iff]
    exact fun _ _ => rfl

theorem stablyRanked_regroup {rank : κ → Nat} (hrank : keys.Pairwise fun k l => rank k < rank l)
    (hmem : ∀ b ∈ items, key b ∈ keys) :
    StablyRanked rank key items (keys.flatMap fun k => items.filter fun b => key b = k) := by
  have hkeys : keys.Nodup := hrank.imp fun {k l} hlt heq => Nat.ne_of_lt hlt (congrArg rank heq)
  refine ⟨regroup_perm hkeys hmem, List.pairwise_flatMap.mpr ⟨fun k _ => ?_, ?_⟩,
    regroup_sameOrder hkeys hmem⟩
  · refine List.pairwise_of_forall_mem_list fun b hb c hc => ?_
    exact Nat.le_of_eq (congrArg rank ((key_of_mem_group hb).trans (key_of_mem_group hc).symm))
  · refine hrank.imp fun hlt b hb c hc => ?_
    rw [key_of_mem_group hb, key_of_mem_group hc]
    exact Nat.le_of_lt hlt

end Groups

end Elvis.Keyed
