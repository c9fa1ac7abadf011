import Elvis.Bytes
import Mathlib.Data.List.Nodup

/-!
# Slots

A list that is made from a value may be the same for all values but for one slot. Lists with a slot
compose: what is built around such a list, or from each of its elements, has a slot as well.
-/

namespace Elvis

variable {ι α β κ : Type} {f g h : ι → List α} {element : ι → α}

/-- The list is fixed but for one slot, which `g` fills. -/
def HasSlot (f g : ι → List α) : Prop := ∃ before after, ∀ x, f x = before ++ g x ++ after

namespace HasSlot

theorem refl (g : ι → List α) : HasSlot g g := ⟨[], [], fun x => by simp⟩

/-- The slot of what fills a slot. -/
theorem trans (hf : HasSlot f g) (hg : HasSlot g h) : HasSlot f h := by
  obtain ⟨before, after, hf⟩ := hf
  obtain ⟨before', after', hg⟩ := hg
  exact ⟨before ++ before', after' ++ after, fun x => by simp [hf, hg]⟩

theorem append_left (before : List α) (hf : HasSlot f g) : HasSlot (fun x => before ++ f x) g :=
  trans ⟨before, [], fun x => by simp⟩ hf

theorem append_right (after : List α) (hf : HasSlot f g) : HasSlot (fun x => f x ++ after) g :=
  trans ⟨[], after, fun x => by simp⟩ hf

/-- The slot of an element of which a part is made. -/
theorem flatMap (part : α → List β) (hf : HasSlot f fun x => [element x]) :
    HasSlot (fun x => (f x).flatMap part) fun x => part (element x) := by
  obtain ⟨before, after, hf⟩ := hf
  exact ⟨before.flatMap part, after.flatMap part, fun x => by simp [hf]⟩

theorem map (image : α → β) (hf : HasSlot f fun x => [element x]) :
    HasSlot (fun x => (f x).map image) fun x => [image (element x)] := by
  obtain ⟨before, after, hf⟩ := hf
  exact ⟨before.map image, after.map image, fun x => by simp [hf]⟩

/-- The text of lines of which one has a slot. -/
theorem unlines {f : ι → List Bytes} {line g : ι → Bytes} (hf : HasSlot f fun x => [line x])
    (hline : HasSlot line g) : HasSlot (fun x => Bytes.unlines (f x)) g :=
  (hf.flatMap (· ++ [Byte.newline])).trans (hline.append_right _)

/-- Two slots of one list. -/
theorem pair {f' g' : ι → List α} (before between after : List α) (hf : HasSlot f g)
    (hf' : HasSlot f' g') :
    ∃ p₀ p₁ p₂, ∀ x, before ++ f x ++ between ++ f' x ++ after =
      p₀ ++ g x ++ p₁ ++ g' x ++ p₂ := by
  obtain ⟨before₁, after₁, hf⟩ := hf
  obtain ⟨before₂, after₂, hf'⟩ := hf'
  exact ⟨before ++ before₁, after₁ ++ between ++ before₂, after₂ ++ after,
    fun x => by simp [hf, hf']⟩

section Groups

variable [DecidableEq κ] {key : α → κ} {keys : List κ} {k : κ}

/-- Elements are grouped by their keys, and a part is made of each group: only the part of one key
sees the element. -/
theorem flatMap_filter (part : κ → List α → List β) {g : ι → List β} (hkeys : keys.Nodup)
    (hk : k ∈ keys) (hf : HasSlot f fun x => [element x]) (hkey : ∀ x, key (element x) = k)
    (hpart : ∀ before after, HasSlot (fun x => part k (before ++ [element x] ++ after)) g) :
    HasSlot (fun x => keys.flatMap fun k => part k ((f x).filter (key · = k))) g := by
  obtain ⟨before, after, hf⟩ := hf
  obtain ⟨keys₁, keys₂, rfl⟩ := List.append_of_mem hk
  obtain ⟨_, hkeys₂, hdisjoint⟩ := List.nodup_append.mp hkeys
  have hown : ∀ x, (f x).filter (key · = k) =
      before.filter (key · = k) ++ [element x] ++ after.filter (key · = k) := by
    intro x
    simp [hf, hkey]
  have hother : ∀ x, ∀ k' ≠ k, (f x).filter (key · = k') =
      (before ++ after).filter (key · = k') := by
    intro x k' hk'
    simp [hf, hkey, hk'.symm]
  -- so the parts of the keys on either side are the same for all values
  have hside : ∀ x, ∀ side : List κ, k ∉ side →
      side.flatMap (fun k' => part k' ((f x).filter (key · = k'))) =
        side.flatMap fun k' => part k' ((before ++ after).filter (key · = k')) := fun x side hk =>
    List.flatMap_congr fun k' hk' =>
      congrArg (part k') (hother x k' (ne_of_mem_of_not_mem hk' hk))
  have hleft : k ∉ keys₁ := fun h => hdisjoint k h k List.mem_cons_self rfl
  have hright : k ∉ keys₂ := (List.nodup_cons.mp hkeys₂).1
  simp only [List.flatMap_append, List.flatMap_cons, hside _ _ hleft, hside _ _ hright, hown]
  exact ((hpart _ _).append_right _).append_left _

/-- Grouping keeps the slot. -/
theorem regroup (hkeys : keys.Nodup) (hk : k ∈ keys) (hf : HasSlot f fun x => [element x])
    (hkey : ∀ x, key (element x) = k) :
    HasSlot (fun x => keys.flatMap fun k => (f x).filter (key · = k)) fun x => [element x] :=
  hf.flatMap_filter (fun _ group => group) hkeys hk hkey fun before after =>
    ⟨before, after, fun _ => rfl⟩

end Groups

end HasSlot

end Elvis
