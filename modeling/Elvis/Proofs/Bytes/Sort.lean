import Elvis.Bytes
import Mathlib.Data.List.Basic
import Mathlib.Data.List.Lex

/-!
# Sorting by bytes

A sorted list of texts holds the same texts, each before those that are greater byte for byte.
-/

namespace Elvis.Bytes

variable {items : List Bytes}

theorem lt_of_compare_eq_lt : ∀ {a b : Bytes}, compare a b = .lt → a < b
  | [], _ :: _, _ => List.nil_lt_cons _ _
  | x :: a, y :: b, h => by
    rw [List.compare_cons_cons, Ordering.then_eq_lt] at h
    refine List.cons_lt_cons_iff.mpr ?_
    rcases h with h | ⟨h, hrest⟩
    · exact .inl (Std.compare_eq_lt.mp h)
    · exact .inr ⟨Std.compare_eq_iff_eq.mp h, lt_of_compare_eq_lt hrest⟩

theorem lt_of_le_of_ne {a b : Bytes} (h : le a b = true) (hne : a ≠ b) : a < b := by
  refine lt_of_compare_eq_lt ?_
  unfold le at h
  cases hcompare : compare a b with
  | lt => rfl
  | eq => exact absurd (Std.compare_eq_iff_eq.mp hcompare) hne
  | gt =>
    rw [hcompare] at h
    cases h

theorem le_total (a b : Bytes) : (le a b || le b a) = true := by
  have hswap : compare b a = (compare a b).swap := Std.OrientedCmp.eq_swap
  unfold le
  rw [hswap]
  cases compare a b <;> rfl

theorem le_trans (a b c : Bytes) (hab : le a b = true) (hbc : le b c = true) : le a c = true :=
  Std.TransCmp.isLE_trans hab hbc

theorem sort_perm (items : List Bytes) : (sort items).Perm items := List.mergeSort_perm items le

theorem pairwise_sort (h : items.Nodup) : (sort items).Pairwise (· < ·) := by
  have hle := List.pairwise_mergeSort le_trans le_total items
  have hne : (sort items).Nodup := (sort_perm items).nodup_iff.mpr h
  exact (hle.and hne).imp fun h => lt_of_le_of_ne h.1 h.2

end Elvis.Bytes
