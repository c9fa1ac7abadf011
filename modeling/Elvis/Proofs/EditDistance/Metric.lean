import Elvis.Proofs.EditDistance

/-!
# The distance between texts

Edits can be undone and made one after another, so the least number of them is a distance: it is
symmetric, zero only between equal texts, and no longer by way of a third text. It is also what the
recursion on the last bytes of two texts gives, and nothing else follows that recursion
(`editDistance_least_metric`).
-/

namespace Elvis

variable {a b c : Bytes} {n m : Nat} {d : Bytes → Bytes → Nat}

/-! ## Edits back and forth -/

theorem Edit.symm (h : Edit a b) : Edit b a := by
  cases h with
  | insert before x after => exact .delete before x after
  | delete before x after => exact .insert before x after
  | replace before x y after => exact .replace before y x after

namespace Edits

theorem symm (h : Edits n a b) : Edits n b a := by
  induction h with
  | nil => exact .nil
  | cons hfirst _ ih => exact ih.concat hfirst.symm

theorem trans (h : Edits n a b) (h' : Edits m b c) : Edits (n + m) a c := by
  induction h with
  | nil => rwa [Nat.zero_add]
  | cons hfirst _ ih =>
    rw [Nat.succ_add]
    exact .cons hfirst (ih h')

theorem zero_iff : Edits 0 a b ↔ a = b := by
  constructor
  · intro h
    cases h
    rfl
  · rintro rfl
    exact .nil

end Edits

/-! ## The laws of a distance -/

theorem edits_editDistance (a b : Bytes) : Edits (editDistance a b) a b :=
  (isLeast_editDistance a b).1

theorem Edits.editDistance_le (h : Edits n a b) : editDistance a b ≤ n :=
  (isLeast_editDistance a b).2 h

theorem editDistance_comm (a b : Bytes) : editDistance a b = editDistance b a :=
  Nat.le_antisymm (edits_editDistance b a).symm.editDistance_le
    (edits_editDistance a b).symm.editDistance_le

theorem editDistance_eq_zero_iff : editDistance a b = 0 ↔ a = b := by
  constructor
  · intro h
    have hedits := edits_editDistance a b
    rw [h] at hedits
    exact Edits.zero_iff.mp hedits
  · rintro rfl
    exact Nat.le_zero.mp Edits.nil.editDistance_le

theorem editDistance_triangle (a b c : Bytes) :
    editDistance a c ≤ editDistance a b + editDistance b c :=
  ((edits_editDistance a b).trans (edits_editDistance b c)).editDistance_le

/-! ## The recursion on the last bytes -/

/-- The last byte of either text is dropped, or both are, for free if they are the same. -/
structure LastByteRecursion (d : Bytes → Bytes → Nat) : Prop where
  nil_left : ∀ b, d [] b = b.length
  nil_right : ∀ a, d a [] = a.length
  concat : ∀ a x b y, d (a ++ [x]) (b ++ [y]) =
    min (min (d a (b ++ [y]) + 1) (d (a ++ [x]) b + 1)) (d a b + if x = y then 0 else 1)

theorem lastByteRecursion_editDistance : LastByteRecursion editDistance where
  nil_left b := by rw [editDistance_eq, List.reverse_nil, editCost_nil_left, List.length_reverse]
  nil_right a := by rw [editDistance_eq, List.reverse_nil, editCost_nil, List.length_reverse]
  concat a x b y := by simp only [editDistance_eq, List.reverse_concat, editCost_cons_cons]

/-- The recursion on the last bytes is the one on the first bytes of the reversed texts. -/
theorem LastByteRecursion.reverse_eq_editCost (h : LastByteRecursion d) (a b : Bytes) :
    d a.reverse b.reverse = editCost a b := by
  fun_induction editCost a b with
  | case1 b => rw [List.reverse_nil, h.nil_left, List.length_reverse]
  | case2 x a => rw [List.reverse_nil, h.nil_right, List.length_reverse, List.length_cons]
  | case3 x a y b hdelete hinsert hboth =>
    rw [List.reverse_cons, List.reverse_cons, h.concat, ← List.reverse_cons, ← List.reverse_cons,
      hdelete, hinsert, hboth]

theorem lastByteRecursion_iff : LastByteRecursion d ↔ d = editDistance := by
  constructor
  · intro h
    funext a b
    rw [editDistance_eq, ← h.reverse_eq_editCost, List.reverse_reverse, List.reverse_reverse]
  · rintro rfl
    exact lastByteRecursion_editDistance

/-- The distance is the least number of edits and a metric, and the one function that the recursion
on the last bytes defines. -/
theorem editDistance_least_metric :
    (∀ a b, IsLeast {n | Edits n a b} (editDistance a b)) ∧
      (∀ d, LastByteRecursion d ↔ d = editDistance) ∧
      (∀ a b, editDistance a b = editDistance b a) ∧
      (∀ a b, editDistance a b = 0 ↔ a = b) ∧
      ∀ a b c, editDistance a c ≤ editDistance a b + editDistance b c :=
  ⟨isLeast_editDistance, fun _ => lastByteRecursion_iff, editDistance_comm,
    fun _ _ => editDistance_eq_zero_iff, editDistance_triangle⟩

example : editDistance "kitten" "sitting" = 3 := by decide

end Elvis
