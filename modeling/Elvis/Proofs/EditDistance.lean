import Elvis.Suggest
import Mathlib.Order.Bounds.Defs

/-!
# Edits

The distance between two texts is the least number of single-byte edits that lead from one to the
other (`isLeast_editDistance`). The table is filled row by row, each entry from three of its
neighbours; an entry is what the recursion on the first bytes gives for the reversed beginnings of
the texts (`editDistance_eq`), and edits can be made from either end.
-/

namespace Elvis

/-- Inserts a byte, deletes one, or puts one in the place of another. -/
inductive Edit : Bytes → Bytes → Prop
  | insert (before : Bytes) (b : UInt8) (after : Bytes) :
      Edit (before ++ after) (before ++ b :: after)
  | delete (before : Bytes) (b : UInt8) (after : Bytes) :
      Edit (before ++ b :: after) (before ++ after)
  | replace (before : Bytes) (b c : UInt8) (after : Bytes) :
      Edit (before ++ b :: after) (before ++ c :: after)

/-- So many edits, one after another. -/
inductive Edits : Nat → Bytes → Bytes → Prop
  | nil {a : Bytes} : Edits 0 a a
  | cons {n : Nat} {a b c : Bytes} : Edit a b → Edits n b c → Edits (n + 1) a c

/-- The cost of the cheapest way to edit from left to right: the first byte of either text is
dropped, or both are. -/
def editCost : Bytes → Bytes → Nat
  | [], b => b.length
  | x :: a, [] => a.length + 1
  | x :: a, y :: b =>
      min (min (editCost a (y :: b) + 1) (editCost (x :: a) b + 1))
        (editCost a b + if x = y then 0 else 1)
termination_by a b => a.length + b.length

variable {a b c : Bytes} {x y : UInt8} {n m : Nat}

/-! ## Edits in a longer text -/

theorem Edit.under (x : UInt8) (h : Edit a b) : Edit (x :: a) (x :: b) := by
  cases h with
  | insert before b after => exact .insert (x :: before) b after
  | delete before b after => exact .delete (x :: before) b after
  | replace before b c after => exact .replace (x :: before) b c after

theorem Edit.reverse (h : Edit a b) : Edit a.reverse b.reverse := by
  cases h with
  | insert before b after =>
    simpa using Edit.insert after.reverse b before.reverse
  | delete before b after =>
    simpa using Edit.delete after.reverse b before.reverse
  | replace before b c after =>
    simpa using Edit.replace after.reverse b c before.reverse

namespace Edits

theorem concat (h : Edits n a b) (he : Edit b c) : Edits (n + 1) a c := by
  induction h with
  | nil => exact .cons he .nil
  | cons hfirst _ ih => exact .cons hfirst (ih he)

theorem under (x : UInt8) (h : Edits n a b) : Edits n (x :: a) (x :: b) := by
  induction h with
  | nil => exact .nil
  | cons hfirst _ ih => exact .cons (hfirst.under x) ih

theorem reverse (h : Edits n a b) : Edits n a.reverse b.reverse := by
  induction h with
  | nil => exact .nil
  | cons hfirst _ ih => exact .cons hfirst.reverse ih

theorem reverse_iff : Edits n a.reverse b.reverse ↔ Edits n a b := by
  constructor
  · intro h
    simpa using h.reverse
  · exact reverse

theorem either (h : Edits n a b) (h' : Edits m a b) : Edits (min n m) a b := by
  rcases Nat.le_total n m with hle | hle
  · rwa [Nat.min_eq_left hle]
  · rwa [Nat.min_eq_right hle]

theorem insertAll : ∀ b : Bytes, Edits b.length [] b
  | [] => .nil
  | y :: b => (insertAll b).concat (.insert [] y b)

theorem deleteAll : ∀ a : Bytes, Edits a.length a []
  | [] => .nil
  | x :: a => .cons (.delete [] x a) (deleteAll a)

end Edits

/-! ## The cost is least -/

theorem editCost_nil (a : Bytes) : editCost a [] = a.length := by
  cases a <;> simp [editCost]

theorem editCost_nil_left (b : Bytes) : editCost [] b = b.length := by
  rw [editCost]

theorem edits_editCost (a b : Bytes) : Edits (editCost a b) a b := by
  fun_induction editCost a b with
  | case1 b => exact .insertAll b
  | case2 x a => exact .deleteAll (x :: a)
  | case3 x a y b hdelete hinsert hboth =>
    have hreplace : Edits (editCost a b + if x = y then 0 else 1) (x :: a) (y :: b) := by
      split
      · next heq => exact heq ▸ hboth.under x
      · exact .cons (.replace [] x y a) (hboth.under y)
    have hdrop : Edits (editCost a (y :: b) + 1) (x :: a) (y :: b) :=
      .cons (.delete [] x a) hdelete
    have hadd : Edits (editCost (x :: a) b + 1) (x :: a) (y :: b) :=
      hinsert.concat (.insert [] y b)
    exact (hdrop.either hadd).either hreplace

theorem editCost_cons_cons (x y : UInt8) (a b : Bytes) :
    editCost (x :: a) (y :: b) =
      min (min (editCost a (y :: b) + 1) (editCost (x :: a) b + 1))
        (editCost a b + if x = y then 0 else 1) := by
  rw [editCost]

theorem editCost_self (a : Bytes) : editCost a a = 0 := by
  induction a with
  | nil => rw [editCost_nil]; rfl
  | cons x a ih => simp [editCost_cons_cons, ih]

/-- A byte more at the front of the second text costs one edit at most. -/
theorem editCost_cons_right_le (a : Bytes) (y : UInt8) (b : Bytes) :
    editCost a (y :: b) ≤ editCost a b + 1 := by
  cases a with
  | nil => simp [editCost_nil_left]
  | cons x a =>
    rw [editCost_cons_cons]
    omega

theorem editCost_cons_le (x : UInt8) (a b : Bytes) : editCost (x :: a) b ≤ editCost a b + 1 := by
  cases b with
  | nil => simp [editCost_nil]
  | cons y b =>
    rw [editCost_cons_cons]
    omega

theorem le_editCost_cons (x : UInt8) (a b : Bytes) : editCost a b ≤ editCost (x :: a) b + 1 := by
  induction b with
  | nil =>
    simp only [editCost_nil, List.length_cons]
    omega
  | cons y b ih =>
    have hright := editCost_cons_right_le a y b
    rw [editCost_cons_cons]
    omega

theorem editCost_replace_le (x y : UInt8) (a b : Bytes) :
    editCost (x :: a) b ≤ editCost (y :: a) b + 1 := by
  induction b with
  | nil => simp [editCost_nil]
  | cons z b ih =>
    rw [editCost_cons_cons, editCost_cons_cons]
    have hif : (if x = z then 0 else 1) ≤ 1 := by split <;> omega
    omega

/-- What costs one edit more for all texts does so behind a common byte. -/
theorem editCost_cons_le_cons (x : UInt8) (h : ∀ c, editCost a c ≤ editCost b c + 1) (c : Bytes) :
    editCost (x :: a) c ≤ editCost (x :: b) c + 1 := by
  induction c with
  | nil =>
    have hnil := h []
    simp only [editCost_nil, List.length_cons] at hnil ⊢
    omega
  | cons z c ih =>
    have hz := h (z :: c)
    have hc := h c
    rw [editCost_cons_cons, editCost_cons_cons]
    omega

theorem editCost_append_le (before : Bytes) (h : ∀ c, editCost a c ≤ editCost b c + 1) (c : Bytes) :
    editCost (before ++ a) c ≤ editCost (before ++ b) c + 1 := by
  induction before generalizing c with
  | nil => exact h c
  | cons x before ih => exact editCost_cons_le_cons x ih c

theorem Edit.editCost_le (h : Edit a b) (c : Bytes) : editCost a c ≤ editCost b c + 1 := by
  cases h with
  | insert before b after => exact editCost_append_le before (le_editCost_cons b after) c
  | delete before b after => exact editCost_append_le before (editCost_cons_le b after) c
  | replace before b c' after => exact editCost_append_le before (editCost_replace_le b c' after) c

theorem Edits.editCost_le (h : Edits n a b) : editCost a b ≤ n := by
  induction h with
  | nil => exact Nat.le_of_eq (editCost_self _)
  | cons hfirst _ ih => exact Nat.le_trans (hfirst.editCost_le _) (Nat.succ_le_succ ih)

theorem isLeast_editCost (a b : Bytes) : IsLeast {n | Edits n a b} (editCost a b) :=
  ⟨edits_editCost a b, fun _ h => h.editCost_le⟩

/-! ## The table -/

/-- The entries of a row from a place on: the costs of the text before the row, reversed, against
the reversed beginnings of the other text. -/
def rowFrom (a : Bytes) : Bytes → Bytes → List Nat
  | before, [] => [editCost a before]
  | before, y :: rest => editCost a before :: rowFrom a (y :: before) rest

theorem rowFrom_eq (a before rest : Bytes) :
    rowFrom a before rest = editCost a before :: (rowFrom a before rest).tail := by
  cases rest <;> rfl

/-- An entry comes from those above it, on its left, and between these. -/
theorem fillRow_rowFrom (x : UInt8) (a before rest : Bytes) :
    fillRow x (editCost (x :: a) before) (editCost a before) (rowFrom a before rest).tail rest =
      (rowFrom (x :: a) before rest).tail := by
  induction rest generalizing before with
  | nil => rfl
  | cons y rest ih =>
    rw [rowFrom, List.tail_cons, rowFrom, List.tail_cons, rowFrom_eq a, fillRow,
      rowFrom_eq (x :: a), ← ih, editCost_cons_cons]

theorem nextRow_rowFrom (x : UInt8) (a b : Bytes) :
    nextRow b (rowFrom a [] b) x = rowFrom (x :: a) [] b := by
  have hfirst : editCost (x :: a) [] = editCost a [] + 1 := by simp [editCost_nil]
  rw [rowFrom_eq a, nextRow, rowFrom_eq (x :: a), ← fillRow_rowFrom, hfirst]

theorem range_eq_rowFrom (b : Bytes) : List.range (b.length + 1) = rowFrom [] [] b := by
  have hfrom (before rest : Bytes) :
      List.range' before.length (rest.length + 1) = rowFrom [] before rest := by
    induction rest generalizing before with
    | nil => rw [rowFrom, editCost_nil_left]; rfl
    | cons y rest ih => rw [rowFrom, editCost_nil_left, ← ih (y :: before)]; rfl
  rw [List.range_eq_range', ← hfrom [] b]
  rfl

theorem foldl_nextRow (a a' b : Bytes) :
    a.foldl (nextRow b) (rowFrom a' [] b) = rowFrom (a.reverse ++ a') [] b := by
  induction a generalizing a' with
  | nil => rfl
  | cons x a ih => rw [List.foldl_cons, nextRow_rowFrom, ih]; simp

theorem getLastD_rowFrom (a before rest : Bytes) (default : Nat) :
    (rowFrom a before rest).getLastD default = editCost a (rest.reverse ++ before) := by
  induction rest generalizing before default with
  | nil => rfl
  | cons y rest ih => rw [rowFrom, List.getLastD_cons, ih]; simp

theorem editDistance_eq (a b : Bytes) : editDistance a b = editCost a.reverse b.reverse := by
  unfold editDistance
  rw [range_eq_rowFrom, foldl_nextRow, getLastD_rowFrom]
  simp

/-- No fewer edits lead from one text to the other. -/
theorem isLeast_editDistance (a b : Bytes) : IsLeast {n | Edits n a b} (editDistance a b) := by
  have hleast := isLeast_editCost a.reverse b.reverse
  simp only [Edits.reverse_iff] at hleast
  rw [editDistance_eq]
  exact hleast

end Elvis
