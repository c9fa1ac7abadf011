/-!
# Results of checks

What a computation that can fail has to do for its result to be a given value.
-/

namespace Elvis

variable {ε α β : Type}

theorem pure_eq_ok_iff {a b : α} : (pure a : Except ε α) = .ok b ↔ a = b := by
  constructor
  · intro h
    cases h
    rfl
  · rintro rfl
    rfl

theorem bind_eq_ok_iff {x : Except ε α} {f : α → Except ε β} {b : β} :
    (x >>= f) = .ok b ↔ ∃ a, x = .ok a ∧ f a = .ok b := by
  cases x with
  | error e =>
    constructor
    · intro h
      cases h
    · intro h
      obtain ⟨_, h, _⟩ := h
      cases h
  | ok a =>
    constructor
    · intro h
      exact ⟨a, rfl, h⟩
    · intro h
      obtain ⟨_, h, hf⟩ := h
      cases h
      exact hf

/-- A computation whose result is not used only has to succeed. -/
theorem bind_unit_eq_ok_iff {x : Except ε Unit} {f : Unit → Except ε β} {b : β} :
    (x >>= f) = .ok b ↔ x = .ok () ∧ f () = .ok b := by
  rw [bind_eq_ok_iff]
  constructor
  · rintro ⟨⟨⟩, hx, hf⟩
    exact ⟨hx, hf⟩
  · intro h
    obtain ⟨hx, hf⟩ := h
    exact ⟨(), hx, hf⟩

theorem bind_eq_error_iff {x : Except ε α} {f : α → Except ε β} {e : ε} :
    (x >>= f) = .error e ↔ x = .error e ∨ ∃ a, x = .ok a ∧ f a = .error e := by
  cases x with
  | error e' =>
    show Except.error e' = .error e ↔ _
    simp
  | ok a =>
    show f a = .error e ↔ _
    simp

/-- What follows a check is looked at only where the check does not fail. -/
theorem bind_eq_bind_of_map {check : Except ε Unit} {x : Except ε α} {a : α}
    {f : α → Except ε β} {g : Unit → Except ε β} (hx : x = check.map fun _ => a)
    (h : check = .ok () → f a = g ()) : (x >>= f) = (check >>= g) := by
  subst hx
  cases check with
  | error e => rfl
  | ok _ => exact h rfl

/-- The first of two checks fails, or it does not and the second fails. -/
theorem bind_unit_eq_error_iff {x : Except ε Unit} {f : Unit → Except ε β} {e : ε} :
    (x >>= f) = .error e ↔ x = .error e ∨ x = .ok () ∧ f () = .error e := by
  rw [bind_eq_error_iff]
  exact or_congr_right ⟨fun ⟨⟨⟩, h⟩ => h, fun h => ⟨(), h⟩⟩

/-- A test that has to hold for a result. -/
theorem ite_error_eq_ok_iff {p : Prop} [Decidable p] {e : ε} {x : Except ε α} {a : α} :
    (if p then x else .error e) = .ok a ↔ p ∧ x = .ok a := by
  split
  · next h => simp [h]
  · next h => simp [h]

/-- A test that may not hold for a result. -/
theorem error_ite_eq_ok_iff {p : Prop} [Decidable p] {e : ε} {x : Except ε α} {a : α} :
    (if p then .error e else x) = .ok a ↔ ¬ p ∧ x = .ok a := by
  split
  · next h => simp [h]
  · next h => simp [h]

theorem mapError_eq_ok_iff {ε' : Type} {g : ε → ε'} {x : Except ε α} {a : α} :
    x.mapError g = .ok a ↔ x = .ok a := by
  cases x with
  | error e =>
    show Except.error (g e) = .ok a ↔ Except.error e = .ok a
    simp
  | ok b =>
    show Except.ok b = .ok a ↔ Except.ok b = .ok a
    rw [Except.ok.injEq, Except.ok.injEq]

theorem map_eq_ok_iff {f : α → β} {x : Except ε α} {b : β} :
    x.map f = .ok b ↔ ∃ a, x = .ok a ∧ f a = b := by
  cases x with
  | error e =>
    show Except.error e = .ok b ↔ _
    simp
  | ok a =>
    show Except.ok (f a) = .ok b ↔ _
    simp

theorem map_eq_error_iff {f : α → β} {x : Except ε α} {e : ε} :
    x.map f = .error e ↔ x = .error e := by
  cases x with
  | error e' =>
    show Except.error e' = .error e ↔ Except.error e' = .error e
    rw [Except.error.injEq, Except.error.injEq]
  | ok a =>
    show Except.ok (f a) = .error e ↔ Except.ok a = .error e
    simp

theorem mapError_eq_error_iff {ε' : Type} {g : ε → ε'} {x : Except ε α} {e : ε'} :
    x.mapError g = .error e ↔ ∃ cause, x = .error cause ∧ g cause = e := by
  cases x with
  | error cause =>
    show Except.error (g cause) = .error e ↔ _
    simp
  | ok a =>
    show Except.ok a = .error e ↔ _
    simp

theorem forM_eq_ok_iff {f : α → Except ε Unit} {xs : List α} :
    xs.forM f = .ok () ↔ ∀ x ∈ xs, f x = .ok () := by
  induction xs with
  | nil => exact ⟨fun _ => by simp, fun _ => rfl⟩
  | cons x xs ih =>
    rw [List.forall_mem_cons, ← ih]
    exact bind_unit_eq_ok_iff

theorem exists_of_forM_eq_error {f : α → Except ε Unit} {xs : List α} {e : ε}
    (h : xs.forM f = .error e) : ∃ x ∈ xs, f x = .error e := by
  induction xs with
  | nil => cases h
  | cons x xs ih =>
    have h : (f x >>= fun _ => xs.forM f) = .error e := h
    rcases bind_unit_eq_error_iff.mp h with hx | ⟨_, hxs⟩
    · exact ⟨x, List.mem_cons_self, hx⟩
    · obtain ⟨y, hy, hfy⟩ := ih hxs
      exact ⟨y, List.mem_cons_of_mem x hy, hfy⟩

/-- Every element has a result, and the results stand in the order of the elements. -/
theorem mapM_eq_ok_iff {f : α → Except ε β} {g : β → α} {good : β → Prop}
    (h : ∀ x y, f x = .ok y ↔ x = g y ∧ good y) {xs : List α} {ys : List β} :
    xs.mapM f = .ok ys ↔ xs = ys.map g ∧ ∀ y ∈ ys, good y := by
  induction xs generalizing ys with
  | nil =>
    rw [List.mapM_nil, pure_eq_ok_iff]
    cases ys <;> simp
  | cons x xs ih =>
    rw [List.mapM_cons, bind_eq_ok_iff]
    constructor
    · intro h
      obtain ⟨y, hy, hbind⟩ := h
      obtain ⟨rest, hrest, hys⟩ := bind_eq_ok_iff.mp hbind
      rw [pure_eq_ok_iff] at hys
      subst hys
      obtain ⟨hx, hgood⟩ := (h x y).mp hy
      obtain ⟨hxs, hall⟩ := ih.mp hrest
      rw [hx, hxs]
      exact ⟨rfl, List.forall_mem_cons.mpr ⟨hgood, hall⟩⟩
    · intro h
      obtain ⟨hxs, hall⟩ := h
      cases ys with
      | nil => simp at hxs
      | cons y ys =>
        simp only [List.map_cons, List.cons.injEq] at hxs
        obtain ⟨hgood, hall⟩ := List.forall_mem_cons.mp hall
        refine ⟨y, (h x y).mpr ⟨hxs.1, hgood⟩, bind_eq_ok_iff.mpr ⟨ys, ?_, rfl⟩⟩
        exact ih.mpr ⟨hxs.2, hall⟩

end Elvis
