import Elvis.Bytes

/-!
# Splitting and joining

`split` and `join` by one separator byte are inverse: joining the items of a split gives the text
back, and splitting a join gives the items back when none of them holds the separator. The comma
lists of directives follow, where the empty text has no items, and then the items as the positions
of the separators cut them out of the text.
-/

namespace Elvis.Bytes

variable {separator : UInt8} {s : Bytes} {items : List Bytes} {start pos : Nat}

/-! ## Joining -/

@[simp] theorem join_nil (separator : Bytes) : join separator [] = [] := rfl

@[simp] theorem join_singleton (separator item : Bytes) : join separator [item] = item := by
  simp [join]

theorem join_cons_cons (separator item next : Bytes) (rest : List Bytes) :
    join separator (item :: next :: rest) = item ++ separator ++ join separator (next :: rest) := by
  simp [join, List.intercalate_cons_cons]

/-- Every item but the first stands behind a separator. -/
theorem join_cons (separator item : Bytes) (rest : List Bytes) :
    join separator (item :: rest) = item ++ rest.flatMap (separator ++ ·) := by
  induction rest generalizing item with
  | nil => simp
  | cons next rest ih =>
    rw [join_cons_cons, ih, List.flatMap_cons, List.append_assoc, List.append_assoc]

theorem mem_join_of_mem {separator item : Bytes} {b : UInt8} (h : item ∈ items) (hb : b ∈ item) :
    b ∈ join separator items := by
  obtain ⟨first, rest, rfl⟩ := List.exists_cons_of_ne_nil (List.ne_nil_of_mem h)
  rw [join_cons, List.mem_append, List.mem_flatMap]
  rcases List.mem_cons.mp h with rfl | h
  · exact .inl hb
  · exact .inr ⟨item, h, List.mem_append_right _ hb⟩

theorem infix_join_of_mem {separator item : Bytes} (h : item ∈ items) :
    item <:+: join separator items := by
  obtain ⟨first, rest, rfl⟩ := List.exists_cons_of_ne_nil (List.ne_nil_of_mem h)
  rw [join_cons]
  rcases List.mem_cons.mp h with rfl | h
  · exact (List.prefix_append _ _).isInfix
  · have hrest : separator ++ item <:+: rest.flatMap (separator ++ ·) :=
      List.infix_of_mem_flatten (List.mem_map_of_mem h)
    exact (List.suffix_append _ _).isInfix.trans (hrest.trans (List.suffix_append _ _).isInfix)

/-- A join ends with one of the items. -/
theorem exists_suffix_join (separator : Bytes) (h : items ≠ []) :
    ∃ before item, item ∈ items ∧ join separator items = before ++ item := by
  induction items with
  | nil => exact absurd rfl h
  | cons item rest ih =>
    cases rest with
    | nil => exact ⟨[], item, List.mem_cons_self, join_singleton _ _⟩
    | cons next rest =>
      obtain ⟨before, last, hlast, hjoin⟩ := ih (List.cons_ne_nil _ _)
      refine ⟨item ++ separator ++ before, last, List.mem_cons_of_mem _ hlast, ?_⟩
      rw [join_cons_cons, hjoin, List.append_assoc _ before]

/-- A byte of a join other than the separator is a byte of an item. -/
theorem not_mem_join_iff {b : UInt8} (h : b ≠ separator) :
    b ∉ join [separator] items ↔ ∀ item ∈ items, b ∉ item := by
  induction items with
  | nil => simp
  | cons item rest ih =>
    cases rest with
    | nil => simp
    | cons next rest =>
      rw [join_cons_cons, List.forall_mem_cons, ← ih]
      simp only [List.mem_append, List.mem_singleton, not_or]
      constructor
      · intro h
        obtain ⟨⟨hi, _⟩, hr⟩ := h
        exact ⟨hi, hr⟩
      · intro h
        obtain ⟨hi, hr⟩ := h
        exact ⟨⟨hi, h⟩, hr⟩

/-! ## Splitting -/

theorem split_ne_nil (separator : UInt8) (s : Bytes) : split separator s ≠ [] := by
  cases s with
  | nil => simp [split]
  | cons b rest =>
    unfold split
    split
    · simp
    · split <;> simp

theorem split_cons_separator (separator : UInt8) (rest : Bytes) :
    split separator (separator :: rest) = [] :: split separator rest := by
  rw [split, if_pos rfl]

/-- A byte that does not separate goes to the front of the first item. -/
theorem split_cons_of_ne {b : UInt8} (h : b ≠ separator) (rest : Bytes) :
    ∃ item items, split separator rest = item :: items ∧
      split separator (b :: rest) = (b :: item) :: items := by
  obtain ⟨item, items, hs⟩ := List.exists_cons_of_ne_nil (split_ne_nil separator rest)
  refine ⟨item, items, hs, ?_⟩
  rw [split, if_neg h, hs]

/-- A separator keeps what is on its sides apart. -/
theorem split_append (s rest : Bytes) :
    split separator (s ++ separator :: rest) = split separator s ++ split separator rest := by
  induction s with
  | nil => exact split_cons_separator separator rest
  | cons b s ih =>
    by_cases h : b = separator
    · subst h
      rw [List.cons_append, split_cons_separator, split_cons_separator, ih, List.cons_append]
    · obtain ⟨first, others, hs, hb⟩ := split_cons_of_ne h s
      obtain ⟨first', others', hs', hb'⟩ := split_cons_of_ne h (s ++ separator :: rest)
      rw [ih, hs, List.cons_append] at hs'
      cases hs'
      rw [List.cons_append, hb', hb, List.cons_append]

theorem split_of_not_mem {item : Bytes} (h : separator ∉ item) : split separator item = [item] := by
  induction item with
  | nil => rfl
  | cons b item ih =>
    simp only [List.mem_cons, not_or] at h
    obtain ⟨first, others, hs, hb⟩ := split_cons_of_ne (Ne.symm h.1) item
    rw [ih h.2] at hs
    cases hs
    exact hb

/-- A text without the separator lengthens the first item. -/
theorem split_append_of_not_mem (h : separator ∉ s) (rest : Bytes) :
    split separator (s ++ rest) = (split separator rest).modifyHead (s ++ ·) := by
  induction s with
  | nil =>
    obtain ⟨item, items, hs⟩ := List.exists_cons_of_ne_nil (split_ne_nil separator rest)
    rw [List.nil_append, hs]
    rfl
  | cons b s ih =>
    simp only [List.mem_cons, not_or] at h
    obtain ⟨first, others, hs, hb⟩ := split_cons_of_ne (Ne.symm h.1) (s ++ rest)
    rw [ih h.2] at hs
    obtain ⟨item, items, hrest⟩ := List.exists_cons_of_ne_nil (split_ne_nil separator rest)
    rw [hrest] at hs ⊢
    cases hs
    exact hb

/-- What stands behind the last separator is the last item. -/
theorem exists_split_eq_concat (separator : UInt8) (s : Bytes) :
    ∃ last, separator ∉ last ∧ ((s = last ∧ split separator s = [last]) ∨
      ∃ before, s = before ++ separator :: last ∧
        split separator s = split separator before ++ [last]) := by
  by_cases h : separator ∈ s
  · obtain ⟨after, before, hreverse, hafter⟩ :=
      List.eq_append_cons_of_mem (List.mem_reverse.mpr h)
    have hs : s = before.reverse ++ separator :: after.reverse := by
      rw [← List.reverse_reverse s, hreverse]
      simp
    have hlast : separator ∉ after.reverse := fun hm => hafter (List.mem_reverse.mp hm)
    refine ⟨after.reverse, hlast, .inr ⟨before.reverse, hs, ?_⟩⟩
    rw [hs, split_append, split_of_not_mem hlast]
  · exact ⟨s, h, .inl ⟨rfl, split_of_not_mem h⟩⟩

/-- No item of a split holds the separator. -/
theorem not_mem_of_mem_split : ∀ (s : Bytes), ∀ item ∈ split separator s, separator ∉ item := by
  intro s
  induction s with
  | nil => simp [split]
  | cons b rest ih =>
    by_cases h : b = separator
    · subst h
      rw [split_cons_separator]
      exact List.forall_mem_cons.mpr ⟨List.not_mem_nil, ih⟩
    · obtain ⟨first, others, hs, hb⟩ := split_cons_of_ne h rest
      rw [hs] at ih
      obtain ⟨hf, ho⟩ := List.forall_mem_cons.mp ih
      rw [hb]
      refine List.forall_mem_cons.mpr ⟨?_, ho⟩
      simp only [List.mem_cons, not_or]
      exact ⟨Ne.symm h, hf⟩

/-- Nothing is lost by a split. -/
theorem join_split (separator : UInt8) (s : Bytes) : join [separator] (split separator s) = s := by
  induction s with
  | nil => simp [split]
  | cons b rest ih =>
    obtain ⟨item, items, hs⟩ := List.exists_cons_of_ne_nil (split_ne_nil separator rest)
    by_cases h : b = separator
    · subst h
      rw [split_cons_separator, hs, join_cons_cons, ← hs, ih]
      rfl
    · rw [split, if_neg h, hs]
      rw [hs] at ih
      cases items with
      | nil => simpa using ih
      | cons next items =>
        rw [join_cons_cons] at ih ⊢
        rw [← ih]
        rfl

theorem split_join (hne : items ≠ []) (h : ∀ item ∈ items, separator ∉ item) :
    split separator (join [separator] items) = items := by
  induction items with
  | nil => exact absurd rfl hne
  | cons item rest ih =>
    obtain ⟨hi, hr⟩ := List.forall_mem_cons.mp h
    cases rest with
    | nil => rw [join_singleton, split_of_not_mem hi]
    | cons next rest =>
      rw [join_cons_cons, List.append_assoc, List.singleton_append, split_append,
        split_of_not_mem hi, ih (by simp) hr, List.singleton_append]

/-- Every separator ends an item, and one more item follows the last of them. -/
theorem length_split (separator : UInt8) (s : Bytes) :
    (split separator s).length = s.count separator + 1 := by
  induction s with
  | nil => rfl
  | cons b rest ih =>
    by_cases h : b = separator
    · subst h
      rw [split_cons_separator, List.length_cons, ih, List.count_cons_self]
    · obtain ⟨item, items, hs, hb⟩ := split_cons_of_ne h rest
      rw [hb, List.length_cons, List.count_cons_of_ne h, ← ih, hs, List.length_cons]

/-- The items of a text are the only ones without the separator that join to it. -/
theorem split_eq_iff :
    split separator s = items ↔
      items ≠ [] ∧ (∀ item ∈ items, separator ∉ item) ∧ s = join [separator] items := by
  constructor
  · rintro rfl
    exact ⟨split_ne_nil separator s, not_mem_of_mem_split s, (join_split separator s).symm⟩
  · rintro ⟨hne, h, rfl⟩
    exact split_join hne h

theorem takeWhile_ne_append {text : Bytes} (h : separator ∉ text) (rest : Bytes) :
    (text ++ separator :: rest).takeWhile (· ≠ separator) = text := by
  rw [List.takeWhile_append_of_pos]
  · simp
  · intro b hb
    exact decide_eq_true fun heq => h (heq ▸ hb)

/-! ## Cutting -/

theorem cut_append (h : separator ∉ s) (rest : Bytes) :
    cut separator (s ++ separator :: rest) = (s, some rest) := by
  have hne : ∀ b ∈ s, (b != separator) = true := fun b hb => bne_iff_ne.mpr fun heq => h (heq ▸ hb)
  unfold cut
  rw [List.dropWhile_append_of_pos hne, List.takeWhile_append_of_pos hne,
    List.dropWhile_cons_of_neg (by simp), List.takeWhile_cons_of_neg (by simp), List.append_nil]

theorem cut_of_not_mem (h : separator ∉ s) : cut separator s = (s, none) := by
  have hne : ∀ b ∈ s, (b != separator) = true := fun b hb => bne_iff_ne.mpr fun heq => h (heq ▸ hb)
  have hdrop : (s ++ []).dropWhile (· != separator) = [] := List.dropWhile_append_of_pos hne
  rw [List.append_nil] at hdrop
  unfold cut
  rw [hdrop]

/-! ## Comma lists -/

@[simp] theorem joinCommas_nil : joinCommas [] = [] := rfl

/-- The empty text is the list without items, so no list is the single empty item. -/
theorem commaItems_eq_iff :
    s.commaItems = items ↔
      items ≠ [[]] ∧ (∀ item ∈ items, Byte.comma ∉ item) ∧ s = joinCommas items := by
  unfold commaItems
  split
  · next h =>
    rw [List.isEmpty_iff] at h
    subst h
    constructor
    · rintro rfl
      exact ⟨by simp, by simp, rfl⟩
    · intro h
      obtain ⟨hne, h, hs⟩ := h
      -- joining to nothing is the split of nothing: no items, or the excluded single empty one
      cases items with
      | nil => rfl
      | cons item rest =>
        have hsplit := split_join (List.cons_ne_nil item rest) h
        rw [show join [Byte.comma] (item :: rest) = [] from hs.symm] at hsplit
        exact absurd hsplit.symm hne
  · next h =>
    rw [split_eq_iff]
    constructor
    · rintro ⟨hne, hc, rfl⟩
      refine ⟨?_, hc, rfl⟩
      rintro rfl
      simp at h
    · rintro ⟨hne, hc, rfl⟩
      refine ⟨?_, hc, rfl⟩
      rintro rfl
      simp at h

/-! ## Positions -/

/-- The first position of the separator from `start` on. -/
def indexFrom? (separator : UInt8) (s : Bytes) (start : Nat) : Option Nat :=
  ((s.drop start).idxOf? separator).map (start + ·)

/-- The separator that is found ends the item that starts at `start`. -/
theorem drop_of_indexFrom?_eq_some (h : indexFrom? separator s start = some pos) :
    start ≤ pos ∧ pos < s.length ∧ separator ∉ s.extract start pos ∧
      s.drop start = s.extract start pos ++ separator :: s.drop (pos + 1) := by
  obtain ⟨n, hn, rfl⟩ := Option.map_eq_some_iff.mp h
  obtain ⟨hlt, hsep, hbefore⟩ := List.idxOf?_eq_some_iff.mp hn
  have hlength : start + n < s.length := by
    rw [List.length_drop] at hlt
    omega
  have hitem : s.extract start (start + n) = (s.drop start).take n := by
    rw [List.extract_eq_take_drop, Nat.add_sub_cancel_left]
  rw [hitem]
  refine ⟨Nat.le_add_right _ _, hlength, ?_, ?_⟩
  · rw [List.mem_take_iff_getElem]
    rintro ⟨i, hi, hget⟩
    exact hbefore i (by omega) hget
  · calc s.drop start
      _ = (s.drop start).take n ++ (s.drop start).drop n := (List.take_append_drop n _).symm
      _ = (s.drop start).take n ++ separator :: s.drop (start + n + 1) := by
        rw [List.drop_eq_getElem_cons hlt, hsep, List.drop_drop, Nat.add_assoc]

theorem not_mem_drop_of_indexFrom?_eq_none (h : indexFrom? separator s start = none) :
    separator ∉ s.drop start :=
  List.idxOf?_eq_none_iff.mp (Option.map_eq_none_iff.mp h)

/-- The items from a position on, which must not lie behind the end: each reaches to the next
separator, and the next one starts behind it. -/
def itemsFrom? (separator : UInt8) (s : Bytes) (start : Nat) : Option (List Bytes) :=
  if start ≤ s.length then
    match h : indexFrom? separator s start with
    | none => some [s.drop start]
    | some pos => (itemsFrom? separator s (pos + 1)).map (s.extract start pos :: ·)
  else none
termination_by s.length + 1 - start
decreasing_by
  have := drop_of_indexFrom?_eq_some h
  omega

theorem itemsFrom?_eq (h : start ≤ s.length) :
    itemsFrom? separator s start = some (split separator (s.drop start)) := by
  fun_induction itemsFrom? separator s start with
  | case1 start h' hnone => rw [split_of_not_mem (not_mem_drop_of_indexFrom?_eq_none hnone)]
  | case2 start h' pos hpos ih =>
    obtain ⟨_, hlt, hitem, hdrop⟩ := drop_of_indexFrom?_eq_some hpos
    rw [ih hlt, hdrop, split_append, split_of_not_mem hitem]
    rfl
  | case3 => contradiction

/-- Splitting and joining are inverse, and reading item by item at positions of the text never
leaves it and gives the same items. -/
theorem split_inverse_join (separator : UInt8) :
    (∀ s, itemsFrom? separator s 0 = some (split separator s) ∧
      (split separator s).length = s.count separator + 1 ∧
      (∀ item ∈ split separator s, separator ∉ item) ∧
      join [separator] (split separator s) = s) ∧
    ∀ items, items ≠ [] → (∀ item ∈ items, separator ∉ item) →
      split separator (join [separator] items) = items := by
  constructor
  · intro s
    exact ⟨itemsFrom?_eq (Nat.zero_le _), length_split separator s, not_mem_of_mem_split s,
      join_split separator s⟩
  · exact fun _ => split_join

/-- Empty items stand at both ends and side by side. -/
theorem split_inverse_join_sample :
    let items : List Bytes := [[], "a", [], [], "b:c", []]
    itemsFrom? Byte.comma ",a,,,b:c," 0 = some items ∧ items ≠ [] ∧
      (∀ item ∈ items, Byte.comma ∉ item) ∧
      split Byte.comma (join [Byte.comma] items) = items := by
  intro items
  have hne : items ≠ [] := by decide
  have hcomma : ∀ item ∈ items, Byte.comma ∉ item := by decide
  exact ⟨((split_inverse_join Byte.comma).1 ",a,,,b:c,").1, hne, hcomma,
    (split_inverse_join Byte.comma).2 items hne hcomma⟩

end Elvis.Bytes
