import Elvis.Url

/-!
# URLs

A URL names a scheme if it starts with one and `://` follows. At most one scheme is so named,
because a scheme has no colon. A component that is percent-encoded holds no byte but percent signs
and unreserved ones.
-/

namespace Elvis.Url

/-! ## Schemes -/

def HasScheme (url scheme : Bytes) : Prop :=
  isScheme scheme ∧ ∃ rest, url = withScheme scheme rest

variable {url scheme before after : Bytes}

theorem eq_of_cutSchemeMark (h : cutSchemeMark url = some (before, after)) :
    url = withScheme before after := by
  induction url generalizing before with
  | nil => cases h
  | cons b rest ih =>
    unfold cutSchemeMark at h
    split at h
    · next hp =>
      cases h
      obtain ⟨tail, ht⟩ := List.isPrefixOf_iff_prefix.mp hp
      rw [← ht, List.drop_left]
      rfl
    · obtain ⟨⟨left, right⟩, hcut, hpair⟩ := Option.map_eq_some_iff.mp h
      cases hpair
      rw [ih hcut]
      rfl

theorem cutSchemeMark_withScheme (h : Byte.colon ∉ before) :
    cutSchemeMark (withScheme before after) = some (before, after) := by
  induction before with
  | nil => rfl
  | cons b rest ih =>
    rw [List.mem_cons, not_or] at h
    -- the mark starts with a colon, so it cannot start inside the scheme
    have hcons : withScheme (b :: rest) after = b :: withScheme rest after := rfl
    have hp : ¬ schemeMark.isPrefixOf (b :: withScheme rest after) := by
      intro hp
      obtain ⟨tail, ht⟩ := List.isPrefixOf_iff_prefix.mp hp
      have hmark : schemeMark = Byte.colon :: [Byte.slash, Byte.slash] := rfl
      rw [hmark, List.cons_append, List.cons.injEq] at ht
      exact h.1 ht.1
    rw [hcons, cutSchemeMark, if_neg hp, ih h.2]
    rfl

theorem colon_not_mem_of_isScheme (h : isScheme scheme) : Byte.colon ∉ scheme := by
  intro hm
  cases scheme with
  | nil => cases hm
  | cons b rest =>
    obtain ⟨hb, hrest⟩ := Bool.and_eq_true_iff.mp h
    rcases List.mem_cons.mp hm with rfl | hm
    · exact absurd hb (by decide)
    · exact absurd (List.all_eq_true.mp hrest _ hm) (by decide)

theorem splitScheme_fst_eq_some_iff :
    (splitScheme url).1 = some scheme ↔ HasScheme url scheme := by
  unfold splitScheme
  constructor
  · intro h
    split at h
    · next hcut =>
      split at h
      · next hs =>
        cases h
        exact ⟨hs, _, eq_of_cutSchemeMark hcut⟩
      · cases h
    · cases h
  · intro h
    obtain ⟨hs, rest, hurl⟩ := h
    rw [hurl, cutSchemeMark_withScheme (colon_not_mem_of_isScheme hs)]
    exact congrArg Prod.fst (if_pos hs)

theorem splitScheme_snd_suffix (url : Bytes) : (splitScheme url).2 <:+ url := by
  unfold splitScheme
  split
  · next hcut =>
    split
    · rw [eq_of_cutSchemeMark hcut]
      exact List.suffix_append _ _
    · exact List.suffix_rfl
  · exact List.suffix_rfl

theorem mem_of_mem_splitScheme {b : UInt8} (h : b ∈ (splitScheme url).2) : b ∈ url :=
  (splitScheme_snd_suffix url).subset h

/-! ## Percent-encoding -/

theorem isUnreserved_hexDigit {n : UInt8} (h : n.toNat < 16) : isUnreserved (hexDigit n) := by
  have hdigits : ∀ k < 16, isUnreserved (hexDigit (UInt8.ofNat k)) := by decide
  simpa using hdigits n.toNat h

theorem isUnreserved_or_percent {text : Bytes} :
    ∀ b ∈ percentEncode text, isUnreserved b ∨ b = Byte.percent := by
  intro b hb
  obtain ⟨c, _, hb⟩ := List.mem_flatMap.mp hb
  unfold encodeByte at hb
  split at hb
  · next hc =>
    rw [List.mem_singleton] at hb
    subst hb
    exact .inl hc
  · have hhigh : (c / 16).toNat < 16 := by
      have hbyte := c.toNat_lt
      rw [UInt8.toNat_div]
      show c.toNat / 16 < 16
      omega
    have hlow : (c % 16).toNat < 16 := by
      rw [UInt8.toNat_mod]
      exact Nat.mod_lt _ (by decide)
    simp only [List.mem_cons, List.not_mem_nil, or_false] at hb
    rcases hb with rfl | rfl | rfl
    · exact .inr rfl
    · exact .inl (isUnreserved_hexDigit hhigh)
    · exact .inl (isUnreserved_hexDigit hlow)

end Elvis.Url
