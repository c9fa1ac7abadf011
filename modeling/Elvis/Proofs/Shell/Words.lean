import Elvis.Proofs.Shell.Quoting

/-!
# Reading words

A shell joins single-quoted spans and bytes behind a backslash into one word and goes on to the
first other byte. So what `Shell.singleQuoted` writes is read as one word, in which nothing is left
to expand, and a `case` label as the words that it was made of (`singleQuoted_caseLabel_read`).
-/

namespace Elvis.Shell

open Byte

variable {place : Place} {s t text word rest : Bytes} {items : List Bytes}

/-! ## One word -/

/-- Reads the spans and the bytes behind backslashes, and gives the word and what follows it; `word`
is what has been read of it. No word begins with any other byte. -/
def readWord (place : Place) (word : Bytes) : Bytes → Option (Bytes × Bytes)
  | [] => if place = .unquoted then some (word, []) else none
  | b :: rest =>
      match place with
      | .quoted =>
          if b = singleQuote then readWord .unquoted word rest
          else readWord .quoted (word ++ [b]) rest
      | .escaped => readWord .unquoted (word ++ [b]) rest
      | .wordStart =>
          if b = singleQuote then readWord .quoted word rest
          else if b = backslash then readWord .escaped word rest
          else none
      | .unquoted =>
          if b = singleQuote then readWord .quoted word rest
          else if b = backslash then readWord .escaped word rest
          else some (word, b :: rest)

/-- The bytes that a shell expands, takes for patterns or ends words at: those outside of spans and
not behind a backslash, but for the quotes and backslashes themselves. -/
def bare (place : Place) : Bytes → Bytes
  | [] => []
  | b :: rest =>
      match place with
      | .quoted => bare (if b = singleQuote then .unquoted else .quoted) rest
      | .escaped => bare .unquoted rest
      | .wordStart | .unquoted =>
          if b = singleQuote then bare .quoted rest
          else if b = backslash then bare .escaped rest
          else b :: bare .unquoted rest

theorem length_readWord_le (h : readWord place word text = some (s, rest)) :
    rest.length ≤ text.length := by
  fun_induction readWord place word text <;> grind

/-- A word that is read has no bare bytes. -/
theorem bare_of_readWord (h : readWord place word text = some (s, rest)) :
    bare place text = bare .unquoted rest := by
  fun_induction readWord place word text <;> grind [bare]

theorem readsSpans_readWord : ReadsSpans readWord where
  start _ _ := rfl
  opening _ _ := rfl
  inside _ _ _ hb := if_neg hb
  closing _ _ := rfl
  escaped _ _ := rfl

theorem readWord_unquoted (h : ∀ b ∈ t.head?, b ≠ singleQuote ∧ b ≠ backslash) :
    readWord .unquoted word t = some (word, t) := by
  cases t with
  | nil => rfl
  | cons b t =>
    obtain ⟨hquote, hbackslash⟩ := h b rfl
    exact (if_neg hquote).trans (if_neg hbackslash)

theorem readWord_singleQuoted (s : Bytes) (h : ∀ b ∈ t.head?, b ≠ singleQuote ∧ b ≠ backslash) :
    readWord .wordStart [] (singleQuoted s ++ t) = some (s, t) :=
  (readsSpans_readWord.read_singleQuoted s t).trans (readWord_unquoted h)

/-! ## Words between bars -/

/-- Reads words with bars between them, and gives what follows the last. -/
def readWords (text : Bytes) : Option (List Bytes × Bytes) :=
  match _h : readWord .wordStart [] text with
  | none => none
  | some (word, []) => some ([word], [])
  | some (word, b :: rest) =>
      if b = bar then (readWords rest).map fun (words, after) => (word :: words, after)
      else some ([word], b :: rest)
termination_by text.length
decreasing_by exact length_readWord_le _h

theorem readWords_of_bar (h : readWord .wordStart [] text = some (word, bar :: rest)) :
    readWords text = (readWords rest).map fun (words, after) => (word :: words, after) := by
  rw [readWords]
  split <;> grind

theorem readWords_of_last (h : readWord .wordStart [] text = some (word, t))
    (ht : ∀ b ∈ t.head?, b ≠ bar) : readWords text = some ([word], t) := by
  rw [readWords]
  split <;> grind

/-- A bar inside an item is quoted, so only the bars between the items are met. -/
theorem readWords_caseLabel (hne : items ≠ [])
    (h : ∀ b ∈ t.head?, b ≠ singleQuote ∧ b ≠ backslash ∧ b ≠ bar) :
    readWords (caseLabel items ++ t) = some (items, t) := by
  induction items with
  | nil => exact absurd rfl hne
  | cons item items ih =>
    unfold caseLabel at ih ⊢
    cases items with
    | nil =>
      rw [List.map_singleton, Bytes.join_singleton]
      have hread := readWord_singleQuoted item fun b hb => ⟨(h b hb).1, (h b hb).2.1⟩
      exact readWords_of_last hread fun b hb => (h b hb).2.2
    | cons next items =>
      rw [List.map_cons, List.map_cons, Bytes.join_cons_cons, ← List.map_cons, List.append_assoc,
        List.append_assoc]
      have hbar : ∀ following : Bytes, ∀ b ∈ (bar :: following).head?,
          b ≠ singleQuote ∧ b ≠ backslash := by
        rintro _ b ⟨⟩
        decide
      refine (readWords_of_bar (readWord_singleQuoted item (hbar _))).trans ?_
      exact congrArg (Option.map _) (ih (List.cons_ne_nil next items))

/-! ## Quoted words -/

/-- A quoted text is one word, none of whose bytes are bare, and a label gives its items back. -/
theorem singleQuoted_caseLabel_read :
    (∀ s t : Bytes, (∀ b ∈ t.head?, b ≠ singleQuote ∧ b ≠ backslash) →
      readWord .wordStart [] (singleQuoted s ++ t) = some (s, t) ∧
        bare .wordStart (singleQuoted s ++ t) = bare .unquoted t) ∧
      ∀ (items : List Bytes) (t : Bytes), items ≠ [] →
        (∀ b ∈ t.head?, b ≠ singleQuote ∧ b ≠ backslash ∧ b ≠ bar) →
        readWords (caseLabel items ++ t) = some (items, t) := by
  constructor
  · intro s t h
    have hread := readWord_singleQuoted s h
    exact ⟨hread, bare_of_readWord hread⟩
  · exact fun items t => readWords_caseLabel

theorem singleQuoted_caseLabel_read_sample :
    (readWord .wordStart [] (singleQuoted "it's `$x`*" ++ bar :: "$y") =
        some (("it's `$x`*" : Bytes), bar :: "$y") ∧
      bare .wordStart (singleQuoted "it's `$x`*" ++ bar :: "$y") = bar :: "$y") ∧
      readWords (caseLabel ["a|b", "", "it's"] ++ closingParen :: " *") =
        some ((["a|b", "", "it's"] : List Bytes), closingParen :: " *") := by
  constructor
  · refine singleQuoted_caseLabel_read.1 "it's `$x`*" (bar :: "$y") ?_
    rintro b ⟨⟩
    decide
  · refine singleQuoted_caseLabel_read.2 ["a|b", "", "it's"] (closingParen :: " *") (by decide) ?_
    rintro b ⟨⟩
    decide

end Elvis.Shell
