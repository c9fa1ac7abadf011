import Elvis.Shell.Quote
import Elvis.Proofs.Bytes.SplitJoin

/-!
# Reading quoted text

A shell knows from the text alone where a quoted text ends. The readers here follow its rules for
the labels of a `case` arm and for text inside double quotes; what `Shell.caseLabel` and
`Shell.doubleQuotable` write is read back, whatever bytes it holds and whatever follows it.
-/

namespace Elvis.Shell

open Byte

/-! ## Labels -/

/-- Where the reader of a word, or of a `case` label, stands. -/
inductive Place
  | wordStart
  | quoted
  | unquoted
  | escaped
deriving DecidableEq, Repr

/-- Reads the words of a label up to its closing parenthesis, and gives what follows it. A word is
made of single-quoted spans and of single quotes behind a backslash; a bar ends it. `words` and
`word` are what has been read of the label and of the current word. -/
def readLabel (place : Place) (words : List Bytes) (word : Bytes) :
    Bytes → Option (List Bytes × Bytes)
  | [] => none
  | b :: rest =>
      match place with
      | .quoted =>
          if b = singleQuote then readLabel .unquoted words word rest
          else readLabel .quoted words (word ++ [b]) rest
      | .escaped =>
          if b = singleQuote then readLabel .unquoted words (word ++ [b]) rest else none
      | .wordStart =>
          if b = singleQuote then readLabel .quoted words word rest
          else if b = backslash then readLabel .escaped words word rest
          else none
      | .unquoted =>
          if b = singleQuote then readLabel .quoted words word rest
          else if b = backslash then readLabel .escaped words word rest
          else if b = bar then readLabel .wordStart (words ++ [word]) [] rest
          else if b = closingParen then some (words ++ [word], rest)
          else none

variable {words items : List Bytes} {word text rest s t : Bytes}

theorem length_readLabel_lt {place : Place}
    (h : readLabel place words word text = some (items, rest)) : rest.length < text.length := by
  fun_induction readLabel place words word text <;> grind

/-- A reader of words that collects the bytes of spans and those behind backslashes. -/
structure ReadsSpans {α : Type} (read : Place → Bytes → Bytes → α) : Prop where
  start : ∀ word rest, read .wordStart word (singleQuote :: rest) = read .quoted word rest
  opening : ∀ word rest, read .unquoted word (singleQuote :: rest) = read .quoted word rest
  inside : ∀ word b rest, b ≠ singleQuote →
    read .quoted word (b :: rest) = read .quoted (word ++ [b]) rest
  closing : ∀ word rest, read .quoted word (singleQuote :: rest) = read .unquoted word rest
  escaped : ∀ word rest, read .unquoted word (backslash :: singleQuote :: rest) =
    read .unquoted (word ++ [singleQuote]) rest

namespace ReadsSpans

variable {α : Type} {read : Place → Bytes → Bytes → α}

/-- A quote inside a span closes it, stands escaped, and opens the next span. -/
theorem read_quoted (h : ReadsSpans read) (word s rest : Bytes) :
    read .quoted word (s.flatMap quoteByte ++ singleQuote :: rest) =
      read .unquoted (word ++ s) rest := by
  induction s generalizing word with
  | nil =>
    rw [List.append_nil]
    exact h.closing word rest
  | cons b s ih =>
    have hword : word ++ b :: s = (word ++ [b]) ++ s := by simp
    rw [hword, ← ih, List.flatMap_cons, List.append_assoc, quoteByte]
    split
    · next hb =>
      subst hb
      exact (h.closing _ _).trans ((h.escaped _ _).trans (h.opening _ _))
    · next hb => exact h.inside word b _ hb

theorem read_singleQuoted (h : ReadsSpans read) (s rest : Bytes) :
    read .wordStart [] (singleQuoted s ++ rest) = read .unquoted s rest := by
  have htext : singleQuoted s ++ rest =
      singleQuote :: (s.flatMap quoteByte ++ singleQuote :: rest) := by
    simp [singleQuoted]
  rw [htext, h.start]
  exact h.read_quoted [] s rest

end ReadsSpans

theorem readsSpans_readLabel (words : List Bytes) : ReadsSpans (readLabel · words) where
  start _ _ := rfl
  opening _ _ := rfl
  inside _ _ _ hb := if_neg hb
  closing _ _ := rfl
  escaped _ _ := rfl

theorem readLabel_singleQuoted (s rest : Bytes) :
    readLabel .wordStart words [] (singleQuoted s ++ rest) = readLabel .unquoted words s rest :=
  (readsSpans_readLabel words).read_singleQuoted s rest

/-- The label shows its items and where it ends. -/
theorem readLabel_caseLabel (h : items ≠ []) (rest : Bytes) :
    readLabel .wordStart words [] (caseLabel items ++ closingParen :: rest) =
      some (words ++ items, rest) := by
  induction items generalizing words with
  | nil => exact absurd rfl h
  | cons item items ih =>
    unfold caseLabel at ih ⊢
    cases items with
    | nil =>
      rw [List.map_singleton, Bytes.join_singleton, readLabel_singleQuoted]
      rfl
    | cons next items =>
      rw [List.map_cons, List.map_cons, Bytes.join_cons_cons, ← List.map_cons, List.append_assoc,
        List.append_assoc, readLabel_singleQuoted]
      -- the bar starts the next word
      refine (ih (List.cons_ne_nil next items)).trans ?_
      rw [List.append_assoc, List.singleton_append]

theorem caseLabel_head (h : items ≠ []) : ∃ rest, caseLabel items = singleQuote :: rest := by
  cases items with
  | nil => exact absurd rfl h
  | cons item items =>
    cases items with
    | nil => exact ⟨_, Bytes.join_singleton _ _⟩
    | cons next items => exact ⟨_, Bytes.join_cons_cons _ _ _ _⟩

example : readLabel .wordStart [] [] (.ofString "'a|b'|'it'\\''s') rest") =
    some ([.ofString "a|b", .ofString "it's"], .ofString " rest") := by decide

/-! ## Text inside double quotes -/

/-- Reads up to the closing double quote, which no unpaired backslash precedes, and gives what
follows it. `escaped` says that such a backslash stands before the text. -/
def readDoubleQuoted (escaped : Bool) : Bytes → Option (Bytes × Bytes)
  | [] => none
  | b :: rest =>
      if b = doubleQuote ∧ escaped = false then some ([], rest)
      else (readDoubleQuoted (b = backslash && !escaped) rest).map fun (text, after) =>
        (b :: text, after)

theorem length_readDoubleQuoted_lt {escaped : Bool}
    (h : readDoubleQuoted escaped text = some (s, rest)) : rest.length < text.length := by
  fun_induction readDoubleQuoted escaped text generalizing s with
  | case1 => cases h
  | case2 =>
    cases h
    exact Nat.lt_succ_self _
  | case3 _ _ _ _ ih =>
    obtain ⟨_, hread, hpair⟩ := Option.map_eq_some_iff.mp h
    cases hpair
    exact Nat.lt_succ_of_lt (ih hread)

theorem readDoubleQuoted_cons {escaped : Bool} {b : UInt8} {after : Bytes}
    (hb : b = doubleQuote → escaped = true)
    (h : readDoubleQuoted (b = backslash && !escaped) text = some (after, rest)) :
    readDoubleQuoted escaped (b :: text) = some (b :: after, rest) := by
  have hquote : ¬ (b = doubleQuote ∧ escaped = false) := by
    rintro ⟨hq, he⟩
    rw [hb hq] at he
    cases he
  rw [readDoubleQuoted, if_neg hquote, h]
  rfl

theorem quoteFollows_cons_backslash (s : Bytes) :
    quoteFollows (backslash :: s) = quoteFollows s :=
  if_pos rfl

/-- A backslash before the text may escape its first byte only where a run of backslashes would
not reach a quote; so the quotes of the text are escaped and the one after it is not. -/
theorem readDoubleQuoted_doubleQuotable {escaped : Bool}
    (h : escaped = true → quoteFollows s = false) (rest : Bytes) :
    readDoubleQuoted escaped (doubleQuotable s ++ doubleQuote :: rest) =
      some (doubleQuotable s, rest) := by
  induction s generalizing escaped with
  | nil =>
    obtain rfl : escaped = false := by
      cases escaped with
      | false => rfl
      | true => cases h rfl
    exact if_pos ⟨rfl, rfl⟩
  | cons b s ih =>
    unfold doubleQuotable
    by_cases hb : b = backslash
    · subst hb
      rw [if_pos rfl]
      rw [quoteFollows_cons_backslash] at h
      cases hs : quoteFollows s with
      | true =>
        -- the run reaches a quote or the end: it is doubled, and its backslashes pair up
        obtain rfl : escaped = false := by
          cases escaped with
          | false => rfl
          | true => exact absurd (h rfl) (by simp [hs])
        rw [if_pos rfl]
        refine readDoubleQuoted_cons (by decide) (readDoubleQuoted_cons (by decide) ?_)
        exact ih fun h => absurd h (by decide)
      | false =>
        rw [if_neg Bool.false_ne_true]
        exact readDoubleQuoted_cons (fun hq => absurd hq (by decide)) (ih fun _ => hs)
    · rw [if_neg hb]
      by_cases hq : b = doubleQuote
      · subst hq
        obtain rfl : escaped = false := by
          cases escaped with
          | false => rfl
          | true => cases h rfl
        rw [if_pos rfl]
        refine readDoubleQuoted_cons (by decide) (readDoubleQuoted_cons (by decide) ?_)
        exact ih fun h => absurd h (by decide)
      · rw [if_neg hq]
        refine readDoubleQuoted_cons (fun hb => absurd hb hq) (ih fun he => ?_)
        simp [hb] at he

/-- The first byte other than a backslash is kept. -/
theorem quoteFollows_doubleQuotable (s : Bytes) :
    quoteFollows (doubleQuotable s) = quoteFollows s := by
  induction s with
  | nil => rfl
  | cons b s ih =>
    unfold doubleQuotable
    by_cases hb : b = backslash
    · subst hb
      rw [if_pos rfl]
      split <;> simp [quoteFollows, ih]
    · by_cases hq : b = doubleQuote
      · subst hq
        rfl
      · simp [quoteFollows, hb, hq]

/-- A quote is written behind one backslash, a backslash that may escape a quote behind another. -/
theorem eq_backslash_of_doubleQuotable_eq {b c : UInt8}
    (h : doubleQuotable (b :: s) = doubleQuotable (c :: t)) (hb : b = backslash) :
    c = backslash := by
  have hfollows : quoteFollows (b :: s) = quoteFollows (c :: t) := by
    rw [← quoteFollows_doubleQuotable, h, quoteFollows_doubleQuotable]
  refine Decidable.byContradiction fun hc => ?_
  unfold doubleQuotable at h
  unfold quoteFollows at hfollows
  rw [if_pos hb, if_neg hc] at h hfollows
  by_cases hq : c = doubleQuote
  · have hs : quoteFollows s = true := by simpa [hq] using hfollows
    rw [if_pos hs, if_pos hq, List.cons.injEq, List.cons.injEq] at h
    exact absurd h.2.1 (by decide)
  · have hs : quoteFollows s = false := hfollows.trans (beq_eq_false_iff_ne.mpr hq)
    rw [if_neg (by simp [hs]), if_neg hq, List.cons.injEq] at h
    exact hc h.1.symm

theorem doubleQuotable_cons_inj {b c : UInt8}
    (h : doubleQuotable (b :: s) = doubleQuotable (c :: t)) :
    b = c ∧ doubleQuotable s = doubleQuotable t := by
  have hfollows : quoteFollows (b :: s) = quoteFollows (c :: t) := by
    rw [← quoteFollows_doubleQuotable, h, quoteFollows_doubleQuotable]
  by_cases hb : b = backslash
  · -- both runs of backslashes reach a quote or the end, or neither does
    have hc := eq_backslash_of_doubleQuotable_eq h hb
    unfold doubleQuotable at h
    unfold quoteFollows at hfollows
    rw [if_pos hb, if_pos hc] at h hfollows
    rw [hfollows] at h
    refine ⟨hb.trans hc.symm, ?_⟩
    split at h
    · simpa using h
    · simpa using h
  · have hc : ¬ c = backslash := fun hc => hb (eq_backslash_of_doubleQuotable_eq h.symm hc)
    unfold doubleQuotable at h
    unfold quoteFollows at hfollows
    rw [if_neg hb, if_neg hc] at h hfollows
    rw [Bool.eq_iff_iff, beq_iff_eq, beq_iff_eq] at hfollows
    by_cases hq : b = doubleQuote
    · have hq' := hfollows.mp hq
      rw [if_pos hq, if_pos hq'] at h
      exact ⟨hq.trans hq'.symm, by simpa using h⟩
    · have hq' : ¬ c = doubleQuote := fun hq' => hq (hfollows.mpr hq')
      rw [if_neg hq, if_neg hq'] at h
      simpa using h

theorem doubleQuotable_ne_nil {b : UInt8} : doubleQuotable (b :: s) ≠ [] := by
  unfold doubleQuotable
  split
  · split <;> simp
  · split <;> simp

/-- No two texts are written alike. -/
theorem doubleQuotable_injective : Function.Injective doubleQuotable := by
  intro s t h
  induction s generalizing t with
  | nil =>
    cases t with
    | nil => rfl
    | cons c t => exact absurd h.symm doubleQuotable_ne_nil
  | cons b s ih =>
    cases t with
    | nil => exact absurd h doubleQuotable_ne_nil
    | cons c t =>
      obtain ⟨rfl, hrest⟩ := doubleQuotable_cons_inj h
      rw [ih hrest]

end Elvis.Shell
