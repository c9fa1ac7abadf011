import Elvis.Proofs.Shell.Quoting
import Mathlib.Logic.Function.Basic

/-!
# Text inside double quotes

Inside double quotes a backslash takes the next byte with it. In what `Shell.doubleQuotable` writes
every quote is taken, and nothing takes the quote that closes the text; `$` and backquotes are taken
where they were, and only the backslashes directly before a quote or at the end are doubled
(`doubleQuotable_keepsMeaning`).
-/

namespace Elvis.Shell

open Byte

variable {escaped escaped' : Bool} {s text before : Bytes} {b : UInt8} {p : UInt8 → Bool}

/-! ## Pairs -/

/-- The bytes of a text, each with whether a backslash before it takes it; `escaped` says so of the
first. -/
def paired (escaped : Bool) : Bytes → List (UInt8 × Bool)
  | [] => []
  | b :: rest => (b, escaped) :: paired (b = backslash && !escaped) rest

/-- Whether a backslash at the end takes what stands behind the text. -/
def endsEscaped (escaped : Bool) : Bytes → Bool
  | [] => escaped
  | b :: rest => endsEscaped (b = backslash && !escaped) rest

/-- A text is read up to the quote behind it if all its own quotes are taken and that one is not. -/
theorem readDoubleQuoted_append_iff (rest : Bytes) :
    readDoubleQuoted escaped (text ++ doubleQuote :: rest) = some (text, rest) ↔
      (doubleQuote, false) ∉ paired escaped text ∧ endsEscaped escaped text = false := by
  induction text generalizing escaped with
  | nil => cases escaped <;> simp [readDoubleQuoted, paired, endsEscaped]
  | cons b text ih =>
    rw [List.cons_append, readDoubleQuoted, paired, endsEscaped, List.mem_cons, not_or, and_assoc,
      ← ih]
    split
    · next h => simp [h]
    · next h =>
      have hpair : (doubleQuote, false) ≠ (b, escaped) := by
        rintro ⟨⟩
        exact h ⟨rfl, rfl⟩
      rw [and_iff_right hpair, Option.map_eq_some_iff]
      constructor
      · rintro ⟨⟨_, _⟩, hread, hcons⟩
        cases hcons
        exact hread
      · intro hread
        exact ⟨_, hread, rfl⟩

theorem doubleQuotable_closes (s : Bytes) :
    (doubleQuote, false) ∉ paired false (doubleQuotable s) ∧
      endsEscaped false (doubleQuotable s) = false :=
  (readDoubleQuoted_append_iff []).mp
    (readDoubleQuoted_doubleQuotable (fun h => absurd h Bool.false_ne_true) [])

/-! ## Expansions -/

/-- The bytes that begin an expansion. -/
def isExpansion (b : UInt8) : Bool := b == dollar || b == backquote

/-- Bytes other than quotes and backslashes are taken where they were. In front of one of them both
scans agree; in front of a quote they need not. -/
theorem filter_paired_doubleQuotable (hbackslash : p backslash = false)
    (hquote : p doubleQuote = false) (h : quoteFollows s = false → escaped = escaped') :
    (paired escaped (doubleQuotable s)).filter (p ·.1) =
      (paired escaped' s).filter (p ·.1) := by
  induction s generalizing escaped escaped' with
  | nil => rfl
  | cons b s ih =>
    unfold doubleQuotable
    by_cases hb : b = backslash
    · subst hb
      rw [quoteFollows_cons_backslash] at h
      rw [if_pos rfl]
      cases hs : quoteFollows s with
      | true =>
        rw [if_pos rfl]
        simp only [paired, List.filter_cons, hbackslash, Bool.false_eq_true, if_false]
        exact ih fun hfalse => absurd (hs.symm.trans hfalse) (by decide)
      | false =>
        rw [if_neg Bool.false_ne_true, h hs]
        simp only [paired, List.filter_cons, hbackslash, Bool.false_eq_true, if_false]
        exact ih fun _ => rfl
    · rw [if_neg hb]
      by_cases hq : b = doubleQuote
      · subst hq
        rw [if_pos rfl]
        simp only [paired, List.filter_cons, hbackslash, hquote, Bool.false_eq_true, if_false]
        exact ih fun _ => rfl
      · have hfollows : quoteFollows (b :: s) = false :=
          (if_neg hb).trans (beq_eq_false_iff_ne.mpr hq)
        rw [if_neg hq, h hfollows]
        simp only [paired, List.filter_cons]
        rw [ih fun _ => rfl]

/-! ## Runs of backslashes -/

/-- What is written for a byte; `follows` says that a quote or the end follows the backslashes
behind it. -/
def written (b : UInt8) (follows : Bool) : Bytes :=
  if b = backslash then (if follows then [backslash, backslash] else [backslash])
  else if b = doubleQuote then [backslash, doubleQuote]
  else [b]

theorem doubleQuotable_cons (b : UInt8) (s : Bytes) :
    doubleQuotable (b :: s) = written b (quoteFollows s) ++ doubleQuotable s := by
  rw [doubleQuotable, written]
  split
  · split <;> rfl
  · split <;> rfl

theorem written_of_ne (hb : b ≠ backslash) (follows follows' : Bool) :
    written b follows = written b follows' := by
  unfold written
  rw [if_neg hb, if_neg hb]

theorem quoteFollows_append (hne : text ≠ []) (h : text.getLast? ≠ some backslash) (rest : Bytes) :
    quoteFollows (text ++ rest) = quoteFollows text := by
  induction text with
  | nil => exact absurd rfl hne
  | cons b text ih =>
    rw [List.cons_append]
    unfold quoteFollows
    cases text with
    | nil =>
      have hb : b ≠ backslash := by simpa using h
      rw [if_neg hb, if_neg hb]
    | cons c text =>
      rw [List.getLast?_cons_cons] at h
      rw [ih (List.cons_ne_nil c text) h]

/-- Behind a text that ends in no backslash no run goes on. -/
theorem doubleQuotable_append (h : before.getLast? ≠ some backslash) (rest : Bytes) :
    doubleQuotable (before ++ rest) = doubleQuotable before ++ doubleQuotable rest := by
  induction before with
  | nil => rfl
  | cons b before ih =>
    rw [List.cons_append, doubleQuotable_cons, doubleQuotable_cons]
    cases before with
    | nil =>
      have hb : b ≠ backslash := by simpa using h
      rw [written_of_ne hb (quoteFollows ([] ++ rest)) (quoteFollows [])]
      simp [doubleQuotable]
    | cons c before =>
      rw [List.getLast?_cons_cons] at h
      rw [ih h, quoteFollows_append (List.cons_ne_nil c before) h, List.append_assoc]

/-- The last byte is kept, so a run in the written text is whole where the run it stands for is. -/
theorem getLast?_doubleQuotable (s : Bytes) : (doubleQuotable s).getLast? = s.getLast? := by
  induction s with
  | nil => rfl
  | cons b s ih =>
    rw [doubleQuotable_cons]
    cases s with
    | nil =>
      unfold written
      split
      · next hb => exact congrArg some hb.symm
      · split
        · next hq => exact congrArg some hq.symm
        · rfl
    | cons c s =>
      rw [List.getLast?_append, ih, List.getLast?_cons_cons, List.getLast?_cons, Option.some_or]

theorem quoteFollows_run (hb : b ≠ backslash) (k : Nat) (after : Bytes) :
    quoteFollows (List.replicate k backslash ++ b :: after) = (b == doubleQuote) := by
  induction k with
  | zero => exact if_neg hb
  | succ k ih => exact (quoteFollows_cons_backslash _).trans ih

/-- A run before a quote is doubled, and the quote is given a backslash of its own. -/
theorem doubleQuotable_run_quote (k : Nat) (after : Bytes) :
    doubleQuotable (List.replicate k backslash ++ doubleQuote :: after) =
      List.replicate (2 * k + 1) backslash ++ doubleQuote :: doubleQuotable after := by
  induction k with
  | zero => rfl
  | succ k ih =>
    rw [List.replicate_succ, List.cons_append, doubleQuotable_cons, ih,
      quoteFollows_run (by decide)]
    rfl

theorem doubleQuotable_run_of_ne (hb : b ≠ backslash) (hq : b ≠ doubleQuote) (k : Nat)
    (after : Bytes) : doubleQuotable (List.replicate k backslash ++ b :: after) =
      List.replicate k backslash ++ b :: doubleQuotable after := by
  induction k with
  | zero =>
    rw [List.replicate_zero, List.nil_append, List.nil_append, doubleQuotable_cons, written,
      if_neg hb, if_neg hq, List.singleton_append]
  | succ k ih =>
    rw [List.replicate_succ, List.cons_append, doubleQuotable_cons, ih, quoteFollows_run hb,
      beq_eq_false_iff_ne.mpr hq]
    rfl

theorem doubleQuotable_replicate (k : Nat) :
    doubleQuotable (List.replicate k backslash) = List.replicate (2 * k) backslash := by
  have hfollows : ∀ k, quoteFollows (List.replicate k backslash) = true := by
    intro k
    induction k with
    | zero => rfl
    | succ k ih => exact (quoteFollows_cons_backslash _).trans ih
  induction k with
  | zero => rfl
  | succ k ih =>
    rw [List.replicate_succ, doubleQuotable_cons, ih, hfollows]
    rfl

/-! ## What a shell makes of the text -/

/-- A byte that stands for itself, or one that begins an expansion or closes the text. -/
inductive Decoded
  | literal (b : UInt8)
  | active (b : UInt8)
deriving DecidableEq, Repr

/-- The bytes that a backslash makes literal; before any other it is literal itself. -/
def isEscapable (b : UInt8) : Bool := isExpansion b || b == doubleQuote || b == backslash

/-- What a byte adds to the text. A backslash before a newline goes with it. -/
def decodeQuotedByte (escaped : Bool) (b : UInt8) : List Decoded :=
  if escaped then
    if b = newline then []
    else if isEscapable b then [.literal b]
    else [.literal backslash, .literal b]
  else if b = backslash then []
  else if isEscapable b then [.active b]
  else [.literal b]

/-- The text as a shell takes it, with the bytes that it acts on. -/
def decodeQuoted (escaped : Bool) : Bytes → List Decoded
  | [] => if escaped then [.literal backslash] else []
  | b :: rest => decodeQuotedByte escaped b ++ decodeQuoted (b = backslash && !escaped) rest

theorem decodeQuoted_append (h : endsEscaped escaped text = false) (rest : Bytes) :
    decodeQuoted escaped (text ++ rest) = decodeQuoted escaped text ++ decodeQuoted false rest := by
  induction text generalizing escaped with
  | nil =>
    obtain rfl : escaped = false := h
    rfl
  | cons b text ih => rw [List.cons_append, decodeQuoted, decodeQuoted, ih h, List.append_assoc]

theorem decodeQuoted_replicate (k : Nat) (rest : Bytes) :
    decodeQuoted false (List.replicate (2 * k) backslash ++ rest) =
      List.replicate k (.literal backslash) ++ decodeQuoted false rest := by
  induction k with
  | zero => rfl
  | succ k ih => exact congrArg (.literal backslash :: ·) ih

/-- The backslashes before a quote are literal in pairs, and the last makes the quote literal. -/
theorem decodeQuoted_run_quote (k : Nat) (rest : Bytes) :
    decodeQuoted false (List.replicate (2 * k + 1) backslash ++ doubleQuote :: rest) =
      (List.replicate k backslash ++ [doubleQuote]).map .literal ++ decodeQuoted false rest := by
  rw [List.replicate_succ', List.append_assoc, decodeQuoted_replicate, List.map_append,
    List.map_replicate, List.append_assoc]
  rfl

/-! ## Written texts -/

/-- A way to write texts for the inside of double quotes. The runs of backslashes are whole ones:
nothing that ends in a backslash stands before them. -/
structure KeepsMeaning (write : Bytes → Bytes) : Prop where
  closes : ∀ s, (doubleQuote, false) ∉ paired false (write s) ∧ endsEscaped false (write s) = false
  read : ∀ s rest, readDoubleQuoted false (write s ++ doubleQuote :: rest) = some (write s, rest)
  expansions : ∀ s, (paired false (write s)).filter (isExpansion ·.1) =
    (paired false s).filter (isExpansion ·.1)
  nil : write [] = []
  getLast : ∀ s, (write s).getLast? = s.getLast?
  quote : ∀ before k after, before.getLast? ≠ some backslash →
    write (before ++ (List.replicate k backslash ++ doubleQuote :: after)) =
      write before ++ (List.replicate (2 * k + 1) backslash ++ doubleQuote :: write after)
  decoded : ∀ before k after, before.getLast? ≠ some backslash →
    decodeQuoted false (write (before ++ (List.replicate k backslash ++ doubleQuote :: after))) =
      decodeQuoted false (write before) ++
        ((List.replicate k backslash ++ [doubleQuote]).map .literal ++
          decodeQuoted false (write after))
  final : ∀ before k, before.getLast? ≠ some backslash →
    write (before ++ List.replicate k backslash) =
      write before ++ List.replicate (2 * k) backslash
  other : ∀ before k b after, before.getLast? ≠ some backslash → b ≠ backslash → b ≠ doubleQuote →
    write (before ++ (List.replicate k backslash ++ b :: after)) =
      write before ++ (List.replicate k backslash ++ b :: write after)
  injective : Function.Injective write

/-- Every text is written so that it closes, and read as it was but for its quotes and the
backslashes before them and at its end. -/
theorem doubleQuotable_keepsMeaning : KeepsMeaning doubleQuotable where
  closes := doubleQuotable_closes
  read s rest := (readDoubleQuoted_append_iff rest).mpr (doubleQuotable_closes s)
  expansions s := filter_paired_doubleQuotable rfl rfl fun _ => rfl
  nil := rfl
  getLast := getLast?_doubleQuotable
  quote before k after h := by
    rw [doubleQuotable_append h, doubleQuotable_run_quote]
  decoded before k after h := by
    rw [doubleQuotable_append h, doubleQuotable_run_quote,
      decodeQuoted_append (doubleQuotable_closes before).2, decodeQuoted_run_quote]
  final before k h := by
    rw [doubleQuotable_append h, doubleQuotable_replicate]
  other before k b after h hb hq := by
    rw [doubleQuotable_append h, doubleQuotable_run_of_ne hb hq]
  injective := doubleQuotable_injective

example : doubleQuotable "\\$a\\\"b\\" = "\\$a\\\\\\\"b\\\\" := by decide

end Elvis.Shell
