import Elvis.Proofs.Args.Canonical
import Elvis.Proofs.Args.Spellings

/-!
# Short flags in one word

Short flags in one word stand for a word each, up to the first that needs a value; what is left of
the word is its value. Such a word is read like the words that it stands for, wherever a flag can
stand and whether or not they can be read to the end (`parse_ungrouped`).
-/

namespace Elvis.Args

open Byte

/-- The short flag is one that a value has to follow. -/
def Table.needsValue (table : Table) (letter : UInt8) : Bool :=
  (table.lookup? [dash, letter]).any fun found => found.2 = .number || found.2 = .text

/-- How many of the letters are short flags: those up to the first that needs a value, or all. -/
def shortCount (table : Table) (letters : Bytes) : Nat :=
  min (letters.findIdx table.needsValue + 1) letters.length

/-- The words that the letters of one word stand for: the short flags and, if anything is left, the
value of the last. -/
def ungrouped (table : Table) (letters : Bytes) : List Bytes :=
  let count := shortCount table letters
  (letters.take count).map ([dash, ·]) ++
    if count < letters.length then [letters.drop count] else []

variable {table : Table} {style : Style} {b : UInt8} {letters word : Bytes}
  {first rest : List Bytes} {name : Bytes} {kind : Kind}

/-! ## Letter by letter -/

theorem needsValue_iff (hlookup : table.lookup? [dash, b] = some (name, kind)) :
    table.needsValue b ↔ kind.alone? = none := by
  have hkind : (decide (kind = .number) || decide (kind = .text)) ↔ kind.alone? = none := by
    cases kind <;> decide
  unfold Table.needsValue
  rw [hlookup]
  exact hkind

theorem needsValue_of_lookup?_eq_none (hlookup : table.lookup? [dash, b] = none) :
    ¬ table.needsValue b := by
  unfold Table.needsValue
  rw [hlookup]
  exact Bool.false_ne_true

theorem shortCount_cons_of_needsValue (h : table.needsValue b) (letters : Bytes) :
    shortCount table (b :: letters) = 1 := by
  unfold shortCount
  rw [List.findIdx_cons, h]
  simp

theorem shortCount_cons (h : ¬ table.needsValue b) (letters : Bytes) :
    shortCount table (b :: letters) = shortCount table letters + 1 := by
  unfold shortCount
  rw [List.findIdx_cons, Bool.eq_false_iff.mpr h, cond_false, List.length_cons]
  omega

theorem mem_take_shortCount (b : UInt8) (letters : Bytes) :
    b ∈ (b :: letters).take (shortCount table (b :: letters)) := by
  have hpos : 0 < shortCount table (b :: letters) := by
    unfold shortCount
    rw [List.length_cons]
    omega
  obtain ⟨count, hcount⟩ := Nat.exists_eq_add_of_lt hpos
  rw [hcount, List.take_succ_cons]
  exact List.mem_cons_self

theorem ungrouped_cons_of_needsValue (h : table.needsValue b) (letters : Bytes) :
    ungrouped table (b :: letters) = [dash, b] :: if letters = [] then [] else [letters] := by
  unfold ungrouped
  rw [shortCount_cons_of_needsValue h]
  cases letters <;> rfl

theorem ungrouped_cons (h : ¬ table.needsValue b) (letters : Bytes) :
    ungrouped table (b :: letters) = [dash, b] :: ungrouped table letters := by
  unfold ungrouped
  rw [shortCount_cons h]
  simp

/-! ## Reading the words -/

theorem resumed_after (o : Occurrence) (reading : Reading) (rest : List Bytes) :
    Progress.resumed table style (reading.after o) rest =
      (Progress.resumed table style reading rest).after [o] := by
  unfold Progress.resumed Reading.after
  cases reading.next <;> rfl

/-- A short flag in a word of its own. -/
theorem parse_shortWord (hdash : b ≠ dash) (hequals : b ≠ equals) (rest : List Bytes) :
    parse table style ([dash, b] :: rest) =
      Progress.resumed table style (readAlone table style [dash, b]) rest := by
  have hterminator : [dash, b] ≠ terminator :=
    fun heq => hdash (List.cons.inj (List.cons.inj heq).2).1
  have hnotMem : equals ∉ [dash, b] :=
    List.not_mem_cons_of_ne_of_not_mem (by decide) (by simpa using Ne.symm hequals)
  have hgroup : ¬ isGroupWord [dash, b] := Bool.false_ne_true
  rw [parse_flagWord rfl hterminator, readFlagWord_alone hgroup hnotMem]

/-- The words are read like the group, whatever words follow. -/
theorem parse_ungrouped_append (hdash : dash ∉ letters.take (shortCount table letters))
    (hequals : equals ∉ letters) (rest : List Bytes) :
    parse table style (ungrouped table letters ++ rest) =
      Progress.resumed table style (readGroup table style letters) rest := by
  induction letters with
  | nil => rfl
  | cons b letters ih =>
    have hb : b ≠ dash := fun heq => hdash (heq ▸ mem_take_shortCount b letters)
    obtain ⟨hbEquals, hequals⟩ := not_or.mp (List.mem_cons.not.mp hequals)
    have hshort (words : List Bytes) : parse table style ([dash, b] :: words) =
        Progress.resumed table style (readAlone table style [dash, b]) words :=
      parse_shortWord hb (Ne.symm hbEquals) words
    unfold readGroup
    dsimp only
    cases hlookup : table.lookup? [dash, b] with
    | none =>
      rw [ungrouped_cons (needsValue_of_lookup?_eq_none hlookup), List.cons_append, hshort]
      unfold readAlone
      rw [hlookup]
      rfl
    | some found =>
      obtain ⟨name, kind⟩ := found
      dsimp only
      cases halone : kind.alone? with
      | some text =>
        -- a flag without a value: the letters behind it are a group of their own
        have hneeds : ¬ table.needsValue b := by
          rw [needsValue_iff hlookup, halone]
          exact Option.some_ne_none text
        rw [shortCount_cons hneeds, List.take_succ_cons] at hdash
        rw [ungrouped_cons hneeds, List.cons_append, hshort]
        unfold readAlone
        rw [hlookup]
        dsimp only
        rw [halone]
        dsimp only
        rw [resumed_after, ← ih (fun hmem => hdash (List.mem_cons_of_mem _ hmem)) hequals]
        rfl
      | none =>
        rw [ungrouped_cons_of_needsValue ((needsValue_iff hlookup).mpr halone), List.cons_append,
          hshort]
        unfold readAlone
        rw [hlookup]
        dsimp only
        rw [halone]
        cases letters <;> rfl

/-! ## The group and its words -/

/-- Short flags in one word are read like the words that they stand for. -/
theorem parse_ungrouped (hgrouping : style.grouping = true) (hlength : 2 ≤ letters.length)
    (hdash : dash ∉ letters.take (shortCount table letters)) (hequals : equals ∉ letters)
    (hok : (parse table style first).error = none) (hterminated : ¬ Terminated table style first)
    (rest : List Bytes) :
    parse table style (first ++ [dash :: letters] ++ rest) =
      parse table style (first ++ ungrouped table letters ++ rest) := by
  have hhead : letters.head? ≠ some dash := by
    intro hhead
    obtain ⟨others, rfl⟩ := List.head?_eq_some_iff.mp hhead
    exact hdash (mem_take_shortCount dash others)
  have hgroup : ReadsAs table style [dash :: letters] (readGroup table style letters) :=
    readsAs_group hgrouping hlength hhead hequals
  have hwords : ReadsAs table style (ungrouped table letters) (readGroup table style letters) :=
    readsAs_of_parse (parse_ungrouped_append hdash hequals)
  rw [hgroup first rest hok hterminated, hwords first rest hok hterminated]

/-- One flag of each kind with a short name. -/
def groupTable : Table := ⟨"--jobs", "-j", .number 1⟩ :: mixedTable

/-- A value that is the rest of the word, one that is the next word, one that is missing, one that
is refused, and a letter that is no flag. -/
theorem parse_ungrouped_sample :
    ((parse groupTable sampleStyle ["x", "-v"]).error = none ∧
      ¬ Terminated groupTable sampleStyle ["x", "-v"] ∧
      ungrouped groupTable "vqo-q" = ["-v", "-q", "-o", "-q"]) ∧
    parse groupTable sampleStyle ["x", "-v", "-vqo-q", "-q"] =
      parse groupTable sampleStyle ["x", "-v", "-v", "-q", "-o", "-q", "-q"] ∧
    parse groupTable sampleStyle ["x", "-v", "-vqo", "--"] =
      parse groupTable sampleStyle ["x", "-v", "-v", "-q", "-o", "--"] ∧
    parse groupTable sampleStyle ["x", "-v", "-qj"] =
      ⟨[⟨"--verbose", "1"⟩, ⟨"--quiet", "true"⟩], ["x"], some (.needsArgument "-j")⟩ ∧
    parse groupTable sampleStyle ["x", "-v", "-qj3x", "y"] =
      parse groupTable sampleStyle ["x", "-v", "-q", "-j", "3x", "y"] ∧
    parse groupTable sampleStyle ["x", "-v", "-qzv", "y"] =
      parse groupTable sampleStyle ["x", "-v", "-q", "-z", "-v", "y"] := by
  let before : List Bytes := ["x", "-v"]
  have hok : (parse groupTable sampleStyle before).error = none := by decide
  have hterminated : ¬ Terminated groupTable sampleStyle before := by decide
  have hread (letters : Bytes) (hlength : 2 ≤ letters.length)
      (hdash : dash ∉ letters.take (shortCount groupTable letters)) (hequals : equals ∉ letters)
      (rest : List Bytes) :
      parse groupTable sampleStyle (before ++ [dash :: letters] ++ rest) =
        parse groupTable sampleStyle (before ++ ungrouped groupTable letters ++ rest) :=
    parse_ungrouped rfl hlength hdash hequals hok hterminated rest
  exact ⟨⟨hok, hterminated, by decide⟩,
    hread "vqo-q" (by decide) (by decide) (by decide) ["-q"],
    hread "vqo" (by decide) (by decide) (by decide) ["--"],
    (hread "qj" (by decide) (by decide) (by decide) []).trans (by decide),
    hread "qj3x" (by decide) (by decide) (by decide) ["y"],
    hread "qzv" (by decide) (by decide) (by decide) ["y"]⟩

end Elvis.Args
