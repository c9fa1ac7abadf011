import Elvis.Proofs.Bytes.SplitJoin
import Elvis.Proofs.Directive.Grammar
import Elvis.Proofs.Integer
import Elvis.Proofs.Shell.Assignments
import Elvis.Proofs.Url
import Elvis.Script.Header
import Elvis.Script.ListContext
import Mathlib.Data.List.Infix

/-!
# Texts that mention no list function

A function is mentioned in a text where its name stands as a word: no byte of a name stands beside
it. Texts that mention no list function make up such a text if something other than a byte of a name
stands between them, and what is quoted or escaped mentions no more than the text itself.
-/

namespace Elvis.Script

open Byte (newline underscore)
open Shell (isNameByte)

/-! ## Words -/

def enterContext : Bytes := "_sr_enter_list_context"

def leaveContext : Bytes := "_sr_leave_list_context"

/-- The functions that a script has for its lists. -/
def listFunctions : List Bytes :=
  [enterContext, leaveContext, "_sr_list_add", "_sr_list_remove", "_sr_list_clear"]

/-- The runs of bytes of names in a text; between two other bytes that stand together, the empty
run. -/
def words (text : Bytes) : List Bytes := text.splitOnP (!isNameByte ·)

variable {text name option a b s : Bytes} {c : UInt8}

theorem words_cons_of_not (h : isNameByte c = false) (text : Bytes) :
    words (c :: text) = [] :: words text := by
  unfold words
  rw [List.splitOnP_cons_eq_if_modifyHead, h]
  rfl

/-- A byte of a name goes to the front of the first word. -/
theorem words_cons_of (h : isNameByte c = true) (text : Bytes) :
    ∃ first rest, words text = first :: rest ∧ words (c :: text) = (c :: first) :: rest := by
  obtain ⟨first, rest, hwords⟩ := List.exists_cons_of_ne_nil
    (List.splitOnP_ne_nil (!isNameByte ·) text)
  refine ⟨first, rest, hwords, ?_⟩
  unfold words
  rw [List.splitOnP_cons_eq_if_modifyHead, h, hwords]
  rfl

/-- Words on the two sides of a byte that is in no name stay apart. -/
theorem words_append_cons (h : isNameByte c = false) (a b : Bytes) :
    words (a ++ c :: b) = words a ++ words b :=
  List.splitOnP_append_cons a b (by simp [h])

theorem infix_of_mem_words {word : Bytes} (h : word ∈ words text) : word <:+: text := by
  have hfirst : ∀ text : Bytes, ∃ first rest, words text = first :: rest ∧ first <+: text ∧
      ∀ word ∈ rest, word <:+: text := by
    intro text
    induction text with
    | nil => exact ⟨[], [], rfl, List.prefix_rfl, by simp⟩
    | cons c text ih =>
      obtain ⟨first, rest, hwords, hlead, hrest⟩ := ih
      cases hc : isNameByte c with
      | false =>
        refine ⟨[], first :: rest, by rw [words_cons_of_not hc, hwords], List.nil_prefix, ?_⟩
        refine List.forall_mem_cons.mpr ⟨hlead.isInfix.trans (List.infix_cons List.infix_rfl), ?_⟩
        exact fun word hword => (hrest word hword).trans (List.infix_cons List.infix_rfl)
      | true =>
        obtain ⟨first', rest', hwords', hcons⟩ := words_cons_of hc text
        obtain ⟨rfl, rfl⟩ := List.cons.inj (hwords.symm.trans hwords')
        refine ⟨c :: first, rest, hcons, (List.prefix_cons_inj c).mpr hlead, ?_⟩
        exact fun word hword => (hrest word hword).trans (List.infix_cons List.infix_rfl)
  obtain ⟨first, rest, hwords, hlead, hrest⟩ := hfirst text
  rw [hwords] at h
  rcases List.mem_cons.mp h with rfl | h
  · exact hlead.isInfix
  · exact hrest word h

/-! ## Clean texts -/

/-- A piece of a line that mentions no list function. -/
structure Clean (text : Bytes) : Prop where
  oneLine : newline ∉ text
  functions : ∀ f ∈ listFunctions, f ∉ words text

instance (text : Bytes) : Decidable (Clean text) :=
  decidable_of_iff (newline ∉ text ∧ ∀ f ∈ listFunctions, f ∉ words text)
    ⟨fun h => ⟨h.1, h.2⟩, fun h => ⟨h.1, h.2⟩⟩

/-- Nothing that stands behind the text becomes a part of its last word. -/
structure Opens (text : Bytes) : Prop where
  clean : Clean text
  last : text.getLast?.any (!isNameByte ·)

/-- Nothing that stands in front of the text becomes a part of its first word. -/
structure Closes (text : Bytes) : Prop where
  clean : Clean text
  first : text.head?.any (!isNameByte ·)

/-- Keeps what stands on its two sides apart. -/
structure Fence (text : Bytes) : Prop where
  opens : Opens text
  closes : Closes text

instance (text : Bytes) : Decidable (Opens text) :=
  decidable_of_iff (Clean text ∧ text.getLast?.any (!isNameByte ·))
    ⟨fun h => ⟨h.1, h.2⟩, fun h => ⟨h.1, h.2⟩⟩

instance (text : Bytes) : Decidable (Closes text) :=
  decidable_of_iff (Clean text ∧ text.head?.any (!isNameByte ·))
    ⟨fun h => ⟨h.1, h.2⟩, fun h => ⟨h.1, h.2⟩⟩

instance (text : Bytes) : Decidable (Fence text) :=
  decidable_of_iff (Opens text ∧ Closes text) ⟨fun h => ⟨h.1, h.2⟩, fun h => ⟨h.1, h.2⟩⟩

theorem Clean.nil : Clean [] := by decide

theorem Opens.append (ha : Opens a) (hb : Clean b) : Clean (a ++ b) := by
  obtain ⟨ha, hlast⟩ := ha
  obtain ⟨c, hc, hname⟩ := Option.any_eq_true _ _ |>.mp hlast
  obtain ⟨a, rfl⟩ := List.getLast?_eq_some_iff.mp hc
  have hname : isNameByte c = false := by simpa using hname
  refine ⟨List.not_mem_append ha.oneLine hb.oneLine, fun f hf hmem => ?_⟩
  have hwords := ha.functions f hf
  rw [words_append_cons hname a []] at hwords
  rw [List.append_assoc, List.singleton_append, words_append_cons hname] at hmem
  rcases List.mem_append.mp hmem with hmem | hmem
  · exact hwords (List.mem_append_left _ hmem)
  · exact hb.functions f hf hmem

theorem Clean.append (ha : Clean a) (hb : Closes b) : Clean (a ++ b) := by
  obtain ⟨hb, hfirst⟩ := hb
  obtain ⟨c, hc, hname⟩ := Option.any_eq_true _ _ |>.mp hfirst
  obtain ⟨b, rfl⟩ := List.head?_eq_some_iff.mp hc
  have hname : isNameByte c = false := by simpa using hname
  refine ⟨List.not_mem_append ha.oneLine hb.oneLine, fun f hf hmem => ?_⟩
  have hwords := hb.functions f hf
  rw [words_cons_of_not hname] at hwords
  rw [words_append_cons hname] at hmem
  rcases List.mem_append.mp hmem with hmem | hmem
  · exact ha.functions f hf hmem
  · exact hwords (List.mem_cons_of_mem _ hmem)

theorem Clean.opens (ha : Clean a) (hs : Fence s) : Opens (a ++ s) := by
  obtain ⟨c, hc, hname⟩ := Option.any_eq_true _ _ |>.mp hs.opens.last
  refine ⟨ha.append hs.closes, ?_⟩
  rw [List.getLast?_append, hc]
  exact hname

theorem Clean.fence (ha : Clean a) (hs : Fence s) (hb : Clean b) : Clean (a ++ s ++ b) :=
  (ha.opens hs).append hb

theorem Clean.between (ha : Opens a) (h : Clean text) (hb : Closes b) : Clean (a ++ text ++ b) :=
  (ha.append h).append hb

theorem Clean.join {items : List Bytes} (hs : Fence s) (h : ∀ item ∈ items, Clean item) :
    Clean (Bytes.join s items) := by
  induction items with
  | nil => exact Clean.nil
  | cons item rest ih =>
    obtain ⟨hitem, hrest⟩ := List.forall_mem_cons.mp h
    cases rest with
    | nil => rwa [Bytes.join_singleton]
    | cons next rest =>
      rw [Bytes.join_cons_cons]
      exact hitem.fence hs (ih hrest)

/-- The name of each function holds an underscore. -/
theorem Clean.of_not_mem (hnewline : newline ∉ text) (hunderscore : underscore ∉ text) :
    Clean text := by
  refine ⟨hnewline, fun f hf hmem => hunderscore ?_⟩
  have hbyte : ∀ f ∈ listFunctions, underscore ∈ f := by decide
  exact (infix_of_mem_words hmem).subset (hbyte f hf)

theorem Clean.of_bytes {p : UInt8 → Prop} (h : ∀ b ∈ text, p b) (hnewline : ¬p newline)
    (hunderscore : ¬p underscore) : Clean text :=
  .of_not_mem (fun hb => hnewline (h _ hb)) fun hb => hunderscore (h _ hb)

theorem Clean.of_lowerWord (h : LowerWord text) : Clean text :=
  .of_bytes h.2 (by decide) (by decide)

/-! ## Plain texts -/

/-- The beginning of all names that a script adds to those of the author. -/
def reservedPrefix : Bytes := "_sr_"

/-- One line, with nothing in it that reads like a name that the script adds. -/
structure Plain (text : Bytes) : Prop where
  oneLine : newline ∉ text
  reserved : ¬reservedPrefix <:+: text

instance (text : Bytes) : Decidable (Plain text) :=
  decidable_of_iff (newline ∉ text ∧ ¬reservedPrefix <:+: text)
    ⟨fun h => ⟨h.1, h.2⟩, fun h => ⟨h.1, h.2⟩⟩

theorem Plain.part {s : Bytes} (h : Plain text) (hs : s <:+: text) : Plain s :=
  ⟨fun hmem => h.oneLine (hs.subset hmem), fun hlead => h.reserved (hlead.trans hs)⟩

theorem Plain.clean (h : Plain text) : Clean text := by
  refine ⟨h.oneLine, fun f hf hmem => h.reserved ?_⟩
  have hlead : ∀ f ∈ listFunctions, reservedPrefix <+: f := by decide
  exact (hlead f hf).isInfix.trans (infix_of_mem_words hmem)

/-! ## Escaped texts -/

/-- The names of list functions hold no other byte. -/
def isFunctionByte (b : UInt8) : Bool := Byte.isLower b || b == underscore

theorem isFunctionByte_of_mem {f : Bytes} (hf : f ∈ listFunctions) : ∀ b ∈ f, isFunctionByte b := by
  have hall : ∀ f ∈ listFunctions, f.all isFunctionByte := by decide
  exact List.all_eq_true.mp (hall f hf)

/-- What takes the place of a byte that is in no name. -/
structure Replacement (text : Bytes) : Prop where
  first : text.head?.any (!isNameByte ·)
  others : text.all fun b => b != newline && !isFunctionByte b

instance (text : Bytes) : Decidable (Replacement text) :=
  decidable_of_iff (text.head?.any (!isNameByte ·) ∧
      text.all fun b => b != newline && !isFunctionByte b)
    ⟨fun h => ⟨h.1, h.2⟩, fun h => ⟨h.1, h.2⟩⟩

theorem Replacement.of_mem (h : Replacement text) {b : UInt8} (hb : b ∈ text) :
    b ≠ newline ∧ isFunctionByte b = false := by
  simpa using List.all_eq_true.mp h.others b hb

/-- The second text is the first with some of its bytes replaced, none of them part of a name. -/
inductive Escapes : Bytes → Bytes → Prop
  | nil : Escapes [] []
  | keep (b : UInt8) {s t : Bytes} : Escapes s t → Escapes (b :: s) (b :: t)
  | replace {b : UInt8} {replacement s t : Bytes} :
      isNameByte b = false → Replacement replacement → Escapes s t →
      Escapes (b :: s) (replacement ++ t)

/-- Bytes that are in no function make no word to one. -/
theorem mem_words_of_append {f : Bytes} (hf : f ∈ listFunctions)
    (ha : ∀ b ∈ a, isFunctionByte b = false) (h : f ∈ words (a ++ text)) : f ∈ words text := by
  induction a with
  | nil => exact h
  | cons c a ih =>
    obtain ⟨hc, ha⟩ := List.forall_mem_cons.mp ha
    refine ih ha ?_
    cases hname : isNameByte c with
    | false =>
      rw [List.cons_append, words_cons_of_not hname] at h
      rcases List.mem_cons.mp h with rfl | h
      · exact absurd hf (by decide)
      · exact h
    | true =>
      obtain ⟨first, rest, hwords, hcons⟩ := words_cons_of hname (a ++ text)
      rw [List.cons_append, hcons] at h
      rw [hwords]
      rcases List.mem_cons.mp h with rfl | h
      · rw [isFunctionByte_of_mem hf c List.mem_cons_self] at hc
        cases hc
      · exact List.mem_cons_of_mem _ h

/-- The first words may differ, but not if the second is a function. -/
theorem Escapes.words {s t : Bytes} (h : Escapes s t) :
    ∃ first rest first' rest', words s = first :: rest ∧ words t = first' :: rest' ∧
      ((∀ b ∈ first', isFunctionByte b) → first' = first) ∧
      ∀ f ∈ listFunctions, f ∈ rest' → f ∈ rest := by
  induction h with
  | nil => exact ⟨[], [], [], [], rfl, rfl, fun _ => rfl, fun _ _ h => h⟩
  | @keep b s t _ ih =>
    obtain ⟨first, rest, first', rest', hs, ht, hfirst, hrest⟩ := ih
    cases hb : isNameByte b with
    | false =>
      refine ⟨[], first :: rest, [], first' :: rest', by rw [words_cons_of_not hb, hs],
        by rw [words_cons_of_not hb, ht], fun _ => rfl, fun f hf hmem => ?_⟩
      rcases List.mem_cons.mp hmem with rfl | hmem
      · rw [hfirst (isFunctionByte_of_mem hf)]
        exact List.mem_cons_self
      · exact List.mem_cons_of_mem _ (hrest f hf hmem)
    | true =>
      obtain ⟨_, _, hs', hbs⟩ := words_cons_of hb s
      obtain ⟨_, _, ht', hbt⟩ := words_cons_of hb t
      obtain ⟨rfl, rfl⟩ := List.cons.inj (hs.symm.trans hs')
      obtain ⟨rfl, rfl⟩ := List.cons.inj (ht.symm.trans ht')
      refine ⟨_, _, _, _, hbs, hbt, fun hfunction => ?_, hrest⟩
      rw [hfirst (List.forall_mem_cons.mp hfunction).2]
  | @replace b replacement s t hb hreplacement _ ih =>
    obtain ⟨first, rest, first', rest', hs, ht, hfirst, hrest⟩ := ih
    obtain ⟨c, hc, hname⟩ := Option.any_eq_true _ _ |>.mp hreplacement.first
    obtain ⟨others, rfl⟩ := List.head?_eq_some_iff.mp hc
    have hname : isNameByte c = false := by simpa using hname
    have hothers : ∀ d ∈ others, isFunctionByte d = false := fun d hd =>
      (hreplacement.of_mem (List.mem_cons_of_mem _ hd)).2
    refine ⟨[], first :: rest, [], _, by rw [words_cons_of_not hb, hs],
      words_cons_of_not hname (others ++ t), fun _ => rfl, fun f hf hmem => ?_⟩
    have hmem := mem_words_of_append hf hothers hmem
    rw [ht] at hmem
    rcases List.mem_cons.mp hmem with rfl | hmem
    · rw [hfirst (isFunctionByte_of_mem hf)]
      exact List.mem_cons_self
    · exact List.mem_cons_of_mem _ (hrest f hf hmem)

theorem Escapes.newline_mem {s t : Bytes} (h : Escapes s t) (hmem : newline ∈ t) : newline ∈ s := by
  induction h with
  | nil => exact hmem
  | keep b _ ih =>
    rcases List.mem_cons.mp hmem with rfl | hmem
    · exact List.mem_cons_self
    · exact List.mem_cons_of_mem _ (ih hmem)
  | replace _ hreplacement _ ih =>
    rcases List.mem_append.mp hmem with hmem | hmem
    · exact absurd rfl (hreplacement.of_mem hmem).1
    · exact List.mem_cons_of_mem _ (ih hmem)

theorem Clean.escapes {s t : Bytes} (h : Escapes s t) (hs : Clean s) : Clean t := by
  obtain ⟨first, rest, first', rest', hwords, hwords', hfirst, hrest⟩ := h.words
  refine ⟨fun hmem => hs.oneLine (h.newline_mem hmem), fun f hf hmem => hs.functions f hf ?_⟩
  rw [hwords'] at hmem
  rw [hwords]
  rcases List.mem_cons.mp hmem with rfl | hmem
  · rw [hfirst (isFunctionByte_of_mem hf)]
    exact List.mem_cons_self
  · exact List.mem_cons_of_mem _ (hrest f hf hmem)

/-- Bytes that are escaped one by one. -/
theorem Escapes.flatMap {escape : UInt8 → Bytes}
    (h : ∀ b, escape b = [b] ∨ isNameByte b = false ∧ Replacement (escape b)) (s : Bytes) :
    Escapes s (s.flatMap escape) := by
  induction s with
  | nil => exact .nil
  | cons b s ih =>
    rw [List.flatMap_cons]
    rcases h b with hb | ⟨hb, hreplacement⟩
    · rw [hb]
      exact .keep b ih
    · exact .replace hb hreplacement ih

/-! ## Quoted texts -/

theorem Clean.hereDocText (h : Clean text) : Clean (Shell.hereDocText text) := by
  refine h.escapes (Escapes.flatMap (fun b => ?_) text)
  cases hb : Shell.isHereDocSpecial b with
  | false => exact .inl rfl
  | true =>
    obtain (rfl | rfl) | rfl : (b = Byte.backslash ∨ b = Byte.dollar) ∨ b = Byte.backquote := by
      simpa [Shell.isHereDocSpecial] using hb
    all_goals exact .inr (by decide)

theorem Clean.singleQuoted (h : Clean text) : Clean (Shell.singleQuoted text) := by
  have hescaped : Clean (text.flatMap Shell.quoteByte) := by
    refine h.escapes (Escapes.flatMap (fun b => ?_) text)
    by_cases hb : b = Byte.singleQuote
    · subst hb
      exact .inr (by decide)
    · exact .inl (if_neg hb)
  exact Opens.append (a := [Byte.singleQuote]) (by decide) (hescaped.append (by decide))

theorem Clean.caseLabel {items : List Bytes} (h : ∀ item ∈ items, Clean item) :
    Clean (Shell.caseLabel items) :=
  .join (by decide) (List.forall_mem_map.mpr fun item hitem => (h item hitem).singleQuoted)

theorem Clean.oneLined (h : Clean text) : Clean (Script.oneLine text) := by
  unfold Script.oneLine
  rw [List.map_eq_flatMap]
  refine h.escapes (Escapes.flatMap (fun b => ?_) text)
  cases hb : b = newline || b = Byte.carriageReturn with
  | false => exact .inl rfl
  | true =>
    obtain rfl | rfl : b = newline ∨ b = Byte.carriageReturn := by simpa using hb
    all_goals exact .inr (by decide)

theorem Clean.doubleQuotable (h : Clean text) : Clean (Shell.doubleQuotable text) := by
  have hescapes : ∀ text, Escapes text (Shell.doubleQuotable text) := by
    intro text
    induction text with
    | nil => exact .nil
    | cons b rest ih =>
      have hbackslash : isNameByte Byte.backslash = false := rfl
      have hquote : isNameByte Byte.doubleQuote = false := rfl
      have hdoubled : Replacement [Byte.backslash, Byte.backslash] := by decide
      have hescaped : Replacement [Byte.backslash, Byte.doubleQuote] := by decide
      unfold Shell.doubleQuotable
      split_ifs with hb hfollows hq
      · subst hb
        exact .replace hbackslash hdoubled ih
      · subst hb
        exact .keep _ ih
      · subst hq
        exact .replace hquote hescaped ih
      · exact .keep b ih
  exact h.escapes (hescapes text)

theorem Clean.percentEncode (h : Clean text) : Clean (Url.percentEncode text) := by
  have hencoded : ∀ n < 256, Url.isUnreserved (UInt8.ofNat n) = false →
      isNameByte (UInt8.ofNat n) = false ∧ Replacement (Url.encodeByte (UInt8.ofNat n)) := by
    decide +kernel
  refine h.escapes (Escapes.flatMap (fun b => ?_) text)
  cases hb : Url.isUnreserved b with
  | true => exact .inl (if_pos hb)
  | false => exact .inr (by simpa [hb] using hencoded b.toNat b.toNat_lt)

/-! ## URLs -/

theorem Clean.scheme (h : Url.isScheme text) : Clean text := by
  have hbytes : ∀ b ∈ text, Url.isSchemeByte b := by
    cases text with
    | nil => cases h
    | cons b rest =>
      obtain ⟨hb, hrest⟩ := Bool.and_eq_true_iff.mp h
      refine List.forall_mem_cons.mpr ⟨?_, List.all_eq_true.mp hrest⟩
      simp [Url.isSchemeByte, hb]
  exact .of_bytes hbytes (by decide) (by decide)

theorem Clean.withScheme {rest : Bytes} (h : Url.isScheme text) (hrest : Clean rest) :
    Clean (Url.withScheme text rest) :=
  (Clean.scheme h).fence (by decide) hrest

/-! ## Names that the script adds -/

theorem words_append_of_name (ha : ∀ b ∈ a, isNameByte b) (text : Bytes) :
    ∃ first rest, words text = first :: rest ∧ words (a ++ text) = (a ++ first) :: rest := by
  induction a with
  | nil =>
    obtain ⟨first, rest, hwords⟩ := List.exists_cons_of_ne_nil
      (List.splitOnP_ne_nil (!isNameByte ·) text)
    exact ⟨first, rest, hwords, hwords⟩
  | cons c a ih =>
    obtain ⟨hc, ha⟩ := List.forall_mem_cons.mp ha
    obtain ⟨first, rest, hwords, happend⟩ := ih ha
    obtain ⟨first', rest', hwords', hcons⟩ := words_cons_of hc (a ++ text)
    obtain ⟨rfl, rfl⟩ := List.cons.inj (happend.symm.trans hwords')
    exact ⟨first, rest, hwords, hcons⟩

/-- One underscore behind a text completes no function in it. -/
theorem not_infix_append_underscore {f : Bytes} (hf : f ∈ listFunctions) (hname : Plain name)
    (hoption : underscore ∉ option) : ¬f <:+: name ++ underscore :: option := by
  have hlead : ∀ f ∈ listFunctions, reservedPrefix <+: f := by decide
  have hcounts : ∀ f ∈ listFunctions, ∀ n < reservedPrefix.length,
      2 ≤ (f.drop n).count underscore := by decide
  have hcount : (underscore :: option).count underscore = 1 := by
    rw [List.count_cons_self, List.count_eq_zero_of_not_mem hoption]
  intro hmem
  -- the function is cut where the option begins: a short left piece leaves two underscores to the
  -- right one, and a long left piece begins like a name that the script adds
  obtain ⟨l, l', rfl, hl, hl'⟩ :
      ∃ l l', f = l ++ l' ∧ l <:+: name ∧ l' <:+: underscore :: option := by
    rcases List.infix_append_iff.mp hmem with h | h | ⟨l, l', rfl, hl, hl'⟩
    · exact ⟨f, [], (List.append_nil f).symm, h, List.nil_infix⟩
    · exact ⟨[], f, rfl, List.nil_infix, h⟩
    · exact ⟨l, l', rfl, hl.isInfix, hl'.isInfix⟩
  by_cases hlength : l.length < reservedPrefix.length
  · have htwo := hcounts _ hf l.length hlength
    rw [List.drop_left] at htwo
    have hone := hl'.sublist.count_le underscore
    omega
  · have hl : reservedPrefix <+: l :=
      List.prefix_of_prefix_length_le (hlead _ hf) (List.prefix_append l l') (by omega)
    exact hname.reserved (hl.isInfix.trans ‹_›)

/-- The variable of an option is no function, whatever the elvis is called. -/
theorem Clean.variableName {set : OptionSet} (hname : Plain set.settings.name)
    (hnewline : newline ∉ option) (hunderscore : underscore ∉ option) :
    Clean (set.variableName option) := by
  have htext : set.variableName option =
      "SURFRAW_" ++ (set.settings.name ++ underscore :: option) := by
    unfold OptionSet.variableName
    rw [List.append_assoc, List.append_assoc]
    rfl
  obtain ⟨first, rest, hwords, happend⟩ := words_append_of_name (a := "SURFRAW_")
    (List.all_eq_true.mp (by decide)) (set.settings.name ++ underscore :: option)
  rw [htext]
  refine ⟨?_, fun f hf hmem => ?_⟩
  · refine List.not_mem_append (by decide) (List.not_mem_append hname.oneLine ?_)
    exact List.not_mem_cons_of_ne_of_not_mem (by decide) hnewline
  · rw [happend] at hmem
    rcases List.mem_cons.mp hmem with rfl | hmem
    -- the first word begins with an upper-case letter
    · exact absurd (isFunctionByte_of_mem hf 0x53 List.mem_cons_self) (by decide)
    · exact not_infix_append_underscore hf hname hunderscore
        (infix_of_mem_words (hwords ▸ List.mem_cons_of_mem _ hmem))

theorem Clean.variableName_of_lowerWord {set : OptionSet} (hname : Plain set.settings.name)
    (hoption : LowerWord option) : Clean (set.variableName option) :=
  .variableName hname (fun hb => absurd (hoption.2 _ hb) (by decide))
    fun hb => absurd (hoption.2 _ hb) (by decide)

/-- The function of a collapse is no list function. -/
theorem Clean.collapseName (position : Nat) :
    Clean ("_sr_collapse_" ++ Bytes.decimal position) := by
  have hdigits : ∀ b ∈ Bytes.decimal position, Byte.isDigit b :=
    fun _ => Integer.isDigit_of_mem_decimal
  have hfunctions : ∀ f ∈ listFunctions, ¬ ("_sr_collapse_" : Bytes) <+: f := by decide
  obtain ⟨first, rest, hwords, happend⟩ := words_append_of_name (a := "_sr_collapse_")
    (List.all_eq_true.mp (by decide)) (Bytes.decimal position)
  have hposition : Clean (Bytes.decimal position) := .of_bytes hdigits (by decide) (by decide)
  refine ⟨List.not_mem_append (by decide) hposition.oneLine, fun f hf hmem => ?_⟩
  rw [happend] at hmem
  rcases List.mem_cons.mp hmem with rfl | hmem
  · exact hfunctions _ hf (List.prefix_append _ _)
  · exact hposition.functions f hf (hwords ▸ List.mem_cons_of_mem _ hmem)

end Elvis.Script
