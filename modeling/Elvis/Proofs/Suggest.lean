import Elvis.Proofs.Bytes.Sort
import Elvis.Proofs.EditDistance
import Mathlib.Order.Bounds.Basic

/-!
# Suggestions

A candidate is as far from an input as the least number of edits between them, or not at all if it
begins with it. By this score and then by bytes, the candidates that are close enough have one
ranking (`IsRanking.unique`), and the suggestions are its first places, whatever the order of the
candidates and their repetitions (`suggest_best`). So the first suggestion comes before every other
candidate, and there is one if any candidate is close enough.
-/

namespace Elvis

/-! ## Scores -/

inductive Scores (input candidate : Bytes) : Nat → Prop
  | lead : input ≠ [] → input <+: candidate → Scores input candidate 0
  | edits {n : Nat} : ¬ (input ≠ [] ∧ input <+: candidate) →
      IsLeast {n | Edits n input candidate} n → Scores input candidate n

/-- By score, then by bytes. -/
def Precedes (input a b : Bytes) : Prop :=
  ∃ n m, Scores input a n ∧ Scores input b m ∧ (n < m ∨ n = m ∧ a < b)

/-- A candidate that may be suggested. -/
structure Eligible (input : Bytes) (candidates : List Bytes) (maxDistance : Nat) (c : Bytes) :
    Prop where
  mem : c ∈ candidates
  ne_nil : c ≠ []
  ne_input : c ≠ input
  close : ∃ n ≤ maxDistance, Scores input c n

variable {input c c' : Bytes} {candidates : List Bytes} {maxResults maxDistance n : Nat}
  {entry : Nat × Bytes}

theorem scores_score (input candidate : Bytes) :
    Scores input candidate (score input candidate) := by
  have hlead : (!input.isEmpty && input.isPrefixOf candidate) = true ↔
      input ≠ [] ∧ input <+: candidate := by
    simp
  unfold score
  split
  · next h =>
    obtain ⟨hne, hprefix⟩ := hlead.mp h
    exact .lead hne hprefix
  · next h => exact .edits (fun hlead' => h (hlead.mpr hlead')) (isLeast_editDistance _ _)

theorem Scores.unique {m : Nat} (h : Scores input c n) (h' : Scores input c m) : n = m := by
  cases h with
  | lead hne hprefix =>
    cases h' with
    | lead => rfl
    | edits hnot => exact absurd ⟨hne, hprefix⟩ hnot
  | edits hnot hleast =>
    cases h' with
    | lead hne hprefix => exact absurd ⟨hne, hprefix⟩ hnot
    | edits _ hleast' => exact hleast.unique hleast'

theorem scores_iff : Scores input c n ↔ n = score input c := by
  constructor
  · intro h
    exact h.unique (scores_score input c)
  · rintro rfl
    exact scores_score input c

/-! ## The sorted candidates -/

theorem closerOrEqual_total (a b : Nat × Bytes) :
    (closerOrEqual a b || closerOrEqual b a) = true := by
  have htotal := Bytes.le_total a.2 b.2
  unfold closerOrEqual
  rcases Nat.lt_trichotomy a.1 b.1 with h | h | h
  · simp [h]
  · simpa [h] using htotal
  · simp [h]

theorem closerOrEqual_iff {a b : Nat × Bytes} :
    closerOrEqual a b = true ↔ a.1 < b.1 ∨ a.1 = b.1 ∧ Bytes.le a.2 b.2 = true := by
  simp [closerOrEqual]

theorem closerOrEqual_trans (a b c : Nat × Bytes) (hab : closerOrEqual a b = true)
    (hbc : closerOrEqual b c = true) : closerOrEqual a c = true := by
  rw [closerOrEqual_iff] at *
  rcases hab with hab | ⟨hab, hle⟩
  · rcases hbc with hbc | ⟨hbc, _⟩
    · exact .inl (hab.trans hbc)
    · exact .inl (hbc ▸ hab)
  · rcases hbc with hbc | ⟨hbc, hle'⟩
    · exact .inl (hab ▸ hbc)
    · exact .inr ⟨hab.trans hbc, Bytes.le_trans _ _ _ hle hle'⟩

theorem precedes_of_closerOrEqual
    (h : closerOrEqual (score input c, c) (score input c', c') = true) (hne : c ≠ c') :
    Precedes input c c' := by
  refine ⟨_, _, scores_score input c, scores_score input c', ?_⟩
  rcases closerOrEqual_iff.mp h with hlt | ⟨heq, hle⟩
  · exact .inl hlt
  · exact .inr ⟨heq, Bytes.lt_of_le_of_ne hle hne⟩

/-- The candidates that may be suggested with their scores, closest first. -/
def closest (input : Bytes) (candidates : List Bytes) (maxDistance : Nat) : List (Nat × Bytes) :=
  (((candidates.filter fun c => !c.isEmpty && c != input).map fun c => (score input c, c)).filter
    fun entry => entry.1 ≤ maxDistance).mergeSort closerOrEqual

theorem mem_closest_iff : entry ∈ closest input candidates maxDistance ↔
    entry.1 = score input entry.2 ∧ Eligible input candidates maxDistance entry.2 := by
  obtain ⟨n, c⟩ := entry
  unfold closest
  rw [(List.mergeSort_perm _ _).mem_iff]
  simp only [List.mem_filter, List.mem_map, Prod.mk.injEq, decide_eq_true_eq]
  constructor
  · rintro ⟨⟨c', ⟨hmem, hc'⟩, rfl, rfl⟩, hle⟩
    have hne : c' ≠ [] ∧ c' ≠ input := by simpa using hc'
    exact ⟨rfl, hmem, hne.1, hne.2, _, hle, scores_score input c'⟩
  · rintro ⟨rfl, hmem, hnil, hne, m, hle, hm⟩
    rw [scores_iff.mp hm] at hle
    exact ⟨⟨c, ⟨hmem, by simp [hnil, hne]⟩, rfl, rfl⟩, hle⟩

theorem pairwise_closest (input : Bytes) (candidates : List Bytes) (maxDistance : Nat) :
    (closest input candidates maxDistance).Pairwise (closerOrEqual · ·) :=
  List.pairwise_mergeSort closerOrEqual_trans closerOrEqual_total _

/-! ## The ranking -/

/-- All candidates that may be suggested, each once, closest first. -/
structure IsRanking (input : Bytes) (candidates : List Bytes) (maxDistance : Nat)
    (ranking : List Bytes) : Prop where
  sorted : ranking.Pairwise (Precedes input)
  mem_iff : ∀ c, c ∈ ranking ↔ Eligible input candidates maxDistance c

def ranking (input : Bytes) (candidates : List Bytes) (maxDistance : Nat) : List Bytes :=
  ((closest input candidates maxDistance).map Prod.snd).eraseDups

theorem suggest_eq (input : Bytes) (candidates : List Bytes) (maxResults maxDistance : Nat) :
    suggest input candidates maxResults maxDistance =
      (ranking input candidates maxDistance).take maxResults := rfl

/-- Where different texts are in order, the texts without their repetitions are. -/
theorem pairwise_eraseDups {r : Bytes → Bytes → Prop} : ∀ {items : List Bytes},
    (items.Pairwise fun a b => a ≠ b → r a b) → items.eraseDups.Pairwise r
  | [], _ => .nil
  | item :: rest, h => by
    obtain ⟨hfirst, hrest⟩ := List.pairwise_cons.mp h
    rw [List.eraseDups_cons, List.pairwise_cons]
    constructor
    · intro other hother
      obtain ⟨hmem, hne⟩ := List.mem_filter.mp (List.mem_eraseDups.mp hother)
      exact hfirst other hmem fun heq => by simp [heq] at hne
    · exact pairwise_eraseDups (hrest.filter _)
termination_by items => items.length
decreasing_by
  exact Nat.lt_succ_of_le (List.length_filter_le _ _)

theorem isRanking_ranking (input : Bytes) (candidates : List Bytes) (maxDistance : Nat) :
    IsRanking input candidates maxDistance (ranking input candidates maxDistance) where
  sorted := by
    refine pairwise_eraseDups (List.pairwise_map.mpr ?_)
    refine (pairwise_closest input candidates maxDistance).imp_of_mem ?_
    rintro ⟨n, c⟩ ⟨m, c'⟩ hc hc' hcloser hne
    obtain ⟨rfl : n = score input c, _⟩ := mem_closest_iff.mp hc
    obtain ⟨rfl : m = score input c', _⟩ := mem_closest_iff.mp hc'
    exact precedes_of_closerOrEqual hcloser hne
  mem_iff c := by
    unfold ranking
    rw [List.mem_eraseDups, List.mem_map]
    constructor
    · rintro ⟨entry, hentry, rfl⟩
      exact (mem_closest_iff.mp hentry).2
    · intro hc
      exact ⟨(score input c, c), mem_closest_iff.mpr ⟨rfl, hc⟩, rfl⟩

/-! ## The first suggestion -/

theorem head?_suggest (hresults : 0 < maxResults) :
    (suggest input candidates maxResults maxDistance).head? =
      (ranking input candidates maxDistance).head? := by
  rw [suggest_eq, List.head?_take, if_neg (Nat.ne_of_gt hresults)]

theorem head?_suggest_eq_none_iff (hresults : 0 < maxResults) :
    (suggest input candidates maxResults maxDistance).head? = none ↔
      ∀ c, ¬ Eligible input candidates maxDistance c := by
  have hmem := (isRanking_ranking input candidates maxDistance).mem_iff
  rw [head?_suggest hresults, List.head?_eq_none_iff, List.eq_nil_iff_forall_not_mem]
  exact forall_congr' fun c => not_congr (hmem c)

/-- The first suggestion comes before every other candidate that may be suggested. -/
theorem head?_suggest_eq_some (hresults : 0 < maxResults)
    (h : (suggest input candidates maxResults maxDistance).head? = some c) :
    Eligible input candidates maxDistance c ∧
      ∀ c', Eligible input candidates maxDistance c' → c' ≠ c → Precedes input c c' := by
  obtain ⟨hsorted, hmem⟩ := isRanking_ranking input candidates maxDistance
  rw [head?_suggest hresults] at h
  obtain ⟨rest, hranking⟩ := List.head?_eq_some_iff.mp h
  rw [hranking] at hsorted hmem
  refine ⟨(hmem c).mp List.mem_cons_self, fun c' hc' hne => ?_⟩
  have hrest := (List.mem_cons.mp ((hmem c').mpr hc')).resolve_left hne
  exact (List.pairwise_cons.mp hsorted).1 c' hrest

/-! ## All suggestions -/

theorem precedes_iff : Precedes input c c' ↔
    score input c < score input c' ∨ score input c = score input c' ∧ c < c' := by
  constructor
  · rintro ⟨n, m, hn, hm, h⟩
    rwa [← scores_iff.mp hn, ← scores_iff.mp hm]
  · intro h
    exact ⟨_, _, scores_score input c, scores_score input c', h⟩

theorem Precedes.asymm (h : Precedes input c c') : ¬ Precedes input c' c := by
  rw [precedes_iff] at *
  rintro (hlt | ⟨heq, hlt⟩)
  · omega
  · rcases h with h | ⟨_, h⟩
    · omega
    · exact List.lt_asymm h hlt

theorem Precedes.ne (h : Precedes input c c') : c ≠ c' := by
  rintro rfl
  exact h.asymm h

namespace IsRanking

variable {a b : List Bytes}

theorem nodup (h : IsRanking input candidates maxDistance a) : a.Nodup := h.sorted.imp Precedes.ne

/-- There is one ranking, and only the set of the candidates counts. -/
theorem unique {candidates' : List Bytes} (hmem : ∀ c, c ∈ candidates' ↔ c ∈ candidates)
    (ha : IsRanking input candidates maxDistance a)
    (hb : IsRanking input candidates' maxDistance b) : a = b := by
  have hsame : ∀ c, c ∈ a ↔ c ∈ b := by
    intro c
    rw [ha.mem_iff, hb.mem_iff]
    constructor
    · rintro ⟨hc, hnil, hne, hclose⟩
      exact ⟨(hmem c).mpr hc, hnil, hne, hclose⟩
    · rintro ⟨hc, hnil, hne, hclose⟩
      exact ⟨(hmem c).mp hc, hnil, hne, hclose⟩
  have hperm := (List.perm_ext_iff_of_nodup ha.nodup hb.nodup).mpr hsame
  exact hperm.eq_of_pairwise (fun _ _ _ _ h h' => absurd h' h.asymm) ha.sorted hb.sorted

end IsRanking

/-! ## Fewer candidates -/

/-- The first items are kept if all of them pass. -/
theorem take_filter_eq_iff {α : Type} {p : α → Bool} {items : List α} {k : Nat} :
    (items.filter p).take k = items.take k ↔ ∀ item ∈ items.take k, p item := by
  constructor
  · intro h item hitem
    rw [← h] at hitem
    exact (List.mem_filter.mp (List.mem_of_mem_take hitem)).2
  · intro h
    have hsplit : items.filter p = items.take k ++ (items.drop k).filter p := by
      conv_lhs => rw [← List.take_append_drop k items]
      rw [List.filter_append, List.filter_eq_self.mpr h]
    rw [hsplit, List.take_append, List.take_take, Nat.min_self, List.length_take]
    rcases Nat.le_total k items.length with hle | hle
    · rw [Nat.min_eq_left hle, Nat.sub_self, List.take_zero, List.append_nil]
    · rw [List.drop_of_length_le hle, List.filter_nil, List.take_nil, List.append_nil]

/-- The ranking of some of the candidates. -/
theorem IsRanking.filter {candidates' ranking : List Bytes}
    (h : IsRanking input candidates maxDistance ranking)
    (hsubset : ∀ c ∈ candidates', c ∈ candidates) :
    IsRanking input candidates' maxDistance (ranking.filter (· ∈ candidates')) where
  sorted := h.sorted.filter _
  mem_iff c := by
    rw [List.mem_filter, h.mem_iff, decide_eq_true_iff]
    constructor
    · rintro ⟨⟨_, hnil, hne, hclose⟩, hmem⟩
      exact ⟨hmem, hnil, hne, hclose⟩
    · rintro ⟨hmem, hnil, hne, hclose⟩
      exact ⟨⟨hsubset c hmem, hnil, hne, hclose⟩, hmem⟩

/-- Candidates that are left out count if they would be suggested. -/
theorem suggest_eq_suggest_iff {candidates' : List Bytes}
    (hsubset : ∀ c ∈ candidates', c ∈ candidates) :
    suggest input candidates' maxResults maxDistance =
        suggest input candidates maxResults maxDistance ↔
      ∀ c ∈ suggest input candidates maxResults maxDistance, c ∈ candidates' := by
  have hfilter := (isRanking_ranking input candidates maxDistance).filter hsubset
  have hranking := isRanking_ranking input candidates' maxDistance
  rw [suggest_eq, suggest_eq, hranking.unique (fun _ => Iff.rfl) hfilter, take_filter_eq_iff]
  simp only [decide_eq_true_eq]

/-! ## The best candidates -/

/-- As many of the best candidates as are asked for. Where one is left out, the list is full, of
better ones. -/
structure BestCandidates (input : Bytes) (candidates : List Bytes) (maxResults maxDistance : Nat)
    (result : List Bytes) : Prop where
  ranked : ∃ ranking, IsRanking input candidates maxDistance ranking ∧
    result = ranking.take maxResults
  nodup : result.Nodup
  sorted : result.Pairwise (Precedes input)
  eligible : ∀ c ∈ result, Eligible input candidates maxDistance c
  complete : ∀ c, Eligible input candidates maxDistance c → c ∉ result →
    result.length = maxResults ∧ ∀ c' ∈ result, Precedes input c' c

theorem IsRanking.bestCandidates {ranking : List Bytes}
    (h : IsRanking input candidates maxDistance ranking) (maxResults : Nat) :
    BestCandidates input candidates maxResults maxDistance (ranking.take maxResults) where
  ranked := ⟨ranking, h, rfl⟩
  nodup := h.nodup.sublist (List.take_sublist _ _)
  sorted := h.sorted.sublist (List.take_sublist _ _)
  eligible c hc := (h.mem_iff c).mp (List.mem_of_mem_take hc)
  complete c hc hnot := by
    have hsorted := h.sorted
    have hmem := (h.mem_iff c).mpr hc
    rw [← List.take_append_drop maxResults ranking] at hsorted hmem
    have hdrop := (List.mem_append.mp hmem).resolve_left hnot
    have hlength : maxResults ≤ ranking.length := by
      refine Nat.le_of_not_lt fun hlt => ?_
      rw [List.drop_of_length_le (Nat.le_of_lt hlt)] at hdrop
      cases hdrop
    refine ⟨List.length_take_of_le hlength, fun c' hc' => ?_⟩
    exact (List.pairwise_append.mp hsorted).2.2 c' hc' c hdrop

/-- The suggestions are the best candidates and nothing else is; the order of the candidates and
their repetitions do not count. -/
theorem suggest_best (input : Bytes) (candidates : List Bytes) (maxResults maxDistance : Nat) :
    (∀ result, BestCandidates input candidates maxResults maxDistance result ↔
      result = suggest input candidates maxResults maxDistance) ∧
      ∀ candidates', (∀ c, c ∈ candidates' ↔ c ∈ candidates) →
        suggest input candidates' maxResults maxDistance =
          suggest input candidates maxResults maxDistance := by
  have hranking := isRanking_ranking input candidates maxDistance
  constructor
  · intro result
    constructor
    · intro h
      obtain ⟨other, hother, rfl⟩ := h.ranked
      rw [hother.unique (fun _ => Iff.rfl) hranking, suggest_eq]
    · rintro rfl
      exact hranking.bestCandidates maxResults
  · intro candidates' hmem
    have hranking' := isRanking_ranking input candidates' maxDistance
    rw [suggest_eq, suggest_eq, hranking.unique hmem hranking']

example : suggest "sort" ["sore", "sortby-date", "sort", "sore", "port", "snort"] 3 1 =
    (["sortby-date", "port", "snort"] : List Bytes) := by cbv

end Elvis
