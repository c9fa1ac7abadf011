import Elvis.Proofs.OptionSet.Acceptance

/-!
# The scheme of an elvis

Both URLs of an elvis stand under one scheme, the one that either of them names or else the default
(`Urls.Resolves`). A resolved URL names that scheme itself, whatever the rest of it holds, so
resolving it again changes nothing (`OptionSet.build_resolves`).
-/

namespace Elvis

/-! ## Schemes and rests -/

namespace Url

variable {url scheme other rest rest' : Bytes}

/-- The rest of a URL is what follows the scheme that it names, or all of it if it names none. -/
inductive HasRest : Bytes → Bytes → Prop
  | named {scheme rest : Bytes} : isScheme scheme → HasRest (withScheme scheme rest) rest
  | unnamed {url : Bytes} : (∀ scheme, ¬ HasScheme url scheme) → HasRest url url

theorem hasScheme_withScheme (h : isScheme scheme) : HasScheme (withScheme scheme rest) scheme :=
  ⟨h, rest, rfl⟩

theorem HasScheme.unique (h : HasScheme url scheme) (h' : HasScheme url other) :
    scheme = other := by
  rw [← splitScheme_fst_eq_some_iff] at h h'
  exact Option.some.inj (h.symm.trans h')

/-- However often the rest has a mark, the first one ends the scheme. -/
theorem splitScheme_withScheme (h : isScheme scheme) :
    splitScheme (withScheme scheme rest) = (some scheme, rest) := by
  unfold splitScheme
  rw [cutSchemeMark_withScheme (colon_not_mem_of_isScheme h)]
  exact if_pos h

theorem splitScheme_eq_none_iff :
    splitScheme url = (none, rest) ↔ rest = url ∧ ∀ scheme, ¬ HasScheme url scheme := by
  have hnone : (splitScheme url).1 = none ↔ ∀ scheme, ¬ HasScheme url scheme := by
    simp only [← splitScheme_fst_eq_some_iff]
    exact Option.eq_none_iff_forall_ne_some
  rw [← hnone]
  unfold splitScheme
  split
  · split <;> simp [eq_comm]
  · simp [eq_comm]

theorem hasRest_splitScheme (url : Bytes) : HasRest url (splitScheme url).2 := by
  rcases hsplit : splitScheme url with ⟨_ | scheme, rest⟩
  · obtain ⟨rfl, hnone⟩ := splitScheme_eq_none_iff.mp hsplit
    exact .unnamed hnone
  · obtain ⟨hs, rest', rfl⟩ := splitScheme_fst_eq_some_iff.mp (congrArg Prod.fst hsplit)
    rw [splitScheme_withScheme hs] at hsplit
    cases hsplit
    exact .named hs

theorem HasRest.eq_snd (h : HasRest url rest) : rest = (splitScheme url).2 := by
  cases h with
  | named hs => rw [splitScheme_withScheme hs]
  | unnamed hnone => rw [splitScheme_eq_none_iff.mpr ⟨rfl, hnone⟩]

theorem HasRest.unique (h : HasRest url rest) (h' : HasRest url rest') : rest = rest' :=
  h.eq_snd.trans h'.eq_snd.symm

end Url

/-! ## Resolved URLs -/

/-- The settings with other URLs, and perhaps another default for their scheme. -/
def Settings.withUrls (s : Settings) (urls : Urls) (insecure : Bool) : Settings :=
  { s with baseUrl := urls.base, searchUrl := urls.search, insecure }

namespace Urls

open Url

variable {s : Settings} {urls urls' : Urls}

/-- The URLs of an elvis with the settings. -/
structure Resolves (s : Settings) (urls : Urls) : Prop where
  named : ∀ scheme, HasScheme s.baseUrl scheme ∨ HasScheme s.searchUrl scheme →
    urls.scheme = scheme
  unnamed : (∀ scheme, ¬ HasScheme s.baseUrl scheme ∧ ¬ HasScheme s.searchUrl scheme) →
    urls.scheme = (if s.insecure then "http" else "https" : Bytes)
  base : urls.base = withScheme urls.scheme urls.display
  search : ∃ rest, HasRest s.searchUrl rest ∧ urls.search = withScheme urls.scheme rest
  display : HasRest s.baseUrl urls.display

/-- The scheme is that of either URL, or else the default. -/
theorem resolve_scheme (h : resolve s = .ok urls) :
    (∀ scheme, HasScheme s.baseUrl scheme ∨ HasScheme s.searchUrl scheme →
      urls.scheme = scheme) ∧
    ((∀ scheme, ¬ HasScheme s.baseUrl scheme ∧ ¬ HasScheme s.searchUrl scheme) →
      urls.scheme = (if s.insecure then "http" else "https" : Bytes)) := by
  simp only [← splitScheme_fst_eq_some_iff]
  unfold resolve at h
  dsimp only at h
  split at h
  · next hbase hsearch =>
    rw [hbase, hsearch]
    split at h
    · next heq =>
      cases h
      simp [heq]
    · cases h
  · next hbase hsearch =>
    cases h
    simp [hbase, hsearch]
  · next hbase hsearch =>
    cases h
    simp [hbase, hsearch]
  · next hbase hsearch =>
    cases h
    simp [hbase, hsearch]

theorem resolves_of_resolve (h : resolve s = .ok urls) : Resolves s urls := by
  obtain ⟨hnamed, hunnamed⟩ := resolve_scheme h
  obtain ⟨_, hbase, hsearch, hdisplay⟩ := resolve_eq_ok h
  exact
    { named := hnamed
      unnamed := hunnamed
      base := hdisplay ▸ hbase
      search := ⟨_, hasRest_splitScheme s.searchUrl, hsearch⟩
      display := hdisplay ▸ hasRest_splitScheme s.baseUrl }

theorem Resolves.scheme_unique (h : Resolves s urls) (h' : Resolves s urls') :
    urls.scheme = urls'.scheme := by
  by_cases hexists : ∃ scheme, HasScheme s.baseUrl scheme ∨ HasScheme s.searchUrl scheme
  · obtain ⟨scheme, hscheme⟩ := hexists
    exact (h.named scheme hscheme).trans (h'.named scheme hscheme).symm
  · have hnone : ∀ scheme, ¬ HasScheme s.baseUrl scheme ∧ ¬ HasScheme s.searchUrl scheme :=
      fun scheme => not_or.mp fun hscheme => hexists ⟨scheme, hscheme⟩
    exact (h.unnamed hnone).trans (h'.unnamed hnone).symm

theorem Resolves.unique (h : Resolves s urls) (h' : Resolves s urls') : urls = urls' := by
  have hscheme := h.scheme_unique h'
  have hdisplay := h.display.unique h'.display
  obtain ⟨rest, hrest, hsearch⟩ := h.search
  obtain ⟨rest', hrest', hsearch'⟩ := h'.search
  have hbase : urls.base = urls'.base := by rw [h.base, h'.base, hscheme, hdisplay]
  have hfound : urls.search = urls'.search := by
    rw [hsearch, hsearch', hscheme, hrest.unique hrest']
  cases urls
  cases urls'
  rw [mk.injEq]
  exact ⟨hscheme, hbase, hfound, hdisplay⟩

theorem resolve_eq_ok_iff : resolve s = .ok urls ↔ Resolves s urls := by
  constructor
  · exact resolves_of_resolve
  · intro h
    have hschemes : ∀ b c, HasScheme s.baseUrl b → HasScheme s.searchUrl c → b = c :=
      fun b c hb hc => (h.named b (.inl hb)).symm.trans (h.named c (.inr hc))
    obtain ⟨urls', h'⟩ := exists_resolve_eq_ok_iff.mpr hschemes
    rw [h', (resolves_of_resolve h').unique h]

/-- Resolved URLs name their scheme, so the default no longer matters. -/
theorem Resolves.again (hs : isScheme urls.scheme) (h : Resolves s urls) (insecure : Bool) :
    Resolves (s.withUrls urls insecure) urls := by
  obtain ⟨rest, _, hsearch⟩ := h.search
  have hbaseScheme : HasScheme urls.base urls.scheme := h.base ▸ hasScheme_withScheme hs
  have hsearchScheme : HasScheme urls.search urls.scheme := hsearch ▸ hasScheme_withScheme hs
  have hbaseRest : HasRest urls.base urls.display := h.base ▸ .named hs
  have hsearchRest : HasRest urls.search rest := hsearch ▸ .named hs
  exact
    { named := fun scheme hscheme => hscheme.elim hbaseScheme.unique hsearchScheme.unique
      unnamed := fun hnone => absurd hbaseScheme (hnone _).1
      base := h.base
      search := ⟨rest, hsearchRest, hsearch⟩
      display := hbaseRest }

end Urls

/-! ## Building -/

namespace OptionSet

variable {s : Settings} {ds : List Directive} {set : OptionSet}

/-- The URLs of a built set are resolved, and building with them in place of the given ones builds
the same set. -/
theorem build_resolves (h : build s ds = .ok set) :
    Urls.Resolves s set.urls ∧ ∀ insecure,
      build (s.withUrls set.urls insecure) ds =
        .ok { set with settings := s.withUrls set.urls insecure } := by
  obtain ⟨hw, urls, hurls, rfl⟩ := build_eq_ok_iff.mp h
  have hresolves := Urls.resolves_of_resolve hurls
  obtain ⟨hscheme, _⟩ := Urls.resolve_eq_ok hurls
  refine ⟨hresolves, fun insecure => ?_⟩
  have hagain := Urls.resolve_eq_ok_iff.mpr (hresolves.again hscheme insecure)
  -- no other condition on the settings speaks of the URLs
  have hsettings : (s.withUrls urls insecure).WellFormed :=
    settings_iff.mpr ⟨(settings_iff.mp hw.settings).1, urls, hagain⟩
  exact build_eq_ok_iff.mpr ⟨{ hw with settings := hsettings }, urls, hagain, rfl⟩

/-- Neither URL names a scheme: the one starts with a mark, and the other has one in its query. -/
theorem build_resolves_sample :
    let s := { sampleSettings with
      baseUrl := "://sample.org", searchUrl := "sample.org/find?from=ftp://", insecure := true }
    ∃ set, build s sampleDirectives = .ok set ∧ set.urls.base = "http://://sample.org" ∧
      Urls.Resolves s set.urls ∧ ∀ insecure,
        build (s.withUrls set.urls insecure) sampleDirectives =
          .ok { set with settings := s.withUrls set.urls insecure } := by
  intro s
  obtain ⟨set, h, hbase⟩ : ∃ set, build s sampleDirectives = .ok set ∧
      set.urls.base = "http://://sample.org" := ⟨_, rfl, rfl⟩
  exact ⟨set, h, hbase, build_resolves h⟩

end OptionSet

end Elvis
