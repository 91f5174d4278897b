import Perimeterd.Source.Canonical

/-!
# What a fetch delivers

A record a fetch delivers is of the source the configuration names for its selector, and so is its
canonical form. `fetchAll_spec` says it of a whole round of jobs.
-/

namespace Perimeterd.Source

open Lib Policy State List

/-! ## Sources -/

section Resolver

variable {δ : Type} (r : Resolver δ) (env : Surroundings) (cfg : Config)

/-- The record is of the source the configuration names for its selector; a custom list was read
over the route the call captured. An empty kind means RIPEstat. -/
structure Described (record : Record) (spec : SelectorSpec) : Prop where
  described : describeSelector r.texts cfg record.selector = .ok spec
  kind : record.sourceKind.canonical = spec.sourceKind.canonical
  name : record.sourceName = spec.sourceName
  version : record.apiVersion = spec.apiVersion
  parameters : record.selector.kind = .ipList → record.parameters = spec.parameters
  binding : record.selector.kind = .ipList → bindingForRoute r.session spec.transport =
    .ok record.transport

/-- The endpoint of a source; that of an artifact is its release's. -/
def SelectorSpec.endpointFor (spec : SelectorSpec) (record : Record) : String :=
  if spec.sourceKind = .dbipLite then dbipEndpoint record.release else spec.endpoint

/-- And it was read from that source's endpoint. -/
structure FromSource (record : Record) (spec : SelectorSpec) : Prop
    extends Described r cfg record spec where
  endpoint : record.endpoint = spec.endpointFor record

/-- A record as it is fetched; the endpoint of a provider is only checked later. -/
def Sourced (o : Record) : Prop :=
  ∃ spec, Described r cfg o spec ∧ (o.sourceKind ≠ .provider → o.endpoint = spec.endpointFor o)

/-- An upstream delivered it to this call. -/
def Delivered (o : Record) : Prop :=
  fetchOne r env cfg o.selector = .ok o ∨
    ∃ countries batch, fetchDBIP env countries = .ok batch ∧ o ∈ batch

/-- It is the canonical form of what an upstream delivered. -/
def Fetched (record : Record) : Prop :=
  ∃ o, Delivered r env cfg o ∧ canonicalRecord r.texts o = .ok record

end Resolver

section Facts

variable {δ : Type} {r : Resolver δ} {env : Surroundings} {cfg : Config} {tx : Texts}
  {sel s : Selector} {spec : SelectorSpec} {record : Record} {sels : List Selector}
  {m : List Record} {resp : Response}

theorem canonicalBinding_of_valid {b : Binding} (h : b.validate.isOk = true)
    (hd : b.type ≠ .direct) : canonicalBinding b = .ok b := by
  cases hv : b.validate with
  | error e =>
    rw [hv] at h
    cases h
  | ok u =>
    rw [canonicalBinding]
    split
    · rw [hv]
      rfl
    · rename_i ht
      simp [Binding.validate, ht] at hv
    · rename_i hz hother
      rw [Binding.validate] at hv
      split at hv
      · rename_i ht
        exact absurd ht hd
      · rename_i ht
        exact absurd ht hz
      · cases hv

theorem canonicalBinding_of_route {ses : Session} {route : Config.Transport} {b : Binding}
    (h : bindingForRoute ses route = .ok b) : canonicalBinding b = .ok b := by
  cases ses with
  | none =>
    rw [bindingForRoute] at h
    split at h
    · cases h
      rfl
    · cases h
  | some gens =>
    obtain ⟨b', hb', h⟩ := bind_eq_ok.mp h
    rw [← pure_eq_ok.mp h]
    by_cases hd : b'.type = .direct
    · rw [if_pos hd]
      rfl
    rw [if_neg hd]
    rw [sessionBinding] at hb'
    split at hb'
    · obtain ⟨-, hb'⟩ := ite_throw_eq_ok.mp hb'
      cases hb'
      exact absurd rfl hd
    · obtain ⟨-, hb'⟩ := ite_throw_eq_ok.mp hb'
      cases hb'
      exact absurd rfl hd
    · cases hb'
    · obtain ⟨-, hb'⟩ := ite_throw_eq_ok.mp hb'
      split at hb'
      · cases hb'
      · obtain ⟨hva, hb'⟩ := ite_throw_eq_ok.mp hb'
        cases hb'
        rw [not_or] at hva
        exact canonicalBinding_of_valid (by simpa using hva.2) hd

theorem canonical_canonical (k : SourceKind) : k.canonical.canonical = k.canonical := by
  cases k with
  | ripestat => rfl
  | _ => rfl

theorem describeProvider_spec
    (h : describeSelector tx cfg sel = .ok spec) (hk : sel.kind = .provider) :
    providerEndpoint sel.value = .ok spec.endpoint ∧ spec.sourceKind = .provider ∧
      spec.sourceName = sel.value ∧ spec.apiVersion = listFormatVersion := by
  rw [describeSelector, hk] at h
  obtain ⟨url, hen, h⟩ := bind_eq_ok.mp h
  cases pure_eq_ok.mp h
  exact ⟨hen, rfl, rfl, rfl⟩

theorem canonicalRecord_provider {o c : Record}
    (h : canonicalRecord tx o = .ok c) (hk : o.sourceKind = .provider) :
    c.selector.kind = .provider ∧ providerEndpoint c.selector.value = .ok c.endpoint := by
  rw [canonicalRecord] at h
  obtain ⟨sel, -, h⟩ := bind_eq_ok.mp h
  obtain ⟨transport, -, h⟩ := bind_eq_ok.mp h
  obtain ⟨-, h⟩ := guard_eq_ok.mp h
  simp only [hk] at h
  obtain ⟨hn, hki, -, hp⟩ := canonicalText_eq_ok h
  obtain ⟨v4, v6, -, -, rfl⟩ := normalizeFamilies_eq_ok hn
  exact ⟨hki, hp rfl⟩

/-- **Canonicalization keeps the source of a record.** -/
theorem Described.canonical {o c : Record} (ho : Described r cfg o spec)
    (hend : o.sourceKind ≠ .provider → o.endpoint = spec.endpointFor o)
    (h : canonicalRecord r.texts o = .ok c) (hse : c.selector = o.selector) :
    FromSource r cfg c spec := by
  have hc := canonicalOf_of_eq_ok h
  have hki : c.sourceKind = o.sourceKind.canonical := by rw [hc.kept]
  have hna : c.sourceName = o.sourceName := by rw [hc.kept]
  have hve : c.apiVersion = o.apiVersion := by rw [hc.kept]
  have hen : c.endpoint = o.endpoint := by rw [hc.kept]
  have hre : c.release = o.release := by rw [hc.kept]
  have hpa : c.parameters = o.parameters := by rw [hc.kept]
  refine ⟨⟨hse ▸ ho.described, ?_, hna ▸ ho.name, hve ▸ ho.version, ?_, ?_⟩, ?_⟩
  · rw [hki, canonical_canonical]
    exact ho.kind
  · intro hl
    rw [hpa]
    exact ho.parameters (hse ▸ hl)
  · intro hl
    have hro := ho.binding (hse ▸ hl)
    have htr := hc.transport
    rw [canonicalBinding_of_route hro] at htr
    rw [hro, Except.ok.inj htr]
  · by_cases hp : o.sourceKind = .provider
    · obtain ⟨hck, hu⟩ := canonicalRecord_provider h hp
      obtain ⟨hsp, hsk, -⟩ := describeProvider_spec (hse ▸ ho.described) hck
      rw [SelectorSpec.endpointFor, if_neg (by rw [hsk]; decide)]
      exact Except.ok.inj (hu.symm.trans hsp)
    · rw [hen, hend hp, SelectorSpec.endpointFor, SelectorSpec.endpointFor, hre]

/-! ## Fetching -/

theorem retryRounds_ok {α : Type} {fetch : Nat → Except Failure α} {a : α} :
    ∀ {n attempt : Nat}, retryRounds fetch attempt n = .ok a → ∃ k, fetch k = .ok a
  | 0, attempt, h => ⟨attempt, h⟩
  | n + 1, attempt, h => by
    rw [retryRounds] at h
    cases hf : fetch attempt with
    | ok b =>
      rw [hf] at h
      exact ⟨attempt, hf.trans h⟩
    | error e =>
      rw [hf] at h
      simp only at h
      split at h
      · exact retryRounds_ok h
      · cases h

theorem retryFetch_ok {α : Type} {fetch : Nat → Except Failure α} {a : α}
    (h : retryFetch fetch = .ok a) : ∃ k, fetch k = .ok a :=
  retryRounds_ok (mapError_eq_ok.mp h)

theorem describeList_spec {name : String} (h : describeList tx cfg name = .ok spec) :
    spec.sourceKind = .ipList ∧ spec.sourceName = name ∧
      tx.url.normalizeIPListURL spec.endpoint = .ok spec.endpoint := by
  rw [describeList] at h
  split at h
  · cases h
  · obtain ⟨url, hen, h⟩ := bind_eq_ok.mp h
    obtain ⟨pars, -, h⟩ := bind_eq_ok.mp h
    rw [← pure_eq_ok.mp h]
    exact ⟨rfl, rfl, Config.NetURL.normalizeIPListURL_normal (mapError_eq_ok.mp hen)⟩

theorem finishListRecord_spec {kind : SourceKind}
    (h : finishListRecord r sel kind spec resp = .ok record) :
    record.selector = sel ∧ record.sourceKind = kind ∧ record.sourceName = sel.value ∧
      record.apiVersion = spec.apiVersion ∧ record.parameters = spec.parameters ∧
      r.texts.url.normalizeIPListURL spec.endpoint = .ok record.endpoint := by
  rw [finishListRecord] at h
  obtain ⟨v4, -, h⟩ := bind_eq_ok.mp h
  obtain ⟨v6, -, h⟩ := bind_eq_ok.mp h
  obtain ⟨url, hen, h⟩ := bind_eq_ok.mp h
  rw [← pure_eq_ok.mp h]
  exact ⟨rfl, rfl, rfl, rfl, rfl, mapError_eq_ok.mp hen⟩

theorem ripeRecord_spec (h : ripeRecord sel resp = .ok record) : ∃ pars,
      ripeRequestFor sel = .ok (record.endpoint, record.apiVersion, pars) ∧
      record.selector = sel ∧ record.sourceKind = .unset ∧ record.sourceName = "" := by
  rw [ripeRecord] at h
  obtain ⟨⟨url, version, pars⟩, hre, h⟩ := bind_eq_ok.mp h
  obtain ⟨-, h⟩ := guard_eq_ok.mp h
  obtain ⟨v4, -, h⟩ := bind_eq_ok.mp h
  obtain ⟨v6, -, h⟩ := bind_eq_ok.mp h
  rw [← pure_eq_ok.mp h]
  exact ⟨pars, hre, rfl, rfl, rfl⟩

theorem describeRIPE_spec
    {url version : String} {pars : Parameters} (h : describeSelector tx cfg sel = .ok spec)
    (hre : ripeRequestFor sel = .ok (url, version, pars))
    (hd : sel.kind = .country → cfg.geo.effectiveCountryProvider ≠ .dbipLite) :
    spec.endpoint = url ∧ spec.apiVersion = version ∧ spec.sourceKind = .ripestat ∧
      spec.sourceName = "" ∧ sel.kind ≠ .ipList := by
  cases hk : sel.kind with
  | country =>
    simp only [describeSelector, hk, if_neg (hd hk)] at h
    simp only [ripeRequestFor, hk] at hre
    cases h
    cases hre
    exact ⟨rfl, rfl, rfl, rfl, nofun⟩
  | asn =>
    simp only [describeSelector, hk] at h
    simp only [ripeRequestFor, hk] at hre
    cases h
    cases hre
    exact ⟨rfl, rfl, rfl, rfl, nofun⟩
  | rir | ipList | provider =>
    simp only [ripeRequestFor, hk] at hre
    cases hre

theorem ripeRecord_described (hsp : describeSelector r.texts cfg sel = .ok spec)
    (h : ripeRecord sel resp = .ok record)
    (hd : sel.kind = .country → cfg.geo.effectiveCountryProvider ≠ .dbipLite) :
    record.selector = sel ∧ Sourced r cfg record := by
  obtain ⟨pars, hre, hse, hki, hna⟩ := ripeRecord_spec h
  obtain ⟨hen, hve, hsk, hsn, hli⟩ := describeRIPE_spec hsp hre hd
  refine ⟨hse, spec, ⟨hse ▸ hsp, ?_, hna.trans hsn.symm, hve.symm, ?_, ?_⟩, fun _ => ?_⟩
  · rw [hki, hsk]
    rfl
  · exact fun hl => absurd (hse ▸ hl) hli
  · exact fun hl => absurd (hse ▸ hl) hli
  · rw [SelectorSpec.endpointFor, if_neg (by rw [hsk]; decide), hen]

/-- **A fetched record** is of the source it was fetched for. -/
theorem fetchAttempt_spec {answer : Except Failure Response}
    (h : fetchAttempt r cfg sel answer = .ok record)
    (hd : sel.kind = .country → cfg.geo.effectiveCountryProvider ≠ .dbipLite) :
    record.selector = sel ∧ Sourced r cfg record := by
  rw [fetchAttempt] at h
  obtain ⟨spec, hsp, h⟩ := bind_eq_ok.mp h
  have hsp := mapError_eq_ok.mp hsp
  obtain ⟨⟨⟩, -, h⟩ := bind_eq_ok.mp h
  cases hk : sel.kind with
  | ipList =>
    simp only [hk] at h
    obtain ⟨binding, hbi, h⟩ := bind_eq_ok.mp h
    obtain ⟨response, -, h⟩ := bind_eq_ok.mp h
    obtain ⟨base, hbase, h⟩ := bind_eq_ok.mp h
    rw [← pure_eq_ok.mp h]
    obtain ⟨hse, hki, hna, hve, hp, hen⟩ := finishListRecord_spec (mapError_eq_ok.mp hbase)
    have hli := hsp
    rw [describeSelector, hk] at hli
    obtain ⟨hsk, hsn, hno⟩ := describeList_spec hli
    refine ⟨hse, spec, ⟨?_, ?_, ?_, hve, fun _ => hp,
      fun _ => mapError_eq_ok.mp (mapError_eq_ok.mp hbi)⟩, fun _ => ?_⟩
    · rw [← hsp, ← hse]
    · rw [hsk, ← hki]
    · exact hna.trans hsn.symm
    · rw [SelectorSpec.endpointFor, if_neg (by rw [hsk]; decide)]
      exact Except.ok.inj (hen.symm.trans hno)
  | provider =>
    simp only [hk] at h
    obtain ⟨response, -, h⟩ := bind_eq_ok.mp h
    obtain ⟨hse, hki, hna, hve, hp, hen⟩ := finishListRecord_spec (mapError_eq_ok.mp h)
    obtain ⟨-, hsk, hsn, hsv⟩ := describeProvider_spec hsp hk
    refine ⟨hse, spec, ⟨?_, ?_, ?_, hve, ?_, ?_⟩, fun hne => absurd hki hne⟩
    · rw [← hsp, ← hse]
    · rw [hsk, ← hki]
    · exact hna.trans hsn.symm
    · intro hl
      rw [hse, hk] at hl
      cases hl
    · intro hl
      rw [hse, hk] at hl
      cases hl
  | country =>
    simp only [hk] at h
    obtain ⟨response, -, h⟩ := bind_eq_ok.mp h
    exact ripeRecord_described hsp (mapError_eq_ok.mp h) hd
  | asn =>
    simp only [hk] at h
    obtain ⟨response, -, h⟩ := bind_eq_ok.mp h
    exact ripeRecord_described hsp (mapError_eq_ok.mp h) hd
  | rir =>
    simp only [hk] at h
    cases h

theorem dbipRecords_spec {rel : String} {artifact : Artifact} :
    ∀ {ccs : List Selector} {rcs : List Record},
      dbipRecords rel artifact ccs = .ok rcs → ∀ o ∈ rcs,
        o.selector ∈ ccs ∧ o.sourceKind = .dbipLite ∧ o.sourceName = "" ∧
          o.apiVersion = dbipFormatVersion ∧ o.endpoint = dbipEndpoint o.release
  | [], rcs, h, o, ho => by
    cases h
    cases ho
  | selector :: rest, rcs, h, o, ho => by
    rw [dbipRecords] at h
    obtain ⟨record, hre, h⟩ := bind_eq_ok.mp h
    obtain ⟨others, hot, h⟩ := bind_eq_ok.mp h
    rw [← pure_eq_ok.mp h] at ho
    rcases mem_cons.mp ho with rfl | ho
    · obtain ⟨v4, -, hre⟩ := bind_eq_ok.mp hre
      obtain ⟨v6, -, hre⟩ := bind_eq_ok.mp hre
      rw [← pure_eq_ok.mp hre]
      exact ⟨mem_cons_self, rfl, rfl, rfl, rfl⟩
    · obtain ⟨hmem, hrest⟩ := dbipRecords_spec hot o ho
      exact ⟨mem_cons_of_mem _ hmem, hrest⟩

theorem fetchDBIP_spec {ccs : List Selector} {batch : List Record}
    (h : fetchDBIP env ccs = .ok batch) :
    ∃ release artifact, dbipRecords release artifact ccs = .ok batch := by
  have hre : ∀ release, fetchRelease env ccs release = .ok batch →
      ∃ release artifact, dbipRecords release artifact ccs = .ok batch := by
    intro release hr
    obtain ⟨attempt, hr⟩ := retryFetch_ok hr
    obtain ⟨artifact, -, hr⟩ := bind_eq_ok.mp hr
    exact ⟨release, artifact, mapError_eq_ok.mp hr⟩
  rw [fetchDBIP] at h
  cases hf : fetchRelease env ccs (monthText env.month) with
  | ok records =>
    rw [hf] at h
    exact hre _ (hf.trans h)
  | error e =>
    rw [hf] at h
    simp only at h
    split at h
    · exact hre _ h
    · cases h

theorem mem_dbipCountries (h : s ∈ dbipCountries cfg sels) : s ∈ sels ∧ s.kind = .country ∧
      cfg.geo.effectiveCountryProvider = .dbipLite := by
  rw [dbipCountries] at h
  split at h
  · rename_i hp
    obtain ⟨hmem, hk⟩ := mem_filter.mp h
    exact ⟨hmem, by simpa using hk, hp⟩
  · cases h

/-- **What a job yields**: records of its selectors, each of its source. -/
theorem runJob_spec {job : Selector} {rcs : List Record}
    (h : runJob r env cfg sels job = .ok rcs) (hjo : job ∈ sels) :
    ∀ o ∈ rcs, o.selector ∈ sels ∧ Delivered r env cfg o ∧ Sourced r cfg o := by
  rw [runJob] at h
  split at h
  · -- the country batch
    intro o ho
    obtain ⟨release, artifact, hre⟩ := fetchDBIP_spec h
    obtain ⟨hmem, hki, hna, hve, hen⟩ := dbipRecords_spec hre o ho
    obtain ⟨hse, hk, hp⟩ := mem_dbipCountries hmem
    refine ⟨hse, Or.inr ⟨_, _, h, ho⟩,
      { refreshInterval := cfg.geo.refreshInterval, requestTimeout := cfg.geo.requestTimeout,
        refreshJitter := cfg.geo.refreshJitter, sourceKind := .dbipLite,
        apiVersion := dbipFormatVersion }, ⟨?_, ?_, hna, hve, ?_, ?_⟩, fun _ => ?_⟩
    · simp only [describeSelector, hk, if_pos hp]
    · rw [hki]
    · exact fun hl => by rw [hk] at hl; cases hl
    · exact fun hl => by rw [hk] at hl; cases hl
    · exact hen
  · rename_i hba
    cases hf : fetchOne r env cfg job with
    | error e =>
      rw [hf] at h
      cases h
    | ok record =>
      rw [hf] at h
      cases h
      intro o ho
      rw [mem_singleton.mp ho]
      -- a country of a DB-IP configuration is always in the batch
      have hri : job.kind = .country → cfg.geo.effectiveCountryProvider ≠ .dbipLite := by
        intro hk hp
        refine hba ⟨hk, ne_nil_of_mem (a := job) ?_⟩
        rw [dbipCountries, if_pos hp]
        exact mem_filter.mpr ⟨hjo, by simpa using hk⟩
      obtain ⟨attempt, hat⟩ := retryFetch_ok hf
      obtain ⟨hse, hso⟩ := fetchAttempt_spec hat hri
      exact ⟨hse ▸ hjo, Or.inl (hse ▸ hf), hso⟩

/-! ## Maps of records -/

theorem putRecord_nodup (hm : (m.map (·.selector)).Nodup) :
    ((putRecord m record).map (·.selector)).Nodup := by
  rw [putRecord, map_cons, nodup_cons]
  refine ⟨?_, hm.sublist (filter_sublist.map _)⟩
  rintro hmem
  obtain ⟨x, hx, heq⟩ := mem_map.mp hmem
  have hne := (mem_filter.mp hx).2
  simp [heq] at hne

theorem mem_putRecord {x : Record} (h : x ∈ putRecord m record) : x = record ∨ x ∈ m := by
  rcases mem_cons.mp h with h | h
  · exact .inl h
  · exact .inr (mem_of_mem_filter h)

theorem foldl_putRecord (rcs : List Record) : ∀ {m : List Record},
    (m.map (·.selector)).Nodup → ((rcs.foldl putRecord m).map (·.selector)).Nodup ∧
      ∀ x ∈ rcs.foldl putRecord m, x ∈ rcs ∨ x ∈ m := by
  induction rcs with
  | nil => exact fun hm => ⟨hm, fun x hx => Or.inr hx⟩
  | cons record rest ih =>
    intro m hm
    obtain ⟨hno, hmem⟩ := ih (putRecord_nodup hm)
    refine ⟨hno, fun x hx => ?_⟩
    rcases hmem x hx with hx | hx
    · exact .inl (mem_cons_of_mem _ hx)
    · rcases mem_putRecord hx with rfl | hx
      · exact .inl mem_cons_self
      · exact .inr hx

theorem findRecord_some (h : findRecord m s = some record) : record ∈ m ∧ record.selector = s :=
  ⟨mem_of_find?_eq_some h, by simpa using List.find?_some h⟩

theorem findRecord_isSome (h : s ∈ m.map (·.selector)) :
    ∃ record, findRecord m s = some record := by
  obtain ⟨x, hx, heq⟩ := mem_map.mp h
  exact Option.isSome_iff_exists.mp (List.find?_isSome.mpr ⟨x, hx, by simpa using heq⟩)

theorem map_filterMap_selector {find : Selector → Option Record} : ∀ {req : List Selector},
    (∀ s ∈ req, ∃ record, find s = some record ∧ record.selector = s) →
      (req.filterMap find).map (·.selector) = req
  | [], _ => rfl
  | s :: rest, h => by
    obtain ⟨record, hre, hse⟩ := h s mem_cons_self
    rw [filterMap_cons_some hre, map_cons, hse,
      map_filterMap_selector fun t ht => h t (mem_cons_of_mem _ ht)]

theorem collectResults_spec : ∀ {jobs : List Selector}
    {got out : List Record}, collectResults r env cfg sels got jobs = .ok out →
      (∀ job ∈ jobs, job ∈ sels) → (got.map (·.selector)).Nodup →
      (∀ o ∈ got, o.selector ∈ sels ∧ Delivered r env cfg o ∧ Sourced r cfg o) →
      (out.map (·.selector)).Nodup ∧
        ∀ o ∈ out, o.selector ∈ sels ∧ Delivered r env cfg o ∧ Sourced r cfg o
  | [], got, out, h, _, hno, hal => by
    cases h
    exact ⟨hno, hal⟩
  | job :: rest, got, out, h, hjo, hno, hal => by
    rw [collectResults] at h
    cases hj : runJob r env cfg sels job with
    | error e =>
      rw [hj] at h
      cases h
    | ok records =>
      rw [hj] at h
      obtain ⟨hn', hmem⟩ := foldl_putRecord records hno
      refine collectResults_spec h (fun j hj => hjo j (mem_cons_of_mem _ hj)) hn' ?_
      intro o ho
      rcases hmem o ho with ho | ho
      · exact runJob_spec hj (hjo job mem_cons_self) o ho
      · exact hal o ho

/-- **`fetchAll`** delivers one record of each selector, or nothing. -/
theorem fetchAll_spec {got : List Record} (h : fetchAll r env cfg sels = .ok got) :
    (got.map (·.selector)).Nodup ∧
      ∀ o ∈ got, o.selector ∈ sels ∧ Delivered r env cfg o ∧ Sourced r cfg o := by
  obtain ⟨out, ho, h⟩ := bind_eq_ok.mp h
  split at h
  · cases h
  obtain ⟨-, h⟩ := ite_throw_eq_ok.mp h
  cases h
  refine collectResults_spec ho ?_ nodup_nil (by simp)
  intro job hjo
  have hmem := (mem_filter.mp hjo).2
  exact mem_of_mem_filter (of_decide_eq_true hmem)

end Facts

end Perimeterd.Source
