import Perimeterd.Lib.Pointwise
import Perimeterd.Policy.Required
import Perimeterd.Source.Resolve

/-!
# Canonical records

What `canonicalRecord` keeps of a record and what it replaces, and what follows for a snapshot: a
record that has been loaded is its own canonical form, so staging it again does not change it, and a
staged snapshot holds exactly the canonical forms of the records it was given.
-/

namespace Perimeterd

open Lib Policy List

/-! ## Selectors -/

theorem Catalog.toUpper_of_validCountry {code : String} (h : Catalog.validCountry code = true) :
    Catalog.toUpper code = code := by
  have hal : ∀ c ∈ Catalog.countryCodes, Catalog.toUpper c = c := by decide +kernel
  exact hal code (contains_iff_mem.mp h)

theorem Catalog.toUpper_of_validRIR {name : String} (h : Catalog.validRIR name = true) :
    Catalog.toUpper name = name := by
  have hal : ∀ r ∈ Catalog.rirServiceRegions, Catalog.toUpper r.1 = r.1 := by decide +kernel
  obtain ⟨r, hr, heq⟩ := any_eq_true.mp h
  rw [← beq_iff_eq.mp heq]
  exact hal r hr

theorem Policy.canonicalSelector_canonical {kind : SelectorKind} {v : String} {s : Selector}
    (h : canonicalSelector kind v = .ok s) : canonicalSelector s.kind s.value = .ok s := by
  cases kind with
  | country =>
    simp only [canonicalSelector] at h
    split at h
    · rename_i hv
      cases h
      simp [canonicalSelector, Catalog.toUpper_of_validCountry hv, hv]
    · cases h
  | rir =>
    simp only [canonicalSelector] at h
    split at h
    · rename_i hv
      cases h
      simp [canonicalSelector, Catalog.toUpper_of_validRIR hv, hv]
    · cases h
  | asn | ipList | provider =>
    simp only [canonicalSelector] at h
    split at h
    · rename_i hv
      cases h
      simp [canonicalSelector, hv]
    · cases h

/-- **The required selectors** are canonical, and each is listed once. -/
theorem Policy.requiredSelectors_spec {cfg : Config} {req : List Selector}
    (h : requiredSelectors cfg = .ok req) :
    req.Nodup ∧ ∀ s ∈ req, canonicalSelector s.kind s.value = .ok s := by
  obtain ⟨hrea, hread⟩ := requiredSelectors_reads h
  obtain ⟨ss, -, h⟩ := bind_eq_ok.mp h
  refine ⟨?_, fun s hs => ?_⟩
  · rw [← pure_eq_ok.mp h]
    exact (sortSlice_perm _ _).nodup_iff.mpr (nodup_dedup _)
  · obtain ⟨p, hp, hen, hse⟩ := hread s hs
    obtain ⟨inc, exc, hin, hexc, -⟩ := hrea p hp hen
    obtain ⟨_, _, hc⟩ := hse.elim (·.canonical (selectorKeys_eq_ok hin).1)
      (·.canonical (selectorKeys_eq_ok hexc).1)
    exact canonicalSelector_canonical hc

theorem Policy.Selector.less_iff {a b : Selector} :
    a.less b = true ↔ toLex (a.kind.text, a.value) < toLex (b.kind.text, b.value) := by
  have htext : ∀ k l : SelectorKind, k.text = l.text → k = l := by
    intro k l
    cases k <;> cases l <;> decide
  rw [Selector.less, Prod.Lex.toLex_lt_toLex]
  by_cases hk : a.kind = b.kind
  · simp [hk]
  · have hte : a.kind.text ≠ b.kind.text := fun h => hk (htext _ _ h)
    simp [hk, hte]

theorem Policy.Selector.less_trans {a b c : Selector} (hab : a.less b = true)
    (hbc : b.less c = true) : a.less c = true :=
  less_iff.mpr ((less_iff.mp hab).trans (less_iff.mp hbc))

theorem Policy.Selector.less_irrefl (a : Selector) : a.less a = false := by
  rw [Bool.eq_false_iff, ne_eq, less_iff]
  exact lt_irrefl _

namespace Source

/-! ## Records -/

variable {rc c o : Record} {tx : Texts}

theorem normalizeFamilies_eq_ok (h : normalizeFamilies rc = .ok c) :
    ∃ v4 v6, normalizeFamily rc.ipv4 .ipv4 = .ok v4 ∧ normalizeFamily rc.ipv6 .ipv6 = .ok v6 ∧
      c = { rc with ipv4 := v4, ipv6 := v6 } := by
  obtain ⟨v4, h4, h⟩ := bind_eq_ok.mp h
  obtain ⟨v6, h6, h⟩ := bind_eq_ok.mp h
  exact ⟨v4, v6, mapError_eq_ok.mp h4, mapError_eq_ok.mp h6, (pure_eq_ok.mp h).symm⟩

theorem canonicalBinding_canonical {b c : Binding} (h : canonicalBinding b = .ok c) :
    canonicalBinding c = .ok c := by
  rw [canonicalBinding] at h
  split at h
  · rename_i ht
    obtain ⟨⟨⟩, hv, h⟩ := bind_eq_ok.mp h
    cases pure_eq_ok.mp h
    simp [canonicalBinding, ht, mapError_eq_ok.mp hv, Except.mapError, bind, Except.bind, pure,
      Except.pure]
  · cases h
  · obtain ⟨-, h⟩ := ite_throw_eq_ok.mp h
    cases h
    rfl

/-- The source kind of a canonical record: RIPEstat leaves it empty. -/
def SourceKind.canonical (k : SourceKind) : SourceKind := if k = .ripestat then .unset else k

/-- What a canonical record has in common with the record it comes from. -/
structure CanonicalOf (texts : Texts) (record c : Record) : Prop where
  selector : canonicalSelector record.selector.kind record.selector.value = .ok c.selector
  transport : canonicalBinding record.transport = .ok c.transport
  ipv4 : normalizeFamily record.ipv4 .ipv4 = .ok c.ipv4
  ipv6 : normalizeFamily record.ipv6 .ipv6 = .ok c.ipv6
  kept : c = { record with
    selector := c.selector, transport := c.transport, ipv4 := c.ipv4, ipv6 := c.ipv6
    sourceKind := record.sourceKind.canonical }

theorem canonicalText_eq_ok {exp : SelectorKind} {label : String} {check : Except String Unit}
    (h : canonicalText tx rc exp label check = .ok c) :
    normalizeFamilies rc = .ok c ∧ rc.selector.kind = exp ∧
      rc.sourceName = rc.selector.value ∧
      (exp = .provider → providerEndpoint rc.selector.value = .ok rc.endpoint) := by
  rw [canonicalText] at h
  obtain ⟨⟨⟩, -, h⟩ := bind_eq_ok.mp h
  obtain ⟨hki, h⟩ := guard_eq_ok.mp h
  obtain ⟨-, h⟩ := guard_eq_ok.mp h
  obtain ⟨hpr, h⟩ := guard_eq_ok.mp h
  obtain ⟨⟨⟩, -, h⟩ := bind_eq_ok.mp h
  obtain ⟨-, h⟩ := guard_eq_ok.mp h
  obtain ⟨⟨⟩, -, h⟩ := bind_eq_ok.mp h
  rw [not_or, not_not, not_not] at hki
  exact ⟨h, hki.1, hki.2, fun hp => not_not.mp fun hne => hpr ⟨hp, hne⟩⟩

theorem canonicalRIPE_eq_ok (h : canonicalRIPE rc = .ok c) :
    normalizeFamilies { rc with sourceKind := .unset } = .ok c ∧ rc.sourceName = "" ∧
      rc.transport.type = .unset ∧ ∃ url version pars,
        ripeRequestFor rc.selector = .ok (url, version, pars) ∧
        rc.endpoint = url ∧ rc.apiVersion = version := by
  rw [canonicalRIPE] at h
  obtain ⟨hna, h⟩ := guard_eq_ok.mp h
  obtain ⟨hty, h⟩ := guard_eq_ok.mp h
  obtain ⟨⟨url, version, pars⟩, hre, h⟩ := bind_eq_ok.mp h
  obtain ⟨hen, h⟩ := guard_eq_ok.mp h
  obtain ⟨-, h⟩ := guard_eq_ok.mp h
  obtain ⟨⟨⟩, -, h⟩ := bind_eq_ok.mp h
  obtain ⟨⟨⟩, -, h⟩ := bind_eq_ok.mp h
  obtain ⟨⟨⟩, -, h⟩ := bind_eq_ok.mp h
  obtain ⟨-, h⟩ := guard_eq_ok.mp h
  obtain ⟨-, h⟩ := guard_eq_ok.mp h
  obtain ⟨-, h⟩ := guard_eq_ok.mp h
  rw [not_or, not_not, not_not] at hen
  exact ⟨h, not_not.mp hna, not_not.mp hty, url, version, pars, hre, hen⟩

/-- **What `canonicalRecord` replaces**, whatever the source. -/
theorem canonicalOf_of_eq_ok (h : canonicalRecord tx rc = .ok c) : CanonicalOf tx rc c := by
  rw [canonicalRecord] at h
  obtain ⟨selector, hse, h⟩ := bind_eq_ok.mp h
  obtain ⟨transport, htr, h⟩ := bind_eq_ok.mp h
  obtain ⟨-, h⟩ := guard_eq_ok.mp h
  have hf : ∀ kind, kind = rc.sourceKind.canonical →
      normalizeFamilies { rc with
        selector := selector, transport := transport, sourceKind := kind } = .ok c →
      CanonicalOf tx rc c := by
    rintro _ rfl hn
    obtain ⟨v4, v6, h4, h6, rfl⟩ := normalizeFamilies_eq_ok hn
    exact ⟨hse, htr, h4, h6, rfl⟩
  cases hk : rc.sourceKind with
  | dbipLite =>
    simp only [hk] at h
    obtain ⟨⟨⟩, -, h⟩ := bind_eq_ok.mp h
    exact hf .dbipLite (by rw [hk]; rfl) (by rw [← h, ← hk])
  | ipList =>
    simp only [hk] at h
    exact hf .ipList (by rw [hk]; rfl) (by rw [← (canonicalText_eq_ok h).1, ← hk])
  | provider =>
    simp only [hk] at h
    exact hf .provider (by rw [hk]; rfl) (by rw [← (canonicalText_eq_ok h).1, ← hk])
  | unset =>
    simp only [hk] at h
    exact hf .unset (by rw [hk]; rfl) (canonicalRIPE_eq_ok h).1
  | ripestat =>
    simp only [hk] at h
    exact hf .unset (by rw [hk]; rfl) (canonicalRIPE_eq_ok h).1
  | other text =>
    simp only [hk] at h
    cases h

/-- A record that is its own canonical form, if it has one. -/
structure Settled (c : Record) : Prop where
  selector : canonicalSelector c.selector.kind c.selector.value = .ok c.selector
  transport : canonicalBinding c.transport = .ok c.transport
  ipv4 : normalizeFamily c.ipv4 .ipv4 = .ok c.ipv4
  ipv6 : normalizeFamily c.ipv6 .ipv6 = .ok c.ipv6
  kind : c.sourceKind ≠ .ripestat

theorem Settled.eq {d : Record} (hc : Settled c) (h : canonicalRecord tx c = .ok d) : d = c := by
  obtain ⟨hs, ht, h4, h6, hke⟩ := canonicalOf_of_eq_ok h
  have hki : c.sourceKind.canonical = c.sourceKind := if_neg hc.kind
  rw [hke, ← Except.ok.inj (hc.selector.symm.trans hs), ← Except.ok.inj (hc.transport.symm.trans ht),
    ← Except.ok.inj (hc.ipv4.symm.trans h4), ← Except.ok.inj (hc.ipv6.symm.trans h6), hki]

theorem CanonicalOf.settled (h : CanonicalOf tx o c)
    (h4 : normalizeFamily c.ipv4 .ipv4 = .ok c.ipv4)
    (h6 : normalizeFamily c.ipv6 .ipv6 = .ok c.ipv6) : Settled c where
  selector := canonicalSelector_canonical h.selector
  transport := canonicalBinding_canonical h.transport
  ipv4 := h4
  ipv6 := h6
  kind := by
    rw [h.kept]
    change o.sourceKind.canonical ≠ _
    rw [SourceKind.canonical]
    split
    · exact nofun
    · assumption

/-! ## Loading and staging -/

theorem loadRecord_spec (h : loadRecord tx o = .ok c) :
    canonicalRecord tx o = .ok c ∧ c.selector = o.selector ∧ c.ipv4 = o.ipv4 ∧ c.ipv6 = o.ipv6 := by
  rw [loadRecord] at h
  obtain ⟨hse, h⟩ := guard_eq_ok.mp h
  obtain ⟨⟨⟩, -, h⟩ := bind_eq_ok.mp h
  obtain ⟨d, hd, h⟩ := bind_eq_ok.mp h
  obtain ⟨hp, h⟩ := guard_eq_ok.mp h
  cases pure_eq_ok.mp h
  rw [not_or, not_not, not_not] at hp
  exact ⟨hd, Except.ok.inj ((canonicalOf_of_eq_ok hd).selector.symm.trans (not_not.mp hse)), hp⟩

theorem loadRecord_prefixes (h : loadRecord tx o = .ok c) :
    normalizeFamily o.ipv4 .ipv4 = .ok o.ipv4 ∧ normalizeFamily o.ipv6 .ipv6 = .ok o.ipv6 := by
  obtain ⟨hc, -, h4, h6⟩ := loadRecord_spec h
  have hof := canonicalOf_of_eq_ok hc
  exact ⟨hof.ipv4.trans (congrArg _ h4), hof.ipv6.trans (congrArg _ h6)⟩

theorem loadRecord_settled (h : loadRecord tx o = .ok c) : Settled c := by
  obtain ⟨hc, -, h4, h6⟩ := loadRecord_spec h
  obtain ⟨hn4, hn6⟩ := loadRecord_prefixes h
  exact (canonicalOf_of_eq_ok hc).settled (h4 ▸ hn4) (h6 ▸ hn6)

theorem loadRecords_spec : ∀ {i : Nat} {stored rcs : List Record},
    loadRecords tx i stored = .ok rcs →
      List.Forall₂ (fun o c => loadRecord tx o = .ok c) stored rcs
  | _, [], rcs, h => by
    cases h
    exact .nil
  | i, o :: rest, rcs, h => by
    rw [loadRecords] at h
    obtain ⟨c, hc, h⟩ := bind_eq_ok.mp h
    obtain ⟨cs, hcs, h⟩ := bind_eq_ok.mp h
    rw [← pure_eq_ok.mp h]
    exact .cons (mapError_eq_ok.mp hc) (loadRecords_spec hcs)

theorem canonicalLoop_spec : ∀ {i : Nat} {seen : List Selector}
    {rcs canonical : List Record}, canonicalLoop tx i seen rcs = .ok canonical →
      List.Forall₂ (fun o c => canonicalRecord tx o = .ok c) rcs canonical
  | _, _, [], canonical, h => by
    cases h
    exact .nil
  | i, seen, o :: rest, canonical, h => by
    rw [canonicalLoop] at h
    obtain ⟨c, hc, h⟩ := bind_eq_ok.mp h
    obtain ⟨-, h⟩ := guard_eq_ok.mp h
    obtain ⟨cs, hcs, h⟩ := bind_eq_ok.mp h
    rw [← pure_eq_ok.mp h]
    exact .cons (mapError_eq_ok.mp hc) (canonicalLoop_spec hcs)

/-- What a snapshot that has been loaded is like. -/
structure Loaded (texts : Texts) (s : Snapshot) : Prop where
  canonical : ∀ c ∈ s.records, ∃ o, canonicalRecord texts o = .ok c
  settled : ∀ c ∈ s.records, Settled c
  distinct : (s.records.map (·.selector)).Nodup
  batch : validateDBIPBatch s.records = .ok ()

theorem loadContent_spec {id : State.Manifest} {stored : List Record}
    {s : Snapshot} (h : loadContent tx id stored = .ok s) :
    Loaded tx s ∧ List.Forall₂ (fun o c => loadRecord tx o = .ok c) stored s.records := by
  rw [loadContent] at h
  obtain ⟨⟨⟩, hch, h⟩ := bind_eq_ok.mp h
  obtain ⟨records, hre, h⟩ := bind_eq_ok.mp h
  obtain ⟨⟨⟩, hba, h⟩ := bind_eq_ok.mp h
  obtain ⟨compiled, -, h⟩ := bind_eq_ok.mp h
  cases pure_eq_ok.mp h
  have hal := loadRecords_spec hre
  refine ⟨⟨fun c hc => ?_, fun c hc => ?_, ?_, hba⟩, hal⟩
  · obtain ⟨o, -, ho⟩ := forall₂_exists_left hal hc
    exact ⟨o, (loadRecord_spec ho).1⟩
  · obtain ⟨o, -, ho⟩ := forall₂_exists_left hal hc
    exact loadRecord_settled ho
  · -- the stored selectors are strictly sorted, and loading keeps them
    rw [checkManifest, ite_throw_eq_ok, ite_throw_eq_ok, not_not] at hch
    have htr : IsTrans Record fun a b => a.selector.less b.selector = true :=
      ⟨fun _ _ _ => Selector.less_trans⟩
    have hso := isChain_iff_pairwise.mp hch.2.1
    change (records.map (·.selector)).Nodup
    rw [← forall₂_map_eq hal fun _ _ _ ho => (loadRecord_spec ho).2.1.symm]
    refine pairwise_map.mpr (hso.imp fun {a b} hab heq => ?_)
    rw [heq, Selector.less_irrefl] at hab
    cases hab

/-- A snapshot as it is handed out: the empty one, or one that was loaded. -/
inductive Issued (texts : Texts) : Snapshot → Prop
  | empty : Issued texts {}
  | loaded {id : State.Manifest} {stored : List Record} {s : Snapshot}
      (h : loadContent texts id stored = .ok s) : Issued texts s

theorem Issued.isLoaded {s : Snapshot} (h : Issued tx s) : Loaded tx s := by
  cases h with
  | empty => exact ⟨by simp, by simp, nodup_nil, rfl⟩
  | loaded h => exact (loadContent_spec h).1

theorem Cache.load_spec {cache : Cache} {id : State.Manifest} {s : Snapshot}
    (h : cache.load tx id = .ok s) : Issued tx s := by
  rw [Cache.load] at h
  split at h
  · cases h
  · exact .loaded (mapError_eq_ok.mp h)

/-- **A staged snapshot** holds the canonical forms of what was staged. -/
theorem Cache.stage_spec {cache : Cache} {disk : Option String}
    {rcs : List Record} {s : Snapshot} (h : cache.stage tx disk rcs = .ok s)
    (hne : rcs ≠ []) : Issued tx s ∧ ∃ canonical,
      List.Forall₂ (fun o c => canonicalRecord tx o = .ok c) rcs canonical ∧
      s.records.Perm canonical := by
  rw [Cache.stage, if_neg hne, ite_throw_eq_ok] at h
  obtain ⟨sorted, hso, h⟩ := bind_eq_ok.mp h.2
  obtain ⟨⟨⟩, -, h⟩ := bind_eq_ok.mp h
  obtain ⟨⟨⟩, -, h⟩ := bind_eq_ok.mp h
  split at h
  · cases h
  obtain ⟨canonical, hca, hsor⟩ := bind_eq_ok.mp hso
  rw [← pure_eq_ok.mp hsor] at h
  have hal := canonicalLoop_spec hca
  refine ⟨.loaded h, canonical, hal, ?_⟩
  -- loading does not change a record that is canonical already
  have hsa := forall₂_map_eq (f := id) (g := id) (loadContent_spec h).2 fun o ho c hc => by
    obtain ⟨raw, -, hra⟩ := forall₂_exists_left hal (mem_sortSlice.mp ho)
    obtain ⟨hn4, hn6⟩ := loadRecord_prefixes hc
    exact (((canonicalOf_of_eq_ok hra).settled hn4 hn6).eq (loadRecord_spec hc).1).symm
  rw [map_id, map_id] at hsa
  rw [← hsa]
  exact sortSlice_perm _ _

end Source

end Perimeterd
