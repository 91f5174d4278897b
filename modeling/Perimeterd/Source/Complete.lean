import Perimeterd.Source.Fetched
import Perimeterd.Source.Issued

/-!
# Resolution is all or nothing

Every snapshot `Resolve` returns is complete: it holds exactly the required selectors, each record
is of the source the configuration names, and it was either fetched by this call or is the committed
one. `Complete` is the whole statement; `resolve_complete` proves it for every configuration, every
committed manifest and everything a call may meet.

The ways a snapshot comes about differ only in the records they start from, so each of them is
reduced to facts about a list of records, which canonicalization keeps.
-/

namespace Perimeterd.Source

open Lib Policy State List

/-! ## Releases -/

/-- The month of a release, counted from the year 0. -/
def releaseMonth (release : String) : Nat :=
  match release.toList with
  | [a, b, c, d, _, e, f] => 12 * Catalog.decimal [a, b, c, d] + Catalog.decimal [e, f]
  | _ => 0

theorem isDigit_bounds {c : Char} (h : c.isDigit = true) : 48 ≤ c.toNat ∧ c.toNat ≤ 57 := by
  simpa [Char.isDigit, UInt32.le_iff_toNat_le] using h

theorem validRelease_parts {s : String} (h : validRelease s = true) :
    ∃ a b c d e f : Char, s.toList = [a, b, c, d, '-', e, f] ∧
      (∀ x ∈ [a, b, c, d, e, f], 48 ≤ x.toNat ∧ x.toNat ≤ 57) ∧
      1 ≤ Catalog.decimal [e, f] ∧ Catalog.decimal [e, f] ≤ 12 := by
  rw [validRelease] at h
  split at h
  · rename_i a b c d e f heq
    simp only [Bool.and_eq_true, decide_eq_true_eq] at h
    obtain ⟨⟨⟨hd, -⟩, hlo⟩, hhi⟩ := h
    exact ⟨a, b, c, d, e, f, heq, fun x hx => isDigit_bounds (all_eq_true.mp hd x hx),
      hlo, hhi⟩
  · cases h

theorem releaseMonth_le {s t : String} (hs : validRelease s = true) (ht : validRelease t = true)
    (hle : ¬ s < t) : releaseMonth t ≤ releaseMonth s := by
  obtain ⟨a, b, c, d, e, f, hsl, hsd, hsm⟩ := validRelease_parts hs
  obtain ⟨a', b', c', d', e', f', htl, htd, htm⟩ := validRelease_parts ht
  rw [String.lt_iff_toList_lt, hsl, htl] at hle
  simp only [releaseMonth, hsl, htl, Catalog.decimal, foldl_cons, foldl_nil] at hsm htm ⊢
  simp only [mem_cons, not_mem_nil, or_false, forall_eq_or_imp, forall_eq] at hsd htd
  -- everything is a statement about digits as numbers
  have heq : ∀ x y : Char, x = y ↔ x.toNat = y.toNat := fun x y => Char.toNat_inj.symm
  have hlt : ∀ x y : Char, x < y ↔ x.toNat < y.toNat := fun _ _ => Iff.rfl
  have hz : '0'.toNat = 48 := rfl
  simp only [cons_lt_cons_iff, and_false, or_false, lt_irrefl, hlt, heq, true_and,
    false_or] at hle
  omega

/-! ## Batches -/

theorem validateDBIPRecord_spec {record : Record} (h : validateDBIPRecord record = .ok ()) :
    record.sourceKind = .dbipLite ∧ record.sourceName = "" ∧
      record.apiVersion = dbipFormatVersion ∧ validRelease record.release = true ∧
      record.endpoint = dbipEndpoint record.release := by
  rw [validateDBIPRecord, ite_throw_eq_ok, ite_throw_eq_ok, ite_throw_eq_ok, ite_throw_eq_ok] at h
  obtain ⟨-, hso, hre, hen, -⟩ := h
  simp only [not_or, not_not] at hso
  exact ⟨hso.1, hso.2.1, hso.2.2, by simpa using hre, not_not.mp hen⟩

theorem validateBatchLoop_spec : ∀ {i : Nat} {first : Option Record} {prov : Option SourceKind}
    {rcs : List Record}, validateBatchLoop i first prov rcs = .ok () →
      ∃ art, (∀ f, first = some f → f.artifact = art) ∧ ∀ record ∈ rcs,
        record.sourceKind = .dbipLite →
          record.artifact = art ∧ validateDBIPRecord record = .ok ()
  | _, first, _, [], _ =>
    match first with
    | none => ⟨("", "", 0), by simp, by simp⟩
    | some f => ⟨f.artifact, by simp, by simp⟩
  | i, first, prov, record :: rest, h => by
    rw [validateBatchLoop] at h
    obtain ⟨-, h⟩ := guard_eq_ok.mp h
    by_cases hk : record.sourceKind = .dbipLite
    · rw [if_neg (not_not.mpr hk)] at h
      obtain ⟨⟨⟩, hva, h⟩ := bind_eq_ok.mp h
      obtain ⟨hsa, h⟩ := guard_eq_ok.mp h
      obtain ⟨art, har, hrest⟩ := validateBatchLoop_spec h
      have hfirst := har _ rfl
      have hre : record.artifact = art := by
        cases first with
        | none => exact hfirst
        | some f =>
          have heq : f.artifact = record.artifact := by simpa using hsa
          exact heq.symm.trans hfirst
      refine ⟨art, ?_, ?_⟩
      · rintro f rfl
        exact hfirst
      · rintro x hx hxk
        rcases mem_cons.mp hx with rfl | hx
        · exact ⟨hre, mapError_eq_ok.mp hva⟩
        · exact hrest x hx hxk
    · rw [if_pos hk] at h
      obtain ⟨art, har, hrest⟩ := validateBatchLoop_spec h
      refine ⟨art, har, ?_⟩
      rintro x hx hxk
      rcases mem_cons.mp hx with rfl | hx
      · exact absurd hxk hk
      · exact hrest x hx hxk

/-! ## Complete resolutions -/

section Resolver

variable {δ : Type} (r : Resolver δ) (env : Surroundings) (cfg : Config)

/-- The record is one of the committed manifest's. -/
def Committed (manifest : Option Manifest) (record : Record) : Prop :=
  ∃ id s, manifest = some id ∧ r.cache.load r.texts id = .ok s ∧ record ∈ s.records

/-- When the call looked at it, the record was not as old as its refresh interval. -/
def Young (record : Record) : Prop :=
  ∃ spec, describeSelector r.texts cfg record.selector = .ok spec ∧
    env.now record.selector - record.retrievedAt < spec.refreshInterval

/-- The fallback: it is allowed, the failed refresh is reported, and nothing is mixed in. -/
structure Fallback (manifest : Option Manifest) (allowStale : Bool) (res : Resolution) : Prop where
  allowed : allowStale = true
  reported : res.refreshError.isSome = true
  committed : ∀ record ∈ res.snapshot.records, Committed r manifest record

/-- **A complete resolution.** -/
structure Complete [DecidableEq δ] (manifest : Option Manifest) (allowStale : Bool)
    (required : List Selector) (res : Resolution) : Prop where
  selectors : (res.snapshot.records.map (·.selector)).Perm required
  compiles : required ≠ [] → ∃ state, compile r.fingerprint cfg res.snapshot.policy = .ok state
  source : ∀ record ∈ res.snapshot.records, ∃ spec, FromSource r cfg record spec
  origin : ∀ record ∈ res.snapshot.records, Fetched r env cfg record ∨
    Committed r manifest record ∧ (Young r env cfg record ∨ Fallback r manifest allowStale res)
  artifact : cfg.geo.effectiveCountryProvider = .dbipLite → ∀ a ∈ res.snapshot.records,
    ∀ b ∈ res.snapshot.records, a.selector.kind = .country → b.selector.kind = .country →
      a.artifact = b.artifact
  release : cfg.geo.effectiveCountryProvider = .dbipLite → ∀ record ∈ res.snapshot.records,
    record.selector.kind = .country → ¬ Committed r manifest record →
      ∀ old, Committed r manifest old → old.sourceKind = .dbipLite →
        releaseMonth old.release ≤ releaseMonth record.release

/-- A complete resolution whose snapshot was issued. -/
structure Handed [DecidableEq δ] (manifest : Option Manifest) (allowStale : Bool)
    (required : List Selector) (res : Resolution) : Prop
    extends Complete r env cfg manifest allowStale required res where
  issued : Issued r.texts res.snapshot

/-- What a call may return: an error and nothing else, or a complete resolution. -/
def AllOrNothing [DecidableEq δ] (manifest : Option Manifest) (allowStale : Bool)
    (required : List Selector) (x : Resolved) : Prop :=
  (x.2 ≠ none → x.1.snapshot = {} ∧ x.1.refreshError = none) ∧
    (x.2 = none → Handed r env cfg manifest allowStale required x.1)

end Resolver

section Facts

variable {δ : Type} {r : Resolver δ} {env : Surroundings} {cfg : Config}

/-! ## Committed records -/

variable {record : Record} {s : Selector} {tx : Texts} {spec : SelectorSpec}
  {expected : List (Selector × Binding)}

theorem canonicalRecord_ripe {o c : Record} (h : canonicalRecord tx o = .ok c)
    (hk : c.sourceKind = .unset) : c.sourceName = "" := by
  have hna : c.sourceName = o.sourceName := by rw [(canonicalOf_of_eq_ok h).kept]
  have hki : c.sourceKind = o.sourceKind.canonical := by rw [(canonicalOf_of_eq_ok h).kept]
  rw [hk] at hki
  rw [canonicalRecord] at h
  obtain ⟨selector, -, h⟩ := bind_eq_ok.mp h
  obtain ⟨transport, -, h⟩ := bind_eq_ok.mp h
  obtain ⟨-, h⟩ := guard_eq_ok.mp h
  rw [hna]
  cases ho : o.sourceKind with
  | unset =>
    simp only [ho] at h
    exact (canonicalRIPE_eq_ok h).2.1
  | ripestat =>
    simp only [ho] at h
    exact (canonicalRIPE_eq_ok h).2.1
  | ipList | provider | dbipLite | other text =>
    rw [ho] at hki
    cases hki

theorem expectedBindings_spec : ∀ {required : List Selector} {expected : List (Selector × Binding)},
    expectedBindings r cfg required = .ok expected → ∀ s b, expected.lookup s = some b →
      ∃ spec, describeSelector r.texts cfg s = .ok spec ∧
        bindingForRoute r.session spec.transport = .ok b
  | [], expected, h, s, b, hl => by
    cases h
    cases hl
  | selector :: rest, expected, h, s, b, hl => by
    rw [expectedBindings] at h
    split at h
    · exact expectedBindings_spec h s b hl
    · obtain ⟨spec, hsp, h⟩ := bind_eq_ok.mp h
      obtain ⟨binding, hbi, h⟩ := bind_eq_ok.mp h
      obtain ⟨others, ho, h⟩ := bind_eq_ok.mp h
      rw [← pure_eq_ok.mp h, lookup_cons] at hl
      by_cases heq : s = selector
      · subst heq
        rw [beq_self_eq_true] at hl
        cases hl
        exact ⟨spec, hsp, mapError_eq_ok.mp hbi⟩
      · rw [beq_eq_false_iff_ne.mpr heq] at hl
        exact expectedBindings_spec ho s b hl

theorem describeGeo_spec {sel : Selector}
    (h : describeSelector tx cfg sel = .ok spec) (hk : sel.kind = .country ∨ sel.kind = .asn) :
    spec.sourceName = "" ∧ ((sel.kind = .country ∧ spec.sourceKind = .dbipLite) ∧
      spec.apiVersion = dbipFormatVersion ∨ spec.sourceKind = .ripestat) := by
  rcases hk with hk | hk
  · simp only [describeSelector, hk] at h
    split at h <;> cases h
    · exact ⟨rfl, .inl ⟨⟨hk, rfl⟩, rfl⟩⟩
    · exact ⟨rfl, .inr rfl⟩
  · simp only [describeSelector, hk] at h
    cases h
    exact ⟨rfl, .inr rfl⟩

/-- **A committed record the configuration still means** is of its source. -/
theorem committed_fromSource {required : List Selector}
    {o : Record} (hexp : expectedBindings r cfg required = .ok expected)
    (hma : recordMatchesResolved r cfg expected record = true)
    (hca : canonicalRecord r.texts o = .ok record) : ∃ spec, FromSource r cfg record spec := by
  rw [recordMatchesResolved, Bool.and_eq_true] at hma
  obtain ⟨hco, hro⟩ := hma
  rw [recordMatchesConfig] at hco
  split at hco
  · cases hco
  rename_i spec hsp
  have hno : record.sourceKind ≠ .ripestat := by
    rw [(canonicalOf_of_eq_ok hca).kept]
    change o.sourceKind.canonical ≠ _
    cases o.sourceKind <;> exact fun h => by cases h
  refine ⟨spec, ?_⟩
  split at hco
  · -- an artifact's record is checked on its own
    rename_i hdb
    have hva : validateDBIPRecord record = .ok () := by
      cases hv : validateDBIPRecord record with
      | error e => rw [hv] at hco; cases hco
      | ok u => rfl
    obtain ⟨hk, hna, hve, -, hen⟩ := validateDBIPRecord_spec hva
    obtain ⟨hsn, ⟨-, hsv⟩ | hri⟩ := describeGeo_spec hsp (Or.inl hdb.1)
    swap
    · cases hdb.2.symm.trans hri
    refine ⟨⟨hsp, by rw [hk, hdb.2], hna.trans hsn.symm, hve.trans hsv.symm, ?_, ?_⟩, ?_⟩
    · exact fun hl => by rw [hdb.1] at hl; cases hl
    · exact fun hl => by rw [hdb.1] at hl; cases hl
    · rw [SelectorSpec.endpointFor, if_pos hdb.2, hen]
  · rename_i hdb
    split at hco
    · cases hco
    have hg : record.selector.kind = .country ∨ record.selector.kind = .asn →
        ((record.sourceKind = .unset ∨ record.sourceKind = spec.sourceKind) ∧
          record.endpoint = spec.endpoint) ∧ record.apiVersion = spec.apiVersion →
        FromSource r cfg record spec := by
      rintro hk ⟨⟨hki, hen⟩, hve⟩
      obtain ⟨hsn, ⟨hd, -⟩ | hsk⟩ := describeGeo_spec hsp hk
      · exact absurd hd hdb
      have hu : record.sourceKind = .unset := hki.resolve_right fun h => hno (h.trans hsk)
      have hli : record.selector.kind ≠ .ipList := by
        rcases hk with hk | hk <;> rw [hk] <;> decide
      refine ⟨⟨hsp, by rw [hu, hsk]; rfl, ?_, hve, fun hl => absurd hl hli,
        fun hl => absurd hl hli⟩, ?_⟩
      · rw [canonicalRecord_ripe hca hu, hsn]
      · rw [SelectorSpec.endpointFor, if_neg (by rw [hsk]; decide), hen]
    cases hk : record.selector.kind with
    | ipList =>
      simp only [hk, Bool.and_eq_true, decide_eq_true_eq] at hco
      obtain ⟨⟨⟨⟨⟨hki, hna⟩, hen⟩, hve⟩, hp⟩, -⟩ := hco
      rw [hk] at hro
      obtain ⟨spec', hs', hbi⟩ := expectedBindings_spec hexp record.selector record.transport
        (by simpa using hro)
      cases hsp.symm.trans hs'
      have hli := hsp
      rw [describeSelector, hk] at hli
      have hsk := (describeList_spec hli).1
      refine ⟨⟨hsp, by rw [hki], hna, hve, fun _ => hp, fun _ => hbi⟩, ?_⟩
      rw [SelectorSpec.endpointFor, if_neg (by rw [hsk]; decide), hen]
    | provider =>
      simp only [hk, Bool.and_eq_true, decide_eq_true_eq] at hco
      obtain ⟨⟨⟨⟨hki, hna⟩, hen⟩, hve⟩, -⟩ := hco
      have hsk := (describeProvider_spec hsp hk).2.1
      refine ⟨⟨hsp, by rw [hki], hna, hve, ?_, ?_⟩, ?_⟩
      · exact fun hl => by rw [hk] at hl; cases hl
      · exact fun hl => by rw [hk] at hl; cases hl
      · rw [SelectorSpec.endpointFor, if_neg (by rw [hsk]; decide), hen]
    | country =>
      simp only [hk, Bool.and_eq_true, Bool.or_eq_true, decide_eq_true_eq] at hco
      exact hg (Or.inl hk) hco.1
    | asn =>
      simp only [hk, Bool.and_eq_true, Bool.or_eq_true, decide_eq_true_eq] at hco
      exact hg (Or.inr hk) hco.1
    | rir =>
      simp only [hk] at hco
      cases hco

/-! ## Reused records -/

theorem usable_some {comm : List Record} (h : usable r cfg expected comm s = some record) :
    record ∈ comm ∧ record.selector = s ∧ recordMatchesResolved r cfg expected record = true := by
  obtain ⟨hf, hma⟩ := Option.filter_eq_some_iff.mp h
  obtain ⟨hmem, hse⟩ := findRecord_some hf
  exact ⟨hmem, hse, hma⟩

theorem selectorTiming_spec {interval : Config.Duration}
    (h : selectorTiming r cfg s = .ok interval) :
    ∃ spec, describeSelector r.texts cfg s = .ok spec ∧ spec.refreshInterval = interval := by
  obtain ⟨⟨a, b⟩, -, h⟩ := bind_eq_ok.mp h
  obtain ⟨⟨⟩, -, h⟩ := bind_eq_ok.mp h
  obtain ⟨spec, hsp, h⟩ := bind_eq_ok.mp h
  exact ⟨spec, hsp, pure_eq_ok.mp h⟩

theorem fresh_some {comm : List Record} (h : fresh r env cfg expected comm s = some record) :
    usable r cfg expected comm s = some record ∧ Young r env cfg record := by
  obtain ⟨hu, hf⟩ := Option.filter_eq_some_iff.mp h
  refine ⟨hu, ?_⟩
  split at hf
  · rename_i interval hti
    obtain ⟨spec, hsp, rfl⟩ := selectorTiming_spec hti
    rw [recordFresh, Bool.and_eq_true, decide_eq_true_eq] at hf
    obtain ⟨-, rfl, -⟩ := usable_some hu
    exact ⟨spec, hsp, hf.2⟩
  · cases hf

theorem filterMap_sublist {f : Selector → Option Record}
    (hf : ∀ s record, f s = some record → record.selector = s) : ∀ required : List Selector,
    ((required.filterMap f).map (·.selector)).Sublist required
  | [] => .slnil
  | s :: rest => by
    cases hs : f s with
    | none =>
      rw [filterMap_cons_none hs]
      exact (filterMap_sublist hf rest).cons s
    | some record =>
      rw [filterMap_cons_some hs, map_cons, hf s record hs]
      exact (filterMap_sublist hf rest).cons_cons s

/-- **The reused records** are committed, still meant and not due. -/
theorem reused_spec (r : Resolver δ) (env : Surroundings) (cfg : Config)
    (expected : List (Selector × Binding)) (comm : List Record) (required : List Selector) :
    ((reused r env cfg expected comm required).map (·.selector)).Sublist required ∧
      ∀ record ∈ reused r env cfg expected comm required,
        ∃ s, fresh r env cfg expected comm s = some record := by
  have hal : ∀ record ∈ required.filterMap (fresh r env cfg expected comm),
      ∃ s, fresh r env cfg expected comm s = some record := by
    intro record hre
    obtain ⟨s, -, hs⟩ := mem_filterMap.mp hre
    exact ⟨s, hs⟩
  have hsu := filterMap_sublist (f := fresh r env cfg expected comm)
    (fun s record h => (usable_some (fresh_some h).1).2.1) required
  rw [reused]
  split
  · refine ⟨(filter_sublist.map _).trans hsu, fun record hre => ?_⟩
    exact hal record (mem_of_mem_filter hre)
  · exact ⟨hsu, hal⟩

/-! ## Assembling a resolution -/

/-- What `resolve` has established before it looks for records. -/
structure Prepared (r : Resolver δ) (cfg : Config) (manifest : Option Manifest)
    (required : List Selector) (committed : Snapshot) (expected : List (Selector × Binding)) :
    Prop where
  nodup : required.Nodup
  canonical : ∀ s ∈ required, canonicalSelector s.kind s.value = .ok s
  nonempty : required ≠ []
  issued : Issued r.texts committed
  named : ∀ record, record ∈ committed.records ↔ Committed r manifest record
  bindings : expectedBindings r cfg required = .ok expected

variable {manifest : Option Manifest} {allowStale : Bool} {required : List Selector}
  {comm : Snapshot} {expected : List (Selector × Binding)}

theorem Prepared.of_load (hno : required.Nodup)
    (hc : ∀ s ∈ required, canonicalSelector s.kind s.value = .ok s)
    (hne : required ≠ []) (hl : loadCommitted r manifest = .ok comm)
    (hbi : expectedBindings r cfg required = .ok expected) :
    Prepared r cfg manifest required comm expected := by
  cases manifest with
  | none =>
    cases hl
    have hempty : ∀ record, record ∉ ({} : Snapshot).records := fun _ => not_mem_nil
    refine ⟨hno, hc, hne, ?_, fun record => ⟨fun h => absurd h (hempty record), ?_⟩,
      hbi⟩
    · exact .empty
    · rintro ⟨id, s, hid, -⟩
      cases hid
  | some id =>
    have hl' := mapError_eq_ok.mp hl
    refine ⟨hno, hc, hne, Cache.load_spec hl', fun record => ⟨?_, ?_⟩, hbi⟩
    · exact fun h => ⟨id, comm, rfl, hl', h⟩
    · rintro ⟨id', s, hid, hs, hre⟩
      cases hid
      cases hl'.symm.trans hs
      exact hre

theorem Prepared.records_ne_nil (hp : Prepared r cfg manifest required comm expected)
    {rcs : List Record} (hse : rcs.map (·.selector) = required) : rcs ≠ [] := by
  rintro rfl
  exact hp.nonempty hse.symm

theorem Prepared.of_usable (hp : Prepared r cfg manifest required comm expected)
    (h : usable r cfg expected comm.records s = some record) :
    Committed r manifest record ∧ record.selector = s ∧ Settled record ∧
      ∃ spec, FromSource r cfg record spec := by
  obtain ⟨hmem, hse, hma⟩ := usable_some h
  obtain ⟨o, ho⟩ := hp.issued.isLoaded.canonical record hmem
  exact ⟨(hp.named record).mp hmem, hse, hp.issued.isLoaded.settled record hmem,
    committed_fromSource hp.bindings hma ho⟩

theorem FromSource.dbip (h : FromSource r cfg record spec)
    (hp : cfg.geo.effectiveCountryProvider = .dbipLite)
    (hk : record.selector.kind = .country) : record.sourceKind = .dbipLite := by
  have hsp := h.described
  simp only [describeSelector, hk, if_pos hp] at hsp
  have hki := h.kind
  cases hsp
  cases hr : record.sourceKind with
  | dbipLite => rfl
  | unset | ripestat | ipList | provider | other text =>
    rw [hr] at hki
    cases hki

section Compiling

variable [DecidableEq δ] {res : Resolution}

/-- **What is left to show** of a snapshot that has been loaded and compiles. -/
theorem Prepared.complete (hp : Prepared r cfg manifest required comm expected)
    (hi : Issued r.texts res.snapshot) (hse : (res.snapshot.records.map (·.selector)).Perm required)
    (hc : ∃ state, compile r.fingerprint cfg res.snapshot.policy = .ok state)
    (hso : ∀ record ∈ res.snapshot.records, ∃ spec, FromSource r cfg record spec)
    (hor : ∀ record ∈ res.snapshot.records, Fetched r env cfg record ∨
      Committed r manifest record ∧ (Young r env cfg record ∨ Fallback r manifest allowStale res))
    (hrel : ∀ record ∈ res.snapshot.records, record.sourceKind = .dbipLite →
      ¬ Committed r manifest record → ∀ old ∈ comm.records, old.sourceKind = .dbipLite →
        ¬ record.release < old.release) : Handed r env cfg manifest allowStale required res := by
  obtain ⟨art, -, har⟩ := validateBatchLoop_spec hi.isLoaded.batch
  obtain ⟨art', -, har'⟩ := validateBatchLoop_spec hp.issued.isLoaded.batch
  have hd : cfg.geo.effectiveCountryProvider = .dbipLite → ∀ record ∈ res.snapshot.records,
      record.selector.kind = .country → record.sourceKind = .dbipLite := by
    intro hpr record hre hk
    obtain ⟨spec, hsp⟩ := hso record hre
    exact hsp.dbip hpr hk
  refine ⟨⟨hse, fun _ => hc, hso, hor, ?_, ?_⟩, hi⟩
  · intro hpr a ha b hb hka hkb
    rw [(har a ha (hd hpr a ha hka)).1, (har b hb (hd hpr b hb hkb)).1]
  · intro hpr record hre hk hnew old hold ho
    have hki := hd hpr record hre hk
    have hmem := (hp.named old).mpr hold
    obtain ⟨-, -, -, hva, -⟩ := validateDBIPRecord_spec (har record hre hki).2
    obtain ⟨-, -, -, hv', -⟩ := validateDBIPRecord_spec (har' old hmem ho).2
    exact releaseMonth_le hva hv' (hrel record hre hki hnew old hmem ho)

theorem stageRecords_spec {rcs : List Record} {snap : Snapshot}
    (h : stageRecords r env cfg rcs = .ok snap) (hne : rcs ≠ []) :
    Issued r.texts snap ∧ (∃ state, compile r.fingerprint cfg snap.policy = .ok state) ∧
      ∃ canonical, List.Forall₂ (fun o c => canonicalRecord r.texts o = .ok c) rcs canonical ∧
        snap.records.Perm canonical := by
  obtain ⟨staged, hst, h⟩ := bind_eq_ok.mp h
  obtain ⟨state, hc, h⟩ := bind_eq_ok.mp h
  cases pure_eq_ok.mp h
  obtain ⟨hl, hal⟩ := Cache.stage_spec hst hne
  exact ⟨hl, ⟨state, mapError_eq_ok.mp hc⟩, hal⟩

/-- **A staged resolution** is complete if what was staged is of its sources. -/
theorem Prepared.staged (hp : Prepared r cfg manifest required comm expected) {rcs : List Record}
    (hst : stageRecords r env cfg rcs = .ok res.snapshot)
    (hse : rcs.map (·.selector) = required) (hso : ∀ o ∈ rcs, Sourced r cfg o)
    (hori : ∀ o ∈ rcs, ∀ c, canonicalRecord r.texts o = .ok c → Fetched r env cfg c ∨
      Committed r manifest c ∧ (Young r env cfg c ∨ Fallback r manifest allowStale res))
    (hre : ∀ o ∈ rcs, ∀ c, canonicalRecord r.texts o = .ok c →
      c.sourceKind = .dbipLite → ¬ Committed r manifest c → ∀ old ∈ comm.records,
        old.sourceKind = .dbipLite → ¬ c.release < old.release) :
    Handed r env cfg manifest allowStale required res := by
  obtain ⟨hl, hco, canonical, hal, hpe⟩ := stageRecords_spec hst (hp.records_ne_nil hse)
  -- staging does not move a canonical selector
  have hke : ∀ o ∈ rcs, ∀ c, canonicalRecord r.texts o = .ok c → c.selector = o.selector := by
    intro o ho c hc
    have hca := hp.canonical o.selector (hse ▸ mem_map_of_mem ho)
    exact (Except.ok.inj (hca.symm.trans (canonicalOf_of_eq_ok hc).selector)).symm
  have hor : ∀ c ∈ res.snapshot.records, ∃ o ∈ rcs, canonicalRecord r.texts o = .ok c :=
    fun c hc => forall₂_exists_left hal (hpe.mem_iff.mp hc)
  refine hp.complete hl ?_ hco ?_ ?_ ?_
  · rw [← hse, forall₂_map_eq hal fun o ho c hc => (hke o ho c hc).symm]
    exact hpe.map _
  · intro c hc
    obtain ⟨o, ho, hoc⟩ := hor c hc
    obtain ⟨spec, hsp, hen⟩ := hso o ho
    exact ⟨spec, hsp.canonical hen hoc (hke o ho c hoc)⟩
  · intro c hc
    obtain ⟨o, ho, hoc⟩ := hor c hc
    exact hori o ho c hoc
  · intro c hc
    obtain ⟨o, ho, hoc⟩ := hor c hc
    exact hre o ho c hoc

/-- **The committed snapshot as a whole**, when it has just the required selectors. -/
theorem Prepared.whole (hp : Prepared r cfg manifest required comm expected)
    (hres : res.snapshot = comm)
    (hc : ∀ s ∈ required, ∃ record, usable r cfg expected comm.records s = some record)
    (hl : comm.records.length = required.length)
    (hco : ∃ state, compile r.fingerprint cfg comm.policy = .ok state)
    (ho : ∀ s record, s ∈ required → usable r cfg expected comm.records s = some record →
      Young r env cfg record ∨ Fallback r manifest allowStale res) :
    Handed r env cfg manifest allowStale required res := by
  subst hres
  have hsu : required ⊆ res.snapshot.records.map (·.selector) := by
    intro s hs
    obtain ⟨record, hre⟩ := hc s hs
    obtain ⟨hmem, hse, -⟩ := usable_some hre
    exact mem_map.mpr ⟨record, hmem, hse⟩
  have hpe : required.Perm (res.snapshot.records.map (·.selector)) :=
    (subperm_of_subset hp.nodup hsu).perm_of_length_le (by simp [hl])
  -- every record is the one its selector stands for
  have hal : ∀ record ∈ res.snapshot.records, record.selector ∈ required ∧
      usable r cfg expected res.snapshot.records record.selector = some record := by
    intro record hre
    have hs := hpe.mem_iff.mpr (mem_map_of_mem hre)
    obtain ⟨other, hother⟩ := hc _ hs
    obtain ⟨hmem, hse, -⟩ := usable_some hother
    have heq : other = record := inj_on_of_nodup_map hp.issued.isLoaded.distinct hmem hre hse
    exact ⟨hs, heq ▸ hother⟩
  refine hp.complete hp.issued hpe.symm hco ?_ ?_ ?_
  · intro record hre
    exact (hp.of_usable (hal record hre).2).2.2.2
  · intro record hre
    obtain ⟨hs, hus⟩ := hal record hre
    exact .inr ⟨(hp.named record).mp hre, ho _ record hs hus⟩
  · intro record hre _ hnew
    exact absurd ((hp.named record).mp hre) hnew

/-! ## The ways of `resolve` -/

theorem allOrNothing_failed {tried : List Selector} {e : String} :
    AllOrNothing r env cfg manifest allowStale required (failed tried e) :=
  ⟨fun _ => ⟨rfl, rfl⟩, nofun⟩

theorem allOrNothing_unlessInterrupted {check : Check} {tried : List Selector} {x : Resolved}
    (h : AllOrNothing r env cfg manifest allowStale required x) :
    AllOrNothing r env cfg manifest allowStale required (unlessInterrupted env check tried x) := by
  rw [unlessInterrupted]
  split
  · exact allOrNothing_failed
  · exact h

theorem allOrNothing_of_handed (h : Handed r env cfg manifest allowStale required res) :
    AllOrNothing r env cfg manifest allowStale required (res, none) :=
  ⟨fun hne => absurd rfl hne, fun _ => h⟩

section

variable (hp : Prepared r cfg manifest required comm expected)

include hp

theorem Prepared.restaged
    {find : Selector → Option Record} (hf : ∀ s ∈ required, ∃ record, find s = some record ∧
      usable r cfg expected comm.records s = some record ∧
      (Young r env cfg record ∨ allowStale = true ∧ res.refreshError.isSome = true))
    (hst : stageRecords r env cfg (required.filterMap find) = .ok res.snapshot) :
    Handed r env cfg manifest allowStale required res := by
  have hmem : ∀ o ∈ required.filterMap find, Committed r manifest o ∧ Settled o ∧
      (∃ spec, FromSource r cfg o spec) ∧
      (Young r env cfg o ∨ allowStale = true ∧ res.refreshError.isSome = true) := by
    intro o ho
    obtain ⟨s, hs, hso⟩ := mem_filterMap.mp ho
    obtain ⟨record, hre, hus, hy⟩ := hf s hs
    cases hre.symm.trans hso
    obtain ⟨hco, -, hse, hsr⟩ := hp.of_usable hus
    exact ⟨hco, hse, hsr, hy⟩
  have hsel : (required.filterMap find).map (·.selector) = required := by
    refine map_filterMap_selector fun s hs => ?_
    obtain ⟨record, hre, hus, -⟩ := hf s hs
    exact ⟨record, hre, (hp.of_usable hus).2.1⟩
  -- a settled record is its own canonical form, so nothing but committed records is staged
  have hcomm : ∀ c ∈ res.snapshot.records, Committed r manifest c := by
    obtain ⟨-, -, canonical, hall, hpe⟩ := stageRecords_spec hst (hp.records_ne_nil hsel)
    intro c hc
    obtain ⟨o, ho, hoc⟩ := forall₂_exists_left hall (hpe.mem_iff.mp hc)
    obtain ⟨hco, hse, -⟩ := hmem o ho
    exact hse.eq hoc ▸ hco
  refine hp.staged hst hsel ?_ ?_ ?_
  · intro o ho
    obtain ⟨-, -, ⟨spec, hsp⟩, -⟩ := hmem o ho
    exact ⟨spec, hsp.toDescribed, fun _ => hsp.endpoint⟩
  · intro o ho c hc
    obtain ⟨hco, hse, -, hy⟩ := hmem o ho
    rw [hse.eq hc]
    refine .inr ⟨hco, hy.imp_right fun ⟨hal, her⟩ => ⟨hal, her, hcomm⟩⟩
  · intro o ho c hc _ hnew
    obtain ⟨hco, hse, -⟩ := hmem o ho
    exact absurd (hse.eq hc ▸ hco) hnew

theorem Prepared.refreshFailure
    {covers : Bool} {tried : List Selector} {e : String}
    (hc : covers = true → ∀ s ∈ required, ∃ record,
      usable r cfg expected comm.records s = some record) :
    AllOrNothing r env cfg manifest allowStale required
      (refreshFailure r env cfg allowStale covers comm required tried e) := by
  rw [Source.refreshFailure]
  refine allOrNothing_unlessInterrupted ?_
  split
  · exact allOrNothing_failed
  rename_i hal
  rw [Bool.or_eq_true, not_or, Bool.not_eq_true, Bool.not_eq_true, Bool.not_eq_false',
    Bool.not_eq_false'] at hal
  obtain ⟨hallo, hco⟩ := hal
  have hall := hc hco
  split
  · rename_i hl
    refine allOrNothing_unlessInterrupted ?_
    split
    · exact allOrNothing_failed
    · rename_i state hst
      refine allOrNothing_of_handed (hp.whole rfl hall hl ⟨state, hst⟩ ?_)
      exact fun _ _ _ _ => Or.inr ⟨hallo, rfl, fun record hre => (hp.named record).mp hre⟩
  · refine allOrNothing_unlessInterrupted ?_
    split
    · exact allOrNothing_failed
    · rename_i snapshot hsta
      refine allOrNothing_of_handed (hp.restaged (fun s hs => ?_) hsta)
      obtain ⟨record, hre⟩ := hall s hs
      have hf := (Option.filter_eq_some_iff.mp hre).1
      exact ⟨record, hf, hre, Or.inr ⟨hallo, rfl⟩⟩

theorem Prepared.reuse
    {cand : List Record} (hf : ∀ s ∈ required, ∃ record,
      findRecord cand s = some record ∧
      fresh r env cfg expected comm.records s = some record) :
    AllOrNothing r env cfg manifest allowStale required (reuse r env cfg comm required cand) := by
  have hu : ∀ s ∈ required, ∃ record, usable r cfg expected comm.records s = some record := by
    intro s hs
    obtain ⟨record, -, hre⟩ := hf s hs
    exact ⟨record, (fresh_some hre).1⟩
  rw [Source.reuse]
  split
  · rename_i hl
    refine allOrNothing_unlessInterrupted ?_
    split
    · exact allOrNothing_failed
    · rename_i state hst
      refine allOrNothing_of_handed (hp.whole rfl hu hl ⟨state, hst⟩ ?_)
      intro s record hs hus
      obtain ⟨other, -, hother⟩ := hf s hs
      obtain ⟨hus', hy⟩ := fresh_some hother
      cases hus.symm.trans hus'
      exact .inl hy
  · split
    · exact allOrNothing_failed
    · rename_i snapshot hsta
      refine allOrNothing_of_handed (hp.restaged (fun s hs => ?_) hsta)
      obtain ⟨record, hfi, hre⟩ := hf s hs
      exact ⟨record, hfi, (fresh_some hre).1, Or.inl (fresh_some hre).2⟩

theorem Prepared.refreshed
    {stale : List Selector} {got cand : List Record}
    (hst : ∀ s ∈ stale, s ∈ required) (hf : fetchAll r env cfg stale = .ok got)
    (hdo : downgrade comm.records got = false)
    (hcand : got.foldl putRecord (reused r env cfg expected comm.records required) = cand)
    (hl : cand.length = required.length)
    (hsta : stageRecords r env cfg (required.filterMap (findRecord cand)) = .ok res.snapshot) :
    Handed r env cfg manifest allowStale required res := by
  obtain ⟨-, hd⟩ := fetchAll_spec hf
  obtain ⟨hsub, hre⟩ := reused_spec r env cfg expected comm.records required
  obtain ⟨hno, hmem⟩ := foldl_putRecord got (hp.nodup.sublist hsub)
  rw [hcand] at hno hmem
  have hsel : (required.filterMap (findRecord cand)).map (·.selector) = required := by
    -- as many distinct selectors as are required, and all of them required
    have hsu : cand.map (·.selector) ⊆ required := by
      intro s hs
      obtain ⟨x, hx, rfl⟩ := mem_map.mp hs
      rcases hmem x hx with hx | hx
      · exact hst _ (hd x hx).1
      · exact hsub.subset (mem_map_of_mem hx)
    have hpe := (subperm_of_subset hno hsu).perm_of_length_le (by rw [length_map, hl])
    refine map_filterMap_selector fun s hs => ?_
    obtain ⟨record, hrec⟩ := findRecord_isSome (hpe.mem_iff.mpr hs)
    exact ⟨record, hrec, (findRecord_some hrec).2⟩
  have hor : ∀ o ∈ required.filterMap (findRecord cand), o ∈ got ∨
      (Committed r manifest o ∧ Settled o ∧ Young r env cfg o ∧
        ∃ spec, FromSource r cfg o spec) := by
    intro o ho
    obtain ⟨s, -, hs⟩ := mem_filterMap.mp ho
    refine (hmem o (findRecord_some hs).1).imp_right fun hx => ?_
    obtain ⟨s', hs'⟩ := hre o hx
    obtain ⟨hus, hy⟩ := fresh_some hs'
    obtain ⟨hco, -, hse, hsr⟩ := hp.of_usable hus
    exact ⟨hco, hse, hy, hsr⟩
  refine hp.staged hsta hsel ?_ ?_ ?_
  · intro o ho
    rcases hor o ho with hx | ⟨-, -, -, spec, hsp⟩
    · exact (hd o hx).2.2
    · exact ⟨spec, hsp.toDescribed, fun _ => hsp.endpoint⟩
  · intro o ho c hc
    rcases hor o ho with hx | ⟨hco, hse, hy, -⟩
    · exact .inl ⟨o, (hd o hx).2.1, hc⟩
    · rw [hse.eq hc]
      exact .inr ⟨hco, Or.inl hy⟩
  · intro o ho c hc hk hnew old hold hol hlt
    rcases hor o ho with hx | ⟨hco, hse, -⟩
    · have hrel : c.release = o.release := by rw [(canonicalOf_of_eq_ok hc).kept]
      have hki : c.sourceKind = o.sourceKind.canonical := by rw [(canonicalOf_of_eq_ok hc).kept]
      have hok : o.sourceKind = .dbipLite := by
        cases ho' : o.sourceKind with
        | dbipLite => rfl
        | unset | ripestat | ipList | provider | other text =>
          rw [ho', hk] at hki
          cases hki
      rw [downgrade, any_eq_false] at hdo
      refine hdo o hx ?_
      rw [hok, Bool.and_eq_true, any_eq_true]
      refine ⟨by simp, old, hold, ?_⟩
      rw [hol, ← hrel, Bool.and_eq_true]
      exact ⟨by simp, decide_eq_true hlt⟩
    · exact absurd (hse.eq hc ▸ hco) hnew

theorem Prepared.refresh
    {covers : Bool} {stale : List Selector} (hst : ∀ s ∈ stale, s ∈ required)
    (hc : covers = true → ∀ s ∈ required, ∃ record,
      usable r cfg expected comm.records s = some record) :
    AllOrNothing r env cfg manifest allowStale required
      (refresh r env cfg allowStale covers comm required
        (reused r env cfg expected comm.records required) stale) := by
  rw [Source.refresh]
  split
  · exact hp.refreshFailure hc
  rename_i got hf
  split
  · exact hp.refreshFailure hc
  rename_i hd
  simp only []
  split
  · exact hp.refreshFailure hc
  rename_i hl
  split
  · exact hp.refreshFailure hc
  · rename_i snapshot hsta
    exact allOrNothing_of_handed (hp.refreshed hst hf (Bool.not_eq_true _ ▸ hd) rfl
      (not_not.mp hl) hsta)

end

theorem resolveRequired_allOrNothing {x : Resolved} (hno : required.Nodup)
    (hc : ∀ s ∈ required, canonicalSelector s.kind s.value = .ok s) (hne : required ≠ [])
    (h : resolveRequired r env cfg manifest allowStale required = .ok x) :
    AllOrNothing r env cfg manifest allowStale required x := by
  rw [resolveRequired] at h
  obtain ⟨⟨⟩, -, h⟩ := bind_eq_ok.mp h
  obtain ⟨comm, hl, h⟩ := bind_eq_ok.mp h
  obtain ⟨expected, hbi, h⟩ := bind_eq_ok.mp h
  have hp := Prepared.of_load hno hc hne hl hbi
  simp only [] at h
  split at h
  · rename_i hnon
    rw [← pure_eq_ok.mp h]
    refine hp.reuse fun s hs => ?_
    -- nothing is due, so every required selector has a record to reuse
    have hsome := filter_eq_nil_iff.mp hnon s hs
    rw [Option.isNone_iff_eq_none] at hsome
    obtain ⟨record, hre⟩ := Option.ne_none_iff_exists'.mp hsome
    obtain ⟨hmem, rfl⟩ := findRecord_some hre
    obtain ⟨s', hs'⟩ := (reused_spec _ _ _ _ _ _).2 record hmem
    obtain ⟨-, rfl, -⟩ := usable_some (fresh_some hs').1
    exact ⟨record, hre, hs'⟩
  · rw [← pure_eq_ok.mp h]
    refine hp.refresh (fun s hs => mem_of_mem_filter hs) fun hco s hs => ?_
    exact Option.isSome_iff_exists.mp (all_eq_true.mp hco s hs)

variable (r env cfg manifest allowStale) in
theorem resolve_allOrNothing : ∃ required,
    ((resolve r env cfg manifest allowStale).2 = none → requiredSelectors cfg = .ok required) ∧
      AllOrNothing r env cfg manifest allowStale required
        (resolve r env cfg manifest allowStale) := by
  have hf : ∀ tried e, ∃ required, ((failed tried e).2 = none →
      requiredSelectors cfg = .ok required) ∧
        AllOrNothing r env cfg manifest allowStale required (failed tried e) :=
    fun _ _ => ⟨[], nofun, allOrNothing_failed⟩
  rw [resolve, unlessInterrupted]
  split
  · exact hf _ _
  split
  · exact hf _ _
  split
  · exact hf _ _
  rename_i required hre
  obtain ⟨hno, hc⟩ := requiredSelectors_spec hre
  split
  · exact hf _ _
  split
  · rename_i hnon
    subst hnon
    have hempty : ∀ record, record ∉ ({} : Resolution).snapshot.records := fun _ => not_mem_nil
    exact ⟨[], fun _ => hre, allOrNothing_of_handed ⟨⟨.nil, fun h => absurd rfl h,
      fun c h => absurd h (hempty c), fun c h => absurd h (hempty c),
      fun _ c h => absurd h (hempty c), fun _ c h => absurd h (hempty c)⟩, .empty⟩⟩
  rename_i hne
  split
  · exact hf _ _
  · rename_i resolved hres
    exact ⟨required, fun _ => hre, resolveRequired_allOrNothing hno hc hne hres⟩

theorem resolve_issued : Issued r.texts (resolve r env cfg manifest allowStale).1.snapshot := by
  obtain ⟨_, -, hbad, hgood⟩ := resolve_allOrNothing r env cfg manifest allowStale
  by_cases hn : (resolve r env cfg manifest allowStale).2 = none
  · exact (hgood hn).issued
  · rw [(hbad hn).1]
    exact .empty

/-- **What is compiled is what is recorded.** Whatever `resolve` meets, the selectors of the snapshot
it returns stand for the addresses that the prefixes of their records contain, and for no others. -/
theorem resolve_resolves (k : Selector) (a : Addr) :
    (resolve r env cfg manifest allowStale).1.snapshot.policy.Resolves k a ↔
      ∃ record ∈ (resolve r env cfg manifest allowStale).1.snapshot.records, record.selector = k ∧
        ∃ p, (.valid p ∈ record.ipv4 ∨ .valid p ∈ record.ipv6) ∧ p.contains a = true :=
  resolve_issued.resolves k a

/-- **Resolution is all or nothing.** A call that fails returns no snapshot; one that succeeds
returns a complete one. -/
theorem resolve_complete :
    ((resolve r env cfg manifest allowStale).2 ≠ none →
      (resolve r env cfg manifest allowStale).1.snapshot = {} ∧
        (resolve r env cfg manifest allowStale).1.refreshError = none) ∧
    ((resolve r env cfg manifest allowStale).2 = none → ∃ required,
      requiredSelectors cfg = .ok required ∧
        Complete r env cfg manifest allowStale required
          (resolve r env cfg manifest allowStale).1) := by
  obtain ⟨required, hre, hbad, hgood⟩ := resolve_allOrNothing r env cfg manifest allowStale
  exact ⟨hbad, fun hn => ⟨required, hre hn, (hgood hn).toComplete⟩⟩

end Compiling

end Facts

/-- CrowdSec is asked for, but no address family. -/
def familylessConfig : Config where
  firewall := { ipv4 := false, ipv6 := false }
  crowdsec := { enabled := true }

def emptyResolver : Resolver Unit where
  texts := plainTexts
  cache := { content := fun _ => none, digest := fun _ => 0 }
  fingerprint := fun _ _ => ()

def offline : Surroundings where
  now := fun _ => 0
  month := 0
  respond := fun _ _ => .error { text := "unreachable" }
  artifact := fun _ _ => .error { text := "unreachable" }

theorem resolve_uncompiled :
    (resolve emptyResolver offline familylessConfig none false).2 = none ∧
      (compile emptyResolver.fingerprint familylessConfig
        (resolve emptyResolver offline familylessConfig none false).1.snapshot.policy).isOk =
          false := by
  decide +kernel

end Perimeterd.Source
