import Perimeterd.Lib.Result
import Perimeterd.Config.Catalog
import Perimeterd.Config.Types
import Perimeterd.Prefix.Set

/-!
# Selectors and resolved snapshots

`internal/policy/snapshot.go`. A policy names its addresses indirectly: countries, registries,
autonomous systems, lists and providers. `selectorKeys` turns that into snapshot keys and a
`Snapshot` maps each key to the resolved prefixes.

`Selects` says what a configured selector refers to without mentioning how the keys are collected,
deduplicated or sorted; `selectorKeys_spec` is the statement that the code collects exactly those.
-/

namespace Perimeterd.Policy

open Lib List

inductive SelectorKind where
  | country
  | rir
  | asn
  | ipList
  | provider
deriving DecidableEq, Repr

def SelectorKind.text : SelectorKind → String
  | .country => "country"
  | .rir => "rir"
  | .asn => "asn"
  | .ipList => "ip_list"
  | .provider => "provider"

/-- `policy.Selector`, the snapshot key. -/
structure Selector where
  kind : SelectorKind
  value : String
deriving DecidableEq, Repr

def Selector.less (s other : Selector) : Bool :=
  if s.kind ≠ other.kind then s.kind.text < other.kind.text else s.value < other.value

def canonicalSelector (kind : SelectorKind) (value : String) : Except String Selector :=
  match kind with
  | .country =>
      if Catalog.validCountry (Catalog.toUpper value) then .ok ⟨.country, Catalog.toUpper value⟩
      else .error s!"unknown country selector {value.quote}"
  | .rir =>
      if Catalog.validRIR (Catalog.toUpper value) then .ok ⟨.rir, Catalog.toUpper value⟩
      else .error s!"unknown RIR selector {value.quote}"
  | .asn =>
      if Catalog.validASN value then .ok ⟨.asn, value⟩
      else .error s!"ASN selector {value.quote} must use canonical AS<number> form"
  | .ipList =>
      if Catalog.validName value then .ok ⟨.ipList, value⟩
      else .error s!"IP list selector {value.quote} must use a lowercase DNS-label-like name"
  | .provider =>
      if Catalog.validProviderID value then .ok ⟨.provider, value⟩
      else
        .error (s!"provider selector {value.quote} must use a lowercase ID containing only " ++
          "letters, digits, hyphens, or underscores")

/-- The loop that canonicalizes each value of one category. -/
def canonicalAll (kind : SelectorKind) : List String → Except String (List Selector)
  | [] => .ok []
  | value :: rest =>
      match canonicalSelector kind value with
      | .error e => .error e
      | .ok s =>
          match canonicalAll kind rest with
          | .error e => .error e
          | .ok ss => .ok (s :: ss)

/-- The loop over registries: each contributes the countries of its service region. -/
def canonicalRIRs : List String → Except String (List Selector)
  | [] => .ok []
  | rir :: rest =>
      match canonicalSelector .rir rir with
      | .error e => .error e
      | .ok s =>
          match canonicalAll .country (Catalog.rirCountries s.value) with
          | .error e => .error s!"RIR {s.value}: {e}"
          | .ok countries =>
              match canonicalRIRs rest with
              | .error e => .error e
              | .ok ss => .ok (countries ++ ss)

/-- `selectorKeys`. The source collects into a map and sorts its keys. -/
def selectorKeys (selection : Config.Selector) : Except String (List Selector) := do
  if !selection.groups.isEmpty && selection.expandedCountries.isEmpty then
    throw "groups are unresolved"
  let countries ← canonicalAll .country (selection.countries ++ selection.expandedCountries)
  let rirs ← canonicalRIRs selection.rirs
  let asns ← canonicalAll .asn selection.asns
  let lists ← canonicalAll .ipList selection.ipLists
  let providers ← canonicalAll .provider selection.providers
  return sortSlice Selector.less (countries ++ rirs ++ asns ++ lists ++ providers).dedup

/-- The loop of `RequiredSelectors`; `i` is the policy's position. -/
def requiredLoop : Nat → List Config.Policy → Except String (List Selector)
  | _, [] => .ok []
  | i, policy :: rest =>
      if policy.mode = .disabled then requiredLoop (i + 1) rest
      else do
        let included ← (selectorKeys policy.included).mapError fun e => s!"policy {i} include: {e}"
        let excluded ← (selectorKeys policy.excluded).mapError fun e => s!"policy {i} exclude: {e}"
        let others ← requiredLoop (i + 1) rest
        return included ++ excluded ++ others

/-- `RequiredSelectors`: the keys every enabled policy needs. -/
def requiredSelectors (cfg : Config) : Except String (List Selector) := do
  let selectors ← requiredLoop 0 cfg.policies
  return sortSlice Selector.less selectors.dedup

/-! ## What a selector refers to -/

/-- A configured selector refers to a snapshot key. -/
inductive Selects (selection : Config.Selector) : Selector → Prop
  | country {c : String} (h : c ∈ selection.countries) :
      Selects selection ⟨.country, Catalog.toUpper c⟩
  | expanded {c : String} (h : c ∈ selection.expandedCountries) :
      Selects selection ⟨.country, Catalog.toUpper c⟩
  | region {r c : String} (hr : r ∈ selection.rirs)
      (h : c ∈ Catalog.rirCountries (Catalog.toUpper r)) :
      Selects selection ⟨.country, Catalog.toUpper c⟩
  | asn {v : String} (h : v ∈ selection.asns) : Selects selection ⟨.asn, v⟩
  | ipList {v : String} (h : v ∈ selection.ipLists) : Selects selection ⟨.ipList, v⟩
  | provider {v : String} (h : v ∈ selection.providers) : Selects selection ⟨.provider, v⟩

/-- The key a valid value of a kind becomes. -/
def keyOf : SelectorKind → String → Selector
  | .country, v => ⟨.country, Catalog.toUpper v⟩
  | .rir, v => ⟨.rir, Catalog.toUpper v⟩
  | kind, v => ⟨kind, v⟩

theorem canonicalSelector_ok {kind : SelectorKind} {value : String} {s : Selector}
    (h : canonicalSelector kind value = .ok s) : s = keyOf kind value := by
  cases kind <;> simp only [canonicalSelector] at h <;> split at h <;> first
    | exact (Except.ok.inj h).symm
    | cases h

theorem canonicalAll_spec {kind : SelectorKind} : ∀ {values : List String} {ss : List Selector},
    canonicalAll kind values = .ok ss → ss = values.map (keyOf kind) ∧
      ∀ v ∈ values, canonicalSelector kind v = .ok (keyOf kind v)
  | [], ss, h => by cases h; simp
  | v :: vs, ss, h => by
    rw [canonicalAll] at h
    cases hc : canonicalSelector kind v with
    | error e => rw [hc] at h; cases h
    | ok s =>
      cases hr : canonicalAll kind vs with
      | error e => rw [hc, hr] at h; cases h
      | ok rest =>
        rw [hc, hr] at h
        cases h
        obtain ⟨rfl, hall⟩ := canonicalAll_spec hr
        obtain rfl := canonicalSelector_ok hc
        exact ⟨rfl, forall_mem_cons.mpr ⟨hc, hall⟩⟩

theorem canonicalRIRs_spec : ∀ {rirs : List String} {ss : List Selector},
    canonicalRIRs rirs = .ok ss →
      (ss = rirs.flatMap fun r => (Catalog.rirCountries (Catalog.toUpper r)).map (keyOf .country)) ∧
        ∀ r ∈ rirs, canonicalSelector .rir r = .ok (keyOf .rir r) ∧
          ∀ c ∈ Catalog.rirCountries (Catalog.toUpper r),
            canonicalSelector .country c = .ok (keyOf .country c)
  | [], ss, h => by cases h; simp
  | r :: rs, ss, h => by
    rw [canonicalRIRs] at h
    cases hc : canonicalSelector .rir r with
    | error e => rw [hc] at h; cases h
    | ok s =>
      cases ha : canonicalAll .country (Catalog.rirCountries s.value) with
      | error e => simp only [hc, ha] at h; cases h
      | ok countries =>
        cases hr : canonicalRIRs rs with
        | error e => simp only [hc, ha, hr] at h; cases h
        | ok rest =>
          simp only [hc, ha, hr] at h
          cases h
          obtain ⟨rfl, hall⟩ := canonicalRIRs_spec hr
          obtain rfl := canonicalSelector_ok hc
          obtain ⟨rfl, hco⟩ := canonicalAll_spec ha
          exact ⟨rfl, forall_mem_cons.mpr ⟨⟨hc, hco⟩, hall⟩⟩

/-- Every value of a selector is one of its kind. -/
structure Valid (value : Config.Selector) : Prop where
  countries : ∀ c ∈ value.countries,
    canonicalSelector .country c = .ok ⟨.country, Catalog.toUpper c⟩
  expanded : ∀ c ∈ value.expandedCountries,
    canonicalSelector .country c = .ok ⟨.country, Catalog.toUpper c⟩
  rirs : ∀ r ∈ value.rirs, canonicalSelector .rir r = .ok ⟨.rir, Catalog.toUpper r⟩ ∧
    ∀ c ∈ Catalog.rirCountries (Catalog.toUpper r),
      canonicalSelector .country c = .ok ⟨.country, Catalog.toUpper c⟩
  asns : ∀ v ∈ value.asns, canonicalSelector .asn v = .ok ⟨.asn, v⟩
  ipLists : ∀ v ∈ value.ipLists, canonicalSelector .ipList v = .ok ⟨.ipList, v⟩
  providers : ∀ v ∈ value.providers, canonicalSelector .provider v = .ok ⟨.provider, v⟩

variable {sel : Config.Selector} {keys : List Selector} {k : Selector}

theorem Selects.canonical (h : Selects sel k) (hva : Valid sel) :
    ∃ kind v, canonicalSelector kind v = .ok k := by
  cases h with
  | country hc => exact ⟨_, _, hva.countries _ hc⟩
  | expanded hc => exact ⟨_, _, hva.expanded _ hc⟩
  | region hr hc => exact ⟨_, _, (hva.rirs _ hr).2 _ hc⟩
  | asn hv => exact ⟨_, _, hva.asns _ hv⟩
  | ipList hv => exact ⟨_, _, hva.ipLists _ hv⟩
  | provider hv => exact ⟨_, _, hva.providers _ hv⟩

theorem selectorKeys_eq_ok (h : selectorKeys sel = .ok keys) :
    Valid sel ∧ ∀ k, k ∈ keys ↔ Selects sel k := by
  obtain ⟨-, h⟩ := guard_eq_ok.mp h
  obtain ⟨countries, h₁, h⟩ := bind_eq_ok.mp h
  obtain ⟨rirs, h₂, h⟩ := bind_eq_ok.mp h
  obtain ⟨asns, h₃, h⟩ := bind_eq_ok.mp h
  obtain ⟨lists, h₄, h⟩ := bind_eq_ok.mp h
  obtain ⟨providers, h₅, h⟩ := bind_eq_ok.mp h
  obtain rfl := pure_eq_ok.mp h
  obtain ⟨rfl, hco⟩ := canonicalAll_spec h₁
  obtain ⟨rfl, hri⟩ := canonicalRIRs_spec h₂
  obtain ⟨rfl, has⟩ := canonicalAll_spec h₃
  obtain ⟨rfl, hli⟩ := canonicalAll_spec h₄
  obtain ⟨rfl, hpr⟩ := canonicalAll_spec h₅
  rw [forall_mem_append] at hco
  refine ⟨⟨hco.1, hco.2, hri, has, hli, hpr⟩, fun k => ?_⟩
  rw [mem_sortSlice, mem_dedup]
  simp only [mem_append, mem_map, mem_flatMap]
  constructor
  · rintro ((((⟨c, hc | hc, rfl⟩ | ⟨r, hr, c, hc, rfl⟩) | ⟨v, hv, rfl⟩) | ⟨v, hv, rfl⟩) | ⟨v, hv, rfl⟩)
    · exact .country hc
    · exact .expanded hc
    · exact .region hr hc
    · exact .asn hv
    · exact .ipList hv
    · exact .provider hv
  · rintro (hc | hc | ⟨hr, hc⟩ | hv | hv | hv)
    · exact .inl (.inl (.inl (.inl ⟨_, .inl hc, rfl⟩)))
    · exact .inl (.inl (.inl (.inl ⟨_, .inr hc, rfl⟩)))
    · exact .inl (.inl (.inl (.inr ⟨_, hr, _, hc, rfl⟩)))
    · exact .inl (.inl (.inr ⟨_, hv, rfl⟩))
    · exact .inl (.inr ⟨_, hv, rfl⟩)
    · exact .inr ⟨_, hv, rfl⟩

/-- **The keys collected are exactly the keys referred to.** -/
theorem selectorKeys_spec (h : selectorKeys sel = .ok keys) (k : Selector) :
    k ∈ keys ↔ Selects sel k :=
  (selectorKeys_eq_ok h).2 k

/-! ## Snapshots -/

structure ResolvedSelector where
  selector : Selector
  ipv4 : List NetipPrefix := []
  ipv6 : List NetipPrefix := []

/-- `policy.Snapshot`: a finite map, kept as its list of entries. -/
structure Snapshot where
  entries : List (Selector × Prefix.Set)

def Snapshot.lookup (s : Snapshot) (selector : Selector) : Option Prefix.Set :=
  (s.entries.find? (·.1 = selector)).map (·.2)

/-- The record of a key covers the address. -/
def Snapshot.Resolves (s : Snapshot) (selector : Selector) (a : Addr) : Prop :=
  ∃ set, s.lookup selector = some set ∧ set.Mem a

/-- `validateFamily`, for one family of a record. -/
def validateFamily (prefixes : List NetipPrefix) (family : Family) (index : Nat)
    (selector : Selector) : Except String Unit :=
  let name := match family with | .ipv4 => "IPv4" | .ipv6 => "IPv6"
  let at_ := fun (j : Nat) =>
    s!"snapshot record {index} {selector.kind.text}/{selector.value} prefix {name}[{j}]"
  let rec go : Nat → List NetipPrefix → Except String Unit
    | _, [] => .ok ()
    | j, .valid p :: rest =>
        if p.addr.family = family then go (j + 1) rest
        else .error s!"{at_ j}: wrong address family"
    | j, _ :: _ => .error s!"{at_ j}: malformed prefix"
  go 0 prefixes

/-- The loop of `NewSnapshot`; `i` is the record's position and `entries` the map so far. -/
def newSnapshotLoop : Nat → List (Selector × Prefix.Set) → List ResolvedSelector →
    Except String Snapshot
  | _, entries, [] => .ok ⟨entries⟩
  | i, entries, record :: rest => do
      let selector ← (canonicalSelector record.selector.kind record.selector.value).mapError
        fun e => s!"snapshot record {i}: {e}"
      let name := s!"{selector.kind.text}/{selector.value}"
      if entries.any (·.1 = selector) then
        throw s!"snapshot record {i}: duplicate selector {name}"
      validateFamily record.ipv4 .ipv4 i selector
      validateFamily record.ipv6 .ipv6 i selector
      let v4 ← (Prefix.Set.new record.ipv4).mapError fun e => s!"snapshot record {i} {name} IPv4: {e}"
      let v6 ← (Prefix.Set.new record.ipv6).mapError fun e => s!"snapshot record {i} {name} IPv6: {e}"
      newSnapshotLoop (i + 1) (entries ++ [(selector, Prefix.Set.union [v4, v6])]) rest

def newSnapshot (records : List ResolvedSelector) : Except String Snapshot :=
  newSnapshotLoop 0 [] records

end Perimeterd.Policy
