import Perimeterd.Config.Groups
import Perimeterd.Lookup.Types
import Perimeterd.Source.Resolve

/-!
# The static view of a lookup

`internal/lookup/static.go`: what a query sees of an applied target and of the snapshot it was compiled
from. `NewStatic` copies both and builds three indexes: the prefixes of each set by family and ID, the
records each policy selects, and every prefix that can separate two addresses of a family
(`boundaries`), sorted and without repetitions.

A map of the source is a function here, with the zero value where there is no entry. A prefix that is
not valid contains no address and separates none, and is left out of the indexes.
-/

namespace Perimeterd.Lookup

open Lib Policy

def validPrefixes (values : List NetipPrefix) : List Prefix :=
  values.filterMap fun
    | .valid p => some p
    | _ => none

@[simp] theorem mem_validPrefixes {values : List NetipPrefix} {p : Prefix} :
    p ∈ validPrefixes values ↔ .valid p ∈ values := by
  rw [validPrefixes, List.mem_filterMap]
  constructor
  · rintro ⟨v, hv, h⟩
    cases v with
    | valid r => exact Option.some.inj h ▸ hv
    | zero | badBits => cases h
  · exact fun h => ⟨_, h, rfl⟩

@[simp] theorem validPrefixes_map (l : List Prefix) : validPrefixes (l.map .valid) = l := by
  rw [validPrefixes, List.filterMap_map]
  exact List.filterMap_some

/-- `containingPrefix`: the last prefix that starts at or before the address, if it contains it. -/
def containingPrefix (values : List Prefix) (a : Addr) : Option Prefix :=
  let position := searchIn values fun p => p.addr.compare a == .gt
  if position = 0 then none else values[position - 1]?.filter (·.contains a)

theorem containingPrefix_mem {vs : List Prefix} {a : Addr} {p : Prefix}
    (h : containingPrefix vs a = some p) : p ∈ vs ∧ p.contains a = true := by
  unfold containingPrefix at h
  rw [Option.ite_none_left_eq_some, Option.filter_eq_some_iff] at h
  exact ⟨List.mem_of_getElem? h.2.1, h.2.2⟩

/-- **On a canonical list the search finds the prefix that contains the address, if there is one.** -/
theorem containingPrefix_isSome {vs : List Prefix} (h : Prefix.Canonical vs) (a : Addr) :
    (containingPrefix vs a).isSome ↔ Prefix.Covered vs a := by
  rw [← Prefix.Set.bisect_contains h a]
  unfold containingPrefix
  dsimp only
  split
  · simp
  · rw [Option.isSome_filter]

theorem containingPrefix_eq_find? {vs : List Prefix} (h : Prefix.Canonical vs) (a : Addr) :
    containingPrefix vs a = vs.find? (·.contains a) := by
  cases hf : vs.find? (·.contains a) with
  | none =>
    have hno : ¬ Prefix.Covered vs a := by
      rintro ⟨p, hp, ha⟩
      exact List.find?_eq_none.mp hf p hp ha
    rw [← containingPrefix_isSome h, Bool.not_eq_true] at hno
    exact Option.isNone_iff_eq_none.mp (by simpa using hno)
  | some p =>
    have hp := List.mem_of_find?_eq_some hf
    have ha : p.contains a = true := List.find?_some (p := fun q : Prefix => q.contains a) hf
    obtain ⟨q, hq⟩ := Option.isSome_iff_exists.mp ((containingPrefix_isSome h a).mpr ⟨p, hp, ha⟩)
    obtain ⟨hin, hc⟩ := containingPrefix_mem hq
    rw [hq, h.unique hin hp hc ha]

/-- **Normalization preserves membership and is canonical.** Of any valid prefixes it makes a sorted
list of masked, disjoint ones that covers the same addresses. The list depends only on which prefixes
were given, it is its own normal form, and both searches on it find what a linear search finds. -/
theorem normalize_exact (values : List Prefix) :
    ∃ ps, Prefix.normalize (values.map .valid) = .ok ps ∧
      (∀ p ∈ ps, p.Masked) ∧ (ps.Pairwise fun p q => Prefix.less p q = true) ∧
      (ps.Pairwise fun p q => p.overlaps q = false) ∧
      (∀ a, (∃ p ∈ ps, p.contains a = true) ↔ ∃ p ∈ values, p.contains a = true) ∧
      (∀ others : List Prefix, (∀ p, p ∈ others ↔ p ∈ values) →
        Prefix.normalize (others.map .valid) = .ok ps) ∧
      Prefix.normalize (ps.map .valid) = .ok ps ∧
      (∀ a, containingPrefix ps a = ps.find? (·.contains a)) ∧
      ∃ s, Prefix.Set.new (values.map .valid) = .ok s ∧ s.prefixes = ps ∧
        ∀ a, s.contains a = ps.any (·.contains a) := by
  have hno := Prefix.normalize_valid values
  obtain ⟨hc, hco⟩ := Prefix.normalize_spec hno
  have hma : (Prefix.canonicalize (values.map Prefix.masked)).map Prefix.masked =
      Prefix.canonicalize (values.map Prefix.masked) :=
    List.map_congr_left hc.masked |>.trans (List.map_id _)
  refine ⟨_, hno, hc.masked, hc.sorted, hc.disjoint, fun a => ?_,
    fun others hsa => ?_, ?_, containingPrefix_eq_find? hc, ?_⟩
  · refine (hco a).trans (exists_congr fun p => and_congr_left fun _ => ?_)
    simp
  · rw [Prefix.normalize_valid]
    refine congrArg Except.ok (Prefix.canonicalize_congr Prefix.masked_of_mem_map fun p => ?_)
    simp only [List.mem_map, hsa]
  · rw [Prefix.normalize_valid, hma, Prefix.canonicalize_of_canonical hc]
  · refine ⟨.fromCanonical _ hc, ?_, rfl, fun a => Prefix.Set.contains_eq_any _ a⟩
    unfold Prefix.Set.new
    split
    case h_1 her =>
      rw [hno] at her
      cases her
    case h_2 ps hps =>
      rw [hno] at hps
      cases hps
      rfl

def sourcePrefix (record : Source.Record) (a : Addr) : Option Prefix :=
  containingPrefix (validPrefixes (if a.is4 then record.ipv4 else record.ipv6)) a

/-! ## Source references -/

/-- `sourceRef`: a selected record, and the groups and registries it was selected through. -/
structure SourceRef where
  record : Source.Record
  via : List String

structure PolicySources where
  included : List SourceRef := []
  excluded : List SourceRef := []

/-- The closure `add` of `sourceRefs`: a value that is no selector is skipped. -/
def addSelector (kind : SelectorKind) (via name : String) : Option (Selector × String) :=
  match canonicalSelector kind name with
  | .ok selector => some (selector, via)
  | .error _ => none

def addRegion (name : String) : List (Selector × String) :=
  match canonicalSelector .rir name with
  | .ok region =>
      (Catalog.rirCountries region.value).filterMap (addSelector .country ("rir:" ++ region.value))
  | .error _ => []

/-- The keys of `sourceRefs`, each with the way it was reached. -/
def selectedKeys (groups : Config.Groups) (value : Config.Selector) : List (Selector × String) :=
  value.countries.filterMap (addSelector .country "") ++
  (value.groups.flatMap fun group =>
    ((groups.members group).getD []).filterMap (addSelector .country ("group:" ++ group))) ++
  value.rirs.flatMap addRegion ++
  value.asns.filterMap (addSelector .asn "") ++
  value.ipLists.filterMap (addSelector .ipList "") ++
  value.providers.filterMap (addSelector .provider "")

def sourceRefs (groups : Config.Groups) (records : List Source.Record) (value : Config.Selector) :
    List SourceRef :=
  let keys := selectedKeys groups value
  records.filterMap fun record =>
    let reached := keys.filter (·.1 = record.selector)
    if reached.isEmpty then none
    else some ⟨record, sortSlice (fun a b => a < b)
      ((reached.map (·.2)).filter fun via => via ≠ "")⟩

/-! ## The view -/

structure Static where
  globalAllow : List NetipPrefix
  globalBlock : List NetipPrefix
  policyList : List Config.Policy
  families : List FamilyPlan := []
  manifest : Option State.Manifest
  sources : String → PolicySources
  attachments : Direction → List Config.Attachment := fun _ => []
  boundaries : Family → List Prefix := fun _ => []
  setIndex : Family → String → List Prefix := fun _ _ => []
  table : String := ""
  nft : Bool := false
  crowdsec : Bool

/-- An entry of the maps `policies` and `priorities`: a later policy replaces an earlier one of its
name. -/
def Static.policy (s : Static) (name : String) : Option Config.Policy :=
  s.policyList.reverse.find? (·.name = name)

section Compact

variable {α : Type} [DecidableEq α]

def compact : List α → List α
  | a :: b :: rest => if a = b then compact (b :: rest) else a :: compact (b :: rest)
  | l => l

theorem compact_sublist : ∀ l : List α, (compact l).Sublist l
  | [] => List.Sublist.refl _
  | [_] => List.Sublist.refl _
  | a :: b :: rest => by
    rw [compact]
    split
    · exact (compact_sublist (b :: rest)).cons a
    · exact (compact_sublist (b :: rest)).cons_cons a

@[simp] theorem mem_compact {p : α} : ∀ {l : List α}, p ∈ compact l ↔ p ∈ l
  | [] => Iff.rfl
  | [_] => Iff.rfl
  | a :: b :: rest => by
    rw [compact]
    split
    case isTrue h =>
      rw [mem_compact, h]
      simp
    case isFalse => rw [List.mem_cons, mem_compact, List.mem_cons (a := p) (b := a)]

end Compact

def boundaryLess (a b : Prefix) : Bool :=
  match a.addr.compare b.addr with
  | .lt => true
  | .gt => false
  | .eq => a.bits < b.bits

theorem boundaryLess_iff {a b : Prefix} : boundaryLess a b = true ↔
    a.addr.point < b.addr.point ∨ a.addr.point = b.addr.point ∧ a.bits < b.bits := by
  unfold boundaryLess
  cases h : a.addr.compare b.addr with
  | lt =>
    rw [Addr.compare_lt] at h
    simp [h]
  | gt =>
    rw [Addr.compare_gt] at h
    simp only [Bool.false_eq_true, false_iff]
    omega
  | eq =>
    rw [Addr.compare_eq_eq] at h
    simp [h]

def Ascending (l : List Prefix) : Prop := l.Pairwise fun a b => a.addr.point ≤ b.addr.point

theorem ascending_sortSlice (l : List Prefix) : Ascending (sortSlice boundaryLess l) :=
  (sortSlice_sorted Prefix.key (fun _ _ => boundaryLess_iff.trans Prefix.key_lt.symm) l).imp
    Prefix.point_le_of_key

theorem ascending_sorted (l : List Prefix) : Ascending (compact (sortSlice boundaryLess l)) :=
  (ascending_sortSlice l).sublist (compact_sublist _)

def familySets (families : List FamilyPlan) (f : Family) : List PrefixSet :=
  (families.filter (·.family = f)).flatMap (·.sets)

/-- `buildIndexes`, the index of sets: a later set replaces an earlier one of its ID. -/
def setPrefixes (families : List FamilyPlan) (f : Family) (id : String) : List Prefix :=
  match (familySets families f).reverse.find? (·.id = id) with
  | some set => set.prefixes
  | none => []

def recordPrefixes (f : Family) (record : Source.Record) : List Prefix :=
  validPrefixes (match f with | .ipv4 => record.ipv4 | .ipv6 => record.ipv6)

/-- `buildIndexes`, the boundaries of a family. -/
def familyBoundaries (families : List FamilyPlan) (records : List Source.Record)
    (globals : List NetipPrefix) (f : Family) : List Prefix :=
  let sets := (familySets families f).flatMap (·.prefixes)
  let sources := records.flatMap (recordPrefixes f)
  let lists := (validPrefixes globals).filter (·.addr.family = f)
  compact (sortSlice boundaryLess (sets ++ sources ++ lists))

def attachmentLess (a b : Config.Attachment) : Bool :=
  if a.chain ≠ b.chain then a.chain < b.chain
  else if a.originalDestination ≠ b.originalDestination then !a.originalDestination
  else Firewall.join "\x00" a.inputInterfaces < Firewall.join "\x00" b.inputInterfaces

/-- The attachments of an iptables target in one direction. -/
def directed (attachments : List Config.Attachment) (d : Direction) : List Config.Attachment :=
  sortSlice attachmentLess (attachments.filter (·.direction = d.word))

/-- The view before the target is looked at. -/
def emptyStatic (groups : Config.Groups) (cfg : Config) (snapshot : Source.Snapshot) : Static where
  globalAllow := cfg.global.allowlist
  globalBlock := cfg.global.blocklist
  policyList := cfg.policies
  manifest := snapshot.manifest
  sources name :=
    match cfg.policies.reverse.find? (·.name = name) with
    | some p =>
        ⟨sourceRefs groups snapshot.records p.included, sourceRefs groups snapshot.records p.excluded⟩
    | none => {}
  crowdsec := cfg.crowdsec.enabled

def Static.withTarget (s : Static) (records : List Source.Record) (target : Firewall.Target) :
    Static :=
  { s with
    families := target.families
    table := target.table
    boundaries := familyBoundaries target.families records (s.globalAllow ++ s.globalBlock)
    setIndex := setPrefixes target.families
    attachments := directed (target.iptables.getD [])
    nft := target.iptables.isNone }

/-- `NewStatic`. No target is no managed enforcement. -/
def newStatic (texts : Source.Texts) (groups : Config.Groups) (cfg : Config)
    (target : Option Firewall.Target) (snapshot : Source.Snapshot) : Except String Static := do
  (Source.validateSnapshot texts cfg snapshot).mapError ("lookup source snapshot: " ++ ·)
  let view := emptyStatic groups cfg snapshot
  match target with
  | none => return view
  | some target => return view.withTarget snapshot.records target

def Static.family (s : Static) (f : Family) : Option FamilyPlan :=
  s.families.find? (·.family = f)

end Perimeterd.Lookup
