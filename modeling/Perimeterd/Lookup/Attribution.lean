import Perimeterd.Lookup.Agreement
import Perimeterd.Source.Issued

/-!
# Attribution agrees with enforcement

`explain` says which source records an address is in and which of them had a part in the outcome. It
expands the selectors of a policy a second time (`sourceRefs`), and searches the records themselves,
where the compiler works with their union and difference. `refMatches_iff` is the comparison: for a
normalized selector the references reach the keys the compiler collects, and a record holds an address
exactly when its key resolves to it.
-/

namespace Perimeterd

open Lib Policy List

namespace Catalog

theorem toUpper_cases (c : Char) : c.toUpper = c ∨ c.toUpper.toNat ≤ 90 := by
  unfold Char.toUpper
  split
  case isTrue h =>
    refine .inr ?_
    simp only [Char.toNat, UInt32.toNat_add, UInt32.le_iff_toNat_le] at h ⊢
    have hl : 'a'.val.toNat = 97 := rfl
    have hh : 'z'.val.toNat = 122 := rfl
    have hsh : ('A'.val - 'a'.val).toNat = 4294967264 := rfl
    omega
  case isFalse => exact .inl rfl

theorem toUpperChar_of_le {c : Char} (h : c.toNat ≤ 90) : toUpperChar c = c := by
  have hno : ∀ {d : Char}, 90 < d.toNat → (c == d) = false := fun hd => by
    rw [beq_eq_false_iff_ne]
    rintro rfl
    omega
  rw [toUpperChar, hno (by decide), hno (by decide)]
  simp only [Bool.false_eq_true, if_false]
  unfold Char.toUpper
  rw [dif_neg]
  intro hl
  have hge := hl.1
  simp only [UInt32.le_iff_toNat_le] at hge
  have hlo : 'a'.val.toNat = 97 := rfl
  unfold Char.toNat at h
  omega

theorem toUpperChar_idem (c : Char) : toUpperChar (toUpperChar c) = toUpperChar c := by
  by_cases hi : (c == 'ı') = true
  · simp only [toUpperChar, hi, if_true]
    decide
  by_cases hs : (c == 'ſ') = true
  · rw [show toUpperChar c = 'S' by simp [toUpperChar, hi, hs]]
    decide
  have hp : toUpperChar c = c.toUpper := by simp [toUpperChar, hi, hs]
  rcases toUpper_cases c with hsa | hu
  · rw [hp, hsa, hp, hsa]
  · rw [hp]
    exact toUpperChar_of_le hu

theorem toUpper_idem (s : String) : toUpper (toUpper s) = toUpper s := by
  rw [toUpper, toUpper, String.map_map]
  exact congrArg (String.map · s) (funext toUpperChar_idem)

end Catalog

namespace Lookup

/-! ## Keys -/

variable {value : Config.Selector} {groups : Config.Groups} {record : Source.Record}
  {texts : Source.Texts} {snapshot : Source.Snapshot} {cfg : Config} {s : Static}

/-- The expansion of a selector: its own countries and those of its groups. -/
def Expanded (groups : Config.Groups) (value : Config.Selector) : Prop :=
  ∀ code, code ∈ value.expandedCountries ↔ code ∈ value.countries ∨
    ∃ name ∈ value.groups, ∃ members, groups.members name = some members ∧
      ∃ member ∈ members, Catalog.toUpper member = code

theorem normalized_expanded {ipLists : List (String × Config.IPList)}
    {p : Config.Policy} (h : Config.NormalizedPolicy groups ipLists p) :
    Expanded groups p.included ∧ Expanded groups p.excluded := by
  obtain ⟨raw, field, count, hin⟩ := h.included
  refine ⟨Config.mem_expandedCountries hin, ?_⟩
  rcases h.excluded with hno | ⟨raw, field, count, hexc⟩
  · rw [hno]
    intro code
    simp
  · exact Config.mem_expandedCountries hexc

theorem mem_addSelector {kind : SelectorKind} (via : String) {names : List String} {k : Selector} :
    (∃ way, (k, way) ∈ names.filterMap (addSelector kind via)) ↔
      ∃ name ∈ names, canonicalSelector kind name = .ok k := by
  simp only [mem_filterMap, addSelector]
  constructor
  · rintro ⟨way, name, hna, h⟩
    split at h
    case h_1 selector hse =>
      cases h
      exact ⟨name, hna, hse⟩
    case h_2 => cases h
  · rintro ⟨name, hna, h⟩
    exact ⟨via, name, hna, by rw [h]⟩

/-- **The references reach the keys the compiler collects.** -/
theorem mem_selectedKeys (hva : Valid value) (hexp : Expanded groups value) (k : Selector) :
    (∃ way, (k, way) ∈ selectedKeys groups value) ↔ Selects value k := by
  simp only [selectedKeys, mem_append, exists_or, mem_addSelector]
  constructor
  · rintro (((((⟨c, hc, hk⟩ | ⟨way, hk⟩) | ⟨way, hk⟩) | ⟨v, hv, hk⟩) | ⟨v, hv, hk⟩) | ⟨v, hv, hk⟩)
    · rw [canonicalSelector_ok hk]
      exact .country hc
    · obtain ⟨group, hg, hk⟩ := mem_flatMap.mp hk
      obtain ⟨member, hmemb, hk⟩ := (mem_addSelector _).mp ⟨way, hk⟩
      cases hme : groups.members group with
      | none => simp [hme] at hmemb
      | some members =>
        rw [hme, Option.getD_some] at hmemb
        have hin := (hexp (Catalog.toUpper member)).mpr
          (.inr ⟨group, hg, members, hme, member, hmemb, rfl⟩)
        rw [canonicalSelector_ok hk, keyOf, ← Catalog.toUpper_idem]
        exact .expanded hin
    · obtain ⟨rir, hri, hk⟩ := mem_flatMap.mp hk
      rw [addRegion, (hva.rirs rir hri).1] at hk
      obtain ⟨c, hc, hk⟩ := (mem_addSelector _).mp ⟨way, hk⟩
      rw [canonicalSelector_ok hk]
      exact .region hri hc
    · rw [canonicalSelector_ok hk]
      exact .asn hv
    · rw [canonicalSelector_ok hk]
      exact .ipList hv
    · rw [canonicalSelector_ok hk]
      exact .provider hv
  · intro h
    cases h with
    | country hc => exact .inl (.inl (.inl (.inl (.inl ⟨_, hc, hva.countries _ hc⟩))))
    | @expanded c hc =>
      rcases (hexp c).mp hc with ho | ⟨group, hg, members, hme, member, hmemb, rfl⟩
      · exact .inl (.inl (.inl (.inl (.inl ⟨_, ho, hva.countries _ ho⟩))))
      · have hkey : canonicalSelector .country member =
            .ok ⟨.country, Catalog.toUpper (Catalog.toUpper member)⟩ := by
          have hco := hva.expanded _ hc
          rw [canonicalSelector, Catalog.toUpper_idem] at hco
          rw [canonicalSelector, Catalog.toUpper_idem]
          split at hco
          case isTrue hcoun => rw [if_pos hcoun]
          case isFalse => cases hco
        have hin : member ∈ (groups.members group).getD [] := by rwa [hme, Option.getD_some]
        obtain ⟨way, hw⟩ := (mem_addSelector ("group:" ++ group)).mpr ⟨member, hin, hkey⟩
        exact .inl (.inl (.inl (.inl (.inr ⟨way, mem_flatMap.mpr ⟨group, hg, hw⟩⟩))))
    | @region r c hr hc =>
      obtain ⟨hre, hcou⟩ := hva.rirs r hr
      obtain ⟨way, hw⟩ := (mem_addSelector ("rir:" ++ Catalog.toUpper r)).mpr ⟨c, hc, hcou c hc⟩
      refine .inl (.inl (.inl (.inr ⟨way, mem_flatMap.mpr ⟨r, hr, ?_⟩⟩)))
      rw [addRegion, hre]
      exact hw
    | asn hv => exact .inl (.inl (.inr ⟨_, hv, hva.asns _ hv⟩))
    | ipList hv => exact .inl (.inr ⟨_, hv, hva.ipLists _ hv⟩)
    | provider hv => exact .inr ⟨_, hv, hva.providers _ hv⟩

/-! ## Records -/

theorem sourcePrefix_eq (record : Source.Record) (a : Addr) :
    sourcePrefix record a = containingPrefix (recordPrefixes a.family record) a := by
  unfold sourcePrefix recordPrefixes Addr.is4
  cases a.family <;> rfl

theorem recordPrefixes_canonical (h : Source.Settled record) (f : Family) :
    Prefix.Canonical (recordPrefixes f record) := by
  cases f with
  | ipv4 =>
    obtain ⟨ps, hps, hc, -⟩ := Source.settled_family h.ipv4
    rwa [recordPrefixes, hps, validPrefixes_map]
  | ipv6 =>
    obtain ⟨ps, hps, hc, -⟩ := Source.settled_family h.ipv6
    rwa [recordPrefixes, hps, validPrefixes_map]

theorem covered_recordPrefixes (h : Source.Settled record) (a : Addr) :
    Prefix.Covered (recordPrefixes a.family record) a ↔
      ∃ p, (.valid p ∈ record.ipv4 ∨ .valid p ∈ record.ipv6) ∧ p.contains a = true := by
  obtain ⟨v4, h4, -, hfam⟩ := Source.settled_family h.ipv4
  obtain ⟨v6, h6, -, hfami⟩ := Source.settled_family h.ipv6
  have hmem : ∀ {ps : List Prefix} {p : Prefix},
      NetipPrefix.valid p ∈ ps.map NetipPrefix.valid ↔ p ∈ ps := by simp
  rw [h4, h6]
  simp only [hmem, recordPrefixes]
  refine exists_congr fun p => and_congr_left fun ha => ?_
  have hfa := Prefix.contains_family ha
  cases hf : a.family with
  | ipv4 =>
    rw [h4, validPrefixes_map]
    refine ⟨.inl, fun hp => hp.resolve_right fun hp6 => ?_⟩
    rw [hfami p hp6, hf] at hfa
    cases hfa
  | ipv6 =>
    rw [h6, validPrefixes_map]
    refine ⟨.inr, fun hp => hp.resolve_left fun hp4 => ?_⟩
    rw [hfam p hp4, hf] at hfa
    cases hfa

/-- **The search finds the prefix of a settled record that contains an address.** -/
theorem sourcePrefix_isSome (h : Source.Settled record) (a : Addr) :
    (sourcePrefix record a).isSome = true ↔ Prefix.Covered (recordPrefixes a.family record) a := by
  rw [sourcePrefix_eq, containingPrefix_isSome (recordPrefixes_canonical h _)]

theorem mem_sourceRefs {rcs : List Source.Record} :
    (∃ ref ∈ sourceRefs groups rcs value, ref.record = record) ↔
      record ∈ rcs ∧ ∃ way, (record.selector, way) ∈ selectedKeys groups value := by
  simp only [sourceRefs, mem_filterMap, Option.ite_none_left_eq_some, Option.some.injEq]
  have hre : (((selectedKeys groups value).filter (·.1 = record.selector)).isEmpty = true) ↔
      ¬ ∃ way, (record.selector, way) ∈ selectedKeys groups value := by
    rw [List.isEmpty_iff, filter_eq_nil_iff]
    simp only [decide_eq_true_eq, Prod.forall, not_exists]
    exact ⟨fun h way hw => h _ way hw rfl, fun h k way hw hk => h way (hk ▸ hw)⟩
  constructor
  · rintro ⟨ref, ⟨r, hr, hne, rfl⟩, rfl⟩
    exact ⟨hr, not_not.mp (hre.not.mp hne)⟩
  · rintro ⟨hin, hw⟩
    exact ⟨_, ⟨record, hin, hre.not.mpr (not_not.mpr hw), rfl⟩, rfl⟩

/-- **Some reference holds an address exactly when a selected key resolves to it.** -/
theorem refMatches_iff (his : Source.Issued texts snapshot) (hva : Valid value)
    (hexp : Expanded groups value) (a : Addr) :
    refMatches (sourceRefs groups snapshot.records value) a = true ↔
      ∃ k, Selects value k ∧ snapshot.policy.Resolves k a := by
  have hse := his.isLoaded.settled
  simp only [refMatches, any_eq_true, his.resolves]
  constructor
  · rintro ⟨ref, hre, ha⟩
    obtain ⟨hin, hw⟩ := mem_sourceRefs.mp ⟨ref, hre, rfl⟩
    exact ⟨_, (mem_selectedKeys hva hexp _).mp hw, ref.record, hin, rfl,
      (covered_recordPrefixes (hse _ hin) a).mp ((sourcePrefix_isSome (hse _ hin) a).mp ha)⟩
  · rintro ⟨k, hk, record, hin, rfl, hp⟩
    obtain ⟨ref, hre, rfl⟩ := mem_sourceRefs.mpr ⟨hin, (mem_selectedKeys hva hexp _).mpr hk⟩
    exact ⟨ref, hre, (sourcePrefix_isSome (hse _ hin) a).mpr
      ((covered_recordPrefixes (hse _ hin) a).mpr hp)⟩

/-! ## Policies -/

/-- An address matches some included and no excluded record of a policy. -/
def attributed (groups : Config.Groups) (records : List Source.Record) (p : Config.Policy)
    (a : Addr) : Bool :=
  refMatches (sourceRefs groups records p.included) a &&
    !refMatches (sourceRefs groups records p.excluded) a

section Policies

variable {texts : Source.Texts} {groups : Config.Groups} {ipLists : List (String × Config.IPList)}
  {cfg : Config} {snapshot : Source.Snapshot} {p : Config.Policy} {policySnapshot : Snapshot}

/-- **The references of an enabled policy and its effective set agree.** -/
theorem attributed_iff (his : Source.Issued texts snapshot)
    (c : Compilation cfg snapshot.policy) (hp : p ∈ cfg.policies)
    (hno : Config.NormalizedPolicy groups ipLists p) (hen : enabled p = true) (a : Addr) :
    attributed groups snapshot.records p a = true ↔ Effective snapshot.policy p a := by
  obtain ⟨set, hse⟩ := compileLoop_effectiveSet c.policies_eq (mem_sortSlice.mpr hp) hen
  unfold effectiveSet at hse
  obtain ⟨includeKeys, hinc, hse⟩ := bind_eq_ok.mp hse
  obtain ⟨excludeKeys, hexcl, -⟩ := bind_eq_ok.mp hse
  obtain ⟨hin, hexc⟩ := normalized_expanded hno
  rw [attributed, Bool.and_eq_true, Bool.not_eq_true', ← Bool.not_eq_true,
    refMatches_iff his (selectorKeys_eq_ok (mapError_eq_ok.mp hinc)).1 hin,
    refMatches_iff his (selectorKeys_eq_ok (mapError_eq_ok.mp hexcl)).1 hexc]
  rfl

theorem policy_unique (c : Compilation cfg policySnapshot)
    {q : Config.Policy} (hp : p ∈ cfg.policies) (hq : q ∈ cfg.policies)
    (hna : p.name = q.name) : p = q :=
  inj_on_of_nodup_map c.compiled.names (mem_sortSlice.mpr hp) (mem_sortSlice.mpr hq) hna

theorem compiled_policy (c : Compilation cfg policySnapshot)
    {value : CompiledPolicy} (h : value ∈ c.policies) :
    value.policy ∈ cfg.policies ∧ enabled value.policy = true := by
  have hin : value.policy ∈ (sortSlice policyLess cfg.policies).filter enabled :=
    c.compiled.policies ▸ mem_map_of_mem h
  rw [mem_filter, mem_sortSlice] at hin
  exact hin

variable {δ : Type} [DecidableEq δ] (fingerprint : Family → List Prefix → δ) {f : Family}

theorem rule_of_policy (c : Compilation cfg policySnapshot) {path : Path}
    (hp : path ∈ (c.input fingerprint f).plan.paths) {rule : Rule} (hru : rule ∈ path.rules)
    (hna : rule.policy ≠ "") :
    ∃ d, ∃ value ∈ (c.input fingerprint f).applicable, rule.policy = value.policy.name ∧
      rule ∈ policyRules d f (c.input fingerprint f).bindings c.deny value := by
  obtain ⟨d, rfl⟩ := FamilyInput.mem_paths.mp hp
  rcases FamilyInput.mem_rules.mp hru with
    hg | ⟨-, rfl⟩ | ⟨-, rfl⟩ | ⟨-, rfl⟩ | ⟨-, rfl⟩ | ⟨value, hvalue, hru⟩ | rfl
  · rcases mem_cons.mp hg with rfl | hg
    · exact absurd rfl hna
    · rw [mem_singleton.mp hg] at hna
      exact absurd rfl hna
  · exact absurd rfl hna
  · exact absurd rfl hna
  · exact absurd rfl hna
  · exact absurd rfl hna
  · exact ⟨d, value, hvalue, (policyRules_spec hru).1, hru⟩
  · exact absurd rfl hna

/-- **The set a policy's rules test is its effective set.** -/
theorem bound_set (c : Compilation cfg policySnapshot) {path : Path}
    (hpa : path ∈ (c.input fingerprint f).plan.paths) {rule : Rule} (hru : rule ∈ path.rules)
    (hp : p ∈ cfg.policies) (hna : rule.policy = p.name) (hne : p.name ≠ "")
    (hse : rule.matching.setID ≠ "") (banned : Addr → Bool) {a : Addr} (ha : a.family = f) :
    (c.input fingerprint f).plan.member rule.matching.setID banned a = true ↔
      Effective policySnapshot p a := by
  obtain ⟨d, value, hvalue, hbe, hru⟩ := rule_of_policy fingerprint c hpa hru (hna ▸ hne)
  have hin : value ∈ c.policies := (mem_filter.mp hvalue).1
  obtain rfl : value.policy = p := policy_unique c (compiled_policy c hin).1 hp (hbe.symm.trans hna)
  obtain ⟨-, hme⟩ := FamilyInput.member_geo (c.names fingerprint f) hvalue banned a
  rw [(policyRules_spec hru).2.resolve_left hse, hme, Prefix.Set.mem_view,
    c.compiled.effective value hin a]
  exact and_iff_left ha

theorem exists_bound (c : Compilation cfg policySnapshot)
    (hp : p ∈ cfg.policies) (hen : enabled p = true) (happ : policyApplies p.traffic f = true) :
    ∃ path ∈ (c.input fingerprint f).plan.paths, ∃ rule ∈ path.rules,
      rule.policy = p.name ∧ rule.matching.setID ≠ "" := by
  have hin : p ∈ c.policies.map (·.policy) := by
    rw [c.compiled.policies, mem_filter, mem_sortSlice]
    exact ⟨hp, hen⟩
  obtain ⟨value, hvalue, rfl⟩ := mem_map.mp hin
  have hap : value ∈ (c.input fingerprint f).applicable := mem_filter.mpr ⟨hvalue, happ⟩
  obtain ⟨d, hd⟩ : ∃ d : Direction, value.policy.direction = d.word := by
    rcases (compileLoop_each c.policies_eq value hvalue).1 with h | h
    · exact ⟨.ingress, h⟩
    · exact ⟨.egress, h⟩
  obtain ⟨hne, -⟩ := FamilyInput.member_geo (c.names fingerprint f) hap (fun _ => false)
    (Prefix.v4 0 0 0 0 0).addr
  have hru : ∃ rule ∈ policyRules d f (c.input fingerprint f).bindings c.deny value,
      rule.policy = value.policy.name ∧ rule.matching.setID ≠ "" := by
    unfold policyRules
    rw [if_neg (not_not.mpr hd), policyScope_of_applies happ]
    dsimp only
    split
    · exact ⟨_, mem_cons_self, rfl, hne⟩
    · exact ⟨_, mem_cons_self, rfl, hne⟩
  obtain ⟨rule, hrul, hrest⟩ := hru
  refine ⟨(c.input fingerprint f).path d, ?_, rule, ?_, hrest⟩
  · cases d with
    | ingress => exact mem_cons_self
    | egress => exact mem_cons_of_mem _ mem_cons_self
  · simp only [FamilyInput.path, compilePath, mem_append, mem_flatMap]
    exact .inl (.inr ⟨value, hap, hrul⟩)

end Policies

/-! ## Evidence -/

section Evidence

variable {s : Static} {dynamic : Dynamic} {rule : Rule} {stage : Stage} {a : Addr} {e : Evidence}

theorem mem_refEvidence {refs : List SourceRef} {policy : String} {role : Role}
    {contributing : Bool} :
    e ∈ refEvidence refs a policy role contributing ↔ ∃ ref ∈ refs, ∃ covered,
      sourcePrefix ref.record a = some covered ∧
        sourceEvidence ref policy role contributing covered = e := by
  simp only [refEvidence, mem_filterMap, Option.map_eq_some_iff]

theorem gathered_cases (h : e ∈ s.gathered dynamic rule stage a) :
    (∃ p, .valid p ∈ s.globalAllow ++ s.globalBlock ∧ p.contains a = true ∧ e.network = p ∧
      e.kind = "global" ∧ e.name ≠ "" ∧ e.provider = "" ∧ e.release = "" ∧
      (e.role = .allow ∨ e.role = .block)) ∨
    (∃ p ∈ s.policyList, p.mode ≠ .disabled ∧ ∃ ref covered,
      sourcePrefix ref.record a = some covered ∧
      (ref ∈ (s.sources p.name).included ∧ e = sourceEvidence ref p.name .includes
          (stage = .policy && rule.policy = p.name &&
            (refMatches (s.sources p.name).included a && !refMatches (s.sources p.name).excluded a))
          covered ∨
        ref ∈ (s.sources p.name).excluded ∧ e = sourceEvidence ref p.name .excludes
          (stage = .policy && rule.policy = p.name && refMatches (s.sources p.name).included a &&
            refMatches (s.sources p.name).excluded a) covered)) ∨
    ∃ d ∈ dynamic.decisions, d.pfx.contains a = true ∧ e.network = d.pfx ∧ e.kind = "crowdsec" ∧
      e.name ≠ "" ∧ e.provider = "" ∧ e.release = "" ∧ e.role = .decision := by
  simp only [Static.gathered, mem_append, mem_flatMap] at h
  rcases h with ((h | h) | ⟨p, hp, h⟩) | h
  · obtain ⟨p, hp, rfl⟩ := mem_map.mp h
    obtain ⟨hin, hc⟩ := mem_filter.mp hp
    exact .inl ⟨p, mem_append_left _ (mem_validPrefixes.mp hin), hc, rfl, rfl, by simp,
      rfl, rfl, .inl rfl⟩
  · obtain ⟨p, hp, rfl⟩ := mem_map.mp h
    obtain ⟨hin, hc⟩ := mem_filter.mp hp
    exact .inl ⟨p, mem_append_right _ (mem_validPrefixes.mp hin), hc, rfl, rfl, by simp,
      rfl, rfl, .inr rfl⟩
  · refine .inr (.inl ⟨p, hp, ?_⟩)
    unfold Static.policyEvidence at h
    split at h
    · cases h
    case isFalse hmo =>
      refine ⟨hmo, ?_⟩
      rcases mem_append.mp h with h | h
      · obtain ⟨ref, hre, covered, hco, he⟩ := mem_refEvidence.mp h
        exact ⟨ref, covered, hco, .inl ⟨hre, he.symm⟩⟩
      · obtain ⟨ref, hre, covered, hco, he⟩ := mem_refEvidence.mp h
        exact ⟨ref, covered, hco, .inr ⟨hre, he.symm⟩⟩
  · obtain ⟨d, hd, rfl⟩ := mem_map.mp h
    obtain ⟨hin, hc⟩ := mem_filter.mp hd
    exact .inr (.inr ⟨d, hin, hc, rfl, rfl, by simp, rfl, rfl, rfl⟩)

end Evidence

/-! ## Answers -/

/-- A view of a target, and what it was made of. -/
structure Explained (texts : Source.Texts) (groups : Config.Groups) (cfg : Config)
    (snapshot : Source.Snapshot) (s : Static) : Prop where
  policyList : s.policyList = cfg.policies
  lists : s.globalAllow ++ s.globalBlock = cfg.global.allowlist ++ cfg.global.blocklist
  sources : ∀ name, s.sources name =
    match cfg.policies.reverse.find? (·.name = name) with
    | some p => ⟨sourceRefs groups snapshot.records p.included,
        sourceRefs groups snapshot.records p.excluded⟩
    | none => {}
  records : ∀ f, s.family f ≠ none → ∀ record ∈ snapshot.records, ∀ p ∈ recordPrefixes f record,
    p ∈ s.boundaries f
  globals : ∀ f, s.family f ≠ none → ∀ p, .valid p ∈ s.globalAllow ++ s.globalBlock →
    p.addr.family = f → p ∈ s.boundaries f

theorem newStatic_explained {tgt : Option Firewall.Target}
    (h : newStatic texts groups cfg tgt snapshot = .ok s) :
    Explained texts groups cfg snapshot s := by
  obtain ⟨-, rfl⟩ := newStatic_eq_ok h
  cases tgt with
  | none => exact ⟨rfl, rfl, fun _ => rfl, fun f hf => absurd rfl hf, fun f hf => absurd rfl hf⟩
  | some tgt =>
    refine ⟨rfl, rfl, fun _ => rfl, fun f _ record hre p hp => ?_, fun f _ p hp hfa => ?_⟩
    · exact mem_familyBoundaries.mpr (.inr (.inl ⟨record, hre, hp⟩))
    · exact mem_familyBoundaries.mpr (.inr (.inr ⟨mem_validPrefixes.mpr hp, hfa⟩))

section Cells

variable {texts : Source.Texts} {groups : Config.Groups} {cfg : Config}
  {snapshot : Source.Snapshot} {s : Static} {f : Family} {dynamic : Dynamic} {cell : Prefix}

section

variable (hexp : Explained texts groups cfg snapshot s)

include hexp

theorem sources_eq {policySnapshot : Snapshot}
    (c : Compilation cfg policySnapshot) {p : Config.Policy} (hp : p ∈ cfg.policies) :
    s.sources p.name = ⟨sourceRefs groups snapshot.records p.included,
      sourceRefs groups snapshot.records p.excluded⟩ := by
  rw [hexp.sources]
  cases hf : cfg.policies.reverse.find? (·.name = p.name) with
  | none => simpa using List.find?_eq_none.mp hf p (mem_reverse.mpr hp)
  | some q =>
    have hna : q.name = p.name := by simpa using List.find?_some hf
    have hq := mem_reverse.mp (mem_of_find?_eq_some hf)
    rw [policy_unique c hq hp hna]

theorem ref_record {name : String} {ref : SourceRef}
    (h : ref ∈ (s.sources name).included ∨ ref ∈ (s.sources name).excluded) :
    ref.record ∈ snapshot.records := by
  rw [hexp.sources] at h
  split at h
  · rcases h with h | h
    · exact (mem_sourceRefs.mp ⟨ref, h, rfl⟩).1
    · exact (mem_sourceRefs.mp ⟨ref, h, rfl⟩).1
  · simp at h

/-- **Evidence holds the whole of a cell.** -/
theorem evidence_whole
    (hce : Whole s f dynamic cell) (hf : cell.addr.family = f) (hpl : s.family f ≠ none)
    {rule : Rule} {stage : Stage} {e : Evidence}
    (he : e ∈ s.gathered dynamic rule stage cell.addr) {a : Addr} (ha : cell.contains a = true) :
    e.network.contains a = true := by
  have hat : e.network.contains cell.addr = true ∧ Atomic e.network cell := by
    rcases gathered_cases he with
      ⟨p, hp, hc, rfl, -⟩ | ⟨p, -, -, ref, covered, hco, href⟩ | ⟨d, hd, hc, hne, -⟩
    · exact ⟨hc, hce.sets _ (hexp.globals f hpl _ hp ((Prefix.contains_family hc).trans hf))⟩
    · have hre : ref.record ∈ snapshot.records :=
        ref_record hexp (href.imp (fun h => h.1) fun h => h.1)
      have hne : e.network = covered := by
        rcases href with ⟨-, rfl⟩ | ⟨-, rfl⟩ <;> rfl
      rw [sourcePrefix_eq, hf] at hco
      obtain ⟨hin, hc⟩ := containingPrefix_mem hco
      rw [hne]
      exact ⟨hc, hce.sets _ (hexp.records f hpl _ hre _ hin)⟩
    · rw [hne]
      exact ⟨hc, hce.decisions d hd⟩
  rw [hat.2 a ha]
  exact hat.1

end

theorem attributed_whole (his : Source.Issued texts snapshot)
    (hexp : Explained texts groups cfg snapshot s) (hc : Whole s f dynamic cell)
    (hf : cell.addr.family = f) (hpl : s.family f ≠ none) (p : Config.Policy) {a : Addr}
    (ha : cell.contains a = true) :
    attributed groups snapshot.records p a = attributed groups snapshot.records p cell.addr := by
  have haf : a.family = f := (Prefix.contains_family ha).symm.trans hf
  have hre : ∀ value, refMatches (sourceRefs groups snapshot.records value) a =
      refMatches (sourceRefs groups snapshot.records value) cell.addr := by
    refine fun value => any_congr_mem fun ref href => ?_
    have hin := (mem_sourceRefs.mp ⟨ref, href, rfl⟩).1
    have hse := his.isLoaded.settled _ hin
    rw [Bool.eq_iff_iff, sourcePrefix_isSome hse, sourcePrefix_isSome hse, haf, hf]
    refine exists_congr fun p => and_congr_right fun hp => ?_
    rw [hc.sets p (hexp.records f hpl _ hin p hp) a ha]
  rw [attributed, attributed, hre, hre]

end Cells

theorem policy_evidence
    {ipLists : List (String × Config.IPList)} (his : Source.Issued texts snapshot)
    (hexp : Explained texts groups cfg snapshot s) (c : Compilation cfg snapshot.policy)
    {p : Config.Policy} (hp : p ∈ cfg.policies)
    (hno : Config.NormalizedPolicy groups ipLists p) (hen : enabled p = true)
    (dynamic : Dynamic) {rule : Rule} {stage : Stage} (hst : stage = .policy)
    (hna : rule.policy = p.name) (a : Addr) :
    (∀ e ∈ s.gathered dynamic rule stage a, e.role = .includes → e.policy = p.name →
      (e.contributing = true ↔ Effective snapshot.policy p a)) ∧
    (Effective snapshot.policy p a → ∃ e ∈ s.gathered dynamic rule stage a,
      e.role = .includes ∧ e.policy = p.name) := by
  have hso := sources_eq hexp c hp
  have hd : (decide (stage = .policy) && decide (rule.policy = p.name)) = true := by
    simp [hst, hna]
  constructor
  · intro e he hro hpo
    rw [← attributed_iff his c hp hno hen]
    rcases gathered_cases he with ⟨-, -, -, -, -, -, -, -, hal | hbl⟩ |
      ⟨p', hp', -, ref, covered, -, ⟨-, rfl⟩ | ⟨-, rfl⟩⟩ | ⟨-, -, -, -, -, -, -, -, hde⟩
    · cases hal.symm.trans hro
    · cases hbl.symm.trans hro
    · obtain rfl : p' = p := policy_unique c (hexp.policyList ▸ hp') hp hpo
      simp only [sourceEvidence, hd, Bool.true_and, hso]
      rfl
    · cases hro
    · cases hde.symm.trans hro
  · intro hef
    rw [← attributed_iff his c hp hno hen, attributed, Bool.and_eq_true] at hef
    obtain ⟨ref, hre, ha⟩ := any_eq_true.mp hef.1
    obtain ⟨covered, hc⟩ := Option.isSome_iff_exists.mp ha
    have hmo : p.mode ≠ .disabled := by simpa [enabled] using hen
    have hev : ∃ e ∈ s.policyEvidence rule stage a p, e.role = .includes ∧ e.policy = p.name := by
      unfold Static.policyEvidence
      rw [if_neg hmo, hso]
      exact ⟨_, mem_append_left _ (mem_refEvidence.mpr ⟨ref, hre, covered, hc, rfl⟩),
        rfl, rfl⟩
    obtain ⟨e, he, hrest⟩ := hev
    refine ⟨e, ?_, hrest⟩
    simp only [Static.gathered, mem_append, mem_flatMap]
    exact .inl (.inr ⟨p, hexp.policyList ▸ hp, he⟩)

/-- Where an evidence prefix comes from: a record of the snapshot, a list of the configuration, or a
decision. -/
def Originates (cfg : Config) (snapshot : Source.Snapshot) (f : Family) (dynamic : Dynamic)
    (e : Evidence) : Prop :=
  match e.role with
  | .includes | .excludes => ∃ record ∈ snapshot.records,
      e.kind = record.selector.kind.text ∧ e.name = record.selector.value ∧
        e.network ∈ recordPrefixes f record
  | .allow | .block => e.kind = "global" ∧
      .valid e.network ∈ cfg.global.allowlist ++ cfg.global.blocklist
  | .decision => e.kind = "crowdsec" ∧ ∃ d ∈ dynamic.decisions, e.network = d.pfx

/-- What an answer's evidence amounts to. -/
structure Attributes (cfg : Config) (snapshot : Source.Snapshot) (f : Family) (dynamic : Dynamic)
    (o : Outcome) : Prop where
  /-- Evidence holds every address of the outcome. -/
  whole : ∀ e ∈ o.evidence, ∀ a, o.network.contains a = true → e.network.contains a = true
  originates : ∀ e ∈ o.evidence, Originates cfg snapshot f dynamic e
  /-- Where a policy decided, its included records contribute exactly on its effective set. -/
  contributing : o.stage = .policy → ∀ p ∈ cfg.policies, p.name = o.policy →
    ∀ a, o.network.contains a = true →
      (∀ e ∈ o.evidence, e.role = .includes → e.policy = p.name →
        (e.contributing = true ↔ Effective snapshot.policy p a)) ∧
      (Effective snapshot.policy p a →
        ∃ e ∈ o.evidence, e.role = .includes ∧ e.policy = p.name ∧ e.contributing = true)

theorem gathered_originates (hexp : Explained texts groups cfg snapshot s)
    {dynamic : Dynamic} {rule : Rule} {stage : Stage} {a : Addr} {e : Evidence}
    (he : e ∈ s.gathered dynamic rule stage a) : Originates cfg snapshot a.family dynamic e := by
  unfold Originates
  rcases gathered_cases he with ⟨p, hp, -, rfl, hki, -, -, -, hro⟩ |
    ⟨p, hp, -, ref, covered, hc, href⟩ | ⟨d, hd, -, hne, hki, -, -, -, hro⟩
  · rw [hexp.lists] at hp
    rcases hro with hro | hro
    · rw [hro]
      exact ⟨hki, hp⟩
    · rw [hro]
      exact ⟨hki, hp⟩
  · have hre := ref_record hexp (href.imp (fun h => h.1) fun h => h.1)
    have hin := (containingPrefix_mem (sourcePrefix_eq ref.record a ▸ hc)).1
    rcases href with ⟨-, rfl⟩ | ⟨-, rfl⟩
    · exact ⟨ref.record, hre, rfl, rfl, hin⟩
    · exact ⟨ref.record, hre, rfl, rfl, hin⟩
  · rw [hro]
    exact ⟨hki, d, hd, hne⟩

section Outcomes

variable {δ : Type} [DecidableEq δ] (fingerprint : Family → List Prefix → δ)
  {texts : Source.Texts} {groups : Config.Groups} {ipLists : List (String × Config.IPList)}
  {cfg : Config} {snapshot : Source.Snapshot} {s : Static} {f : Family} {dynamic : Dynamic}
  {now : Time}

theorem deciding_enabled (c : Compilation cfg snapshot.policy)
    (hpl : ∀ plan ∈ s.families, plan = (c.input fingerprint plan.family).plan)
    {plan : FamilyPlan} (hpla : s.family f = some plan) {path : Path} (hpa : path ∈ plan.paths)
    {rule : Rule} (hru : rule ∈ path.rules) {p : Config.Policy} (hp : p ∈ cfg.policies)
    (hna : p.name = rule.policy) (hne : p.name ≠ "") : enabled p = true := by
  obtain ⟨hin, -⟩ := family_mem hpla
  rw [hpl plan hin] at hpa
  obtain ⟨-, value, hvalue, hbe, -⟩ := rule_of_policy fingerprint c hpa hru (hna ▸ hne)
  obtain ⟨hva, hen⟩ := compiled_policy c (mem_filter.mp hvalue).1
  obtain rfl : value.policy = p := policy_unique c hva hp (hbe.symm.trans hna.symm)
  exact hen

theorem reply_attributes (hno : ∀ p ∈ cfg.policies, Config.NormalizedPolicy groups ipLists p)
    (his : Source.Issued texts snapshot) (hexp : Explained texts groups cfg snapshot s)
    (c : Compilation cfg snapshot.policy)
    (hpla : ∀ plan ∈ s.families, plan = (c.input fingerprint plan.family).plan) {job : Job}
    {o : Outcome} (hce : Whole s f dynamic job.address) (hf : job.address.addr.family = f)
    (h : s.reply f dynamic now job = some o) : Attributes cfg snapshot f dynamic o := by
  rcases reply_cases h with ⟨attachment, reason, -, rfl, -⟩ |
    ⟨attachment, plan, path, rule, -, hpl, hpa, hru, rfl⟩
  · exact ⟨nofun, nofun, nofun⟩
  have hsome : s.family f ≠ none := by simp [hpl]
  refine ⟨fun e he a ha =>
      evidence_whole hexp hce hf hsome (mem_sortSlice.mp he) ha,
    fun e he => hf ▸ gathered_originates hexp (mem_sortSlice.mp he),
    fun hst p hp hna a ha => ?_⟩
  have hen := deciding_enabled fingerprint c hpla hpl (mem_of_find?_eq_some hpa)
    (mem_of_find?_eq_some hru) hp hna (hno p hp).name_ne
  obtain ⟨hc, hexi⟩ := policy_evidence his hexp c hp (hno p hp) hen
    dynamic hst hna.symm job.address.addr
  -- the records of the policy hold the cell whole, so its first address answers for all
  have hw : Effective snapshot.policy p a ↔ Effective snapshot.policy p job.address.addr := by
    rw [← attributed_iff his c hp (hno p hp) hen,
      ← attributed_iff his c hp (hno p hp) hen,
      attributed_whole his hexp hce hf hsome _ ha]
  rw [hw]
  refine ⟨fun e he hro hpo => hc e (mem_sortSlice.mp he) hro hpo, ?_⟩
  intro hef
  obtain ⟨e, he, hro, hpo⟩ := hexi hef
  exact ⟨e, mem_sortSlice.mpr he, hro, hpo, (hc e he hro hpo).mpr hef⟩

theorem Run.attributes {q : Query} (run : Run s dynamic q now) (hse : Served s)
    (hre : ∀ job o, Whole s q.network.addr.family dynamic job.address →
      job.address.addr.family = q.network.addr.family →
      s.reply q.network.addr.family dynamic now job = some o →
      Attributes cfg snapshot q.network.addr.family dynamic o)
    {r : Outcome} (hr : r ∈ coalesceOutcomes run.outcomes) :
    Attributes cfg snapshot q.network.addr.family dynamic r := by
  obtain ⟨hti, hw⟩ := run.tiles hse
  have htu : ∀ a, r.network.contains a = true → ∃ o,
      Attributes cfg snapshot q.network.addr.family dynamic o ∧ o.network.contains a = true ∧
      o.evidence = r.evidence ∧ o.stage = r.stage ∧ o.policy = r.policy := by
    intro a ha
    obtain ⟨job, hjo, o, ho, hsam, -, hn, hin⟩ := run.turn_of hse hr ha
    have hce := (mem_jobs.mp hjo).1
    have hf : job.address.addr.family = q.network.addr.family := hti.family hce
    refine ⟨o, hre job o (hw _ hce) hf ho, hn ▸ hin, ?_⟩
    rw [← outcomeSame_iff.mp hsam]
    exact ⟨rfl, rfl, rfl⟩
  refine ⟨fun e he a ha => ?_, fun e he => ?_, fun hst p hp hna a ha => ?_⟩
  · obtain ⟨o, hat, hin, hev, -⟩ := htu a ha
    exact hat.whole e (hev ▸ he) a hin
  · obtain ⟨o, hat, -, hev, -⟩ := htu _ r.network.contains_addr
    exact hat.originates e (hev ▸ he)
  · obtain ⟨o, hat, hin, hev, hsameStage, hsa⟩ := htu a ha
    rw [← hev]
    exact hat.contributing (hsameStage ▸ hst) p hp (hsa ▸ hna) a hin

end Outcomes

/-- **Attribution agrees with enforcement.** Let a normalized configuration compile over a snapshot
that was issued. For every enabled policy an address matches some included and no excluded record
exactly when it is in the policy's effective set, which is the set each of its rules tests; a policy
that can match anything in a managed family tests one there. In every answer of a view of the result
all evidence holds the whole of its outcome and comes from where it says, and where a policy decided
its included records contribute exactly on its effective set. -/
theorem attribution_agrees {δ : Type} [DecidableEq δ] (fingerprint : Family → List Prefix → δ)
    (texts : Source.Texts) (groups : Config.Groups) (ipLists : List (String × Config.IPList))
    (cfg : Config) (snapshot : Source.Snapshot) (st : Policy.State)
    (hnormal : ∀ p ∈ cfg.policies, Config.NormalizedPolicy groups ipLists p)
    (hissued : Source.Issued texts snapshot)
    (hcompile : compile fingerprint cfg snapshot.policy = .ok st) :
    (∀ p ∈ cfg.policies, enabled p = true →
      (∀ a, attributed groups snapshot.records p a = true ↔ Effective snapshot.policy p a) ∧
      ∀ plan ∈ st.families,
        (policyApplies p.traffic plan.family = true → ∃ path ∈ plan.paths, ∃ rule ∈ path.rules,
          rule.policy = p.name ∧ rule.matching.setID ≠ "") ∧
        ∀ path ∈ plan.paths, ∀ rule ∈ path.rules, rule.policy = p.name →
          rule.matching.setID ≠ "" → ∀ banned a, a.family = plan.family →
          (attributed groups snapshot.records p a = true ↔
            plan.member rule.matching.setID banned a = true)) ∧
    ∀ target s, newStatic texts groups cfg target snapshot = .ok s →
      (∀ t, target = some t → t.families = st.families) →
      ∀ interrupted clock dynamic q now r,
        evaluate interrupted clock (some s) dynamic q now = .ok r →
        ∀ o ∈ r.outcomes, Attributes cfg snapshot q.network.addr.family dynamic o := by
  obtain ⟨c, hst⟩ := compile_cases hcompile
  have hpla := compiled_plans hst
  constructor
  · intro p hp hen
    have hag := attributed_iff hissued c hp (hnormal p hp) hen
    refine ⟨hag, fun plan hpl => ⟨fun hap => ?_, ?_⟩⟩
    · rw [hpla plan hpl]
      exact exists_bound fingerprint c hp hen hap
    · intro path hpa rule hru hna hse banned a ha
      rw [hpla plan hpl] at hpa
      have hbo := bound_set fingerprint c hpa hru hp hna (hnormal p hp).name_ne hse banned ha
      rw [← hpla plan hpl] at hbo
      rw [hag, hbo]
  · intro target s hsta hta interrupted clock dynamic q now r h o ho
    have hf : ∀ plan ∈ s.families, plan ∈ st.families := by
      obtain ⟨-, rfl⟩ := newStatic_eq_ok hsta
      cases target with
      | none => nofun
      | some target =>
        intro plan hpl
        exact hta target rfl ▸ hpl
    obtain ⟨run, -, -, hou, -⟩ := evaluate_eq_ok h
    rw [hou] at ho
    exact run.attributes (newStatic_served hsta)
      (fun job o hc hfa hre => reply_attributes fingerprint hnormal hissued
        (newStatic_explained hsta) c (fun plan hpl => hpla plan (hf plan hpl)) hc
        hfa hre) ho

def nearGroups : Config.Groups := [("near", ["DE"])]

/-- A policy that blocks a group and a network by its number, but for what another network holds. -/
def sourcedConfig : Config where
  firewall := { denyAction := .drop, ipv6 := false }
  geo := { countryProvider := .ripestat }
  policies :=
    [{ name := "block", priority := 10, direction := .ingress, mode := .blocklist,
       traffic := { any := true }
       included := { groups := ["near"], asns := ["AS64500"], expandedCountries := ["DE"] }
       excluded := { asns := ["AS64501"] } }]

def sourcedRecord (asn : String) (resource : String) (network : Prefix) : Source.Record where
  selector := ⟨.asn, asn⟩
  endpoint := Source.asnEndpoint
  apiVersion := Source.asnVersion
  parameters := [("resource", resource), ("sourceapp", "perimeterd")]
  retrievedAt := 10
  queryStart := 10
  queryEnd := 10
  ipv4 := [.valid network]

/-- The country holds the first network, and that holds the second. -/
def sourcedRecords : List Source.Record :=
  [sourcedRecord "AS64500" "64500" (.v4 8 8 8 0 24),
   sourcedRecord "AS64501" "64501" (.v4 8 8 8 128 25),
   { sourcedRecord "" "" (.v4 8 8 0 0 16) with
     selector := ⟨.country, "DE"⟩
     endpoint := Source.countryEndpoint
     apiVersion := Source.countryVersion
     parameters :=
       [("resource", "DE"), ("sourceapp", "perimeterd"), ("v4_format", "prefix")] }]

def sourcedSnapshot : Source.Snapshot where
  manifest := some 1
  policy := ⟨[(⟨.asn, "AS64500"⟩, mustPrefixSet [.v4 8 8 8 0 24]),
    (⟨.asn, "AS64501"⟩, mustPrefixSet [.v4 8 8 8 128 25]),
    (⟨.country, "DE"⟩, mustPrefixSet [.v4 8 8 0 0 16])]⟩
  records := sourcedRecords

def sourcedFamilies : List FamilyPlan :=
  match compile (fun f ps => (f, ps)) sourcedConfig sourcedSnapshot.policy with
  | .ok st => st.families
  | .error _ => []

def sourcedStatic : Static :=
  (emptyStatic nearGroups sourcedConfig sourcedSnapshot).withTarget sourcedSnapshot.records
    { blockTarget with families := sourcedFamilies }

/-- One address of both included sources. -/
def sourcedQuery : Query := { halfQuery with network := .v4 8 8 8 8 32, masked := by decide }

def excludedQuery : Query := { halfQuery with network := .v4 8 8 8 200 32, masked := by decide }

theorem sourced_address_attributed :
    (∃ r, evaluate none 0 (some sourcedStatic) {} sourcedQuery 1 = .ok r ∧ r.verdict = .blocked ∧
      ∀ o ∈ r.outcomes, Attributes sourcedConfig sourcedSnapshot .ipv4 {} o) ∧
    ∃ r, evaluate none 0 (some sourcedStatic) {} excludedQuery 1 = .ok r ∧ r.verdict = .notBlocked ∧
      ∀ o ∈ r.outcomes, Attributes sourcedConfig sourcedSnapshot .ipv4 {} o := by
  have hno : ∀ p ∈ sourcedConfig.policies, Config.NormalizedPolicy nearGroups [] p := by
    intro p hp
    obtain rfl := mem_singleton.mp hp
    exact ⟨by decide, ⟨{ groups := some ["near"], asns := some ["AS64500"] }, "", 2,
      by decide +kernel⟩, .inr ⟨{ asns := some ["AS64501"] }, "", 1, by decide +kernel⟩⟩
  have his : Source.Issued Source.plainTexts sourcedSnapshot :=
    .loaded (show Source.loadContent Source.plainTexts 1 sourcedRecords = .ok sourcedSnapshot by
      with_unfolding_all rfl)
  have hag := attribution_agrees (fun f ps => (f, ps)) Source.plainTexts nearGroups []
    sourcedConfig sourcedSnapshot ⟨sourcedFamilies⟩ hno his (by decide +kernel)
  have hstatic : newStatic Source.plainTexts nearGroups sourcedConfig
      (some { blockTarget with families := sourcedFamilies }) sourcedSnapshot =
        .ok sourcedStatic := by
    rw [newStatic, show Source.validateSnapshot Source.plainTexts sourcedConfig sourcedSnapshot =
      .ok () by decide +kernel]
    rfl
  have hview := hag.2 _ sourcedStatic hstatic (fun t ht => by cases ht; rfl) none 0 {}
  obtain ⟨r, hr, hve⟩ : ∃ r, evaluate none 0 (some sourcedStatic) {} sourcedQuery 1 = .ok r ∧
      decide (r.verdict = .blocked) = true := exists_ok (by decide +kernel)
  obtain ⟨r', hr', hve'⟩ : ∃ r, evaluate none 0 (some sourcedStatic) {} excludedQuery 1 = .ok r ∧
      decide (r.verdict = .notBlocked) = true := exists_ok (by decide +kernel)
  exact ⟨⟨r, hr, of_decide_eq_true hve, hview sourcedQuery 1 r hr⟩,
    r', hr', of_decide_eq_true hve', hview excludedQuery 1 r' hr'⟩

end Lookup

end Perimeterd
