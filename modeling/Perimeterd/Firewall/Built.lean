import Perimeterd.Config.Traffic
import Perimeterd.Firewall.Build
import Perimeterd.Firewall.Names
import Perimeterd.Policy.Plan

/-!
# What is built is valid

`ValidateTarget` runs at the end of `BuildTarget`, and again once the engine has renewed a target. For
nftables neither run can fail on what was compiled from a normalized configuration (`buildTarget_total`).

The first half of the module says, validator by validator, what is accepted (`SetFits`, `RuleFits`,
`PlanFits`); each is proved sufficient along the loop that checks it. The second half shows that plans
as compiled are of that kind.
-/

namespace Perimeterd.Firewall

open Lib Policy List

variable {digest : String → String} {prefixText : Prefix → String} {t : Target} {f : Family}

/-! ## Loops that remember keys -/

/-- The elements have different keys, none of them seen before. -/
def Unseen {α κ : Type} (key : α → κ) (seen : List κ) (l : List α) : Prop :=
  (l.map key).Nodup ∧ ∀ x ∈ l, key x ∉ seen

theorem Unseen.start {α κ : Type} {key : α → κ} {l : List α} (h : (l.map key).Nodup) :
    Unseen key [] l :=
  ⟨h, fun _ _ => not_mem_nil⟩

theorem Unseen.cons {α κ : Type} {key : α → κ} {seen : List κ} {a : α} {l : List α}
    (h : Unseen key seen (a :: l)) :
    key a ∉ seen ∧ (∀ x ∈ l, key x ≠ key a) ∧ Unseen key (key a :: seen) l := by
  obtain ⟨hno, hse⟩ := h
  rw [map_cons, nodup_cons] at hno
  rw [forall_mem_cons] at hse
  have hne : ∀ x ∈ l, key x ≠ key a := fun x hx heq => hno.1 (heq ▸ mem_map_of_mem hx)
  refine ⟨hse.1, hne, hno.2, fun x hx => ?_⟩
  rw [mem_cons, not_or]
  exact ⟨hne x hx, hse.2 x hx⟩

/-! ## Sets -/

structure SetFits (t : Target) (f : Family) (s : PrefixSet) : Prop where
  kind : s.kind = .static ∧ validStaticSetID s.id = true ∨
    s.kind = .crowdsec ∧ s.id = "crowdsec" ∧ s.prefixes = [] ∧ t.dynamicGeneration.isSome = true
  prefixes : ∀ p ∈ s.prefixes, p.addr.family = f ∧ p.Masked

theorem SetFits.usable {s : PrefixSet} (h : SetFits t f s) : Usable t s.id := by
  rcases h.kind with ⟨-, hid⟩ | ⟨-, hid, -, hd⟩
  · exact .inl hid
  · exact .inr ⟨hid, hd⟩

theorem checkKind_ok {s : PrefixSet} (h : SetFits t f s) : checkKind t s = .ok () := by
  unfold checkKind
  rcases h.kind with ⟨hki, hid⟩ | ⟨hki, hid, hp, hd⟩
  · rw [hki]
    exact if_pos hid
  · have hne : t.dynamicGeneration ≠ none := Option.isSome_iff_ne_none.mp hd
    rw [hki]
    simp [hid, hp, hne]

theorem checkPrefixes_ok (id : String) : ∀ {ps : List Prefix},
    (∀ p ∈ ps, p.addr.family = f ∧ p.Masked) → checkPrefixes prefixText id f ps = .ok ()
  | [], _ => rfl
  | p :: ps, h => by
    rw [forall_mem_cons] at h
    refine bind_eq_ok.mpr ⟨(), mapError_eq_ok.mpr ?_, checkPrefixes_ok id h.2⟩
    unfold validatePrefix
    rw [if_neg (not_not.mpr h.1.1), if_neg (not_not.mpr h.1.2)]

theorem claimNative_ok (hd : HexDigest digest) (hba : t.iptables = none) {id : String}
    (hid : Usable t id) {native : List (Artifact × String)} (hf : ∀ n ∈ native, n.1 ≠ setName digest t f id) :
    claimNative digest t f id native = .ok ((setName digest t f id, id) :: native) := by
  have hno : native.find? (·.1 = setName digest t f id) = none := by
    rw [List.find?_eq_none]
    intro n hn
    rw [decide_eq_true_eq]
    exact hf n hn
  simp [claimNative, hba, setName_valid hd f hid, hno]

theorem checkSets_ok (hd : HexDigest digest) (hba : t.iptables = none) {ids : List String}
    (hc : Set.InjOn digest {id | id ∈ ids}) {sets : List PrefixSet} :
    ∀ {seen : List String} {native : List (Artifact × String)},
      (∀ s ∈ sets, SetFits t f s ∧ s.id ∈ ids) → Unseen (·.id) seen sets →
      (∀ n ∈ native, ∀ s ∈ sets, n.1 ≠ setName digest t f s.id) →
      ∃ native', checkSets digest prefixText t f seen native sets = .ok native' ∧
        ∀ n ∈ native', n ∈ native ∨ ∃ s ∈ sets, n.1 = setName digest t f s.id := by
  induction sets with
  | nil => exact fun {seen native} _ _ _ => ⟨native, rfl, fun n hn => .inl hn⟩
  | cons s rest ih =>
    intro seen native hfits hse hf
    obtain ⟨⟨hs, hin⟩, hrest⟩ := forall_mem_cons.mp hfits
    obtain ⟨hnew, hother, hse⟩ := hse.cons
    have hcl := claimNative_ok hd hba hs.usable (fun n hn => hf n hn s mem_cons_self)
    -- the name just claimed belongs to no later set
    have hl : ∀ n ∈ (setName digest t f s.id, s.id) :: native, ∀ u ∈ rest,
        n.1 ≠ setName digest t f u.id := by
      refine forall_mem_cons.mpr ⟨fun u hu heq => ?_, fun n hn u hu =>
        hf n hn u (mem_cons_of_mem _ hu)⟩
      exact hother u hu (setName_role_inj hd hs.usable (hrest u hu).1.usable
        (fun heq => hc hin (hrest u hu).2 heq) (congrArg Artifact.role heq)).2.symm
    obtain ⟨native', hch, hn'⟩ := ih hrest hse hl
    refine ⟨native', ?_, fun n hn => ?_⟩
    · refine bind_eq_ok.mpr ⟨(), checkKind_ok hs, ?_⟩
      refine guard_eq_ok.mpr ⟨hnew, ?_⟩
      refine bind_eq_ok.mpr ⟨_, hcl, ?_⟩
      exact bind_eq_ok.mpr ⟨(), checkPrefixes_ok s.id hs.prefixes, hch⟩
    · rcases hn' n hn with hn | ⟨u, hu, heq⟩
      · rcases mem_cons.mp hn with rfl | hn
        · exact .inr ⟨s, mem_cons_self, rfl⟩
        · exact .inl hn
      · exact .inr ⟨u, mem_cons_of_mem _ hu, heq⟩

/-! ## Rules and paths -/

variable {d : Direction} {setIDs : List String} {rule : Rule}

/-- A rule as the validator wants it on a path. -/
structure RuleFits (d : Direction) (setIDs : List String) (rule : Rule) : Prop where
  scope : validTrafficScope rule.matching.traffic = true
  reference : rule.matching.setID = "" ∨ rule.matching.setID ∈ setIDs
  negated : rule.matching.negateSet = true → rule.matching.setID = "geo_eligible"
  guarded : rule.matching.flow ≠ none →
    rule.matching.traffic.any = true ∧ rule.matching.setID = "" ∧ rule.policy = ""
  counter : checkCounter rule = .ok ()
  crowdsec : rule.matching.setID = "crowdsec" → crowdsecRule d rule = true

theorem checkReference_ok (h : RuleFits d setIDs rule) :
    checkReference rule.matching setIDs = .ok () := by
  unfold checkReference
  by_cases hid : rule.matching.setID = ""
  · have hne : rule.matching.negateSet = false := by
      cases hn : rule.matching.negateSet with
      | false => rfl
      | true =>
        have := h.negated hn
        rw [hid] at this
        exact absurd this (by decide)
    simp [hid, hne]
  · have hmem := h.reference.resolve_left hid
    have hne : ¬ (rule.matching.negateSet = true ∧ rule.matching.setID ≠ "geo_eligible") :=
      fun hbo => hbo.2 (h.negated hbo.1)
    rw [if_pos hid, if_neg (not_not.mpr hmem), if_neg hne]

theorem validateRuntimeRule_ok (h : RuleFits d setIDs rule) : validateRuntimeRule rule setIDs = .ok () := by
  refine guard_eq_ok.mpr ⟨by rw [h.scope]; decide, ?_⟩
  refine bind_eq_ok.mpr ⟨(), checkReference_ok h, ?_⟩
  refine guard_eq_ok.mpr ⟨?_, h.counter⟩
  rintro ⟨hf, ho⟩
  obtain ⟨han, hid, hp⟩ := h.guarded hf
  simp [han, hid, hp] at ho

theorem checkRules_ok : ∀ {rules : List Rule},
    (∀ rule ∈ rules, RuleFits d setIDs rule) → checkRules d setIDs rules = .ok ()
  | [], _ => rfl
  | rule :: rest, h => by
    rw [forall_mem_cons] at h
    refine bind_eq_ok.mpr ⟨(), mapError_eq_ok.mpr (validateRuntimeRule_ok h.1), ?_⟩
    refine guard_eq_ok.mpr ⟨?_, checkRules_ok h.2⟩
    rintro ⟨hid, hru⟩
    rw [h.1.crowdsec hid] at hru
    cases hru

structure PathFits (setIDs : List String) (path : Path) : Prop where
  remote : path.remote = wantRemote path.direction
  processed : path.processed = .processed
  rules : ∀ rule ∈ path.rules, RuleFits path.direction setIDs rule

theorem checkPaths_ok {paths : List Path} : ∀ {seen : List Direction},
    (∀ path ∈ paths, PathFits setIDs path) → Unseen (·.direction) seen paths →
      checkPaths setIDs seen paths = .ok ((paths.map (·.direction)).reverse ++ seen) := by
  induction paths with
  | nil => exact fun _ _ => rfl
  | cons path rest ih =>
    intro seen hfits hse
    rw [forall_mem_cons] at hfits
    obtain ⟨hnew, -, hse⟩ := hse.cons
    refine guard_eq_ok.mpr ⟨not_not.mpr hfits.1.remote, ?_⟩
    refine guard_eq_ok.mpr ⟨hnew, ?_⟩
    refine guard_eq_ok.mpr ⟨not_not.mpr hfits.1.processed, ?_⟩
    refine bind_eq_ok.mpr ⟨(), checkRules_ok hfits.1.rules, ?_⟩
    rw [ih hfits.2 hse]
    simp

/-! ## Families -/

/-- A plan as the validator wants it in a target. -/
structure PlanFits (t : Target) (plan : FamilyPlan) : Prop where
  sets : ∀ s ∈ plan.sets, SetFits t plan.family s
  distinct : (plan.sets.map (·.id)).Nodup
  dynamic : plan.sets.any (·.kind = .crowdsec) = t.dynamicGeneration.isSome
  paths : ∀ path ∈ plan.paths, PathFits (plan.sets.map (·.id)) path
  directions : plan.paths.map (·.direction) = [.ingress, .egress]

theorem checkFamilies_ok (hd : HexDigest digest) (hba : t.iptables = none) {ids : List String}
    (hc : Set.InjOn digest {id | id ∈ ids}) {plans : List FamilyPlan} :
    ∀ {seen : List Family} {native : List (Artifact × String)},
      (∀ plan ∈ plans, PlanFits t plan ∧ ∀ s ∈ plan.sets, s.id ∈ ids) →
      Unseen (·.family) seen plans →
      (∀ n ∈ native, ∃ f ∈ seen, ∃ id ∈ ids, Usable t id ∧ n.1 = setName digest t f id) →
        checkFamilies digest prefixText t seen native plans = .ok () := by
  induction plans with
  | nil => exact fun _ _ _ => rfl
  | cons plan rest ih =>
    intro seen native hfits hse hna
    obtain ⟨⟨hp, hids⟩, hrest⟩ := forall_mem_cons.mp hfits
    obtain ⟨hnew, -, hse⟩ := hse.cons
    -- a name of an earlier family is no name of this one
    have hfr : ∀ n ∈ native, ∀ s ∈ plan.sets, n.1 ≠ setName digest t plan.family s.id := by
      intro n hn s hs heq
      obtain ⟨f, hf, id, hid, hu, hnam⟩ := hna n hn
      rw [hnam] at heq
      have hsa := (setName_role_inj hd hu (hp.sets s hs).usable
        (fun heq => hc hid (hids s hs) heq) (congrArg Artifact.role heq)).1
      exact hnew (hsa ▸ hf)
    obtain ⟨native', hset, hn'⟩ := checkSets_ok hd hba hc
      (fun s hs => ⟨hp.sets s hs, hids s hs⟩) (.start hp.distinct) hfr
    have hpa := checkPaths_ok hp.paths (.start (by rw [hp.directions]; decide))
    rw [hp.directions] at hpa
    refine guard_eq_ok.mpr ⟨hnew, ?_⟩
    refine bind_eq_ok.mpr ⟨native', hset, ?_⟩
    refine guard_eq_ok.mpr ⟨not_not.mpr hp.dynamic, ?_⟩
    refine bind_eq_ok.mpr ⟨_, hpa, ?_⟩
    refine guard_eq_ok.mpr ⟨by decide, ?_⟩
    refine ih hrest hse fun n hn => ?_
    rcases hn' n hn with hn | ⟨s, hs, heq⟩
    · obtain ⟨f, hf, hkn⟩ := hna n hn
      exact ⟨f, mem_cons_of_mem _ hf, hkn⟩
    · exact ⟨plan.family, mem_cons_self, s.id, hids s hs, (hp.sets s hs).usable, heq⟩

/-! ## Counters -/

/-- A counter with the name its role gives it. -/
def CounterFits (owner : Id) (c : CounterSpec) : Prop :=
  validRole c.role = true ∧ c.name = counterName owner c.family c.direction c.role

theorem CounterFits.eq_spec {owner : Id} {c : CounterSpec} (h : CounterFits owner c) :
    c = c.name.spec := by
  obtain ⟨name, family, dir, role⟩ := c
  have hna : name = counterName owner family dir role := h.2
  subst hna
  rfl

theorem checkCounters_ok {cs : List CounterSpec} :
    ∀ {seen : List CounterName}, (∀ c ∈ cs, CounterFits t.owner c) → Unseen (·.name) seen cs →
      (∀ n ∈ expectedCounters t, n ∈ seen ∨ n ∈ cs.map (·.name)) →
        checkCounters t seen cs = .ok () := by
  induction cs with
  | nil =>
    intro seen _ _ hexp
    have hnon : (expectedCounters t).find? (· ∉ seen) = none := by
      rw [List.find?_eq_none]
      intro n hn
      simpa using hexp n hn
    rw [checkCounters, hnon]
  | cons c rest ih =>
    intro seen hfits hse hexp
    rw [forall_mem_cons] at hfits
    obtain ⟨hnew, -, hse⟩ := hse.cons
    rw [checkCounters, if_neg (by rw [hfits.1.1]; decide), if_neg (not_not.mpr hfits.1.2),
      if_neg hnew]
    refine ih hfits.2 hse fun n hn => ?_
    rcases hexp n hn with hn | hn
    · exact .inl (mem_cons_of_mem _ hn)
    · rcases mem_cons.mp hn with rfl | hn
      · exact .inl mem_cons_self
      · exact .inr hn

section

variable (hp : ∀ plan ∈ t.families, PlanFits t plan) {prev : Option Target}

include hp

theorem expected_fits {n : CounterName} (hn : n ∈ expectedCounters t) :
    CounterFits t.owner n.spec := by
  obtain ⟨plan, hpl, hn⟩ := mem_flatMap.mp hn
  obtain ⟨path, hpa, hn⟩ := mem_flatMap.mp hn
  have hfits := (hp plan hpl).paths path hpa
  rcases mem_cons.mp hn with rfl | hn
  · refine ⟨?_, rfl⟩
    change validRole path.processed = true
    rw [hfits.processed]
    rfl
  · obtain ⟨rule, hru, hn⟩ := mem_filterMap.mp hn
    have hcounter := (hfits.rules rule hru).counter
    unfold checkCounter at hcounter
    cases hc : rule.counter with
    | none => rw [hc] at hn; cases hn
    | some role =>
      cases role with
      | processed => rw [hc] at hn; cases hn
      | denied reason action =>
        rw [hc] at hn hcounter
        obtain rfl := Option.some.inj hn
        obtain ⟨hva, -⟩ := ite_throw_eq_ok.mp hcounter
        exact ⟨Bool.not_eq_false _ |>.mp hva, rfl⟩

omit hp in
theorem mem_desiredCounters {c : CounterSpec} :
    c ∈ desiredCounters t prev ↔
      (∃ n ∈ expectedCounters t, n.spec = c) ∨ c ∈ keptCounters t prev := by
  rw [desiredCounters, mem_sortSlice, mem_dedup, mem_append, mem_map]

theorem desiredCounters_fit {c : CounterSpec} (hc : c ∈ desiredCounters t prev) :
    CounterFits t.owner c := by
  rcases mem_desiredCounters.mp hc with ⟨n, hn, rfl⟩ | hc
  · exact expected_fits hp hn
  · unfold keptCounters at hc
    split at hc
    · cases hc
    split at hc
    · have hke := (mem_filter.mp hc).2
      rw [Bool.and_eq_true, decide_eq_true_eq] at hke
      exact hke
    · cases hc

theorem desiredCounters_names : ((desiredCounters t prev).map (·.name)).Nodup := by
  have hno : (desiredCounters t prev).Nodup := (sortSlice_perm _ _).nodup_iff.mpr (nodup_dedup _)
  refine hno.map_on fun c hc d hd heq => ?_
  rw [(desiredCounters_fit hp hc).eq_spec, (desiredCounters_fit hp hd).eq_spec, heq]

end

/-! ## Targets -/

def allIDs (families : List FamilyPlan) : List String :=
  families.flatMap fun plan => plan.sets.map (·.id)

theorem mem_allIDs {families : List FamilyPlan} {plan : FamilyPlan} (hp : plan ∈ families)
    {s : PrefixSet} (hs : s ∈ plan.sets) : s.id ∈ allIDs families :=
  mem_flatMap.mpr ⟨plan, hp, mem_map_of_mem hs⟩

/-- **The validator accepts what fits.** -/
theorem validateTarget_ok (hdi : HexDigest digest) (hba : t.iptables = none)
    (hne : t.table ≠ "") (hsh : t.table.utf8ByteSize ≤ maxNFTNameBytes)
    (hpla : '\x00' ∉ t.table.toList) (hpr : -200 < t.priority)
    (hpl : ∀ plan ∈ t.families, PlanFits t plan) (hf : (t.families.map (·.family)).Nodup)
    (hsome : t.families ≠ []) (hc : Set.InjOn digest {id | id ∈ allIDs t.families})
    {prev : Option Target} (hcounters : t.counters = desiredCounters t prev) :
    validateTarget digest prefixText t = .ok () := by
  have hexp : ∀ n ∈ expectedCounters t, n ∈ t.counters.map (·.name) := by
    intro n hn
    rw [hcounters]
    exact mem_map.mpr ⟨n.spec, mem_desiredCounters.mpr (.inl ⟨n, hn, rfl⟩), rfl⟩
  have hco : t.counters ≠ [] := by
    obtain ⟨plan, hp⟩ := exists_mem_of_ne_nil _ hsome
    have hpa : plan.paths ≠ [] := by
      intro h
      have hd := (hpl plan hp).directions
      rw [h] at hd
      cases hd
    obtain ⟨path, hpat⟩ := exists_mem_of_ne_nil _ hpa
    have hmem := hexp _ (mem_flatMap.mpr ⟨plan, hp,
      mem_flatMap.mpr ⟨path, hpat, mem_cons_self⟩⟩)
    intro h
    rw [h] at hmem
    cases hmem
  refine guard_eq_ok.mpr ⟨?_, ?_⟩
  · rintro (h | h | h)
    · exact hne h
    · exact absurd hsh (not_le.mpr h)
    · exact hpla h
  refine guard_eq_ok.mpr ⟨not_le.mpr hpr, ?_⟩
  refine bind_eq_ok.mpr ⟨(), by rw [checkIPTables, hba], ?_⟩
  refine guard_eq_ok.mpr ⟨hsome, ?_⟩
  refine bind_eq_ok.mpr ⟨(), checkFamilies_ok hdi hba hc (fun plan hp => ⟨hpl plan hp, fun s hs =>
    mem_allIDs hp hs⟩) (.start hf) (fun _ hn => absurd hn not_mem_nil), ?_⟩
  refine guard_eq_ok.mpr ⟨hco, ?_⟩
  refine checkCounters_ok ?_ (.start ?_) fun n hn => .inr (hexp n hn)
  · rw [hcounters]
    exact fun c => desiredCounters_fit hpl
  · rw [hcounters]
    exact desiredCounters_names hpl

/-! ## Compiled plans -/

/-- What normalization makes of the name and the traffic of a policy. -/
structure NormalizedMatch (p : Config.Policy) : Prop where
  name : Catalog.validName p.name = true
  traffic : ∃ values, Config.normalizeTraffic values p.name = .ok p.traffic

theorem validStaticSetID_geo {name : String} (h : Catalog.validName name = true) :
    validStaticSetID ("geo/" ++ name) = true := by
  have hch : ∀ c, Catalog.isNameChar c = true → nameChar c = true ∧ c ≠ '-' := by
    intro c hc
    simp only [Catalog.isNameChar, Bool.or_eq_true, Char.isLower, Char.isDigit, Bool.and_eq_true,
      decide_eq_true_eq] at hc
    refine ⟨?_, ?_⟩
    · simp only [nameChar, Bool.or_eq_true, Bool.and_eq_true, decide_eq_true_eq, Char.le_def]
      rcases hc with hc | hc
      · exact .inl (.inl hc)
      · exact .inl (.inr hc)
    · rintro rfl
      revert hc
      decide
  rw [Catalog.validName] at h
  simp only [Bool.and_eq_true] at h
  obtain ⟨⟨hh, hl⟩, hal⟩ := h
  cases hli : name.toList with
  | nil => rw [hli] at hh; cases hh
  | cons first rest =>
    rw [hli] at hh hl hal
    have hg : ("geo/" ++ name).toList = 'g' :: 'e' :: 'o' :: '/' :: first :: rest := by
      rw [String.toList_append, hli]
      rfl
    have hfirst : first ≠ '-' := (hch first hh).2
    have hen : (first :: rest).getLast? ≠ some '-' := by
      intro heq
      rw [heq] at hl
      exact (hch '-' hl).2 rfl
    have hcha : (first :: rest).all (fun c =>
        ('a' ≤ c && c ≤ 'z') || ('0' ≤ c && c ≤ '9') || c = '-') = true := by
      rw [all_eq_true] at hal ⊢
      intro c hc
      have hc := hal c hc
      rw [Bool.or_eq_true, beq_iff_eq] at hc
      rcases hc with hc | rfl
      · exact (hch c hc).1
      · rfl
    have hva : validGeoSetID ("geo/" ++ name) = true := by
      rw [validGeoSetID, hg]
      simp only [hcha, Bool.and_true, Bool.and_eq_true, decide_eq_true_eq]
      exact ⟨hfirst, hen⟩
    simp [validStaticSetID, hva]

theorem validTrafficScope_policy {t : Config.TrafficScope} (ht : t.Proper) {f : Family} {scope : Scope}
    (h : policyScope t f = some scope) : validTrafficScope scope = true := by
  have hap : policyApplies t f = true := by
    by_contra hno
    rw [policyScope, Bool.not_eq_true _ |>.mp hno] at h
    cases h
  have hra : ∀ vs : List Config.PortRange, (∀ r ∈ vs, r.Proper) →
      (trafficRanges vs).all validPortRange = true := by
    intro vs hva
    rw [all_eq_true]
    intro r hr
    obtain ⟨value, hvalue, rfl⟩ := mem_map.mp hr
    have hp := hva value hvalue
    simp only [validPortRange, Bool.and_eq_true, decide_eq_true_eq]
    exact hp
  unfold policyScope at h
  rw [hap] at h
  cases han : t.any with
  | true =>
    rw [han] at h
    obtain rfl := Option.some.inj h
    rfl
  | false =>
    rw [han] at h
    simp only [Bool.not_true, Bool.false_eq_true, if_false] at h
    split at h
    · cases h
    case isFalse hsome =>
      obtain rfl := Option.some.inj h
      simp only [validTrafficScope, Bool.false_eq_true, if_false, hra _ ht.1, hra _ ht.2,
        Bool.and_true, Bool.not_eq_true']
      exact Bool.not_eq_true _ |>.mp hsome

section Plans

variable {δ : Type} [DecidableEq δ] {c : FamilyInput δ}

/-- The conditions under which a family's plan fits. -/
structure InputFits (c : FamilyInput δ) : Prop where
  names : (c.named.map Prod.fst).Nodup
  deny : c.deny ≠ .ret
  normalized : ∀ value ∈ c.applicable, NormalizedMatch value.policy

theorem setFits_plan (h : InputFits c) (hd : t.dynamicGeneration.isSome = c.crowdsec) :
    ∀ s ∈ c.plan.sets, SetFits t c.family s := by
  have hvi : ∀ set : Prefix.Set, ∀ p ∈ (set.view c.family).prefixes,
      p.addr.family = c.family ∧ p.Masked := fun set p hp =>
    ⟨(Prefix.Set.mem_view_prefixes.mp hp).2, (set.view c.family).canonical.masked p hp⟩
  intro s hs
  rcases FamilyInput.mem_sets.mp hs with ⟨-, rfl⟩ | ⟨-, rfl⟩ | ⟨hon, rfl⟩ | ⟨-, rfl⟩ | hg
  · exact ⟨.inl ⟨rfl, rfl⟩, hvi c.allow⟩
  · exact ⟨.inl ⟨rfl, rfl⟩, hvi c.block⟩
  · exact ⟨.inr ⟨rfl, rfl, rfl, hd.trans hon⟩, nofun⟩
  · refine ⟨.inl ⟨rfl, rfl⟩, fun p hp => ⟨?_, (geoEligible c.family).canonical.masked p hp⟩⟩
    have hmem : (geoEligible c.family).Mem p.addr := ⟨p, hp, p.contains_addr⟩
    exact geoEligible_family (mem_geoEligible.mp hmem)
  · obtain ⟨hki, value, hvalue, hid, hpr⟩ := FamilyInput.geo_set h.names hg
    refine ⟨.inl ⟨hki, ?_⟩, ?_⟩
    · rw [hid]
      exact validStaticSetID_geo (h.normalized value hvalue).name
    · rw [hpr]
      exact hvi value.included

theorem distinct_ids (h : InputFits c) : (c.plan.sets.map (·.id)).Nodup := by
  have hab : ∀ (b : Bool) (s : PrefixSet), ((if b then [] else [s]).map (·.id)).Sublist [s.id] := by
    intro b s
    cases b <;> simp
  have hp : ∀ (b : Bool) (s : PrefixSet), ((if b then [s] else []).map (·.id)).Sublist [s.id] := by
    intro b s
    cases b <;> simp
  have hg := (compileGeoSets_shared (c.fingerprint c.family) h.names)
  change (List.map (·.id) ((_ ++ _ ++ _ ++ _) ++ (compileGeoSets (c.fingerprint c.family) c.named).1)).Nodup
  rw [map_append, map_append, map_append, map_append]
  have hf := (((hab (c.allow.view c.family).prefixes.isEmpty
    ⟨"global_allowlist", .static, (c.allow.view c.family).prefixes⟩).append
      (hab (c.block.view c.family).prefixes.isEmpty
        ⟨"global_blocklist", .static, (c.block.view c.family).prefixes⟩)).append
      (hp c.crowdsec ⟨"crowdsec", .crowdsec, []⟩)).append
      (hab c.applicable.isEmpty ⟨"geo_eligible", .static, (geoEligible c.family).prefixes⟩)
  refine nodup_append.mpr ⟨?_, ?_, ?_⟩
  · exact List.Nodup.sublist hf (by simp)
  · exact pairwise_map.mpr (hg.ordered.imp fun hlt => hlt.ne)
  · intro a ha b hb heq
    obtain ⟨s, hs, rfl⟩ := mem_map.mp hb
    obtain ⟨-, v, -, -, hid, -⟩ := hg.named_after s hs
    have hmem := hf.subset ha
    simp only [cons_append, nil_append, mem_cons, not_mem_nil, or_false] at hmem
    rcases hmem with hmem | hmem | hmem | hmem <;> rw [heq, hid] at hmem <;>
      simpa using congrArg String.toList hmem

theorem ruleFits_policy (h : InputFits c) {v : CompiledPolicy} (hvalue : v ∈ c.applicable)
    (hru : rule ∈ policyRules d c.family c.bindings c.deny v) :
    RuleFits d (c.plan.sets.map (·.id)) rule := by
  have hno := h.normalized v hvalue
  obtain ⟨vs, htr⟩ := hno.traffic
  have hna : v.policy.name ≠ "" := by
    intro hempty
    have hva := hno.name
    rw [hempty] at hva
    cases hva
  obtain ⟨s, hs, hbo⟩ := FamilyInput.bound_set h.names hvalue
  have hmem : s.id ∈ c.plan.sets.map (·.id) :=
    mem_map_of_mem (FamilyInput.mem_sets.mpr (.inr (.inr (.inr (.inr hs)))))
  have hd : s.id ≠ "crowdsec" := by
    obtain ⟨-, other, -, hid, -⟩ := FamilyInput.geo_set h.names hs
    rw [hid]
    intro heq
    simpa using congrArg String.toList heq
  obtain ⟨scope, hsc, setID, hid, hru⟩ := policyRules_cases hru
  have hva := validTrafficScope_policy (Config.normalizeTraffic_ranges htr) hsc
  have hre : setID = "" ∨ setID ∈ c.plan.sets.map (·.id) := hid.imp_right fun heq => by
      rw [heq, hbo]
      exact hmem
  have hother : setID ≠ "crowdsec" := by
    rcases hid with rfl | rfl
    · decide
    · rw [hbo]
      exact hd
  rcases hru with rfl | rfl
  · refine ⟨hva, hre, (fun h => by cases h), fun h => absurd rfl h, ?_, fun heq => absurd heq hother⟩
    have hro : validRole (.denied .geoPolicy c.deny) = true := decide_eq_true h.deny
    simp [checkCounter, deniedCounter, hro, hna]
  · exact ⟨hva, hre, (fun h => by cases h), fun h => absurd rfl h, rfl, fun heq => absurd heq hother⟩

theorem mem_ids {s : PrefixSet} (hs : s ∈ c.plan.sets) : s.id ∈ c.plan.sets.map (·.id) :=
  mem_map_of_mem hs

theorem pathFits_plan (h : InputFits c) (d : Direction) :
    PathFits (c.plan.sets.map (·.id)) (c.path d) where
  remote := by cases d <;> rfl
  processed := rfl
  rules := by
    have hro : ∀ reason, validRole (.denied reason c.deny) = true := fun _ => decide_eq_true h.deny
    intro rule hru
    rcases FamilyInput.mem_rules.mp hru with
      hg | ⟨hal, rfl⟩ | ⟨hbl, rfl⟩ | ⟨⟨hon, hin⟩, rfl⟩ | ⟨⟨value, hvalue, -⟩, rfl⟩ |
        ⟨value, hvalue, hru⟩ | rfl
    · rcases mem_cons.mp hg with rfl | hg
      · exact ⟨rfl, .inl rfl, by decide, fun _ => ⟨rfl, rfl, rfl⟩, rfl, fun h => absurd h (by decide)⟩
      · rw [mem_singleton.mp hg]
        exact ⟨rfl, .inl rfl, by decide, fun _ => ⟨rfl, rfl, rfl⟩, rfl, fun h => absurd h (by decide)⟩
    · have hse := mem_ids (FamilyInput.mem_sets.mpr (.inl ⟨hal, rfl⟩))
      exact ⟨rfl, .inr hse, by decide, fun h => absurd rfl h, rfl, fun h => absurd h (by decide)⟩
    · have hse := mem_ids (FamilyInput.mem_sets.mpr (.inr (.inl ⟨hbl, rfl⟩)))
      refine ⟨rfl, .inr hse, (fun h => by cases h), fun h => absurd rfl h, ?_, fun h => absurd h ?_⟩
      · simp [checkCounter, Policy.blockRule, deniedCounter, hro]
      · simp [Policy.blockRule]
    · have hse := mem_ids (FamilyInput.mem_sets.mpr (.inr (.inr (.inl ⟨hon, rfl⟩))))
      refine ⟨rfl, .inr hse, (fun h => by cases h), fun h => absurd rfl h, ?_, fun _ => ?_⟩
      · simp [checkCounter, Policy.crowdsecRule, deniedCounter, hro]
      · have hd : (c.path d).direction = .ingress := hin
        simp [crowdsecRule, hd, Policy.crowdsecRule, deniedCounter, anyScope]
    · have hsome : ¬ c.applicable.isEmpty := fun hempty => by
        rw [List.isEmpty_iff.mp hempty] at hvalue
        cases hvalue
      have hse := mem_ids (FamilyInput.mem_sets.mpr (.inr (.inr (.inr (.inl ⟨hsome, rfl⟩)))))
      exact ⟨rfl, .inr hse, fun _ => rfl, fun h => absurd rfl h, rfl, fun h => absurd h (by decide)⟩
    · exact ruleFits_policy h hvalue hru
    · exact ⟨rfl, .inl rfl, by decide, fun h => absurd rfl h, rfl, fun h => absurd h (by decide)⟩

theorem planFits (h : InputFits c) (hd : t.dynamicGeneration.isSome = c.crowdsec) :
    PlanFits t c.plan where
  sets := setFits_plan h hd
  distinct := distinct_ids h
  dynamic := by
    rw [hd, Bool.eq_iff_iff, any_eq_true]
    constructor
    · rintro ⟨s, hs, hki⟩
      rw [decide_eq_true_eq] at hki
      rcases FamilyInput.mem_sets.mp hs with ⟨-, rfl⟩ | ⟨-, rfl⟩ | ⟨hon, rfl⟩ | ⟨-, rfl⟩ | hg
      · cases hki
      · cases hki
      · exact hon
      · cases hki
      · rw [(FamilyInput.geo_set h.names hg).1] at hki
        cases hki
    · intro hon
      exact ⟨_, FamilyInput.mem_sets.mpr (.inr (.inr (.inl ⟨hon, rfl⟩))), rfl⟩
  paths path hp := by
    obtain ⟨d, rfl⟩ := FamilyInput.mem_paths.mp hp
    exact pathFits_plan h d
  directions := rfl

end Plans

/-! ## Building -/

section Build

variable {δ : Type} [DecidableEq δ] {cfg : Config} {snapshot : Snapshot}

omit [DecidableEq δ] in
theorem inputFits (c : Compilation cfg snapshot) (fp : Family → List Prefix → δ) (f : Family)
    (hno : ∀ p ∈ cfg.policies, NormalizedMatch p) : InputFits (c.input fp f) where
  names := c.names fp f
  deny := c.deny_eq_configured.2
  normalized value hvalue := by
    have hmem : value ∈ c.policies := (mem_filter.mp hvalue).1
    have hp : value.policy ∈ (sortSlice policyLess cfg.policies).filter enabled :=
      c.compiled.policies ▸ mem_map_of_mem hmem
    exact hno _ (mem_sortSlice.mp (mem_filter.mp hp).1)

theorem mem_families {c : Compilation cfg snapshot} {fp : Family → List Prefix → δ}
    {plan : FamilyPlan} (h : plan ∈ c.families fp) : ∃ f, plan = (c.input fp f).plan := by
  simp only [Compilation.families, mem_append, mem_ite_nil_right, mem_singleton] at h
  rcases h with ⟨-, h⟩ | ⟨-, h⟩
  · exact ⟨_, h⟩
  · exact ⟨_, h⟩

theorem families_nodup (c : Compilation cfg snapshot) (fp : Family → List Prefix → δ) :
    ((c.families fp).map (·.family)).Nodup := by
  have hf : ∀ f, (c.input fp f).plan.family = f := fun _ => rfl
  unfold Compilation.families
  cases h4 : cfg.firewall.enabled .ipv4 <;> cases h6 : cfg.firewall.enabled .ipv6 <;>
    simp [h4, h6, hf]

theorem compiled_valid (hdi : HexDigest digest) {fp : Family → List Prefix → δ}
    (c : Compilation cfg snapshot) (hno : ∀ p ∈ cfg.policies, NormalizedMatch p)
    (hc : Runnable cfg) (hba : t.iptables = none)
    (hta : t.table = cfg.firewall.table) (hp : t.priority = cfg.firewall.priority)
    (hf : t.families = c.families fp) (hne : t.families ≠ [])
    (hd : t.dynamicGeneration.isSome = cfg.crowdsec.enabled)
    (hco : Set.InjOn digest {id | id ∈ allIDs t.families})
    {prev : Option Target} (hcounters : t.counters = desiredCounters t prev) :
    (∀ plan ∈ t.families, PlanFits t plan) ∧ validateTarget digest prefixText t = .ok () := by
  have hpl : ∀ plan ∈ t.families, PlanFits t plan := by
    intro plan hpla
    rw [hf] at hpla
    obtain ⟨f, rfl⟩ := mem_families hpla
    exact planFits (inputFits c fp f hno) hd
  refine ⟨hpl, validateTarget_ok hdi hba (hta ▸ hc.table_ne)
    (hta ▸ hc.table_short) (hta ▸ hc.table_plain) (hp ▸ hc.priority) hpl ?_ hne
    hco hcounters⟩
  rw [hf]
  exact families_nodup c fp

theorem dynamicGeneration_isSome (owner id : Id) (cfg : Config) (prev : Option Target) :
    (dynamicGeneration owner id cfg prev).isSome = cfg.crowdsec.enabled := by
  unfold dynamicGeneration
  cases hon : cfg.crowdsec.enabled with
  | false => rfl
  | true =>
    rw [if_pos rfl]
    split
    · split
      case isTrue hp => exact hp.2.2.2
      case isFalse => rfl
    · rfl

/-- **Building cannot fail late.** For nftables, a normalized configuration that passes
`ValidateConfig` and a state compiled from it, the builder returns no error, whatever the previous
target was. No native set name is longer than nft allows and no two sets have the same one, however
long or similar the policy names are, and the target stays valid when the engine renews it. -/
theorem buildTarget_total (digest : String → String) (prefixText : Prefix → String)
    (hdigest : HexDigest digest) (fingerprint : Family → List Prefix → δ) (version : Int) (cfg : Config)
    (snapshot : Snapshot) (state : State) (owner id : Id) (previous : Option Target)
    (hnormal : ∀ p ∈ cfg.policies, NormalizedMatch p) (hnft : cfg.firewall.backend = .nftables)
    (hconfig : validateConfig version cfg = .ok ())
    (hcompile : compile fingerprint cfg snapshot = .ok state)
    (hcollision : ∀ plan ∈ state.families, ∀ s ∈ plan.sets, ∀ plan' ∈ state.families,
      ∀ s' ∈ plan'.sets, digest s.id = digest s'.id → s.id = s'.id) :
    ∃ target, buildTarget digest prefixText version owner id cfg state previous = .ok target ∧
      ∀ t ∈ target,
        (∀ plan ∈ t.families, ∀ s ∈ plan.sets,
          (setName digest t plan.family s.id).text.utf8ByteSize ≤ 255) ∧
        (∀ plan ∈ t.families, ∀ s ∈ plan.sets, ∀ plan' ∈ t.families, ∀ s' ∈ plan'.sets,
          (setName digest t plan.family s.id).text = (setName digest t plan'.family s'.id).text →
            plan = plan' ∧ s = s') ∧
        (cfg.crowdsec.enabled = true → ∀ transaction,
          validateTarget digest prefixText (t.renewed transaction) = .ok ()) := by
  cases hempty : state.empty with
  | true =>
    refine ⟨none, bind_eq_ok.mpr ⟨(), hconfig, ?_⟩, nofun⟩
    rw [if_pos hempty]
    rfl
  | false =>
    have hc := validateConfig_runnable hconfig
    have hne : state.families ≠ [] := by
      intro h
      rw [State.empty, h] at hempty
      cases hempty
    obtain ⟨c, hst⟩ := compile_cases hcompile
    have hf : state.families = c.families fingerprint := hst.resolve_left hne
    obtain ⟨g, hg⟩ := generationTarget_eq owner id cfg state previous
    have hip : (freshTarget owner id cfg state previous).iptables = none := by
      simp [freshTarget, hnft]
    have hta : (freshTarget owner id cfg state previous).table = cfg.firewall.table := by
      simp [freshTarget, nativeTable, hnft]
    have hpr : (freshTarget owner id cfg state previous).priority = cfg.firewall.priority := by
      simp [freshTarget, hnft]
    have hco : Set.InjOn digest {id | id ∈ allIDs state.families} := by
      intro a ha b hb heq
      obtain ⟨plan, hp, ha⟩ := mem_flatMap.mp ha
      obtain ⟨s, hs, rfl⟩ := mem_map.mp ha
      obtain ⟨plan', hp', hb⟩ := mem_flatMap.mp hb
      obtain ⟨s', hs', rfl⟩ := mem_map.mp hb
      exact hcollision plan hp s hs plan' hp' s' hs' heq
    -- the counters depend on neither generation
    let t : Target := { freshTarget owner id cfg state previous with
      generation := g
      counters := desiredCounters (freshTarget owner id cfg state previous) previous }
    obtain ⟨hpl, hva⟩ : (∀ plan ∈ t.families, PlanFits t plan) ∧
        validateTarget digest prefixText t = .ok () :=
      compiled_valid hdigest c hnormal hc hip hta hpr hf hne
        (dynamicGeneration_isSome owner id cfg previous) hco (rfl : _ = desiredCounters _ previous)
    refine ⟨some t, bind_eq_ok.mpr ⟨(), hconfig, ?_⟩, ?_⟩
    · rw [if_neg (by rw [hempty]; decide)]
      refine bind_eq_ok.mpr ⟨(), ?_, ?_⟩
      · rw [hg]
        exact hva
      · rw [hg]
        rfl
    · rintro _ ⟨⟩
      refine ⟨fun plan hp s hs => ?_, fun plan hp s hs plan' hp' s' hs' heq => ?_,
        fun hon transaction => ?_⟩
      · rw [Artifact.text_bytes]
        have hna := setName_valid hdigest plan.family ((hpl plan hp).sets s hs).usable
        rw [validNFTName, Bool.and_eq_true, decide_eq_true_eq] at hna
        exact hna.1
      · obtain ⟨hfa, hid⟩ := setName_text_inj hdigest ((hpl plan hp).sets s hs).usable
          ((hpl plan' hp').sets s' hs').usable (hcollision plan hp s hs plan' hp' s' hs') heq
        have hno : (t.families.map (·.family)).Nodup := by
          change (state.families.map (·.family)).Nodup
          rw [hf]
          exact families_nodup c fingerprint
        obtain rfl : plan = plan' := inj_on_of_nodup_map hno hp hp' hfa
        exact ⟨rfl, inj_on_of_nodup_map (hpl plan hp).distinct hs hs' hid⟩
      · have hre : (t.renewed transaction).counters =
            desiredCounters (t.renewed transaction) previous := rfl
        exact (compiled_valid (t := t.renewed transaction) hdigest c hnormal hc hip hta
          hpr hf hne hon.symm hco hre).2

end Build

/-- A digest for samples: a digit of each of the last characters, filled up. -/
def sampleDigest (text : String) : String :=
  String.ofList
    ((text.toList.reverse.map (fun c => hexDigit (c.toNat % 16)) ++ List.replicate 64 '0').take 64)

theorem hexDigest_sample : HexDigest sampleDigest where
  length s := by simp [sampleDigest]
  chars s c hc := by
    have hdigit : ∀ n < 16, hexDigit n ∈ "0123456789abcdef".toList := by decide
    rw [sampleDigest, String.toList_ofList] at hc
    rcases mem_append.mp (mem_of_mem_take hc) with hc | hc
    · obtain ⟨d, -, rfl⟩ := mem_map.mp hc
      exact hdigit _ (Nat.mod_lt _ (by decide))
    · rw [(mem_replicate.mp hc).2]
      decide

/-- The policies under names that are longer than a native name can be, and alike at the start. -/
def longConfig : Config :=
  { sampleConfig with
    policies := sampleConfig.policies.map fun p =>
      { p with name := String.ofList (List.replicate 180 'a') ++ p.name } }

theorem longConfig_normalized : ∀ p ∈ longConfig.policies, NormalizedMatch p := by
  refine forall_mem_cons.mpr ⟨⟨by decide +kernel, ["any"], by decide +kernel⟩, ?_⟩
  exact forall_mem_cons.mpr ⟨⟨by decide +kernel, ["22"], by decide +kernel⟩, nofun⟩

theorem buildTarget_total_sample :
    ∃ state, compile (fun f ps => (f, ps)) longConfig sampleSnapshot = .ok state ∧
      ∃ t, buildTarget sampleDigest (fun _ => "") 1 7 9 longConfig state none = .ok (some t) ∧
        (∀ plan ∈ t.families, ∀ s ∈ plan.sets,
          (setName sampleDigest t plan.family s.id).text.utf8ByteSize ≤ 255) ∧
        (∀ plan ∈ t.families, ∀ s ∈ plan.sets, ∀ plan' ∈ t.families, ∀ s' ∈ plan'.sets,
          (setName sampleDigest t plan.family s.id).text =
              (setName sampleDigest t plan'.family s'.id).text → plan = plan' ∧ s = s') ∧
        ∀ transaction,
          validateTarget sampleDigest (fun _ => "") (t.renewed transaction) = .ok () := by
  obtain ⟨state, hc, hd⟩ :
      ∃ state, compile (fun f ps => (f, ps)) longConfig sampleSnapshot = .ok state ∧
        (!state.empty && state.families.all fun plan => plan.sets.all fun s =>
          state.families.all fun plan' => plan'.sets.all fun s' =>
            decide (sampleDigest s.id = sampleDigest s'.id → s.id = s'.id)) = true :=
    exists_ok (by decide +kernel)
  rw [Bool.and_eq_true, Bool.not_eq_true'] at hd
  have hco : ∀ plan ∈ state.families, ∀ s ∈ plan.sets, ∀ plan' ∈ state.families,
      ∀ s' ∈ plan'.sets, sampleDigest s.id = sampleDigest s'.id → s.id = s'.id := by
    simpa only [all_eq_true, decide_eq_true_eq] using hd.2
  obtain ⟨target, hta, hre⟩ := buildTarget_total sampleDigest (fun _ => "") hexDigest_sample
    (fun f ps => (f, ps)) 1 longConfig sampleSnapshot state 7 9 none longConfig_normalized rfl
    (by decide +kernel) hc hco
  -- the model is not empty
  cases target with
  | none =>
    obtain ⟨-, -, h⟩ := bind_eq_ok.mp hta
    rw [hd.1, if_neg Bool.false_ne_true] at h
    obtain ⟨-, -, h⟩ := bind_eq_ok.mp h
    cases h
  | some t =>
    obtain ⟨hbytes, hnames, hrenewed⟩ := hre t rfl
    exact ⟨state, hc, t, hta, hbytes, hnames, hrenewed rfl⟩

end Perimeterd.Firewall
