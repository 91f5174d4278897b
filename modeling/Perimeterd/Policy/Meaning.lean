import Perimeterd.Policy.Compile

/-!
# What a configuration means, and that the compiler implements it

`meaning` is the configuration read directly: the order of the guards, which policies cover a
packet, which of them comes first, and what its mode says about the remote address. It mentions no
rule, no set and no ID. `compile_evaluate` is the theorem: for every enabled family and direction,
first-match evaluation of the compiled path over the compiled sets is `meaning`.

The proof goes segment by segment through the rule list. Each optional segment contributes a rule
exactly when its source is non-empty, and a segment that is left out could not have matched; so
every segment's `find?` is an `if` on the *configuration* and the whole path is the chain of them.
-/

namespace Perimeterd.Policy

open Lib List

/-! ## The declarative reading -/

/-- A traffic scope covers a protocol and port in a family. -/
def Covers (t : Config.TrafficScope) (f : Family) (protocol : Protocol) (port : Port) : Prop :=
  t.any = true ∨
    match protocol with
    | .tcp => ∃ r ∈ t.tcp, r.start ≤ port ∧ port ≤ r.stop
    | .udp => ∃ r ∈ t.udp, r.start ≤ port ∧ port ≤ r.stop
    | .icmp => t.icmpOf f = true
    | .other => False

instance (t : Config.TrafficScope) (f : Family) (protocol : Protocol) (port : Port) :
    Decidable (Covers t f protocol port) := by
  unfold Covers
  cases protocol <;> infer_instance

/-- Some configured prefix contains the address. -/
def Listed (values : List NetipPrefix) (a : Addr) : Prop :=
  ∃ p, .valid p ∈ values ∧ p.contains a = true

def configuredDeny : Config.DenyAction → Action
  | .reject => .reject
  | _ => .drop

/-- The packet leaves the path; `trace` names the deciding policy. -/
def returned (trace : String) : Evaluation :=
  { action := .ret, trace := trace, processed := some .processed }

def deniedFor (deny : Action) (reason : DenyReason) (trace : String) : Evaluation :=
  { action := deny, trace := trace, processed := some .processed,
    denied := some (.denied reason deny) }

/-- The address a direction's sets are about. -/
def Packet.remote (packet : Packet) : Direction → Addr
  | .ingress => packet.source
  | .egress => packet.destination

/-- The policy's direction and traffic scope cover the packet in this family. -/
def covered (f : Family) (d : Direction) (packet : Packet) (p : Config.Policy) : Bool :=
  p.direction = d.word ∧ Covers p.traffic f packet.protocol packet.port

/-- The enabled policies that cover the packet. -/
def covering (cfg : Config) (f : Family) (d : Direction) (packet : Packet) : List Config.Policy :=
  cfg.policies.filter fun p => enabled p && covered f d packet p

/-- What a deciding policy says about an address inside or outside its effective set. -/
noncomputable def policyVerdict (deny : Action) (p : Config.Policy) (inside : Prop) : Evaluation :=
  open Classical in
  if p.mode = .blocklist then
    if inside then deniedFor deny .geoPolicy p.name else returned p.name
  else
    if inside then returned p.name else deniedFor deny .geoPolicy p.name

/-- **The meaning of a configuration** for one packet of one family and direction. -/
noncomputable def meaning (cfg : Config) (snapshot : Snapshot) (f : Family) (d : Direction)
    (packet : Packet) (banned : Addr → Bool) : Evaluation :=
  open Classical in
  let a := packet.remote d
  let deny := configuredDeny cfg.firewall.denyAction
  if packet.flow ≠ .new then returned ""
  else if Listed cfg.global.allowlist a then returned ""
  else if Listed cfg.global.blocklist a then deniedFor deny .globalBlocklist ""
  else if d = .ingress ∧ cfg.crowdsec.enabled = true ∧ banned a = true then
    deniedFor deny .crowdsec ""
  else if (∃ p ∈ cfg.policies, enabled p = true ∧ p.direction = d.word ∧
      policyApplies p.traffic f = true) ∧ ¬ GeoEligible f a then returned ""
  else
    -- the covering policy of least priority, if there is one
    match (covering cfg f d packet).argmin (·.priority) with
    | some p => policyVerdict deny p (Effective snapshot p a)
    | none => returned ""

/-! ## Scopes -/

theorem portInRanges_iff {vs : List Config.PortRange} {port : Port} :
    portInRanges (trafficRanges vs) port = true ↔ ∃ r ∈ vs, r.start ≤ port ∧ port ≤ r.stop := by
  simp [portInRanges, trafficRanges]

theorem policyScope_of_applies {t : Config.TrafficScope} {f : Family}
    (hap : policyApplies t f = true) : policyScope t f = some (if t.any then { any := true } else
      { tcp := trafficRanges t.tcp, udp := trafficRanges t.udp, icmp := t.icmpOf f }) := by
  unfold policyScope
  rw [hap]
  cases han : t.any with
  | true => rfl
  | false =>
    have hne : ((trafficRanges t.tcp).isEmpty && (trafficRanges t.udp).isEmpty &&
        !t.icmpOf f) = false := by
      simp only [policyApplies, han, Bool.or_eq_true, Bool.not_eq_true', Bool.false_eq_true,
        false_or] at hap
      simp only [trafficRanges, isEmpty_map]
      rcases hap with (h | h) | h <;> simp [h]
    simp only [Bool.not_true, Bool.false_eq_true, if_false, hne]

theorem policyScope_covers {t : Config.TrafficScope} {f : Family} {proto : Protocol} {port : Port} :
    (∃ scope, policyScope t f = some scope ∧ scopeMatches scope proto port = true) ↔
      Covers t f proto port := by
  by_cases hap : policyApplies t f = true
  · rw [policyScope_of_applies hap]
    by_cases han : t.any = true
    · simp [han, Covers, scopeMatches]
    · simp only [han, Bool.false_eq_true, if_false, Option.some.injEq, exists_eq_left', Covers,
        false_or, scopeMatches, Bool.false_or]
      cases proto <;> simp [portInRanges_iff]
  · unfold policyScope
    simp only [hap, Bool.not_false, if_true]
    simp only [reduceCtorEq, false_and, exists_false, false_iff]
    simp only [policyApplies, Bool.or_eq_true, Bool.not_eq_true', not_or, Bool.not_eq_true,
      isEmpty_eq_false_iff, ne_eq, not_not] at hap
    obtain ⟨⟨⟨han, htc⟩, hu⟩, hic⟩ := hap
    unfold Covers
    cases proto <;> simp [han, htc, hu, hic]

/-! ## Sets by ID -/

theorem find?_id {sets : List PrefixSet} {s : PrefixSet} (hs : s ∈ sets)
    (hu : ∀ t ∈ sets, t.id = s.id → t = s) : sets.find? (·.id = s.id) = some s := by
  cases hf : sets.find? (·.id = s.id) with
  | none =>
    have := List.find?_eq_none.mp hf s hs
    simp at this
  | some t =>
    have hid := List.find?_some hf
    rw [decide_eq_true_eq] at hid
    rw [hu t (mem_of_find?_eq_some hf) hid]

theorem member_static {plan : FamilyPlan} {s : PrefixSet} (hs : s ∈ plan.sets)
    (hu : ∀ t ∈ plan.sets, t.id = s.id → t = s) (hk : s.kind = .static)
    {banned : Addr → Bool} {a : Addr} :
    plan.member s.id banned a = true ↔ Prefix.Covered s.prefixes a := by
  unfold FamilyPlan.member
  rw [find?_id hs hu]
  simp [hk, Prefix.Covered]

variable {δ : Type} [DecidableEq δ]

/-- A family's compilation, with its ingredients named. -/
structure FamilyInput (δ : Type) where
  fingerprint : Family → List Prefix → δ
  family : Family
  allow : Prefix.Set
  block : Prefix.Set
  policies : List CompiledPolicy
  crowdsec : Bool
  deny : Action

namespace FamilyInput

def plan (c : FamilyInput δ) : FamilyPlan :=
  compileFamily c.fingerprint c.family c.allow c.block c.policies c.crowdsec c.deny

/-- The policies that can match anything in the family. -/
def applicable (c : FamilyInput δ) : List CompiledPolicy :=
  c.policies.filter fun value => policyApplies value.policy.traffic c.family

def named (c : FamilyInput δ) : List (String × List Prefix) :=
  familySequences c.family c.applicable

def bindings (c : FamilyInput δ) : List (String × String) :=
  (compileGeoSets (c.fingerprint c.family) c.named).2

theorem mem_sets {c : FamilyInput δ} {s : PrefixSet} : s ∈ c.plan.sets ↔
    (¬ (c.allow.view c.family).prefixes.isEmpty ∧
      s = ⟨"global_allowlist", .static, (c.allow.view c.family).prefixes⟩) ∨
    (¬ (c.block.view c.family).prefixes.isEmpty ∧
      s = ⟨"global_blocklist", .static, (c.block.view c.family).prefixes⟩) ∨
    (c.crowdsec ∧ s = ⟨"crowdsec", .crowdsec, []⟩) ∨
    (¬ c.applicable.isEmpty ∧ s = ⟨"geo_eligible", .static, (geoEligible c.family).prefixes⟩) ∨
    s ∈ (compileGeoSets (c.fingerprint c.family) c.named).1 := by
  have ho : ∀ (b : Bool) (t : PrefixSet), (s ∈ if b then [] else [t]) ↔ ¬ b ∧ s = t := by
    intro b t; cases b <;> simp
  have ho' : ∀ (b : Bool) (t : PrefixSet), (s ∈ if b then [t] else []) ↔ b ∧ s = t := by
    intro b t; cases b <;> simp
  change s ∈ (_ ++ _ ++ _ ++ _ ++ _) ↔ _
  rw [mem_append, mem_append, mem_append, mem_append, ho, ho, ho', ho,
    or_assoc, or_assoc, or_assoc]
  rfl

/-- **No two sets of a plan share an ID.** Names give the shared sets different `geo/` IDs, and the
four fixed IDs are not of that form. -/
theorem sets_unique {c : FamilyInput δ} (hnames : (c.named.map Prod.fst).Nodup) {s t : PrefixSet}
    (hs : s ∈ c.plan.sets) (ht : t ∈ c.plan.sets) (hid : t.id = s.id) : t = s := by
  have hsh := compileGeoSets_shared (c.fingerprint c.family) hnames
  have hg : ∀ u ∈ (compileGeoSets (c.fingerprint c.family) c.named).1,
      u.id ≠ "global_allowlist" ∧ u.id ≠ "global_blocklist" ∧ u.id ≠ "crowdsec" ∧
        u.id ≠ "geo_eligible" := by
    intro u hu
    obtain ⟨-, v, -, -, hid, -⟩ := hsh.named_after u hu
    rw [hid]
    refine ⟨?_, ?_, ?_, ?_⟩ <;> intro h <;> simpa using congrArg String.toList h
  rw [mem_sets] at hs ht
  rcases hs with ⟨-, rfl⟩ | ⟨-, rfl⟩ | ⟨-, rfl⟩ | ⟨-, rfl⟩ | hs <;>
    rcases ht with ⟨-, rfl⟩ | ⟨-, rfl⟩ | ⟨-, rfl⟩ | ⟨-, rfl⟩ | ht <;>
    first
    | rfl
    | exact absurd hid (hg _ ht).1
    | exact absurd hid (hg _ ht).2.1
    | exact absurd hid (hg _ ht).2.2.1
    | exact absurd hid (hg _ ht).2.2.2
    | exact absurd hid.symm (hg _ hs).1
    | exact absurd hid.symm (hg _ hs).2.1
    | exact absurd hid.symm (hg _ hs).2.2.1
    | exact absurd hid.symm (hg _ hs).2.2.2
    | exact hsh.id_inj ht hs hid
    | exact absurd hid (by simp)

section Segments

variable {c : FamilyInput δ} (hnames : (c.named.map Prod.fst).Nodup) {banned : Addr → Bool}
  {a : Addr}
include hnames

theorem member_allow (h : ¬ (c.allow.view c.family).prefixes.isEmpty) :
    c.plan.member "global_allowlist" banned a = true ↔ (c.allow.view c.family).Mem a := by
  have hs := mem_sets.mpr (Or.inl ⟨h, rfl⟩)
  exact member_static hs (fun t ht => sets_unique hnames hs ht) rfl

theorem member_block (h : ¬ (c.block.view c.family).prefixes.isEmpty) :
    c.plan.member "global_blocklist" banned a = true ↔ (c.block.view c.family).Mem a := by
  have hs := mem_sets.mpr (Or.inr (Or.inl ⟨h, rfl⟩))
  exact member_static hs (fun t ht => sets_unique hnames hs ht) rfl

theorem member_crowdsec (h : c.crowdsec = true) : c.plan.member "crowdsec" banned a = banned a := by
  have hs : (⟨"crowdsec", .crowdsec, []⟩ : PrefixSet) ∈ c.plan.sets :=
    mem_sets.mpr (Or.inr (Or.inr (Or.inl ⟨h, rfl⟩)))
  unfold FamilyPlan.member
  have hf := find?_id hs fun t ht => sets_unique hnames hs ht
  simp only at hf
  rw [hf]

theorem member_geoEligible (h : ¬ c.applicable.isEmpty) :
    c.plan.member "geo_eligible" banned a = true ↔ GeoEligible c.family a := by
  have hs := mem_sets.mpr (Or.inr (Or.inr (Or.inr (Or.inl ⟨h, rfl⟩))))
  rw [← mem_geoEligible]
  exact member_static hs (fun t ht => sets_unique hnames hs ht) rfl

theorem member_geo {v : CompiledPolicy} (hv : v ∈ c.applicable) (banned : Addr → Bool) (a : Addr) :
    lookupID c.bindings v.policy.name ≠ "" ∧
      (c.plan.member (lookupID c.bindings v.policy.name) banned a = true ↔
        (v.included.view c.family).Mem a) := by
  have hn : (v.policy.name, (v.included.view c.family).prefixes) ∈ c.named :=
    mem_map.mpr ⟨v, hv, rfl⟩
  have hsh := compileGeoSets_shared (c.fingerprint c.family) hnames
  obtain ⟨set, hse, hid, hp⟩ := hsh.bound _ hn
  obtain ⟨hk, w, -, -, hg, -⟩ := hsh.named_after set hse
  have hs : set ∈ c.plan.sets := mem_sets.mpr (Or.inr (Or.inr (Or.inr (Or.inr hse))))
  have hid' : lookupID c.bindings v.policy.name = set.id := hid
  refine ⟨?_, ?_⟩
  · rw [hid', hg]
    intro h
    simpa using congrArg String.toList h
  · rw [hid', member_static hs (fun t ht => sets_unique hnames hs ht) hk, hp]
    rfl

end Segments

/-! ## The path, segment by segment -/

def path (c : FamilyInput δ) (d : Direction) : Path :=
  compilePath d (match d with | .ingress => .source | .egress => .destination) c.family
    (c.allow.view c.family) (c.block.view c.family) c.applicable c.bindings
    (match d with | .ingress => c.crowdsec | .egress => false) c.deny

theorem evaluate_plan (c : FamilyInput δ) (d : Direction) (packet : Packet) (banned : Addr → Bool) :
    c.plan.evaluate d packet banned = (c.path d).evaluate c.plan packet banned := by
  cases d <;> rfl

/-- Which rules of the direction's path match. -/
def matches? (c : FamilyInput δ) (d : Direction) (packet : Packet) (banned : Addr → Bool)
    (rule : Rule) : Bool :=
  ruleMatches c.plan (c.path d) packet banned rule

section Path

variable {c : FamilyInput δ} (d : Direction) (packet : Packet) (banned : Addr → Bool)

theorem matches?_eq {rule : Rule} (hf : rule.matching.flow = none) :
    c.matches? d packet banned rule = (setMatches c.plan rule.matching banned (packet.remote d) &&
        scopeMatches rule.matching.traffic packet.protocol packet.port) := by
  have hre : (c.path d).remoteAddress packet = packet.remote d := by cases d <;> rfl
  simp only [matches?, ruleMatches, hf, flowMatches, Bool.true_and, hre]

theorem matches?_set {rule : Rule} (hf : rule.matching.flow = none)
    (hid : rule.matching.setID ≠ "") (han : rule.matching.traffic = anyScope) :
    c.matches? d packet banned rule =
      (c.plan.member rule.matching.setID banned (packet.remote d) != rule.matching.negateSet) := by
  rw [matches?_eq d packet banned hf]
  simp [setMatches, hid, scopeMatches, han, anyScope]

theorem flow_segment {rest : List Rule} :
    ((flowGuards ++ rest).find? (c.matches? d packet banned)).map (·.result .processed) =
      if packet.flow ≠ .new then some (returned "")
      else (rest.find? (c.matches? d packet banned)).map (·.result .processed) := by
  cases hf : packet.flow <;>
    simp [flowGuards, matches?, ruleMatches, flowMatches, setMatches, scopeMatches, anyScope, hf,
      Rule.result, returned]

omit [DecidableEq δ] in
theorem optional_segment {m : Rule → Bool} {present : Prop} [Decidable present] {rule : Rule}
    {rest : List Rule} :
    (((if present then [rule] else []) ++ rest).find? m).map (·.result .processed) =
      if present ∧ m rule = true then some (rule.result .processed)
      else (rest.find? m).map (·.result .processed) := by
  rw [List.find?_append]
  by_cases hp : present
  · cases hm : m rule <;> simp [hp, hm]
  · simp [hp]

variable (hnames : (c.named.map Prod.fst).Nodup)
include hnames

theorem allow_segment :
    ((!(c.allow.view c.family).prefixes.isEmpty) = true ∧
      c.matches? d packet banned allowRule = true) ↔
      (c.allow.view c.family).Mem (packet.remote d) := by
  rw [matches?_set d packet banned rfl (by decide) rfl, Bool.not_eq_true', ← Bool.not_eq_true]
  change _ ∧ (c.plan.member "global_allowlist" banned (packet.remote d) != false) = true ↔ _
  rw [Bool.bne_false]
  constructor
  · rintro ⟨hne, hm⟩
    exact (member_allow hnames hne).mp hm
  · rintro ⟨p, hp, ha⟩
    have hne : ¬ (c.allow.view c.family).prefixes.isEmpty = true := by
      rw [List.isEmpty_iff]; exact ne_nil_of_mem hp
    exact ⟨hne, (member_allow hnames hne).mpr ⟨p, hp, ha⟩⟩

theorem block_segment :
    ((!(c.block.view c.family).prefixes.isEmpty) = true ∧
      c.matches? d packet banned (blockRule c.deny) = true) ↔
      (c.block.view c.family).Mem (packet.remote d) := by
  rw [matches?_set d packet banned rfl (by simp [blockRule]) rfl, Bool.not_eq_true',
    ← Bool.not_eq_true]
  change _ ∧ (c.plan.member "global_blocklist" banned (packet.remote d) != false) = true ↔ _
  rw [Bool.bne_false]
  constructor
  · rintro ⟨hne, hm⟩
    exact (member_block hnames hne).mp hm
  · rintro ⟨p, hp, ha⟩
    have hne : ¬ (c.block.view c.family).prefixes.isEmpty = true := by
      rw [List.isEmpty_iff]; exact ne_nil_of_mem hp
    exact ⟨hne, (member_block hnames hne).mpr ⟨p, hp, ha⟩⟩

theorem crowdsec_segment :
    (((match d with | .ingress => c.crowdsec | .egress => false) && d = .ingress) = true ∧
      c.matches? d packet banned (crowdsecRule c.deny) = true) ↔
      d = .ingress ∧ c.crowdsec = true ∧ banned (packet.remote d) = true := by
  rw [matches?_set d packet banned rfl (by simp [crowdsecRule]) rfl]
  change _ ∧ (c.plan.member "crowdsec" banned (packet.remote d) != false) = true ↔ _
  rw [Bool.bne_false]
  cases d with
  | egress => simp
  | ingress =>
    simp only [decide_true, Bool.and_true, true_and]
    refine and_congr_right fun hc => ?_
    rw [member_crowdsec hnames hc]

theorem eligible_segment :
    ((c.applicable.any fun value => value.policy.direction = d.word) = true ∧
      c.matches? d packet banned eligibleRule = true) ↔
      (∃ value ∈ c.applicable, value.policy.direction = d.word) ∧
        ¬ GeoEligible c.family (packet.remote d) := by
  rw [matches?_set d packet banned rfl (by decide) rfl]
  change _ ∧ (c.plan.member "geo_eligible" banned (packet.remote d) != true) = true ↔ _
  rw [Bool.bne_true, Bool.not_eq_true', any_eq_true]
  simp only [decide_eq_true_eq]
  refine and_congr_right fun han => ?_
  obtain ⟨value, hv, -⟩ := han
  have hne : ¬ c.applicable.isEmpty = true := by
    rw [List.isEmpty_iff]; exact ne_nil_of_mem hv
  rw [← Bool.not_eq_true, member_geoEligible hnames hne]

theorem policy_rules (hde : c.deny ≠ .ret) {v : CompiledPolicy} (hv : v ∈ c.applicable) :
    ((policyRules d c.family c.bindings c.deny v).find? (c.matches? d packet banned)).map
        (·.result .processed) =
      if covered c.family d packet v.policy = true then
        some (policyVerdict c.deny v.policy ((v.included.view c.family).Mem (packet.remote d)))
      else none := by
  have hco : _ ↔ Covers v.policy.traffic c.family packet.protocol packet.port := policyScope_covers
  obtain ⟨hid, hmem⟩ := member_geo hnames hv banned (packet.remote d)
  unfold policyRules covered
  simp only [decide_eq_true_eq]
  by_cases hd : v.policy.direction = d.word
  · simp only [hd, ne_eq, not_true_eq_false, if_false, true_and]
    cases hs : policyScope v.policy.traffic c.family with
    | none =>
      rw [hs] at hco
      simp only [reduceCtorEq, false_and, exists_false, false_iff] at hco
      simp [hco]
    | some scope =>
      simp only [hs, Option.some.injEq, exists_eq_left'] at hco
      -- the first rule also asks for the policy's set, the second only for the scope
      by_cases hc : Covers v.policy.traffic c.family packet.protocol packet.port <;>
        by_cases hm : (v.included.view c.family).Mem (packet.remote d) <;>
        by_cases hb : v.policy.mode = .blocklist <;>
        simp_all [matches?_eq, setMatches, policyVerdict, Rule.result, returned, deniedFor,
          deniedCounter]
  · simp [hd]

theorem policies_segment (hd : c.deny ≠ .ret) {vs : List CompiledPolicy}
    (hvs : ∀ value ∈ vs, value ∈ c.applicable) :
    ((vs.flatMap (policyRules d c.family c.bindings c.deny)).find?
        (c.matches? d packet banned)).map (·.result .processed) =
      (vs.find? fun value => covered c.family d packet value.policy).map fun value =>
        policyVerdict c.deny value.policy
          ((value.included.view c.family).Mem (packet.remote d)) := by
  induction vs with
  | nil => rfl
  | cons value rest ih =>
    have hh := policy_rules d packet banned hnames hd (hvs value mem_cons_self)
    have hrest := ih fun v hv => hvs v (mem_cons_of_mem _ hv)
    rw [flatMap_cons, List.find?_append, List.find?_cons, Option.map_or, hh, hrest]
    split
    · rename_i h; simp [h]
    · rename_i h; simp [h]

/-- **A compiled path, read off.** -/
theorem evaluate_eq (hd : c.deny ≠ .ret) :
    open Classical in
    c.plan.evaluate d packet banned =
      if packet.flow ≠ .new then returned ""
      else if (c.allow.view c.family).Mem (packet.remote d) then returned ""
      else if (c.block.view c.family).Mem (packet.remote d) then
        deniedFor c.deny .globalBlocklist ""
      else if d = .ingress ∧ c.crowdsec = true ∧ banned (packet.remote d) = true then
        deniedFor c.deny .crowdsec ""
      else if (∃ value ∈ c.applicable, value.policy.direction = d.word) ∧
          ¬ GeoEligible c.family (packet.remote d) then returned ""
      else
        ((c.applicable.find? fun value => covered c.family d packet value.policy).map fun value =>
          policyVerdict c.deny value.policy
            ((value.included.view c.family).Mem (packet.remote d))).getD (returned "") := by
  classical
  have hread : c.plan.evaluate d packet banned = (((c.path d).rules.find?
      (c.matches? d packet banned)).map (·.result .processed)).getD (returned "") := by
    rw [evaluate_plan, Path.evaluate_eq]
    rfl
  have hf : c.matches? d packet banned finalRule = true := by
    rw [matches?_eq d packet banned rfl]
    simp [finalRule, setMatches, scopeMatches, anyScope]
  rw [hread]
  simp only [path, compilePath, append_assoc]
  rw [flow_segment, optional_segment, optional_segment, optional_segment, optional_segment]
  simp only [allow_segment d packet banned hnames, block_segment d packet banned hnames,
    crowdsec_segment d packet banned hnames, eligible_segment d packet banned hnames]
  rw [List.find?_append, Option.map_or, policies_segment d packet banned hnames hd fun _ h => h]
  have hrest : ([finalRule].find? (c.matches? d packet banned)).map (·.result .processed) =
      some (returned "") := by
    rw [List.find?_singleton, hf]
    rfl
  have hbl : (blockRule c.deny).result .processed = deniedFor c.deny .globalBlocklist "" := by
    simp [Rule.result, blockRule, deniedFor, deniedCounter, hd]
  have hc : (crowdsecRule c.deny).result .processed = deniedFor c.deny .crowdsec "" := by
    simp [Rule.result, crowdsecRule, deniedFor, deniedCounter, hd]
  rw [hrest, hbl, hc]
  simp only [apply_ite (fun e : Option Evaluation => e.getD (returned "")), Option.getD_some,
    Option.getD_or]
  rfl

end Path

end FamilyInput

/-! ## Priorities -/

def policyKey (p : Config.Policy) : String ×ₗ Int ×ₗ String :=
  toLex (p.direction.text, toLex (p.priority, p.name))

theorem policyLess_iff {a b : Config.Policy} :
    policyLess a b = true ↔ policyKey a < policyKey b := by
  unfold policyLess policyKey
  rw [Prod.Lex.toLex_lt_toLex, Prod.Lex.toLex_lt_toLex]
  by_cases hd : a.direction.text = b.direction.text
  · by_cases hp : a.priority = b.priority <;> simp [hd, hp]
  · simp [hd]

theorem sorted_policies (vs : List Config.Policy) :
    (sortSlice policyLess vs).Pairwise fun a b => policyKey a ≤ policyKey b :=
  sortSlice_sorted policyKey (fun _ _ => policyLess_iff) vs

theorem priority_le_of_key {a b : Config.Policy} (hd : a.direction = b.direction)
    (h : policyKey a ≤ policyKey b) : a.priority ≤ b.priority := by
  unfold policyKey at h
  rw [Prod.Lex.toLex_le_toLex, Prod.Lex.toLex_le_toLex] at h
  rcases h with h | ⟨-, h | h⟩
  · rw [hd] at h; exact absurd h (lt_irrefl _)
  · exact h.le
  · exact h.1.le

theorem covered_applies {f : Family} {d : Direction} {packet : Packet} {p : Config.Policy}
    (h : covered f d packet p = true) : policyApplies p.traffic f = true := by
  obtain ⟨-, hc⟩ := of_decide_eq_true h
  obtain ⟨scope, hs, -⟩ := policyScope_covers.mpr hc
  by_contra hna
  simp [policyScope, hna] at hs

section Compiled

variable {cfg : Config} {snapshot : Snapshot} {compiled : List CompiledPolicy}
  (h : Compiled snapshot (sortSlice policyLess cfg.policies) compiled)
include h

theorem first_covering (f : Family) (d : Direction) (packet : Packet) :
    (compiled.find? fun value => covered f d packet value.policy).map (·.policy) =
      (covering cfg f d packet).argmin (·.priority) := by
  have hfi : (compiled.find? fun value => covered f d packet value.policy).map (·.policy) =
      ((sortSlice policyLess cfg.policies).filter fun p =>
        enabled p && covered f d packet p).head? := by
    have hf := List.find?_map (f := CompiledPolicy.policy) (l := compiled) (p := covered f d packet)
    rw [h.policies, List.find?_filter] at hf
    rw [List.head?_filter]
    simp only [Bool.decide_and, Bool.decide_eq_true] at hf
    exact hf.symm
  rw [hfi]
  refine head?_eq_argmin ((sortSlice_perm policyLess cfg.policies).filter _) ?_
  have hbo := (sorted_policies cfg.policies).and h.priorities
  refine (hbo.filter _).imp_of_mem ?_
  intro a b ha hb hab
  simp only [mem_filter, Bool.and_eq_true, covered, decide_eq_true_eq] at ha hb
  have hd : a.direction = b.direction := ha.2.2.1.trans hb.2.2.1.symm
  exact lt_of_le_of_ne (priority_le_of_key hd hab.1) (hab.2 hd)

theorem compiled_names : (compiled.map (·.policy.name)).Nodup := by
  have hsu : (compiled.map (·.policy.name)).Sublist
      ((sortSlice policyLess cfg.policies).map (·.name)) := by
    have := (filter_sublist (p := enabled) (l := sortSlice policyLess cfg.policies)).map (·.name)
    rwa [← h.policies, map_map] at this
  exact h.names.sublist hsu

end Compiled

/-! ## The compiler -/

/-- What a successful compilation was made of. -/
structure Compilation (cfg : Config) (snapshot : Snapshot) where
  deny : Action
  allow : Prefix.Set
  block : Prefix.Set
  policies : List CompiledPolicy
  deny_eq : denyAction cfg.firewall.denyAction = .ok deny
  allow_eq : Prefix.Set.new cfg.global.allowlist = .ok allow
  block_eq : Prefix.Set.new cfg.global.blocklist = .ok block
  policies_eq : compilePolicies cfg.policies snapshot = .ok policies

namespace Compilation

variable {cfg : Config} {snapshot : Snapshot}

/-- The input of one family. -/
@[simps]
def input (c : Compilation cfg snapshot) (fingerprint : Family → List Prefix → δ) (f : Family) :
    FamilyInput δ where
  fingerprint := fingerprint
  family := f
  allow := c.allow
  block := c.block
  policies := c.policies
  crowdsec := cfg.crowdsec.enabled
  deny := c.deny

/-- The plans a non-empty model consists of. -/
def families (c : Compilation cfg snapshot) (fingerprint : Family → List Prefix → δ) :
    List FamilyPlan :=
  let family := fun f => if cfg.firewall.enabled f then [(c.input fingerprint f).plan] else []
  family .ipv4 ++ family .ipv6

theorem find?_families (c : Compilation cfg snapshot) (fingerprint : Family → List Prefix → δ)
    {f : Family} (hf : cfg.firewall.enabled f = true) :
    (c.families fingerprint).find? (·.family = f) = some (c.input fingerprint f).plan := by
  have h4 : (c.input fingerprint .ipv4).plan.family = .ipv4 := rfl
  have h6 : (c.input fingerprint .ipv6).plan.family = .ipv6 := rfl
  cases f with
  | ipv4 => simp [families, hf, h4]
  | ipv6 =>
    cases h : cfg.firewall.enabled .ipv4 <;> simp [families, hf, h, h4, h6]

theorem deny_eq_configured (c : Compilation cfg snapshot) :
    c.deny = configuredDeny cfg.firewall.denyAction ∧ c.deny ≠ .ret := by
  have h := c.deny_eq
  cases ha : cfg.firewall.denyAction with
  | drop | reject =>
    rw [ha, denyAction, Except.ok.injEq] at h
    rw [← h]
    exact ⟨rfl, by simp⟩
  | other text => rw [ha] at h; cases h

end Compilation

theorem compile_cases {fingerprint : Family → List Prefix → δ} {cfg : Config}
    {snapshot : Snapshot} {st : State} (h : compile fingerprint cfg snapshot = .ok st) :
    ∃ c : Compilation cfg snapshot, st.families = [] ∨ st.families = c.families fingerprint := by
  obtain ⟨deny, hd, h⟩ := bind_eq_ok.mp (mapError_eq_ok.mp h)
  obtain ⟨allow, hal, h⟩ := bind_eq_ok.mp h
  obtain ⟨block, hbl, h⟩ := bind_eq_ok.mp h
  obtain ⟨pols, hp, h⟩ := bind_eq_ok.mp h
  refine ⟨⟨deny, allow, block, pols, hd, mapError_eq_ok.mp hal, mapError_eq_ok.mp hbl,
    hp⟩, ?_⟩
  split at h
  · cases h; exact .inl rfl
  · obtain ⟨-, h⟩ := ite_throw_eq_ok.mp h
    cases h
    exact .inr rfl

namespace Compilation

variable {cfg : Config} {snapshot : Snapshot} (c : Compilation cfg snapshot)
  (fingerprint : Family → List Prefix → δ) (f : Family)

theorem compiled : Compiled snapshot (sortSlice policyLess cfg.policies) c.policies :=
  (compileLoop_spec c.policies_eq).1

omit [DecidableEq δ] in
theorem names : ((c.input fingerprint f).named.map Prod.fst).Nodup := by
  have hap : (c.input fingerprint f).applicable.Sublist c.policies := filter_sublist
  have hsu := hap.map (·.policy.name)
  unfold FamilyInput.named familySequences
  rw [map_map]
  exact (compiled_names c.compiled).sublist hsu

omit [DecidableEq δ] in
theorem find?_applicable (d : Direction) (packet : Packet) :
    (c.input fingerprint f).applicable.find? (fun value => covered f d packet value.policy) =
      c.policies.find? fun value => covered f d packet value.policy := by
  unfold FamilyInput.applicable
  rw [List.find?_filter]
  congr 1
  funext value
  rw [Bool.eq_iff_iff, decide_eq_true_eq]
  exact and_iff_right_of_imp fun h => covered_applies h

omit [DecidableEq δ] in
theorem exists_applicable (d : Direction) :
    (∃ value ∈ (c.input fingerprint f).applicable, value.policy.direction = d.word) ↔
      ∃ p ∈ cfg.policies, enabled p = true ∧ p.direction = d.word ∧
        policyApplies p.traffic f = true := by
  have hmem : ∀ p, (∃ value ∈ c.policies, value.policy = p) ↔ p ∈ cfg.policies ∧ enabled p = true := by
    intro p
    rw [← mem_map, c.compiled.policies, mem_filter, mem_sortSlice]
  constructor
  · rintro ⟨value, hv, hd⟩
    obtain ⟨hv, hap⟩ := mem_filter.mp hv
    obtain ⟨hp, he⟩ := (hmem value.policy).mp ⟨value, hv, rfl⟩
    exact ⟨value.policy, hp, he, hd, hap⟩
  · rintro ⟨p, hp, he, hd, hap⟩
    obtain ⟨value, hv, rfl⟩ := (hmem p).mpr ⟨hp, he⟩
    exact ⟨value, mem_filter.mpr ⟨hv, hap⟩, hd⟩

theorem evaluate_plan (d : Direction) (packet : Packet) (banned : Addr → Bool)
    (hf : (packet.remote d).family = f) :
    (c.input fingerprint f).plan.evaluate d packet banned =
      meaning cfg snapshot f d packet banned := by
  classical
  obtain ⟨hd, hne⟩ := c.deny_eq_configured
  have hvi : ∀ s : Prefix.Set, (s.view f).Mem (packet.remote d) ↔ s.Mem (packet.remote d) := by
    intro s
    rw [Prefix.Set.mem_view]
    exact and_iff_left hf
  have hal : (c.allow.view f).Mem (packet.remote d) ↔
      Listed cfg.global.allowlist (packet.remote d) :=
    (hvi _).trans (Prefix.Set.new_spec c.allow_eq _)
  have hbl : (c.block.view f).Mem (packet.remote d) ↔
      Listed cfg.global.blocklist (packet.remote d) :=
    (hvi _).trans (Prefix.Set.new_spec c.block_eq _)
  have hp : (((c.input fingerprint f).applicable.find? fun value =>
        covered f d packet value.policy).map fun value =>
          policyVerdict (configuredDeny cfg.firewall.denyAction) value.policy
            ((value.included.view f).Mem (packet.remote d))).getD (returned "") =
      match (covering cfg f d packet).argmin (·.priority) with
      | some p => policyVerdict (configuredDeny cfg.firewall.denyAction) p
          (Effective snapshot p (packet.remote d))
      | none => returned "" := by
    rw [find?_applicable, ← first_covering c.compiled]
    cases hfi : c.policies.find? fun value => covered f d packet value.policy with
    | none => rfl
    | some value =>
      have hef := c.compiled.effective value (mem_of_find?_eq_some hfi) (packet.remote d)
      simp only [Option.map_some, Option.getD_some, hvi, hef]
  rw [FamilyInput.evaluate_eq d packet banned (c.names fingerprint f) hne]
  unfold meaning
  simp only [input_family, input_allow, input_block, input_deny, input_crowdsec, hal, hbl,
    hp, exists_applicable, hd]

end Compilation

/-- **The compiler implements the configuration.** Whenever `compile` yields a non-empty model,
every enabled family has a plan, and first-match evaluation of either direction's path over that
plan's sets is the meaning of the configuration, for every packet whose remote address is of the
family and whatever is currently banned. -/
theorem compile_evaluate (fingerprint : Family → List Prefix → δ) (cfg : Config)
    (snapshot : Snapshot) (st : State) (hc : compile fingerprint cfg snapshot = .ok st)
    (hne : st.empty = false) (f : Family) (hf : cfg.firewall.enabled f = true) :
    ∃ plan, st.families.find? (·.family = f) = some plan ∧
      ∀ (d : Direction) (packet : Packet) (banned : Addr → Bool), (packet.remote d).family = f →
        plan.evaluate d packet banned = meaning cfg snapshot f d packet banned := by
  obtain ⟨c, hst⟩ := compile_cases hc
  rcases hst with hst | hst
  · simp [State.empty, hst] at hne
  · refine ⟨(c.input fingerprint f).plan, ?_, ?_⟩
    · rw [hst]
      exact c.find?_families fingerprint hf
    · intro d packet banned hre
      exact c.evaluate_plan fingerprint f d packet banned hre

/-- A configuration with an allowlist policy, a blocklist policy behind it and all three guards. -/
def sampleConfig : Config where
  global := { allowlist := [.valid (.v4 198 51 100 0 24)], blocklist := [.valid (.v4 203 0 113 0 24)] }
  firewall := { denyAction := .reject, ipv6 := false }
  policies :=
    [{ name := "web", priority := 20, direction := .ingress, mode := .blocklist,
       traffic := { any := true }, included := { asns := ["AS64501"] } },
     { name := "ssh", priority := 10, direction := .ingress, mode := .allowlist,
       traffic := { tcp := [⟨22, 22⟩] }, included := { asns := ["AS64500"] } }]
  crowdsec := { enabled := true }

def sampleSnapshot : Snapshot :=
  ⟨[(⟨.asn, "AS64500"⟩, mustPrefixSet [.v4 8 8 8 0 24]),
    (⟨.asn, "AS64501"⟩, mustPrefixSet [.v4 9 9 9 0 24])]⟩

theorem compile_evaluate_sample :
    ∃ st plan, compile (fun f ps => (f, ps)) sampleConfig sampleSnapshot = .ok st ∧
      st.families.find? (·.family = .ipv4) = some plan ∧
      ∀ (d : Direction) (packet : Packet) (banned : Addr → Bool),
        (packet.remote d).family = .ipv4 →
          plan.evaluate d packet banned =
            meaning sampleConfig sampleSnapshot .ipv4 d packet banned := by
  obtain ⟨st, hc, hne⟩ : ∃ st, compile (fun f ps => (f, ps)) sampleConfig sampleSnapshot = .ok st ∧
      (!st.empty) = true := exists_ok (by decide +kernel)
  obtain ⟨plan, hp, hev⟩ := compile_evaluate (fun f ps => (f, ps)) sampleConfig sampleSnapshot
    st hc (by simpa using hne) .ipv4 rfl
  exact ⟨st, plan, hc, hp, hev⟩

/-! ## Packets that a policy does not cover -/

section Isolation

variable {base cfg : Config} {snapshot : Snapshot} {st st' : State} {f : Family} {d : Direction}
  {packet : Packet} {ps qs : List Config.Policy}

theorem applies_of_covering {p : Config.Policy} (h : p ∈ covering cfg f d packet) :
    ∃ p ∈ cfg.policies, enabled p = true ∧ p.direction = d.word ∧
      policyApplies p.traffic f = true := by
  obtain ⟨hp, hc⟩ := mem_filter.mp h
  rw [Bool.and_eq_true] at hc
  exact ⟨p, hp, hc.1, (of_decide_eq_true hc.2).1, covered_applies hc.2⟩

theorem meaning_congr {banned : Addr → Bool} (h : covering { base with policies := ps } f d packet =
      covering { base with policies := qs } f d packet) :
    meaning { base with policies := ps } snapshot f d packet banned =
      meaning { base with policies := qs } snapshot f d packet banned := by
  unfold meaning
  dsimp only
  rw [h]
  cases hcov : covering { base with policies := qs } f d packet with
  | nil => simp only [argmin_nil, ite_self]
  | cons p rest =>
    have hq := applies_of_covering (hcov ▸ mem_cons_self)
    have hp := applies_of_covering (h ▸ hcov ▸ mem_cons_self)
    simp only [eq_true hp, eq_true hq]

theorem exists_plan {fingerprint : Family → List Prefix → δ}
    (hc : compile fingerprint cfg snapshot = .ok st) (hne : st.empty = false)
    (hf : cfg.firewall.enabled f = true) (hr : (packet.remote d).family = f) :
    ∃ plan, st.families.find? (·.family = f) = some plan ∧ ∀ banned,
      plan.evaluate d packet banned = meaning cfg snapshot f d packet banned := by
  obtain ⟨c, hst | hst⟩ := compile_cases hc
  · simp [State.empty, hst] at hne
  · exact ⟨_, hst ▸ c.find?_families fingerprint hf,
      fun banned => c.evaluate_plan fingerprint f d packet banned hr⟩

/-- **A policy concerns only the packets it covers.** However policies are replaced by others, the
verdict on a packet that no enabled one of them covers stays what it was. -/
theorem policies_isolated (fingerprint : Family → List Prefix → δ) (base : Config)
    (before old new after : List Config.Policy)
    (hc : compile fingerprint { base with policies := before ++ old ++ after } snapshot = .ok st)
    (hc' : compile fingerprint { base with policies := before ++ new ++ after } snapshot = .ok st')
    (hne : st.empty = false) (hne' : st'.empty = false) (hf : base.firewall.enabled f = true)
    (hr : (packet.remote d).family = f)
    (hno : ∀ p ∈ old ++ new, (enabled p && covered f d packet p) = false) :
    ∃ plan plan', st.families.find? (·.family = f) = some plan ∧
      st'.families.find? (·.family = f) = some plan' ∧
      ∀ banned, plan'.evaluate d packet banned = plan.evaluate d packet banned := by
  obtain ⟨plan, hp, hev⟩ := exists_plan hc hne hf hr
  obtain ⟨plan', hp', hev'⟩ := exists_plan hc' hne' hf hr
  refine ⟨plan, plan', hp, hp', fun banned => ?_⟩
  rw [hev, hev']
  refine meaning_congr ?_
  have hnone : ∀ ps ⊆ old ++ new, ps.filter (fun p => enabled p && covered f d packet p) = [] :=
    fun ps hsub => filter_eq_nil_iff.mpr fun p hin => Bool.eq_false_iff.mp (hno p (hsub hin))
  simp only [covering, filter_append, hnone old (subset_append_left old new),
    hnone new (subset_append_right old new)]

end Isolation

theorem ssh_policy_removed :
    let cfg := { sampleConfig with policies := sampleConfig.policies.take 1 }
    let remote := (Prefix.v4 9 9 9 9 32).addr
    ∃ st st', compile Prod.mk sampleConfig sampleSnapshot = .ok st ∧
      compile Prod.mk cfg sampleSnapshot = .ok st' ∧
      ∃ plan plan', st.families.find? (·.family = .ipv4) = some plan ∧
        st'.families.find? (·.family = .ipv4) = some plan' ∧
        ∀ banned, plan'.evaluate .ingress ⟨.new, remote, remote, .tcp, 80⟩ banned =
          plan.evaluate .ingress ⟨.new, remote, remote, .tcp, 80⟩ banned := by
  intro cfg remote
  obtain ⟨st, hc, hne⟩ : ∃ st, compile Prod.mk sampleConfig sampleSnapshot = .ok st ∧
      (!st.empty) = true := exists_ok (by decide +kernel)
  obtain ⟨st', hc', hne'⟩ : ∃ st, compile Prod.mk cfg sampleSnapshot = .ok st ∧
      (!st.empty) = true := exists_ok (by decide +kernel)
  exact ⟨st, st', hc, hc', policies_isolated Prod.mk sampleConfig (sampleConfig.policies.take 1)
    (sampleConfig.policies.drop 1) [] [] hc hc' (by simpa using hne) (by simpa using hne') rfl rfl
    (by decide +kernel)⟩

end Perimeterd.Policy
