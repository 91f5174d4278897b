import Perimeterd.Firewall.Validate
import Perimeterd.Lib.Pointwise
import Perimeterd.Lookup.Coverage
import Perimeterd.Lookup.Evaluate
import Perimeterd.Policy.Plan

/-!
# Answers agree with enforcement

A complete answer says of every address, port, protocol, direction and attachment what the compiled
rules do with a new flow, and says it once (`evaluate_agrees`).

The argument follows the evaluator. A turn's outcome does not depend on how many records there were
before it (`Static.reply`), so the outcomes are those of the turns. The cells and the scopes are whole
for every rule, so a turn's outcome is right for everything it covers (`reply_agrees`), not only for
the first address. Turns cover everything, and two that share something are the same turn. Coalescing
keeps all of that.

For the sets to be found by bisection the plans have to be those of a compilation (`Indexed`): no ID
twice, and canonical prefixes.
-/

namespace Perimeterd.Lookup

open Lib Policy List

/-! ## Turns -/

section Turns

variable (s : Static) (f : Family) (dynamic : Dynamic) (now : Time)

def Static.scopeReply (plan : FamilyPlan) (address : Prefix) (d : Direction) (scope : FlowScope)
    (attachment : Attachment) : Option Outcome :=
  match plan.paths.find? (·.direction = d) with
  | none => some (makeNotManagedWith address d scope attachment "direction is not managed")
  | some path =>
      (path.rules.find? (s.ruleMatches plan.family dynamic now address scope)).map fun rule =>
        s.ruleOutcome address d scope attachment rule
          (sortSlice evidenceLess
            (s.gathered dynamic rule (s.classifyRule rule).1 address.addr))

/-- The outcome of a turn, whatever came before. -/
def Static.reply (job : Job) : Option Outcome :=
  match job.attachment, s.family f with
  | none, _ => some (makeNotManaged job.address job.direction job.scope "no managed attachment")
  | some attachment, none =>
      some (makeNotManagedWith job.address job.direction job.scope attachment
        "address family is not managed")
  | some attachment, some plan =>
      s.scopeReply dynamic now plan job.address job.direction job.scope attachment

variable {s f dynamic now}

theorem scopeReply_of_evaluateScope {plan : FamilyPlan} {address : Prefix} {d : Direction}
    {scope : FlowScope} {att : Attachment} {limit : Nat} {o : Outcome}
    (h : s.evaluateScope plan dynamic now address d scope att limit = some o) :
    s.scopeReply dynamic now plan address d scope att = some o := by
  unfold Static.evaluateScope at h
  unfold Static.scopeReply
  cases hp : plan.paths.find? (·.direction = d) with
  | none =>
    rw [hp] at h
    exact h
  | some path =>
    rw [hp] at h
    obtain ⟨rule, hru, h⟩ := Option.bind_eq_some_iff.mp h
    obtain ⟨evidence, hev, h⟩ := Option.bind_eq_some_iff.mp h
    unfold Static.explain at hev
    dsimp only at hev
    rw [Option.ite_none_left_eq_some] at hev
    dsimp only
    rw [hru, Option.map_some, Option.some.inj hev.2]
    exact h

theorem turn_eq_ok {rcs : Nat} {job : Job} {o : Outcome}
    (h : s.turn f dynamic now rcs job = .ok o) :
    s.reply f dynamic now job = some o ∧ rcs + o.records ≤ maxRecords := by
  have hp : ∀ {o' : Outcome}, o'.evidence = [] →
      (if rcs ≥ maxRecords then .error limitExceeded else .ok o' : Except Failure Outcome) =
        .ok o → some o' = some o ∧ rcs + o.records ≤ maxRecords := by
    intro o' hno h
    split at h
    · cases h
    · cases h
      refine ⟨rfl, ?_⟩
      rw [Outcome.records, hno, length_nil]
      omega
  obtain ⟨address, d, scope, attachment⟩ := job
  unfold Static.turn at h
  unfold Static.reply
  cases attachment with
  | none => exact hp rfl h
  | some attachment =>
    cases hpl : s.family f with
    | none =>
      rw [hpl] at h
      exact hp rfl h
    | some plan =>
      rw [hpl] at h
      dsimp only at h
      split at h
      · cases h
      split at h
      · cases h
      case h_2 out hsc =>
        split at h
        · cases h
        · cases h
          refine ⟨scopeReply_of_evaluateScope hsc, ?_⟩
          rw [Outcome.records]
          omega

/-- **The outcomes are the replies of the turns.** -/
theorem turns_eq_ok {jobs : List Job} {rcs : Nat} {outs : List Outcome}
    (h : s.turns f dynamic now rcs jobs = .ok outs) :
    List.Forall₂ (fun job o => s.reply f dynamic now job = some o) jobs outs ∧
      (rcs ≤ maxRecords → rcs + (outs.map Outcome.records).sum ≤ maxRecords) := by
  induction jobs generalizing rcs outs with
  | nil =>
    cases h
    exact ⟨.nil, fun hle => hle⟩
  | cons job rest ih =>
    obtain ⟨o, ho, h⟩ := bind_eq_ok.mp h
    obtain ⟨others, hot, h⟩ := bind_eq_ok.mp h
    cases h
    obtain ⟨hrep, hl⟩ := turn_eq_ok ho
    obtain ⟨hre, hsu⟩ := ih hot
    refine ⟨.cons hrep hre, fun _ => ?_⟩
    rw [Nat.add_assoc, ← Outcome.records] at hsu
    rw [map_cons, sum_cons, ← Nat.add_assoc]
    exact hsu hl

end Turns

/-- What a complete answer was made of. -/
structure Run (s : Static) (dynamic : Dynamic) (q : Query) (now : Time) where
  cells : List Prefix
  outcomes : List Outcome
  partition : partitionPrefixes q.network (s.boundaries q.network.addr.family) dynamic.prefixes
    dynamic.decisions = some cells
  replies : List.Forall₂ (fun job o => s.reply q.network.addr.family dynamic now job = some o)
    (s.jobs cells q.directions (trafficScopes (s.family q.network.addr.family) q)) outcomes
  records : (outcomes.map Outcome.records).sum ≤ maxRecords

variable {s : Static} {d : Direction} {att : Attachment}

theorem evaluate_eq_ok {intr : Option String} {dynamic : Dynamic} {q : Query}
    {now : Time} {r : Answer} (h : s.evaluate intr dynamic q now = .ok r) :
    ∃ run : Run s dynamic q now, r.query = q ∧ r.observedAt = now ∧
      r.outcomes = coalesceOutcomes run.outcomes ∧ r.verdict = conclude r.outcomes := by
  unfold Static.evaluate at h
  obtain ⟨⟨⟩, -, h⟩ := bind_eq_ok.mp h
  obtain ⟨-, h⟩ := ite_throw_eq_ok.mp h
  obtain ⟨cells, hc, h⟩ := bind_eq_ok.mp h
  obtain ⟨-, h⟩ := ite_throw_eq_ok.mp h
  obtain ⟨outs, ho, h⟩ := bind_eq_ok.mp h
  obtain ⟨hre, hsu⟩ := turns_eq_ok ho
  rw [Nat.zero_add] at hsu
  cases hp : partitionPrefixes q.network (s.boundaries q.network.addr.family) dynamic.prefixes
      dynamic.decisions with
  | none =>
    rw [hp] at hc
    cases hc
  | some found =>
    rw [hp] at hc
    cases hc
    unfold finish at h
    split at h
    · cases h
    · cases h
      exact ⟨⟨cells, outs, hp, hre, hsu (Nat.zero_le _)⟩, rfl, rfl, rfl, rfl⟩

/-! ## Sets -/

/-- Plans whose sets are found by bisection: those of a compilation. -/
structure Indexed (families : List FamilyPlan) : Prop where
  distinct : ∀ p ∈ families, ∀ q ∈ families, p.family = q.family → p = q
  ids : ∀ plan ∈ families, ∀ s ∈ plan.sets, ∀ t ∈ plan.sets, t.id = s.id → t = s
  canonical : ∀ plan ∈ families, ∀ s ∈ plan.sets, Prefix.Canonical s.prefixes
  kinds : ∀ plan ∈ families, ∀ s ∈ plan.sets, s.kind = .crowdsec ↔ s.id = "crowdsec"
  named : ∀ plan ∈ families, ∀ path ∈ plan.paths, ∀ rule ∈ path.rules,
    rule.matching.setID = "crowdsec" → ∃ s ∈ plan.sets, s.id = "crowdsec"

structure Served (s : Static) : Prop where
  index : s.setIndex = setPrefixes s.families
  ascending : ∀ f, Ascending (s.boundaries f)
  bounds : ∀ f, ∀ set ∈ familySets s.families f, ∀ p ∈ set.prefixes, p ∈ s.boundaries f

theorem familyBoundaries_ascending (families : List FamilyPlan) (rcs : List Source.Record)
    (globals : List NetipPrefix) (f : Family) :
    Ascending (familyBoundaries families rcs globals f) := ascending_sorted _

theorem mem_familyBoundaries {families : List FamilyPlan} {rcs : List Source.Record}
    {globals : List NetipPrefix} {f : Family} {p : Prefix} :
    p ∈ familyBoundaries families rcs globals f ↔
      (∃ set ∈ familySets families f, p ∈ set.prefixes) ∨
      (∃ record ∈ rcs, p ∈ recordPrefixes f record) ∨
      p ∈ validPrefixes globals ∧ p.addr.family = f := by
  unfold familyBoundaries
  simp only [mem_compact, mem_sortSlice, mem_append, mem_flatMap, mem_filter,
    decide_eq_true_eq, or_assoc]

theorem newStatic_eq_ok {tx : Source.Texts} {gs : Config.Groups} {cfg : Config}
    {tgt : Option Firewall.Target} {snap : Source.Snapshot}
    (h : newStatic tx gs cfg tgt snap = .ok s) :
    Source.validateSnapshot tx cfg snap = .ok () ∧
      s = tgt.elim (emptyStatic gs cfg snap)
        ((emptyStatic gs cfg snap).withTarget snap.records) := by
  unfold newStatic at h
  obtain ⟨⟨⟩, hva, h⟩ := bind_eq_ok.mp h
  refine ⟨mapError_eq_ok.mp hva, ?_⟩
  cases tgt with
  | none =>
    cases h
    rfl
  | some tgt =>
    cases h
    rfl

theorem newStatic_served {tx : Source.Texts} {gs : Config.Groups} {cfg : Config}
    {tgt : Option Firewall.Target} {snap : Source.Snapshot}
    (h : newStatic tx gs cfg tgt snap = .ok s) : Served s := by
  obtain ⟨-, rfl⟩ := newStatic_eq_ok h
  cases tgt with
  | none =>
    refine ⟨rfl, fun f => List.Pairwise.nil, fun f set hse => ?_⟩
    simp [familySets, emptyStatic] at hse
  | some tgt =>
    refine ⟨rfl, fun f => familyBoundaries_ascending _ _ _ f, fun f set hse p hp => ?_⟩
    exact mem_familyBoundaries.mpr (.inl ⟨set, hse, hp⟩)

section Compiled

variable {δ : Type} [DecidableEq δ]

theorem plan_sets {c : FamilyInput δ} (hna : (c.named.map Prod.fst).Nodup) {s : PrefixSet}
    (hs : s ∈ c.plan.sets) :
    Prefix.Canonical s.prefixes ∧ (s.kind = .crowdsec ↔ s.id = "crowdsec") := by
  rcases FamilyInput.mem_sets.mp hs with ⟨-, rfl⟩ | ⟨-, rfl⟩ | ⟨-, rfl⟩ | ⟨-, rfl⟩ | hg
  · exact ⟨(c.allow.view c.family).canonical, by simp⟩
  · exact ⟨(c.block.view c.family).canonical, by simp⟩
  · exact ⟨⟨by simp, .nil⟩, by simp⟩
  · exact ⟨(geoEligible c.family).canonical, by simp⟩
  · obtain ⟨hki, value, -, hid, hp⟩ := FamilyInput.geo_set hna hg
    refine ⟨hp ▸ (value.included.view c.family).canonical, ?_⟩
    rw [hki, hid]
    refine iff_of_false (by simp) fun h => ?_
    simpa using congrArg String.toList h

theorem policyRules_spec {d : Direction} {f : Family} {binds : List (String × String)}
    {deny : Action} {v : CompiledPolicy} {rule : Rule} (hru : rule ∈ policyRules d f binds deny v) :
    rule.policy = v.policy.name ∧
      (rule.matching.setID = "" ∨ rule.matching.setID = lookupID binds v.policy.name) := by
  obtain ⟨scope, -, setID, hid, rfl | rfl⟩ := policyRules_cases hru
  · exact ⟨rfl, hid⟩
  · exact ⟨rfl, hid⟩

theorem crowdsec_named {c : FamilyInput δ} (hna : (c.named.map Prod.fst).Nodup) {path : Path}
    (hp : path ∈ c.plan.paths) {rule : Rule} (hru : rule ∈ path.rules)
    (hid : rule.matching.setID = "crowdsec") : ∃ s ∈ c.plan.sets, s.id = "crowdsec" := by
  obtain ⟨d, rfl⟩ := FamilyInput.mem_paths.mp hp
  rcases FamilyInput.mem_rules.mp hru with
    hg | ⟨-, rfl⟩ | ⟨-, rfl⟩ | ⟨⟨hon, -⟩, rfl⟩ | ⟨-, rfl⟩ | ⟨value, hvalue, hru⟩ | rfl
  · rcases mem_cons.mp hg with rfl | hg
    · simp at hid
    · rw [mem_singleton.mp hg] at hid
      simp at hid
  · simp [allowRule] at hid
  · simp [blockRule] at hid
  · exact ⟨_, FamilyInput.mem_sets.mpr (.inr (.inr (.inl ⟨hon, rfl⟩))), rfl⟩
  · simp [eligibleRule] at hid
  · rcases (policyRules_spec hru).2 with h | h
    · rw [hid] at h
      simp at h
    · obtain ⟨set, hse, hbo⟩ := FamilyInput.bound_set hna hvalue
      obtain ⟨-, _, _, hge, -⟩ := FamilyInput.geo_set hna hse
      rw [hid, hbo, hge] at h
      simpa using congrArg String.toList h
  · simp [finalRule] at hid

theorem compiled_plans {fp : Family → List Prefix → δ} {cfg : Config} {snap : Snapshot}
    {st : Policy.State} {c : Compilation cfg snap}
    (hst : st.families = [] ∨ st.families = c.families fp) :
    ∀ plan ∈ st.families, plan = (c.input fp plan.family).plan := by
  intro plan hp
  rcases hst with hst | hst
  · rw [hst] at hp
    cases hp
  · rw [hst, Compilation.families, mem_append] at hp
    rcases hp with hp | hp
    · rw [mem_singleton.mp (mem_ite_nil_right.mp hp).2]
      rfl
    · rw [mem_singleton.mp (mem_ite_nil_right.mp hp).2]
      rfl

theorem compile_indexed {fp : Family → List Prefix → δ} {cfg : Config}
    {snap : Snapshot} {st : Policy.State} (h : compile fp cfg snap = .ok st) :
    Indexed st.families := by
  obtain ⟨c, hst⟩ := compile_cases h
  have hpla : ∀ plan ∈ st.families, ∃ f, plan = (c.input fp f).plan := fun plan hpl =>
    ⟨plan.family, compiled_plans hst plan hpl⟩
  have hna := fun f => c.names fp f
  refine ⟨?_, ?_, ?_, ?_, ?_⟩
  · intro p hp q hq hf
    obtain ⟨f, rfl⟩ := hpla p hp
    obtain ⟨g, rfl⟩ := hpla q hq
    rw [show f = g from hf]
  · intro plan hpl s hs t ht hid
    obtain ⟨f, rfl⟩ := hpla plan hpl
    exact FamilyInput.sets_unique (hna f) hs ht hid
  · intro plan hpl s hs
    obtain ⟨f, rfl⟩ := hpla plan hpl
    exact (plan_sets (hna f) hs).1
  · intro plan hpl s hs
    obtain ⟨f, rfl⟩ := hpla plan hpl
    exact (plan_sets (hna f) hs).2
  · intro plan hpl path hpa rule hru hid
    obtain ⟨f, rfl⟩ := hpla plan hpl
    exact crowdsec_named (hna f) hpa hru hid

end Compiled

section Sets

variable {s : Static} {f : Family} {plan : FamilyPlan} {dynamic : Dynamic} {now : Time}
  {cell : Prefix} {a : Addr}

theorem family_mem (hp : s.family f = some plan) : plan ∈ s.families ∧ plan.family = f := by
  refine ⟨mem_of_find?_eq_some hp, ?_⟩
  simpa using List.find?_some hp

theorem mem_familySets (hind : Indexed s.families) (hp : s.family f = some plan)
    {set : PrefixSet} : set ∈ familySets s.families f ↔ set ∈ plan.sets := by
  obtain ⟨hin, hf⟩ := family_mem hp
  simp only [familySets, mem_flatMap, mem_filter, decide_eq_true_eq]
  constructor
  · rintro ⟨other, ⟨hother, ho'⟩, hse⟩
    rwa [hind.distinct plan hin other hother (hf.trans ho'.symm)]
  · exact fun hse => ⟨plan, ⟨hin, hf⟩, hse⟩

/-- **The index finds what the plan's sets contain.** -/
theorem member_eq (hserved : Served s) (hind : Indexed s.families)
    (hp : s.family f = some plan) {id : String}
    (hnamed : id = "crowdsec" → ∃ set ∈ plan.sets, set.id = "crowdsec") (a : Addr) :
    s.member f dynamic now id a = plan.member id (dynamic.banned now) a := by
  obtain ⟨hin, -⟩ := family_mem hp
  unfold Static.member
  split
  case isTrue hid =>
    obtain ⟨set, hse, hc⟩ := hnamed hid
    have hf := find?_id hse fun t ht => hind.ids plan hin set hse t ht
    rw [hc, ← hid] at hf
    rw [FamilyPlan.member, hf]
    simp only [(hind.kinds plan hin set hse).mpr hc]
  case isFalse hid =>
    rw [hserved.index, setPrefixes]
    cases hf : (familySets s.families f).reverse.find? (·.id = id) with
    | none =>
      have hno : plan.sets.find? (·.id = id) = none := by
        rw [List.find?_eq_none] at hf ⊢
        intro set hse
        exact hf set (mem_reverse.mpr ((mem_familySets hind hp).mpr hse))
      rw [FamilyPlan.member, hno]
      rfl
    | some set =>
      have hse : set ∈ plan.sets := (mem_familySets hind hp).mp
        (mem_reverse.mp (mem_of_find?_eq_some hf))
      obtain rfl : set.id = id := by simpa using List.find?_some hf
      have hki : set.kind = .static := by
        cases hki : set.kind with
        | static => rfl
        | crowdsec => exact absurd ((hind.kinds plan hin set hse).mp hki) hid
      rw [Bool.eq_iff_iff,
        member_static hse (fun t ht => hind.ids plan hin set hse t ht) hki,
        containingPrefix_isSome (hind.canonical plan hin set hse)]

/-- A cell that no set, no lease and no decision divides. -/
structure Whole (s : Static) (f : Family) (dynamic : Dynamic) (cell : Prefix) : Prop where
  sets : ∀ b ∈ s.boundaries f, Atomic b cell
  leases : ∀ v ∈ dynamic.prefixes, Atomic v.pfx cell
  decisions : ∀ d ∈ dynamic.decisions, Atomic d.pfx cell

theorem banned_whole (hc : Whole s f dynamic cell)
    (ha : cell.contains a = true) : dynamic.banned now a = dynamic.banned now cell.addr :=
  any_congr_mem fun v hv => congrArg (decide (now < v.deadline) && ·) (hc.leases v hv a ha)

/-- **Membership is the same all over a cell.** -/
theorem member_whole (hserved : Served s) (hin : Indexed s.families)
    (hpl : s.family f = some plan) (hc : Whole s f dynamic cell)
    (ha : cell.contains a = true) (id : String) :
    plan.member id (dynamic.banned now) a = plan.member id (dynamic.banned now) cell.addr := by
  unfold FamilyPlan.member
  cases hf : plan.sets.find? (·.id = id) with
  | none => rfl
  | some set =>
    have hse := (mem_familySets hin hpl).mpr (mem_of_find?_eq_some hf)
    cases hki : set.kind with
    | crowdsec => simpa only [hki] using banned_whole hc ha
    | static =>
      simp only [hki]
      exact any_congr_mem fun p hp => hc.sets p (hserved.bounds f set hse p hp) a ha

/-- A packet of a new flow whose remote address is given. -/
def newFlow (a : Addr) (protocol : Protocol) (port : Port) : Packet := ⟨.new, a, a, protocol, port⟩

theorem flowMatches_new (flow : Option FlowMatch) : flowMatches flow .new = flow.isNone := by
  cases flow with
  | none => rfl
  | some flow => cases flow <;> rfl

/-- **A rule matches a whole turn or nothing of it.** -/
theorem ruleMatches_eq (hserved : Served s) (hind : Indexed s.families)
    (hp : s.family f = some plan) {q : Query} (hc : Whole s f dynamic cell)
    (ha : cell.contains a = true) {scope : FlowScope}
    (hsc : scope ∈ protocolScopes (some plan) q scope.protocol) {port : Port}
    (hpo : scope.holds port = true) {path : Path} (hpa : path ∈ plan.paths) {rule : Rule}
    (hru : rule ∈ path.rules) :
    s.ruleMatches plan.family dynamic now cell scope rule =
      ruleMatches plan path (newFlow a scope.protocol port) (dynamic.banned now) rule := by
  obtain ⟨hin, hf⟩ := family_mem hp
  have hre : path.remoteAddress (newFlow a scope.protocol port) = a := by
    unfold Path.remoteAddress
    cases path.remote <;> rfl
  have hme : s.member f dynamic now rule.matching.setID cell.addr =
      plan.member rule.matching.setID (dynamic.banned now) cell.addr :=
    member_eq hserved hind hp (hind.named plan hin path hpa rule hru) cell.addr
  unfold Static.ruleMatches ruleMatches setMatches
  rw [hre, member_whole hserved hind hp hc ha, ← hme, hf,
    scopeCovers_eq hsc hpo hpa hru]
  show (_ && _ && _) = (flowMatches _ .new && _ && _)
  rw [flowMatches_new, Bool.and_right_comm]
  rfl

end Sets

/-! ## Replies -/

/-- Whether a plan has a path in a direction. -/
def Static.managed (s : Static) (f : Family) (d : Direction) : Bool :=
  ((s.family f).bind fun plan => plan.paths.find? (·.direction = d)).isSome

/-- How an answer names an attachment, or the lack of one. -/
def Static.view (s : Static) (f : Family) (d : Direction) (place : Option Attachment) : Attachment :=
  match place with
  | none => { portBasis := .currentDestination }
  | some attachment => { attachment with managed := s.managed f d }

/-- What the enforced rules do with a new flow. Where nothing is attached or the family has no plan,
nothing is done to it. -/
def Static.enforced (s : Static) (f : Family) (d : Direction) (place : Option Attachment)
    (banned : Addr → Bool) (a : Addr) (protocol : Protocol) (port : Port) : Evaluation :=
  match place, s.family f with
  | some _, some plan => plan.evaluate d (newFlow a protocol port) banned
  | _, _ => { action := .ret }

theorem attachmentsFor_managed (h : att ∈ s.attachmentsFor d) : att.managed = true := by
  unfold Static.attachmentsFor at h
  split at h
  · rw [mem_singleton.mp h]
  · obtain ⟨a, -, rfl⟩ := mem_map.mp h
    rfl

theorem managed_of_places (h : some att ∈ s.places d) : att.managed = true := by
  unfold Static.places at h
  split at h
  · simp at h
  · exact attachmentsFor_managed (by simpa using h)

theorem view_inj {f : Family} {p q : Option Attachment}
    (hp : p ∈ s.places d) (hq : q ∈ s.places d) (h : s.view f d p = s.view f d q) : p = q := by
  have hno : none ∈ s.places d → s.places d = [none] := by
    intro hin
    unfold Static.places at hin ⊢
    split at hin
    · rfl
    · simp at hin
  cases p with
  | none =>
    rw [hno hp] at hq
    exact (mem_singleton.mp hq).symm
  | some a =>
    cases q with
    | none =>
      rw [hno hq] at hp
      exact mem_singleton.mp hp
    | some b =>
      have ha := managed_of_places hp
      have hb := managed_of_places hq
      obtain ⟨⟩ := a
      obtain ⟨⟩ := b
      simp only [Static.view, Attachment.mk.injEq] at h
      simp_all

section Replies

variable {s : Static} {f : Family} {dynamic : Dynamic} {now : Time} {job : Job} {o : Outcome}

/-- **What a reply can be**: that nothing manages the turn, or the outcome of a rule. -/
theorem reply_cases (h : s.reply f dynamic now job = some o) :
    (∃ attachment reason, reason ≠ "" ∧
      o = makeNotManagedWith job.address job.direction job.scope attachment reason ∧
      o.attachment = s.view f job.direction job.attachment ∧
      ∀ banned a proto port,
        s.enforced f job.direction job.attachment banned a proto port = { action := .ret }) ∨
    ∃ attachment plan path rule, job.attachment = some attachment ∧ s.family f = some plan ∧
      plan.paths.find? (·.direction = job.direction) = some path ∧
      path.rules.find? (s.ruleMatches plan.family dynamic now job.address job.scope) = some rule ∧
      o = s.ruleOutcome job.address job.direction job.scope attachment rule (sortSlice evidenceLess
          (s.gathered dynamic rule (s.classifyRule rule).1 job.address.addr)) := by
  obtain ⟨address, d, scope, place⟩ := job
  unfold Static.reply at h
  cases place with
  | none =>
    cases h
    exact .inl ⟨_, _, by simp, rfl, rfl, fun _ _ _ _ => rfl⟩
  | some attachment =>
    cases hp : s.family f with
    | none =>
      rw [hp] at h
      cases h
      refine .inl ⟨_, _, by simp, rfl, ?_, fun banned a proto port => ?_⟩
      · simp [makeNotManagedWith, Static.view, Static.managed, hp]
      · simp [Static.enforced, hp]
    | some plan =>
      rw [hp] at h
      dsimp only [Static.scopeReply] at h
      cases hpa : plan.paths.find? (·.direction = d) with
      | none =>
        rw [hpa] at h
        cases h
        refine .inl ⟨_, _, by simp, rfl, ?_, fun banned a proto port => ?_⟩
        · simp [makeNotManagedWith, Static.view, Static.managed, hp, hpa]
        · simp [Static.enforced, hp, FamilyPlan.evaluate, hpa]
      | some path =>
        rw [hpa] at h
        obtain ⟨rule, hru, rfl⟩ := Option.map_eq_some_iff.mp h
        exact .inr ⟨attachment, plan, path, rule, rfl, rfl, hpa, hru, rfl⟩

/-- What every reply takes over from its turn, wherever it is moved. -/
structure Carries (s : Static) (f : Family) (job : Job) (o : Outcome) : Prop where
  direction : o.direction = job.direction
  protocol : o.protocol = job.scope.protocol
  ports : o.ports = job.scope.ports
  attachment : o.attachment = s.view f job.direction job.attachment
  verdict : o.verdict = .blocked ↔ o.action ≠ .ret

theorem Carries.of_same {r : Outcome} (h : Carries s f job o) (hsa : outcomeSame r o = true) :
    Carries s f job r := by
  rw [← outcomeSame_iff.mp hsa] at h
  exact ⟨h.1, h.2, h.3, h.4, h.5⟩

theorem reply_carries (hp : job.attachment ∈ s.places job.direction)
    (h : s.reply f dynamic now job = some o) : o.network = job.address ∧ Carries s f job o := by
  rcases reply_cases h with ⟨attachment, reason, -, rfl, hvi, -⟩ |
    ⟨attachment, plan, path, rule, hat, hpl, hpa, -, rfl⟩
  · exact ⟨rfl, rfl, rfl, rfl, hvi, by simp [makeNotManagedWith]⟩
  · have hma := managed_of_places (hat ▸ hp)
    refine ⟨rfl, rfl, rfl, rfl, ?_, ?_⟩
    · simp [Static.ruleOutcome, Static.view, Static.managed, hat, hpl, hpa, ← hma]
    · simp only [Static.ruleOutcome]
      split <;> simp_all

/-- **A reply is right about everything its turn covers.** -/
theorem reply_agrees (hserved : Served s) (hind : Indexed s.families) {q : Query}
    (h : s.reply f dynamic now job = some o) (hc : Whole s f dynamic job.address)
    (hsc : job.scope ∈ trafficScopes (s.family f) q) {a : Addr}
    (ha : job.address.contains a = true) {port : Port} (hpo : job.scope.holds port = true) :
    let done := s.enforced f job.direction job.attachment (dynamic.banned now) a
      job.scope.protocol port
    o.action = done.action ∧ o.policy = done.trace := by
  rcases reply_cases h with ⟨attachment, reason, -, rfl, -, hd⟩ |
    ⟨attachment, plan, path, rule, hat, hp, hpa, hru, rfl⟩
  · dsimp only
    rw [hd]
    exact ⟨rfl, rfl⟩
  · rw [hp] at hsc
    have hf : path.rules.find? (s.ruleMatches plan.family dynamic now job.address job.scope) =
        path.rules.find? (ruleMatches plan path (newFlow a job.scope.protocol port)
          (dynamic.banned now)) :=
      find?_congr_mem fun rule hin => ruleMatches_eq hserved hind hp hc ha
        (mem_trafficScopes.mp hsc).2 hpo (mem_of_find?_eq_some hpa) hin
    rw [hf] at hru
    simp only [Static.enforced, hat, hp, FamilyPlan.evaluate, hpa, Path.evaluate, hru]
    exact ⟨rfl, rfl⟩

end Replies

/-! ## Runs -/

theorem Tiles.unique {query : Prefix} {cells : List Prefix} (h : Tiles query cells) {c d : Prefix}
    (hc : c ∈ cells) (hd : d ∈ cells) : c = d ∨ Separate c d := by
  have hsy : Std.Symm Separate := ⟨fun _ _ => Separate.symm⟩
  by_cases heq : c = d
  · exact .inl heq
  · exact .inr (h.separate.forall hc hd heq)

theorem mem_jobs {cells : List Prefix} {directions : List Direction}
    {scs : List FlowScope} {job : Job} :
    job ∈ s.jobs cells directions scs ↔ job.address ∈ cells ∧ job.direction ∈ directions ∧
      job.scope ∈ scs ∧ job.attachment ∈ s.places job.direction := by
  obtain ⟨address, d, scope, place⟩ := job
  simp only [Static.jobs, mem_flatMap, mem_map, Job.mk.injEq]
  constructor
  · rintro ⟨_, hc, _, hd, _, hsc, _, hp, rfl, rfl, rfl, rfl⟩
    exact ⟨hc, hd, hsc, hp⟩
  · rintro ⟨hc, hd, hsc, hp⟩
    exact ⟨_, hc, _, hd, _, hsc, _, hp, rfl, rfl, rfl, rfl⟩

def Outcome.Speaks (o : Outcome) (d : Direction) (attachment : Attachment) (a : Addr)
    (protocol : Protocol) (port : Port) : Prop :=
  o.direction = d ∧ o.attachment = attachment ∧ o.covers a protocol port = true

theorem Carries.speaks_iff {f : Family} {job : Job} {o : Outcome} {a : Addr} {proto : Protocol}
    {port : Port} (h : Carries s f job o) :
    o.Speaks d att a proto port ↔ job.direction = d ∧
      s.view f job.direction job.attachment = att ∧ (o.network.contains a = true ∧
      job.scope.protocol = proto) ∧ job.scope.holds port = true := by
  simp only [Outcome.Speaks, Outcome.covers, Outcome.coversPort, FlowScope.holds, h.direction,
    h.attachment, h.protocol, h.ports, Bool.and_eq_true, decide_eq_true_eq]

theorem Outcome.Speaks.contains {o : Outcome} {a : Addr} {proto : Protocol} {port : Port}
    (h : o.Speaks d att a proto port) : o.network.contains a = true := by
  have hc := h.2.2
  simp only [Outcome.covers, Bool.and_eq_true] at hc
  exact hc.1.1

theorem coverCount_eq_one {outs : List Outcome} {a : Addr} {proto : Protocol} {port : Port}
    (hap : outs.Pairwise fun o o' => ¬ (o.Speaks d att a proto port ∧
      o'.Speaks d att a proto port)) (hsome : ∃ o ∈ outs, o.Speaks d att a proto port) :
    coverCount outs d att a proto port = 1 := by
  have hsp : ∀ o : Outcome, (o.direction = d && o.attachment = att &&
      o.covers a proto port) = true ↔ o.Speaks d att a proto port := fun o => by
    simp [Outcome.Speaks, and_assoc]
  obtain ⟨o, ho, hon⟩ := hsome
  rw [coverCount, countP_eq_length_filter,
    filter_eq_singleton (hap.imp fun {o o'} h hbo =>
      h ⟨(hsp o).mp hbo.1, (hsp o').mp hbo.2⟩) ho ((hsp o).mpr hon)]
  rfl

/-- The points a query asks about: an address and a port of a protocol, in a direction and at an
attachment or where there is none. -/
structure Asked (s : Static) (q : Query) (d : Direction) (place : Option Attachment) (a : Addr)
    (protocol : Protocol) (port : Port) : Prop where
  ofDirection : d ∈ q.directions
  ofPlace : place ∈ s.places d
  ofProtocol : protocol ∈ q.protocols
  inNetwork : q.network.contains a = true
  inScope : q.InScope protocol port

/-- What is done to every point a query asks about. -/
def Static.Everywhere (s : Static) (q : Query) (banned : Addr → Bool) (P : Evaluation → Prop) :
    Prop :=
  ∀ d place a protocol port, Asked s q d place a protocol port →
    P (s.enforced q.network.addr.family d place banned a protocol port)

namespace Run

variable {s : Static} {dynamic : Dynamic} {q : Query} {now : Time}

def jobs (run : Run s dynamic q now) : List Job :=
  s.jobs run.cells q.directions (trafficScopes (s.family q.network.addr.family) q)

variable {port : Port} {r : Outcome} {a : Addr} (run : Run s dynamic q now) {d : Direction}

theorem job_of {o : Outcome} (ho : o ∈ run.outcomes) :
    ∃ job ∈ run.jobs, s.reply q.network.addr.family dynamic now job = some o ∧
      o.network = job.address ∧ Carries s q.network.addr.family job o := by
  obtain ⟨job, hjo, hre⟩ := forall₂_exists_left run.replies ho
  exact ⟨job, hjo, hre, reply_carries (mem_jobs.mp hjo).2.2.2 hre⟩

variable (hserved : Served s)

include hserved

theorem tiles :
    Tiles q.network run.cells ∧ ∀ cell ∈ run.cells, Whole s q.network.addr.family dynamic cell := by
  obtain ⟨hti, hat⟩ := partitionPrefixes_spec q.masked (hserved.ascending _) run.partition
  exact ⟨hti, fun cell hc =>
    ⟨(hat cell hc).1, (hat cell hc).2.1, (hat cell hc).2.2⟩⟩

theorem job_unique {job job' : Job}
    (hjo : job ∈ run.jobs) (hjo' : job' ∈ run.jobs) (hd : job.direction = job'.direction)
    (hvi : s.view q.network.addr.family job.direction job.attachment =
      s.view q.network.addr.family job'.direction job'.attachment)
    (hp : job.scope.protocol = job'.scope.protocol) {x : Nat}
    (hx : x ∈ job.address.block) (hx' : x ∈ job'.address.block)
    (hpo : job.scope.holds port = true) (hpo' : job'.scope.holds port = true) : job = job' := by
  obtain ⟨hc, -, hsc, hpl⟩ := mem_jobs.mp hjo
  obtain ⟨hc', -, hs', hp'⟩ := mem_jobs.mp hjo'
  obtain ⟨address, d, scope, place⟩ := job
  obtain ⟨address', d', scope', place'⟩ := job'
  dsimp only at *
  obtain rfl : d = d' := hd
  obtain rfl : address = address' := ((run.tiles hserved).1.unique hc hc').resolve_right
    fun hse => hse x hx hx'
  obtain rfl : place = place' := view_inj hpl hp' hvi
  have hin := (mem_trafficScopes.mp hsc).2
  have hin' := (mem_trafficScopes.mp hs').2
  rw [← hp] at hin'
  rw [protocolScopes_unique hin hin' hpo hpo']

theorem coalesced : Coalesced run.outcomes (coalesceOutcomes run.outcomes) := by
  have hti := (run.tiles hserved).1
  refine coalesceOutcomes_spec (fun o ho => ?_) fun o ho o' ho' _ => ?_
  · obtain ⟨job, hjo, -, hn, -⟩ := run.job_of ho
    rw [hn]
    exact hti.masked _ (mem_jobs.mp hjo).1
  · obtain ⟨job, hjo, -, hn, -⟩ := run.job_of ho
    obtain ⟨job', hjo', -, hn', -⟩ := run.job_of ho'
    rw [hn, hn']
    exact hti.unique (mem_jobs.mp hjo).1 (mem_jobs.mp hjo').1

theorem turn_of (hr : r ∈ coalesceOutcomes run.outcomes) (ha : r.network.contains a = true) :
    ∃ job ∈ run.jobs, ∃ o, s.reply q.network.addr.family dynamic now job = some o ∧
      outcomeSame r o = true ∧ Carries s q.network.addr.family job r ∧
      o.network = job.address ∧ job.address.contains a = true := by
  obtain ⟨o, ho, hx, hsa⟩ := (run.coalesced hserved).meant r hr _ (Prefix.contains_iff.mp ha)
  obtain ⟨job, hjo, hre, hn, hc⟩ := run.job_of ho
  rw [hn] at hx
  exact ⟨job, hjo, o, hre, hsa, hc.of_same hsa, hn, Prefix.contains_iff.mpr hx⟩

/-- **Every point asked about is spoken for.** -/
theorem spoken {place : Option Attachment} {protocol : Protocol}
    (h : Asked s q d place a protocol port) :
    ∃ r ∈ coalesceOutcomes run.outcomes,
      r.Speaks d (s.view q.network.addr.family d place) a protocol port := by
  obtain ⟨cell, hce, hx⟩ := (run.tiles hserved).1.cover _ (Prefix.contains_iff.mp h.inNetwork)
  obtain ⟨scope, hsc, hpor⟩ := protocolScopes_cover (s.family q.network.addr.family) h.inScope
  have hp := protocolScopes_protocol hsc
  have hjo : (⟨cell, d, scope, place⟩ : Job) ∈ run.jobs := by
    refine mem_jobs.mpr ⟨hce, h.ofDirection, mem_trafficScopes.mpr ?_, h.ofPlace⟩
    rw [hp]
    exact ⟨h.ofProtocol, hsc⟩
  obtain ⟨o, ho, hre⟩ := forall₂_exists_right run.replies hjo
  obtain ⟨hn, hc⟩ := reply_carries h.ofPlace hre
  obtain ⟨r, hr, hxr, hsa⟩ := (run.coalesced hserved).said o ho _ (by rw [hn]; exact hx)
  exact ⟨r, hr, (hc.of_same hsa).speaks_iff.mpr
    ⟨rfl, rfl, ⟨Prefix.contains_iff.mpr hxr, hp⟩, hpor⟩⟩

/-- **No point is spoken for twice.** -/
theorem spoken_once (d : Direction) (att : Attachment) (a : Addr) (proto : Protocol) (port : Port) :
    (coalesceOutcomes run.outcomes).Pairwise fun r r' =>
      ¬ (r.Speaks d att a proto port ∧ r'.Speaks d att a proto port) := by
  refine (run.coalesced hserved).apart.imp_of_mem fun {r r'} hr hr' hap ⟨hs, hs'⟩ => ?_
  obtain ⟨job, hjo, o, hre, hsa, hc, -, ha⟩ := run.turn_of hserved hr hs.contains
  obtain ⟨job', hjo', o', hre', hsa', hc', -, ha'⟩ := run.turn_of hserved hr' hs'.contains
  obtain ⟨hd, hvi, ⟨-, hp⟩, hpo⟩ := hc.speaks_iff.mp hs
  obtain ⟨hd', hv', ⟨-, hp'⟩, hpo'⟩ := hc'.speaks_iff.mp hs'
  obtain rfl : job = job' := run.job_unique hserved hjo hjo' (hd.trans hd'.symm)
    (hvi.trans hv'.symm) (hp.trans hp'.symm)
    (Prefix.contains_iff.mp ha) (Prefix.contains_iff.mp ha') hpo hpo'
  rw [hre] at hre'
  cases hre'
  -- two outcomes of one turn agree, so coalescing has set them apart
  exact hap (outcomeSame_trans hsa (outcomeSame_symm hsa')) _
    (Prefix.contains_iff.mp hs.contains) (Prefix.contains_iff.mp hs'.contains)

/-- **An outcome that speaks for a point is right about it.** -/
theorem speaks_right (hin : Indexed s.families) (hr : r ∈ coalesceOutcomes run.outcomes)
    {place : Option Attachment} {proto : Protocol} (hpl : place ∈ s.places d)
    (hsp : r.Speaks d (s.view q.network.addr.family d place) a proto port) :
    let done := s.enforced q.network.addr.family d place (dynamic.banned now) a proto port
    r.action = done.action ∧ r.policy = done.trace ∧ (r.verdict = .blocked ↔ done.action ≠ .ret) := by
  obtain ⟨job, hjo, o, hre, hsa, hca, -, ha⟩ := run.turn_of hserved hr hsp.contains
  obtain ⟨rfl, hvi, ⟨-, rfl⟩, hpo⟩ := hca.speaks_iff.mp hsp
  obtain ⟨hc, -, hsc, hp'⟩ := mem_jobs.mp hjo
  obtain rfl : job.attachment = place := view_inj hp' hpl hvi
  obtain ⟨hac, hp⟩ := reply_agrees hserved hin hre ((run.tiles hserved).2 _ hc) hsc ha hpo
  have hf := outcomeSame_iff.mp hsa
  have hra : r.action = _ := (congrArg Outcome.action hf).trans hac
  exact ⟨hra, (congrArg Outcome.policy hf).trans hp, hra ▸ hca.verdict⟩

theorem speaks_asked (hr : r ∈ coalesceOutcomes run.outcomes) :
    ∃ d place a proto port, Asked s q d place a proto port ∧
      r.Speaks d (s.view q.network.addr.family d place) a proto port := by
  have hmem := r.network.contains_addr
  obtain ⟨job, hjo, o, -, -, hc, -, ha⟩ := run.turn_of hserved hr hmem
  obtain ⟨hce, hd, hsc, hpl⟩ := mem_jobs.mp hjo
  obtain ⟨hp, hin⟩ := mem_trafficScopes.mp hsc
  obtain ⟨port, hpor, hinS⟩ := protocolScopes_inhabited hin
  refine ⟨job.direction, job.attachment, r.network.addr, job.scope.protocol, port,
    ⟨hd, hpl, hp, ?_, hinS⟩, hc.speaks_iff.mpr ⟨rfl, rfl, ⟨hmem, rfl⟩, hpor⟩⟩
  exact Prefix.contains_iff.mpr ((run.tiles hserved).1.inside _ hce _ (Prefix.contains_iff.mp ha))

omit hserved in
theorem exists_place (s : Static) (d : Direction) : ∃ place, place ∈ s.places d := by
  unfold Static.places
  split
  · exact ⟨none, mem_singleton_self _⟩
  case h_2 hne =>
    obtain ⟨attachment, hin⟩ := exists_mem_of_ne_nil _ hne
    exact ⟨some attachment, mem_map_of_mem hin⟩

omit hserved in
theorem exists_asked (s : Static) (q : Query) :
    ∃ d place a proto port, Asked s q d place a proto port := by
  obtain ⟨d, hd⟩ : ∃ d, d ∈ q.directions := by
    unfold Query.directions
    split
    · exact ⟨.ingress, mem_cons_self⟩
    · exact ⟨_, mem_singleton_self _⟩
  obtain ⟨proto, hpr⟩ : ∃ proto, proto ∈ q.protocols := by
    unfold Query.protocols
    split
    · exact ⟨.tcp, mem_cons_self⟩
    · exact ⟨_, mem_singleton_self _⟩
  obtain ⟨place, hpl⟩ := exists_place s d
  refine ⟨d, place, q.network.addr, proto, q.port.getD 0, hd, hpl, hpr,
    q.network.contains_addr, ?_⟩
  unfold Query.InScope
  split
  case h_1 port hp => rw [hp, Option.getD_some]
  case h_2 hp =>
    rw [hp]
    exact .inr rfl

theorem outcomes_ne_nil : coalesceOutcomes run.outcomes ≠ [] := by
  obtain ⟨d, place, a, proto, port, hask⟩ := exists_asked s q
  obtain ⟨r, hr, -⟩ := run.spoken hserved hask
  exact ne_nil_of_mem hr

theorem forall_verdict (hin : Indexed s.families) {P : Prop → Prop} :
    (∀ r ∈ coalesceOutcomes run.outcomes, P (r.verdict = .blocked)) ↔
      s.Everywhere q (dynamic.banned now) fun done => P (done.action ≠ .ret) := by
  constructor
  · intro h d place a proto port hask
    obtain ⟨r, hr, hsp⟩ := run.spoken hserved hask
    obtain ⟨-, -, hve⟩ := run.speaks_right hserved hin hr hask.ofPlace hsp
    rw [← propext hve]
    exact h r hr
  · intro h r hr
    obtain ⟨d, place, a, proto, port, hask, hsp⟩ := run.speaks_asked hserved hr
    obtain ⟨-, -, hve⟩ := run.speaks_right hserved hin hr hask.ofPlace hsp
    rw [propext hve]
    exact h d place a proto port hask

end Run

theorem conclude_spec {outs : List Outcome} (hne : outs ≠ []) :
    (conclude outs = .blocked ↔ ∀ o ∈ outs, o.verdict = .blocked) ∧
    (conclude outs = .notBlocked ↔ ∀ o ∈ outs, ¬ o.verdict = .blocked) := by
  obtain ⟨first, hfirst⟩ := exists_mem_of_ne_nil _ hne
  unfold conclude
  by_cases hb : ∃ o ∈ outs, o.verdict = .blocked
  · by_cases hc : ∃ o ∈ outs, ¬ o.verdict = .blocked
    · -- some of each
      grind
    · push Not at hc
      grind
  · push Not at hb
    grind

/-- **Answers agree with enforcement.** Let a view be built of a target whose sets can be searched: one
the compiler made, or one that was recorded in the old layout. In a complete answer every point asked
about is spoken for by one outcome of its direction and attachment; the action and the policy of that
outcome are those of the first matching rule, with the leases in force at the time of the answer as
what is banned; and the verdict sums up all points. -/
theorem evaluate_agrees (texts : Source.Texts) (groups : Config.Groups) (cfg : Config)
    (target : Option Firewall.Target) (snapshot : Source.Snapshot) (s : Static)
    (hstatic : newStatic texts groups cfg target snapshot = .ok s)
    (hindexed : ∀ t, target = some t → Indexed t.families)
    (interrupted : Option String) (clock : Time) (dynamic : Dynamic) (q : Query) (now : Time)
    (r : Answer) (h : evaluate interrupted clock (some s) dynamic q now = .ok r) :
    let banned := dynamic.banned r.observedAt
    let name := s.view q.network.addr.family
    r.observedAt = (if now = 0 then clock else now) ∧
    (∀ d place a proto port, Asked s q d place a proto port →
      let done := s.enforced q.network.addr.family d place banned a proto port
      coverCount r.outcomes d (name d place) a proto port = 1 ∧
      ∀ o ∈ r.outcomes, o.Speaks d (name d place) a proto port →
        o.action = done.action ∧ o.policy = done.trace) ∧
    (r.verdict = .blocked ↔ s.Everywhere q banned (·.action ≠ .ret)) ∧
    (r.verdict = .notBlocked ↔ s.Everywhere q banned (·.action = .ret)) ∧
    (r.verdict = .mixed ↔
      ¬ s.Everywhere q banned (·.action ≠ .ret) ∧ ¬ s.Everywhere q banned (·.action = .ret)) := by
  have hserved := newStatic_served hstatic
  have hin : Indexed s.families := by
    obtain ⟨-, rfl⟩ := newStatic_eq_ok hstatic
    cases target with
    | none => exact ⟨nofun, nofun, nofun, nofun, nofun⟩
    | some target => exact hindexed target rfl
  obtain ⟨run, -, hno, hou, hve⟩ := evaluate_eq_ok h
  rw [hou] at hve
  obtain ⟨hbl, hc⟩ := conclude_spec (run.outcomes_ne_nil hserved)
  rw [← hve] at hbl hc
  have hd : r.verdict = .blocked ↔ _ := hbl.trans (run.forall_verdict hserved hin (P := fun p => p))
  have hp : r.verdict = .notBlocked ↔ _ := hc.trans (run.forall_verdict hserved hin (P := Not))
  simp only [ne_eq, not_not] at hp
  have hmi : r.verdict = .mixed ↔ ¬ r.verdict = .blocked ∧ ¬ r.verdict = .notBlocked := by
    cases r.verdict <;> simp
  dsimp only
  rw [hno]
  refine ⟨rfl, fun d place a proto port hask => ⟨?_, fun o ho hsp => ?_⟩, hd, hp,
    ?_⟩
  · rw [hou]
    exact coverCount_eq_one (run.spoken_once hserved _ _ _ _ _) (run.spoken hserved hask)
  · rw [hou] at ho
    obtain ⟨hac, hpo, -⟩ := run.speaks_right hserved hin ho hask.ofPlace hsp
    exact ⟨hac, hpo⟩
  · rw [hmi, hd, hp]

/-- A blocked network on an nftables target. -/
def blockConfig : Config where
  global := { blocklist := [.valid (.v4 203 0 113 0 24)] }
  firewall := { denyAction := .drop, ipv6 := false }

def blockFamilies : List FamilyPlan :=
  match compile (fun f ps => (f, ps)) blockConfig ⟨[]⟩ with
  | .ok st => st.families
  | .error _ => []

def blockTarget : Firewall.Target :=
  let target : Firewall.Target :=
    { owner := 1, table := "perimeterd", priority := 0, generation := 2, families := blockFamilies
      counters := [] }
  { target with
    counters := (Firewall.expectedCounters target).dedup.map fun name =>
      ⟨name, name.family, name.direction, name.role⟩ }

def blockStatic : Static := (emptyStatic [] blockConfig {}).withTarget [] blockTarget

/-- A network of which one half is blocked, inbound and over TCP port 443. -/
def halfQuery : Query where
  network := .v4 203 0 112 0 23
  direction := some .ingress
  protocol := some .tcp
  port := some 443
  masked := by decide
  portProtocol := https_ported

theorem partition_half : partitionPrefixes halfQuery.network (blockStatic.boundaries .ipv4) [] [] =
    some [.v4 203 0 112 0 24, .v4 203 0 113 0 24] := by
  have hwork : halve [.v4 203 0 113 0 24] [] [.v4 203 0 112 0 23] =
      some [.v4 203 0 112 0 24, .v4 203 0 113 0 24] := by
    have hsplit : splitPrefix (.v4 203 0 112 0 23) =
        some (.v4 203 0 112 0 24, .v4 203 0 113 0 24) := by decide
    rw [halve, if_pos (by decide), hsplit]
    dsimp only
    rw [if_neg (by decide), halve, if_neg (by decide)]
    simp only [nil_append]
    rw [halve, if_neg (by decide), halve]
    rfl
  have hwindow : window halfQuery.network (blockStatic.boundaries .ipv4) = [.v4 203 0 113 0 24] := by
    decide +kernel
  rw [partitionPrefixes, if_neg (by decide), hwindow]
  show (halve [.v4 203 0 113 0 24] [] [.v4 203 0 112 0 23]).bind _ = _
  rw [hwork]
  decide

theorem evaluate_half : ∃ r, evaluate none 0 (some blockStatic) {} halfQuery 1 = .ok r ∧
    decide (r.verdict = .mixed) = true := by
  refine exists_ok ?_
  rw [evaluate, Static.evaluate, show halfQuery.network.addr.family = .ipv4 from rfl]
  simp only [partition_half]
  decide +kernel

theorem mixed_network_agrees :
    ∃ r, evaluate none 0 (some blockStatic) {} halfQuery 1 = .ok r ∧ r.verdict = .mixed ∧
      ¬ blockStatic.Everywhere halfQuery (fun _ => false) (·.action ≠ .ret) ∧
      ¬ blockStatic.Everywhere halfQuery (fun _ => false) (·.action = .ret) := by
  obtain ⟨r, hr, hve⟩ := evaluate_half
  have hmixed := of_decide_eq_true hve
  have hcompile : compile (fun f ps => (f, ps)) blockConfig ⟨[]⟩ = .ok ⟨blockFamilies⟩ := by
    decide +kernel
  obtain ⟨-, -, -, -, hag⟩ := evaluate_agrees Source.plainTexts [] blockConfig (some blockTarget) {}
    blockStatic rfl (fun t ht => by cases ht; exact compile_indexed hcompile) none 0 {} halfQuery 1 r hr
  exact ⟨r, hr, hmixed, hag.mp hmixed⟩

end Perimeterd.Lookup
