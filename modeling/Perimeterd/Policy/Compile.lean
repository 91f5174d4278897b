import Perimeterd.Policy.Classifier
import Perimeterd.Policy.GeoSets
import Perimeterd.Policy.Snapshot

/-!
# The policy compiler

`internal/policy/compile.go`. A configuration and a snapshot become, per enabled family, the prefix
sets and the two ordered rule lists the backends install.

`Compiled` collects what a successful run of the policy loop guarantees: which policies survive, in
which order, with which effective set, and that names and priorities are unique where it matters.
Everything about the emitted rules is proved from that (`Policy/Meaning.lean`).
-/

namespace Perimeterd.Policy

open Lib

structure CompiledPolicy where
  policy : Config.Policy
  included : Prefix.Set

/-- The errors of the compiler. The source has their texts only; they are kept apart here so that a
failure *for a missing selector* is told from any other whatever the policies are called. -/
inductive Refusal where
  | denyAction (text : String)
  | allowlist (e : String)
  | blocklist (e : String)
  | duplicateName (name : String)
  | direction (name : String) (direction : Config.Direction)
  | duplicatePriority (other : String) (p : Config.Policy)
  | mode (name text : String)
  | includeKeys (name e : String)
  | excludeKeys (name e : String)
  | missing (name category : String) (selector : Selector)
  | empty (name : String)
  | families

def Refusal.text : Refusal → String
  | .denyAction text => s!"firewall.deny_action: unsupported value {text.quote}"
  | .allowlist e => s!"global allowlist: {e}"
  | .blocklist e => s!"global blocklist: {e}"
  | .duplicateName name => s!"policy {name}: duplicate policy name"
  | .direction name d => s!"policy {name}: unsupported direction {d.text.quote}"
  | .duplicatePriority other p =>
      s!"policies {other} and {p.name}: duplicate priority " ++
        s!"{p.priority} in {p.direction.text} direction"
  | .mode name text => s!"policy {name}: unsupported mode {text.quote}"
  | .includeKeys name e => s!"policy {name} include: {e}"
  | .excludeKeys name e => s!"policy {name} exclude: {e}"
  | .missing name category selector =>
      s!"policy {name} {category}: missing snapshot selector " ++
        s!"{selector.kind.text}={selector.value}"
  | .empty name => s!"policy {name}: effective selector set is empty overall"
  | .families =>
      "active policy configuration requires at least one enabled address family " ++
        "(set firewall.ipv4 or firewall.ipv6 to true)"

def denyAction : Config.DenyAction → Except Refusal Action
  | .drop => .ok .drop
  | .reject => .ok .reject
  | .other text => .error (.denyAction text)

/-- The sort order of `compilePolicies`. -/
def policyLess (a b : Config.Policy) : Bool :=
  if a.direction.text ≠ b.direction.text then a.direction.text < b.direction.text
  else if a.priority ≠ b.priority then a.priority < b.priority
  else a.name < b.name

/-- `snapshotUnion`: a missing selector is an error, never an empty set. -/
def snapshotUnion (policy category : String) (selectors : List Selector) (snapshot : Snapshot) :
    Except Refusal Prefix.Set :=
  let rec collect : List Selector → Except Refusal (List Prefix.Set)
    | [] => .ok []
    | selector :: rest =>
        match snapshot.lookup selector with
        | none => .error (.missing policy category selector)
        | some set =>
            match collect rest with
            | .error e => .error e
            | .ok sets => .ok (set :: sets)
  match collect selectors with
  | .error e => .error e
  | .ok sets => .ok (Prefix.Set.union sets)

/-- The body of the policy loop for an enabled policy: include minus exclude, never empty. -/
def effectiveSet (value : Config.Policy) (snapshot : Snapshot) : Except Refusal Prefix.Set := do
  let includeKeys ← (selectorKeys value.included).mapError (Refusal.includeKeys value.name)
  let excludeKeys ← (selectorKeys value.excluded).mapError (Refusal.excludeKeys value.name)
  let inc ← snapshotUnion value.name "include" includeKeys snapshot
  let exc ← snapshotUnion value.name "exclude" excludeKeys snapshot
  let effective := Prefix.Set.difference inc exc
  if effective.prefixes.isEmpty then .error (.empty value.name)
  else .ok effective

/-- A priority taken in one direction, and by which policy. -/
structure TakenPriority where
  direction : Config.Direction
  priority : Int
  name : String

/-- The policy loop, with the names and priorities seen so far. -/
def compileLoop (snapshot : Snapshot) : List String → List TakenPriority → List Config.Policy →
    Except Refusal (List CompiledPolicy)
  | _, _, [] => .ok []
  | names, taken, value :: rest =>
      if value.name ∈ names then .error (.duplicateName value.name)
      else if value.direction ≠ .ingress ∧ value.direction ≠ .egress then
        .error (.direction value.name value.direction)
      else
        match taken.find? fun t => t.direction = value.direction ∧ t.priority = value.priority with
        | some other => .error (.duplicatePriority other.name value)
        | none =>
            let names := value.name :: names
            let taken := ⟨value.direction, value.priority, value.name⟩ :: taken
            match value.mode with
            | .disabled => compileLoop snapshot names taken rest
            | .other text => .error (.mode value.name text)
            | _ => do
                let included ← effectiveSet value snapshot
                let compiled ← compileLoop snapshot names taken rest
                .ok (⟨value, included⟩ :: compiled)

def compilePolicies (values : List Config.Policy) (snapshot : Snapshot) :
    Except Refusal (List CompiledPolicy) :=
  compileLoop snapshot [] [] (sortSlice policyLess values)

/-! ## What the loop guarantees -/

def enabled (p : Config.Policy) : Bool := p.mode ≠ .disabled

/-- The addresses a policy means: some included selector resolves to the address and no excluded
one does. -/
def Effective (snapshot : Snapshot) (p : Config.Policy) (a : Addr) : Prop :=
  (∃ k, Selects p.included k ∧ snapshot.Resolves k a) ∧
    ¬ ∃ k, Selects p.excluded k ∧ snapshot.Resolves k a

/-- A successful run of the policy loop over `values`. -/
structure Compiled (snapshot : Snapshot) (values : List Config.Policy)
    (compiled : List CompiledPolicy) : Prop where
  policies : compiled.map (·.policy) = values.filter enabled
  effective : ∀ c ∈ compiled, ∀ a, c.included.Mem a ↔ Effective snapshot c.policy a
  names : (values.map (·.name)).Nodup
  priorities : values.Pairwise fun p q => p.direction = q.direction → p.priority ≠ q.priority
  modes : ∀ p ∈ values, enabled p = true → p.mode = .allowlist ∨ p.mode = .blocklist

variable {snap : Snapshot}

theorem snapshotUnion_cases (snap : Snapshot) (policy category : String) (sels : List Selector) :
    (∃ sets, sels.map snap.lookup = sets.map some ∧
      snapshotUnion policy category sels snap = .ok (.union sets)) ∨
    ∃ k ∈ sels, snap.lookup k = none ∧
      snapshotUnion policy category sels snap = .error (.missing policy category k) := by
  have hc : (∃ sets, sels.map snap.lookup = sets.map some ∧
        snapshotUnion.collect policy category snap sels = .ok sets) ∨
      ∃ k ∈ sels, snap.lookup k = none ∧
        snapshotUnion.collect policy category snap sels = .error (.missing policy category k) := by
    induction sels with
    | nil => exact .inl ⟨[], rfl, rfl⟩
    | cons k rest ih =>
      rw [snapshotUnion.collect, List.map_cons]
      cases hk : snap.lookup k with
      | none => exact .inr ⟨k, List.mem_cons_self, hk, rfl⟩
      | some set =>
        obtain ⟨sets, hl, hr⟩ | ⟨k', hk', hno, hr⟩ := ih
        · exact .inl ⟨set :: sets, by rw [hl, List.map_cons], by rw [hr]⟩
        · exact .inr ⟨k', List.mem_cons_of_mem _ hk', hno, by rw [hr]⟩
  unfold snapshotUnion
  obtain ⟨sets, hl, hr⟩ | ⟨k, hk, hno, hr⟩ := hc
  · exact .inl ⟨sets, hl, by rw [hr]⟩
  · exact .inr ⟨k, hk, hno, by rw [hr]⟩

theorem snapshotUnion_ok {policy category : String} {sels : List Selector} {set : Prefix.Set}
    (h : snapshotUnion policy category sels snap = .ok set) :
    ∃ sets, sels.map snap.lookup = sets.map some ∧ set = .union sets := by
  obtain ⟨sets, hl, hr⟩ | ⟨k, -, -, hr⟩ := snapshotUnion_cases snap policy category sels
  · exact ⟨sets, hl, Except.ok.inj (h.symm.trans hr)⟩
  · cases h.symm.trans hr

theorem snapshotUnion_spec {policy category : String} {sels : List Selector} {set : Prefix.Set}
    (h : snapshotUnion policy category sels snap = .ok set) (a : Addr) :
    set.Mem a ↔ ∃ k ∈ sels, snap.Resolves k a := by
  obtain ⟨sets, hl, rfl⟩ := snapshotUnion_ok h
  rw [Prefix.Set.mem_union]
  calc (∃ s ∈ sets, s.Mem a) ↔ ∃ o ∈ sets.map some, ∃ s, o = some s ∧ s.Mem a := by simp
    _ ↔ ∃ k ∈ sels, snap.Resolves k a := by
      rw [← hl]
      simp only [List.mem_map, exists_exists_and_eq_and]
      rfl

theorem effectiveSet_spec {v : Config.Policy} {set : Prefix.Set}
    (h : effectiveSet v snap = .ok set) (a : Addr) : set.Mem a ↔ Effective snap v a := by
  unfold effectiveSet at h
  obtain ⟨incKeys, hin, h⟩ := bind_eq_ok.mp h
  obtain ⟨excKeys, hexc, h⟩ := bind_eq_ok.mp h
  obtain ⟨inc, hi, h⟩ := bind_eq_ok.mp h
  obtain ⟨exc, he, h⟩ := bind_eq_ok.mp h
  obtain ⟨-, h⟩ := ite_throw_eq_ok.mp h
  cases h
  rw [Prefix.Set.mem_difference, snapshotUnion_spec hi, snapshotUnion_spec he]
  simp only [selectorKeys_spec (mapError_eq_ok.mp hin), selectorKeys_spec (mapError_eq_ok.mp hexc)]
  rfl

variable {names : List String} {taken : List TakenPriority} {vs : List Config.Policy}
  {compiled : List CompiledPolicy}

/-- **What one turn of the loop did.** -/
theorem compileLoop_cons {p : Config.Policy} {rest : List Config.Policy}
    (h : compileLoop snap names taken (p :: rest) = .ok compiled) :
    p.name ∉ names ∧ (p.direction = .ingress ∨ p.direction = .egress) ∧
      (∀ t ∈ taken, t.direction = p.direction → t.priority ≠ p.priority) ∧
      ∃ tail, compileLoop snap (p.name :: names) (⟨p.direction, p.priority, p.name⟩ :: taken) rest =
          .ok tail ∧
        (enabled p = false ∧ compiled = tail ∨
          (enabled p = true ∧ (p.mode = .allowlist ∨ p.mode = .blocklist)) ∧
            ∃ set, effectiveSet p snap = .ok set ∧ compiled = ⟨p, set⟩ :: tail) := by
  rw [compileLoop] at h
  obtain ⟨hna, h⟩ := ite_throw_eq_ok.mp h
  obtain ⟨hd, h⟩ := ite_throw_eq_ok.mp h
  split at h
  · cases h
  case h_2 hf =>
    refine ⟨hna, by rwa [not_and_or, not_not, not_not] at hd, fun t ht hd hp => ?_, ?_⟩
    · simpa [hd, hp] using List.find?_eq_none.mp hf t ht
    · cases hm : p.mode with
      | disabled =>
        rw [hm] at h
        exact ⟨compiled, h, .inl ⟨by simp [enabled, hm], rfl⟩⟩
      | other text => rw [hm] at h; cases h
      | allowlist | blocklist =>
        rw [hm] at h
        obtain ⟨set, hse, h⟩ := bind_eq_ok.mp h
        obtain ⟨tail, ht, h⟩ := bind_eq_ok.mp h
        exact ⟨tail, ht, .inr ⟨by simp [enabled, hm], set, hse, (Except.ok.inj h).symm⟩⟩

theorem compileLoop_spec (h : compileLoop snap names taken vs = .ok compiled) :
    Compiled snap vs compiled ∧ (∀ p ∈ vs, p.name ∉ names) ∧
      ∀ p ∈ vs, ∀ t ∈ taken, t.direction = p.direction → t.priority ≠ p.priority := by
  induction vs generalizing names taken compiled with
  | nil =>
    cases h
    exact ⟨⟨rfl, by simp, by simp, by simp, by simp⟩, by simp, by simp⟩
  | cons value rest ih =>
    obtain ⟨hna, -, hta, tail, ht, hcase⟩ := compileLoop_cons h
    obtain ⟨hc, hn, hp⟩ := ih ht
    refine ⟨⟨?_, ?_, ?_, ?_, ?_⟩, ?_, ?_⟩
    · rcases hcase with ⟨hen, rfl⟩ | ⟨⟨hen, -⟩, set, -, rfl⟩ <;> simp [hen, hc.policies]
    · rcases hcase with ⟨-, rfl⟩ | ⟨-, set, hse, rfl⟩
      · exact hc.effective
      · exact List.forall_mem_cons.mpr ⟨effectiveSet_spec hse, hc.effective⟩
    · rw [List.map_cons, List.nodup_cons]
      refine ⟨fun hmem => ?_, hc.names⟩
      obtain ⟨p, hpm, hpn⟩ := List.mem_map.mp hmem
      exact hn p hpm (hpn ▸ List.mem_cons_self)
    · rw [List.pairwise_cons]
      exact ⟨fun p hpm hd => hp p hpm _ List.mem_cons_self hd, hc.priorities⟩
    · refine List.forall_mem_cons.mpr ⟨fun he => ?_, hc.modes⟩
      rcases hcase with ⟨hen, -⟩ | ⟨⟨-, hmo⟩, -⟩
      · rw [he] at hen
        cases hen
      · exact hmo
    · exact List.forall_mem_cons.mpr ⟨hna, fun p hpm hmem => hn p hpm (List.mem_cons_of_mem _ hmem)⟩
    · exact List.forall_mem_cons.mpr
        ⟨hta, fun p hpm t htm => hp p hpm t (List.mem_cons_of_mem _ htm)⟩

theorem compileLoop_each (h : compileLoop snap names taken vs = .ok compiled) :
    ∀ c ∈ compiled, (c.policy.direction = .ingress ∨ c.policy.direction = .egress) ∧
      effectiveSet c.policy snap = .ok c.included := by
  induction vs generalizing names taken compiled with
  | nil =>
    cases h
    simp
  | cons value rest ih =>
    obtain ⟨-, hd, -, tail, ht, ⟨-, rfl⟩ | ⟨-, set, hse, rfl⟩⟩ := compileLoop_cons h
    · exact ih ht
    · exact List.forall_mem_cons.mpr ⟨⟨hd, hse⟩, ih ht⟩

theorem compileLoop_effectiveSet (h : compileLoop snap names taken vs = .ok compiled)
    {p : Config.Policy} (hp : p ∈ vs) (hen : enabled p = true) :
    ∃ set, effectiveSet p snap = .ok set := by
  have hmem : p ∈ compiled.map (·.policy) := by
    rw [(compileLoop_spec h).1.policies]
    exact List.mem_filter.mpr ⟨hp, hen⟩
  obtain ⟨c, hc, rfl⟩ := List.mem_map.mp hmem
  exact ⟨_, (compileLoop_each h c hc).2⟩

/-! ## Rules -/

def policyApplies (traffic : Config.TrafficScope) (family : Family) : Bool :=
  traffic.any || !traffic.tcp.isEmpty || !traffic.udp.isEmpty || traffic.icmpOf family

def trafficRanges (values : List Config.PortRange) : List PortRange :=
  values.map fun value => ⟨value.start, value.stop⟩

def policyScope (traffic : Config.TrafficScope) (family : Family) : Option Scope :=
  if !policyApplies traffic family then none
  else if traffic.any then some { any := true }
  else
    let scope : Scope :=
      { tcp := trafficRanges traffic.tcp
        udp := trafficRanges traffic.udp
        icmp := traffic.icmpOf family }
    if scope.tcp.isEmpty && scope.udp.isEmpty && !scope.icmp then none else some scope

def anyScope : Scope := { any := true }

def deniedCounter (reason : DenyReason) (deny : Action) : Option CounterRole :=
  some (.denied reason deny)

/-- The two rules of one policy in one direction: the second ends the scope. -/
def policyRules (direction : Direction) (family : Family) (bindings : List (String × String))
    (deny : Action) (value : CompiledPolicy) : List Rule :=
  if value.policy.direction ≠ direction.word then []
  else
    match policyScope value.policy.traffic family with
    | none => []
    | some scope =>
        let setID := lookupID bindings value.policy.name
        if value.policy.mode = .blocklist then
          [{ matching := { setID := setID, traffic := scope }, action := deny,
             policy := value.policy.name, counter := deniedCounter .geoPolicy deny },
           { matching := { traffic := scope }, action := .ret, policy := value.policy.name }]
        else
          [{ matching := { setID := setID, traffic := scope }, action := .ret,
             policy := value.policy.name },
           { matching := { traffic := scope }, action := deny, policy := value.policy.name,
             counter := deniedCounter .geoPolicy deny }]

/-! The fixed rules of a path, in the order they are appended. -/

def flowGuards : List Rule :=
  [{ matching := { flow := some .establishedRelated, traffic := anyScope }, action := .ret },
   { matching := { flow := some .notNew, traffic := anyScope }, action := .ret }]

def allowRule : Rule :=
  { matching := { setID := "global_allowlist", traffic := anyScope }, action := .ret }

def blockRule (deny : Action) : Rule :=
  { matching := { setID := "global_blocklist", traffic := anyScope }, action := deny,
    counter := deniedCounter .globalBlocklist deny }

def crowdsecRule (deny : Action) : Rule :=
  { matching := { setID := "crowdsec", traffic := anyScope }, action := deny,
    counter := deniedCounter .crowdsec deny }

def eligibleRule : Rule :=
  { matching := { setID := "geo_eligible", negateSet := true, traffic := anyScope },
    action := .ret }

def finalRule : Rule := { matching := { traffic := anyScope }, action := .ret }

def compilePath (direction : Direction) (remote : RemoteField) (family : Family)
    (allow block : Prefix.Set) (policies : List CompiledPolicy)
    (bindings : List (String × String)) (crowdsec : Bool) (deny : Action) : Path where
  direction := direction
  remote := remote
  processed := .processed
  rules :=
    flowGuards ++
    (if !allow.prefixes.isEmpty then [allowRule] else []) ++
    (if !block.prefixes.isEmpty then [blockRule deny] else []) ++
    (if crowdsec && direction = .ingress then [crowdsecRule deny] else []) ++
    (if policies.any fun value => value.policy.direction = direction.word then [eligibleRule]
      else []) ++
    policies.flatMap (policyRules direction family bindings deny) ++
    [finalRule]

variable {δ : Type} [DecidableEq δ]

/-- What `compileGeoSets` interns for a family: each policy's name and its prefixes there. -/
def familySequences (family : Family) (policies : List CompiledPolicy) :
    List (String × List Prefix) :=
  policies.map fun value => (value.policy.name, (value.included.view family).prefixes)

/-- A way to give the policies of a family their geo sets: the sets, and the set of each policy. -/
abbrev Sharing := List (String × List Prefix) → List PrefixSet × List (String × String)

/-- The plan of one family, over the way its geo sets are shared. -/
def layoutFamily (share : Sharing) (family : Family) (allow block : Prefix.Set)
    (policies : List CompiledPolicy) (crowdsec : Bool) (deny : Action) : FamilyPlan :=
  let allow := allow.view family
  let block := block.view family
  let familyPolicies := policies.filter fun value => policyApplies value.policy.traffic family
  let (geoSets, bindings) := share (familySequences family familyPolicies)
  { family := family
    sets :=
      (if allow.prefixes.isEmpty then []
        else [{ id := "global_allowlist", kind := .static, prefixes := allow.prefixes }]) ++
      (if block.prefixes.isEmpty then []
        else [{ id := "global_blocklist", kind := .static, prefixes := block.prefixes }]) ++
      (if crowdsec then [{ id := "crowdsec", kind := .crowdsec, prefixes := [] }] else []) ++
      (if familyPolicies.isEmpty then []
        else [{ id := "geo_eligible", kind := .static, prefixes := (geoEligible family).prefixes }]) ++
      geoSets
    paths :=
      [compilePath .ingress .source family allow block familyPolicies bindings crowdsec deny,
       compilePath .egress .destination family allow block familyPolicies bindings false deny] }

/-- `compileFamily`: the geo sets are interned by their fingerprint. -/
def compileFamily (fingerprint : Family → List Prefix → δ) (family : Family) :
    Prefix.Set → Prefix.Set → List CompiledPolicy → Bool → Action → FamilyPlan :=
  layoutFamily (compileGeoSets (fingerprint family)) family

/-- `Compile` with its refusals, over the function that compiles one family. -/
def compilePlans
    (layout : Family → Prefix.Set → Prefix.Set → List CompiledPolicy → Bool → Action → FamilyPlan)
    (cfg : Config) (snapshot : Snapshot) : Except Refusal State := do
  let deny ← denyAction cfg.firewall.denyAction
  let allow ← (Prefix.Set.new cfg.global.allowlist).mapError Refusal.allowlist
  let block ← (Prefix.Set.new cfg.global.blocklist).mapError Refusal.blocklist
  let policies ← compilePolicies cfg.policies snapshot
  if policies.isEmpty && block.prefixes.isEmpty && !cfg.crowdsec.enabled then .ok ⟨[]⟩
  else
    let family := fun f =>
      if cfg.firewall.enabled f then
        [layout f allow block policies cfg.crowdsec.enabled deny] else []
    let families := family .ipv4 ++ family .ipv6
    if families.isEmpty then .error .families
    else .ok ⟨families⟩

def compile (fingerprint : Family → List Prefix → δ) (cfg : Config) (snapshot : Snapshot) :
    Except String State :=
  (compilePlans (compileFamily fingerprint) cfg snapshot).mapError Refusal.text

/-! ## Sharing -/

/-- **Sharing is exact under any fingerprint.** The sets have distinct sequences and distinct IDs; a
policy is bound to a set with exactly its prefixes in the family, and two policies to one set just if
these prefixes are the same; a set is named after the least of the policies bound to it; and another
order of the policies changes nothing. -/
theorem geoSets_exact (fingerprint : Family → List Prefix → δ) (family : Family)
    (policies : List CompiledPolicy) (hnames : (policies.map (·.policy.name)).Nodup)
    (sets : List PrefixSet) (bindings : List (String × String))
    (h : compileGeoSets (fingerprint family) (familySequences family policies) = (sets, bindings)) :
    (sets.map (·.prefixes)).Nodup ∧ (sets.map (·.id)).Nodup ∧
      (∀ p ∈ policies, ∀ q ∈ policies,
        lookupID bindings p.policy.name = lookupID bindings q.policy.name ↔
          (p.included.view family).prefixes = (q.included.view family).prefixes) ∧
      (∀ p ∈ policies, ∃ s ∈ sets, lookupID bindings p.policy.name = s.id ∧
        s.prefixes = (p.included.view family).prefixes) ∧
      (∀ s ∈ sets, ∃ p ∈ policies, lookupID bindings p.policy.name = s.id ∧
        s.id = "geo/" ++ p.policy.name ∧
          ∀ q ∈ policies, lookupID bindings q.policy.name = s.id → p.policy.name ≤ q.policy.name) ∧
      ∀ policies' : List CompiledPolicy, policies'.Perm policies →
        (compileGeoSets (fingerprint family) (familySequences family policies')).1 = sets ∧
          ∀ name, lookupID
            (compileGeoSets (fingerprint family) (familySequences family policies')).2 name =
              lookupID bindings name := by
  have hf : ∀ ps : List CompiledPolicy,
      (familySequences family ps).map Prod.fst = ps.map (·.policy.name) := by
    intro ps
    rw [familySequences, List.map_map]
    rfl
  have hmem : ∀ {ps : List CompiledPolicy}, ∀ p ∈ ps,
      (p.policy.name, (p.included.view family).prefixes) ∈ familySequences family ps :=
    fun p hp => List.mem_map.mpr ⟨p, hp, rfl⟩
  have hsh := compileGeoSets_shared (fingerprint family) (hf policies ▸ hnames)
  rw [h] at hsh
  have hno : sets.Nodup := hsh.ordered.imp fun {s t} hlt heq => hlt.ne (congrArg _ heq)
  -- bound to a set and having its sequence are the same
  have hbi : ∀ s ∈ sets, ∀ q ∈ policies, (lookupID bindings q.policy.name = s.id ↔
      s.prefixes = (q.included.view family).prefixes) := by
    intro s hs q hq
    obtain ⟨t, ht, hid, hse⟩ := hsh.bound _ (hmem q hq)
    simp only at hid hse
    rw [hid, ← hse]
    constructor
    · intro heq
      rw [hsh.id_inj ht hs heq]
    · intro heq
      rw [hsh.distinct s hs t ht heq]
  refine ⟨?_, ?_, fun p hp q hq => hsh.same_iff (hmem p hp) (hmem q hq),
    fun p hp => hsh.bound _ (hmem p hp), fun s hs => ?_, fun policies' hpe => ?_⟩
  · exact hno.map_on fun s hs t ht => hsh.distinct s hs t ht
  · exact hno.map_on fun s hs t ht => hsh.id_inj hs ht
  · obtain ⟨-, v, hv, hse, hid, hl⟩ := hsh.named_after s hs
    obtain ⟨p, hp, rfl⟩ := List.mem_map.mp hv
    refine ⟨p, hp, (hbi s hs p hp).mpr hse.symm, hid, fun q hq hbo => ?_⟩
    exact hl _ (hmem q hq) ((hbi s hs q hq).mp hbo).symm
  · have hn' : ((familySequences family policies').map Prod.fst).Nodup := by
      rw [hf]
      exact (hpe.map _).nodup_iff.mpr hnames
    exact (compileGeoSets_shared (fingerprint family) hn').unique hsh fun v => (hpe.map _).mem_iff

/-- A blocklist policy with a given effective set. -/
def samplePolicy (name : String) (priority : Int) (included : Prefix.Set) : CompiledPolicy :=
  { policy :=
      { name := name, priority := priority, direction := .ingress, mode := .blocklist
        traffic := { any := true }, included := {} }
    included := included }

def sharingPolicies : List CompiledPolicy :=
  [samplePolicy "zulu" 1 (mustPrefixSet [.v4 10 0 0 0 8]),
   samplePolicy "mike" 2 (mustPrefixSet [.v4 192 0 2 0 24]),
   samplePolicy "alpha" 3 (mustPrefixSet [.v4 10 0 0 0 8])]

theorem geoSets_exact_collision : (sharingPolicies.map (·.policy.name)).Nodup ∧
    ∀ p ∈ sharingPolicies, ∃ s ∈ [geoSet "alpha" [.v4 10 0 0 0 8], geoSet "mike" [.v4 192 0 2 0 24]],
      lookupID [("alpha", "geo/alpha"), ("mike", "geo/mike"), ("zulu", "geo/alpha")]
        p.policy.name = s.id ∧ s.prefixes = (p.included.view .ipv4).prefixes :=
  ⟨by decide +kernel, (geoSets_exact (fun _ _ => ()) .ipv4 sharingPolicies (by decide +kernel) _ _
    (by decide +kernel)).2.2.2.1⟩

end Perimeterd.Policy
