import Perimeterd.Firewall.Target
import Perimeterd.Lib.Result

/-!
# What a target must be to be applied

`ValidateTarget` of `internal/firewall/types.go` with `validateIPTablesTarget` of `iptables_model.go`.
Both walk the target with sets of what they have seen; each loop here carries the same sets as lists.
The checks of a type a value cannot miss (an identity that is no hexadecimal text, an unknown family,
direction, action or flow guard) have no counterpart.

`digest` is the hexadecimal SHA-256 of a text and `prefixText` is how a prefix is written in a message;
both are arbitrary.
-/

namespace Perimeterd.Firewall

open Lib Policy

/-! ## Texts -/

def actionText : Action → String
  | .ret => "return"
  | .drop => "drop"
  | .reject => "reject"

def reasonText : DenyReason → String
  | .globalBlocklist => "global_blocklist"
  | .crowdsec => "crowdsec"
  | .geoPolicy => "geo_policy"

def CounterName.text (c : CounterName) : String :=
  join "_" (["pd", hex c.owner, "counter", familyToken c.family, directionWord c.direction] ++
    match c.role with
    | .processed => ["processed"]
    | .denied reason action => ["denied", reasonText reason, actionText action])

def Artifact.text (a : Artifact) : String :=
  "pd_" ++ hex a.owner ++ "_" ++
    (match a.token with
      | .stable => "stable"
      | .generation id => hex id) ++ "_" ++ a.role

/-! ## Values -/

def validRole : CounterRole → Bool
  | .processed => true
  | .denied _ action => action ≠ .ret

def validGeoSetID (value : String) : Bool :=
  match value.toList with
  | 'g' :: 'e' :: 'o' :: '/' :: first :: rest =>
      first ≠ '-' && (first :: rest).getLast? ≠ some '-' &&
        (first :: rest).all fun c =>
          ('a' ≤ c && c ≤ 'z') || ('0' ≤ c && c ≤ '9') || c = '-'
  | _ => false

def validStaticSetID (value : String) : Bool :=
  value = "global_allowlist" || value = "global_blocklist" || value = "geo_eligible" ||
    validGeoSetID value

/-- `validNFTName`; a native name is never empty. -/
def validNFTName (a : Artifact) : Bool := a.bytes ≤ maxNFTNameBytes && !a.role.toList.contains '\x00'

def validPortRange (r : PortRange) : Bool := r.start ≠ 0 && r.start ≤ r.stop

def validTrafficScope (scope : Scope) : Bool :=
  if scope.any then scope.tcp.isEmpty && scope.udp.isEmpty && !scope.icmp
  else
    !(scope.tcp.isEmpty && scope.udp.isEmpty && !scope.icmp) &&
      scope.tcp.all validPortRange && scope.udp.all validPortRange

/-! ## Rules -/

def checkReference (m : Match) (setIDs : List String) : Except String Unit :=
  if m.setID ≠ "" then
    if m.setID ∉ setIDs then .error ("unsupported set reference " ++ m.setID.quote)
    else if m.negateSet ∧ m.setID ≠ "geo_eligible" then
      .error ("unsupported negated set reference " ++ m.setID.quote)
    else .ok ()
  else if m.negateSet then .error "negated set requires a set reference"
  else .ok ()

/-- The counter of a rule; none is the zero role, which is not checked. -/
def checkCounter (rule : Rule) : Except String Unit :=
  match rule.counter with
  | none => .ok ()
  | some .processed => .error "processed counter must be attached to path entry"
  | some (.denied reason action) =>
      if validRole (.denied reason action) = false then .error "unsupported counter role"
      else if action ≠ rule.action then .error "denial counter action does not match rule action"
      else if reason = .geoPolicy ∧ rule.policy = "" then
        .error "geo denial counter is missing policy metadata"
      else if reason = .crowdsec ∧ (rule.matching.setID ≠ "crowdsec" ∨ rule.policy ≠ "") then
        .error "CrowdSec denial counter has invalid match"
      else if reason = .globalBlocklist ∧ rule.policy ≠ "" then
        .error "global denial counter has policy metadata"
      else .ok ()

def validateRuntimeRule (rule : Rule) (setIDs : List String) : Except String Unit := do
  if validTrafficScope rule.matching.traffic = false then throw "invalid traffic scope"
  checkReference rule.matching setIDs
  if rule.matching.flow ≠ none ∧
      (rule.matching.traffic.any = false ∨ rule.matching.setID ≠ "" ∨ rule.policy ≠ "") then
    throw "flow guard has unexpected match metadata"
  checkCounter rule

/-- A rule that tests the CrowdSec set. -/
def crowdsecRule (d : Direction) (rule : Rule) : Bool :=
  d = .ingress && (rule.counter.elim false fun
      | .denied .crowdsec _ => true
      | _ => false) &&
    rule.matching.traffic.any && !rule.matching.negateSet && rule.policy = ""

/-- The loop over the rules of a path. -/
def checkRules (d : Direction) (setIDs : List String) : List Rule → Except String Unit
  | [] => .ok ()
  | rule :: rest => do
      (validateRuntimeRule rule setIDs).mapError fun e =>
        "firewall target: " ++ directionWord d ++ " path rule: " ++ e
      if rule.matching.setID = "crowdsec" ∧ crowdsecRule d rule = false then
        throw "firewall target: invalid CrowdSec rule"
      checkRules d setIDs rest

/-! ## Paths -/

def wantRemote : Direction → RemoteField
  | .ingress => .source
  | .egress => .destination

def remoteText : RemoteField → String
  | .source => "source"
  | .destination => "destination"

/-- The loop over the paths of a family, with the directions seen. -/
def checkPaths (setIDs : List String) : List Direction → List Path → Except String (List Direction)
  | seen, [] => .ok seen
  | seen, path :: rest => do
      if path.remote ≠ wantRemote path.direction then
        throw ("firewall target: " ++ directionWord path.direction ++ " path has remote field " ++
          (remoteText path.remote).quote)
      if path.direction ∈ seen then
        throw ("firewall target: duplicate path direction " ++ (directionWord path.direction).quote)
      if path.processed ≠ .processed then
        throw ("firewall target: " ++ directionWord path.direction ++
          " path has invalid processed role")
      checkRules path.direction setIDs path.rules
      checkPaths setIDs (path.direction :: seen) rest

/-! ## Sets and families -/

section Texts

variable (digest : String → String) (prefixText : Prefix → String)

def validatePrefix (p : Prefix) (f : Family) : Except String Unit :=
  if p.addr.family ≠ f then
    .error ((match f with | .ipv4 => "IPv4" | .ipv6 => "IPv6") ++ " family contains " ++ prefixText p)
  else if ¬ p.Masked then .error ("prefix " ++ prefixText p ++ " is not canonical")
  else .ok ()

def checkPrefixes (set : String) (f : Family) : List Prefix → Except String Unit
  | [] => .ok ()
  | p :: rest => do
      (validatePrefix prefixText p f).mapError fun e => "firewall target: set " ++ set ++ ": " ++ e
      checkPrefixes set f rest

/-- The kind of a set and what it asks of the set. -/
def checkKind (t : Target) (set : PrefixSet) : Except String Unit :=
  match set.kind with
  | .static =>
      if validStaticSetID set.id then .ok ()
      else .error ("firewall target: unsupported static set " ++ set.id.quote)
  | .crowdsec =>
      if set.id ≠ "crowdsec" ∨ set.prefixes ≠ [] ∨ t.dynamicGeneration = none then
        .error "firewall target: invalid dynamic set"
      else .ok ()

/-- The native names of an nftables target's sets, with the set each belongs to. -/
def claimNative (t : Target) (f : Family) (id : String) (native : List (Artifact × String)) :
    Except String (List (Artifact × String)) :=
  if t.iptables.isSome then .ok native
  else
    let name := setName digest t f id
    if validNFTName name = false then
      .error ("firewall target: set " ++ id.quote ++ " has invalid native name")
    else
      match native.find? (·.1 = name) with
      | some (_, previous) =>
          .error ("firewall target: sets " ++ previous.quote ++ " and " ++ id.quote ++
            " collide as native name " ++ name.text.quote)
      | none => .ok ((name, id) :: native)

/-- The loop over the sets of a family, with the set IDs and the native names seen. -/
def checkSets (t : Target) (f : Family) :
    List String → List (Artifact × String) → List PrefixSet → Except String (List (Artifact × String))
  | _, native, [] => .ok native
  | seen, native, set :: rest => do
      checkKind t set
      if set.id ∈ seen then throw ("firewall target: duplicate set " ++ set.id.quote)
      let native ← claimNative digest t f set.id native
      checkPrefixes prefixText set.id f set.prefixes
      checkSets t f (set.id :: seen) native rest

def familyNumber : Family → String
  | .ipv4 => "4"
  | .ipv6 => "6"

/-- The loop over the families, with the families and the native names seen. -/
def checkFamilies (t : Target) :
    List Family → List (Artifact × String) → List FamilyPlan → Except String Unit
  | _, _, [] => .ok ()
  | seen, native, plan :: rest => do
      if plan.family ∈ seen then
        throw ("firewall target: duplicate family " ++ familyNumber plan.family)
      let native ← checkSets digest prefixText t plan.family [] native plan.sets
      if (plan.sets.any (·.kind = .crowdsec)) ≠ t.dynamicGeneration.isSome then
        throw "firewall target: dynamic generation and family model disagree"
      let directions ← checkPaths (plan.sets.map (·.id)) [] plan.paths
      if directions.length ≠ 2 then
        throw ("firewall target: family " ++ familyNumber plan.family ++
          " must have ingress and egress paths")
      checkFamilies t (plan.family :: seen) native rest

/-! ## Counters -/

def pathCounters (owner : Id) (f : Family) (path : Path) : List CounterName :=
  counterName owner f path.direction path.processed ::
    path.rules.filterMap fun rule =>
      match rule.counter with
      | some (.denied reason action) =>
          some (counterName owner f path.direction (.denied reason action))
      | _ => none

def expectedCounters (t : Target) : List CounterName :=
  t.families.flatMap fun plan => plan.paths.flatMap (pathCounters t.owner plan.family)

/-- The loop over the counters, with the names seen. The source ranges over a map for the missing
ones and may name any; here it is the first. -/
def checkCounters (t : Target) : List CounterName → List CounterSpec → Except String Unit
  | seen, [] =>
      match (expectedCounters t).find? (· ∉ seen) with
      | some name => .error ("firewall target: required counter " ++ name.text.quote ++ " is missing")
      | none => .ok ()
  | seen, counter :: rest =>
      if validRole counter.role = false then
        .error ("firewall target: invalid counter " ++ counter.name.text.quote)
      else if counter.name ≠ counterName t.owner counter.family counter.direction counter.role then
        .error ("firewall target: counter " ++ counter.name.text.quote ++
          " has unexpected stable name")
      else if counter.name ∈ seen then
        .error ("firewall target: duplicate counter " ++ counter.name.text.quote)
      else checkCounters t (counter.name :: seen) rest

/-! ## iptables -/

def maxIPTChainNameBytes : Nat := 28

def maxIPTSetNameBytes : Nat := 31

def identifierChar (allowPlus : Bool) (c : Char) : Bool :=
  (allowPlus && c = '+') || ('a' ≤ c && c ≤ 'z') || ('A' ≤ c && c ≤ 'Z') || ('0' ≤ c && c ≤ '9') ||
    c = '-' || c = '_' || c = '.' || c = ':'

def validateIPTablesIdentifier (value field : String) (max : Nat) (allowPlus : Bool) :
    Except String Unit :=
  if value = "" then .error ("firewall target: " ++ field ++ " must not be empty")
  else if max < value.utf8ByteSize then
    .error ("firewall target: " ++ field ++ " exceeds " ++ toString max ++ " bytes")
  else if value.toList.all (identifierChar allowPlus) = false then
    .error ("firewall target: " ++ field ++ " contains an invalid character")
  else .ok ()

def checkInterfaces (field : String) : Nat → List String → Except String Unit
  | _, [] => .ok ()
  | i, name :: rest => do
      validateIPTablesIdentifier name (field ++ " " ++ toString i) 15 true
      checkInterfaces field (i + 1) rest

/-- A custom parent names the interfaces of its direction. -/
def checkCustomParent (field : String) (a : Config.Attachment) : Except String Unit :=
  if a.chain ≠ "INPUT" ∧ a.chain ≠ "OUTPUT" then
    if a.direction = .ingress ∧ a.inputInterfaces = [] then
      .error ("firewall target: " ++ field ++ " requires an input interface for custom ingress parent")
    else if a.direction = .egress ∧ a.outputInterfaces = [] then
      .error ("firewall target: " ++ field ++ " requires an output interface for custom egress parent")
    else .ok ()
  else .ok ()

/-- The loop over the attachments, with the identities seen. -/
def checkAttachments : Nat → List String → List Config.Attachment → Except String Unit
  | _, _, [] => .ok ()
  | i, seen, a :: rest => do
      let field := "iptables attachment " ++ toString i
      validateIPTablesIdentifier a.chain (field ++ " chain") maxIPTChainNameBytes false
      if a.direction ≠ .ingress ∧ a.direction ≠ .egress then
        throw ("firewall target: " ++ field ++ " has invalid direction " ++ a.direction.text.quote)
      checkInterfaces (field ++ " input interface") 0 a.inputInterfaces
      checkInterfaces (field ++ " output interface") 0 a.outputInterfaces
      checkCustomParent field a
      if attachmentIdentity a ∈ seen then
        throw ("firewall target: duplicate iptables attachment " ++ a.chain.quote)
      checkAttachments (i + 1) (attachmentIdentity a :: seen) rest

/-- A native name, what it stands for, and its length limit. -/
structure NativeName where
  name : String
  identity : String
  limit : Nat

def setNatives (t : Target) (f : Family) (set : PrefixSet) : List NativeName :=
  match set.kind with
  | .static =>
      [⟨iptSetName digest t f set.id, "set/" ++ familyToken f ++ "/" ++ set.id, maxIPTSetNameBytes⟩]
  | .crowdsec =>
      let name := iptDynamicSetName digest t f
      let identity := "dynamic/" ++ familyToken f ++ "/" ++ set.id
      [⟨iptDynamicSpareName name, identity ++ "/resize", maxIPTSetNameBytes⟩,
        ⟨name, identity, maxIPTSetNameBytes⟩]

/-- The names of the chains of an attachment. -/
def attachmentNatives (t : Target) (f : Family) (a : Config.Attachment) : List NativeName :=
  [⟨iptEntryChainName digest t f a, "entry/" ++ familyToken f ++ "/" ++ attachmentIdentity a,
      maxIPTChainNameBytes⟩] ++
    (if a.inputInterfaces ≠ [] ∨ a.outputInterfaces ≠ [] then
      [⟨iptFilterChainName digest t f a, "filter/" ++ familyToken f ++ "/" ++ attachmentIdentity a,
        maxIPTChainNameBytes⟩]
    else []) ++
    [⟨iptGenerationChainName digest t f (attachmentDirection a) a.originalDestination,
      "staging/" ++ familyToken f ++ "/" ++ a.direction.text ++ "/" ++ boolText a.originalDestination,
      maxIPTChainNameBytes⟩]

/-- `addNative` for each name in turn; a later owner of a name would replace an earlier one, but only
the same one is let in. -/
def addNatives : List (String × String) → List NativeName → Except String Unit
  | _, [] => .ok ()
  | seen, n :: rest =>
      if n.limit < n.name.utf8ByteSize ∨ n.name = "" then
        .error ("firewall target: generated iptables name " ++ n.name.quote ++
          " exceeds native limit")
      else
        match seen.find? (·.1 = n.name) with
        | some (_, previous) =>
            if previous ≠ n.identity then
              .error ("firewall target: iptables native name " ++ n.name.quote ++
                " collides between " ++ previous ++ " and " ++ n.identity)
            else addNatives seen rest
        | none => addNatives ((n.name, n.identity) :: seen) rest

/-- The native names of an iptables target, in the order they are added. -/
def iptNatives (t : Target) (attachments : List Config.Attachment) : List NativeName :=
  t.families.flatMap fun plan =>
    plan.sets.flatMap (setNatives digest t plan.family) ++
      attachments.flatMap (attachmentNatives digest t plan.family)

def validateIPTablesTarget (t : Target) (attachments : List Config.Attachment) :
    Except String Unit := do
  if attachments = [] then
    throw "firewall target: iptables requires at least one attachment for a non-empty target"
  checkAttachments 0 [] attachments
  addNatives (attachments.map fun a => (a.chain, "parent/" ++ a.chain)) (iptNatives digest t attachments)

/-- The part of `ValidateTarget` an iptables target is put to. -/
def checkIPTables (t : Target) : Except String Unit :=
  match t.iptables with
  | none => .ok ()
  | some attachments =>
      if t.table ≠ "filter" ∨ t.priority ≠ 0 then
        .error "firewall target: iptables target must use filter table and zero native priority"
      else validateIPTablesTarget digest t attachments

/-! ## Targets -/

def validateTarget (t : Target) : Except String Unit := do
  if t.table = "" ∨ maxNFTNameBytes < t.table.utf8ByteSize ∨ '\x00' ∈ t.table.toList then
    throw "firewall target: invalid table name"
  if t.priority ≤ -200 then
    throw ("firewall target: priority " ++ toString t.priority ++ " must be greater than -200")
  checkIPTables digest t
  if t.families = [] then throw "firewall target: non-empty target requires at least one family"
  checkFamilies digest prefixText t [] [] t.families
  if t.counters = [] then throw "firewall target: missing counters"
  checkCounters t [] t.counters

/-! ## What a valid target is -/

theorem checkAttachments_chain : ∀ {i : Nat} {seen : List String} {atts : List Config.Attachment},
    checkAttachments i seen atts = .ok () → ∀ a ∈ atts, a.chain ≠ "" := by
  intro i seen atts h
  induction atts generalizing i seen with
  | nil => nofun
  | cons first rest ih =>
    obtain ⟨⟨⟩, hc, h⟩ := bind_eq_ok.mp h
    obtain ⟨-, h⟩ := ite_throw_eq_ok.mp h
    obtain ⟨⟨⟩, -, h⟩ := bind_eq_ok.mp h
    obtain ⟨⟨⟩, -, h⟩ := bind_eq_ok.mp h
    obtain ⟨⟨⟩, -, h⟩ := bind_eq_ok.mp h
    obtain ⟨-, h⟩ := ite_throw_eq_ok.mp h
    have hne : first.chain ≠ "" := (ite_throw_eq_ok.mp hc).1
    intro a ha
    rcases List.mem_cons.mp ha with rfl | ha
    · exact hne
    · exact ih h a ha

variable {digest prefixText}

theorem validateTarget_eq_ok {t : Target} (h : validateTarget digest prefixText t = .ok ()) :
    checkIPTables digest t = .ok () ∧ checkFamilies digest prefixText t [] [] t.families = .ok () ∧
      checkCounters t [] t.counters = .ok () := by
  obtain ⟨-, h⟩ := ite_throw_eq_ok.mp h
  obtain ⟨-, h⟩ := ite_throw_eq_ok.mp h
  obtain ⟨⟨⟩, hip, h⟩ := bind_eq_ok.mp h
  obtain ⟨-, h⟩ := ite_throw_eq_ok.mp h
  obtain ⟨⟨⟩, hf, h⟩ := bind_eq_ok.mp h
  obtain ⟨-, hcounters⟩ := ite_throw_eq_ok.mp h
  exact ⟨hip, hf, hcounters⟩

theorem chain_ne_empty {t : Target} (h : validateTarget digest prefixText t = .ok ())
    {atts : List Config.Attachment} (hip : t.iptables = some atts) : ∀ a ∈ atts, a.chain ≠ "" := by
  have hc := (validateTarget_eq_ok h).1
  rw [checkIPTables, hip] at hc
  obtain ⟨-, hc⟩ := ite_throw_eq_ok.mp hc
  obtain ⟨-, hc⟩ := ite_throw_eq_ok.mp hc
  obtain ⟨⟨⟩, hat, -⟩ := bind_eq_ok.mp hc
  exact checkAttachments_chain hat

end Texts

end Perimeterd.Firewall
