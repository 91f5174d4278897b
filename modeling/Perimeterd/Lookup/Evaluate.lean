import Perimeterd.Lookup.Merge
import Perimeterd.Lookup.Scopes

/-!
# Answering a query

`Evaluate` of `internal/lookup/evaluate.go` with `explain` of `attribution.go`. The network is cut into
cells, the ports into spans, and each cell, direction, span and attachment is answered by the first
rule of the path that matches the cell's first address. The answers that agree in everything but their
prefix are put together again.

An answer is complete or there is none: `evaluate` fails with the code and message of `Unknown`. A
context that ends turns every answer into unknown and is only seen as the failure at the end, which it
causes in any case.
-/

namespace Perimeterd.Lookup

open Lib Policy

structure Failure where
  code : String
  message : String
deriving DecidableEq

/-- `Dynamic`: the leases acknowledged by the last native write, and the decisions behind them. -/
structure Dynamic where
  prefixes : List TimedPrefix := []
  decisions : List CrowdSec.Decision := []
  validUntil : Time := 0

def Dynamic.banned (dynamic : Dynamic) (now : Time) (a : Addr) : Bool :=
  dynamic.prefixes.any fun v => decide (now < v.deadline) && v.pfx.contains a

/-! ## Attachments -/

def portBasis (a : Config.Attachment) : PortBasis :=
  if a.originalDestination then .originalDestination else .currentDestination

def Static.attachmentsFor (s : Static) (d : Direction) : List Attachment :=
  if s.nft then
    [{ name := "inet/" ++ s.table ++ "/" ++ (match d with | .ingress => "input" | .egress => "output")
       managed := true
       portBasis := .currentDestination }]
  else
    (s.attachments d).map fun a =>
      { name := a.chain
        managed := true
        portBasis := portBasis a
        inputInterfaces := a.inputInterfaces
        outputInterfaces := a.outputInterfaces }

/-! ## Matching -/

/-- The address test of `ruleMatches`, on the first address of a cell. -/
def Static.member (s : Static) (f : Family) (dynamic : Dynamic) (now : Time) (id : String)
    (a : Addr) : Bool :=
  if id = "crowdsec" then dynamic.banned now a else (containingPrefix (s.setIndex f id) a).isSome

/-- `ruleMatches`, and that the rule is no flow guard. -/
def Static.ruleMatches (s : Static) (f : Family) (dynamic : Dynamic) (now : Time)
    (address : Prefix) (scope : FlowScope) (rule : Rule) : Bool :=
  rule.matching.flow.isNone && scopeCovers rule.matching.traffic scope &&
    (rule.matching.setID = "" ||
      (s.member f dynamic now rule.matching.setID address.addr != rule.matching.negateSet))

/-- `classifyRule`: the stage and the reason. -/
def Static.classifyRule (s : Static) (rule : Rule) : Stage × String :=
  let mode := (s.policy rule.policy).map (·.mode)
  match rule.matching.setID with
  | "global_allowlist" => (.globalAllow, "global_allowlist")
  | "global_blocklist" => (.globalBlock, "global_blocklist")
  | "crowdsec" => (.crowdsec, "crowdsec")
  | "geo_eligible" => (.classifier, "not_geo_eligible")
  | id =>
      if rule.policy = "" then (.pass, "no_matching_policy")
      else if rule.action ≠ .ret then
        if mode = some .allowlist then (.policy, "allowlist_absence") else (.policy, "geo_policy")
      else if mode = some .allowlist ∧ id ≠ "" then (.policy, "allowlist_match")
      else if mode = some .blocklist ∧ id = "" then (.policy, "blocklist_miss")
      else (.policy, "policy_pass")

/-! ## Evidence -/

def sourceKindText : Source.SourceKind → String
  | .unset => ""
  | .ripestat => "ripestat"
  | .ipList => "ip_list"
  | .provider => "provider"
  | .dbipLite => "dbip-lite"
  | .other text => text

/-- The provider a record of a country or an autonomous system names. -/
def recordProvider (record : Source.Record) : String :=
  if record.selector.kind = .country ∨ record.selector.kind = .asn then
    if record.sourceKind = .unset then "ripestat" else sourceKindText record.sourceKind
  else ""

def sourceEvidence (ref : SourceRef) (policy : String) (role : Role) (contributing : Bool)
    (covered : Prefix) : Evidence where
  kind := ref.record.selector.kind.text
  name := ref.record.selector.value
  provider := recordProvider ref.record
  release := ref.record.release
  policy := policy
  role := role
  via := ref.via
  network := covered
  contributing := contributing
  retrievedAt := ref.record.retrievedAt

/-- The records of a list that hold an address, as evidence. -/
def refEvidence (refs : List SourceRef) (a : Addr) (policy : String) (role : Role)
    (contributing : Bool) : List Evidence :=
  refs.filterMap fun ref =>
    (sourcePrefix ref.record a).map (sourceEvidence ref policy role contributing)

/-- Some record of a list holds an address. -/
def refMatches (refs : List SourceRef) (a : Addr) : Bool :=
  refs.any fun ref => (sourcePrefix ref.record a).isSome

def Static.policyEvidence (s : Static) (rule : Rule) (stage : Stage) (a : Addr)
    (configured : Config.Policy) : List Evidence :=
  if configured.mode = .disabled then []
  else
    let sources := s.sources configured.name
    let includeMatch := refMatches sources.included a
    let excludeMatch := refMatches sources.excluded a
    let deciding := stage = .policy && rule.policy = configured.name
    refEvidence sources.included a configured.name .includes
        (deciding && (includeMatch && !excludeMatch)) ++
      refEvidence sources.excluded a configured.name .excludes
        (deciding && includeMatch && excludeMatch)

/-- The entries of a global list that hold an address. -/
def globalEvidence (values : List NetipPrefix) (a : Addr) (name : String) (role : Role)
    (contributing : Bool) : List Evidence :=
  ((validPrefixes values).filter (·.contains a)).map fun value =>
    { kind := "global", name := name, role := role, network := value, contributing := contributing }

def Dynamic.lease (dynamic : Dynamic) (a : Addr) : Time :=
  dynamic.prefixes.foldl (fun lease v =>
    if v.pfx.contains a ∧ (lease = 0 ∨ v.deadline < lease) then v.deadline else lease) 0

/-- The decisions that hold an address. -/
def Dynamic.evidence (dynamic : Dynamic) (a : Addr) (contributing : Bool) : List Evidence :=
  (dynamic.decisions.filter (·.pfx.contains a)).map fun d =>
    { kind := "crowdsec", name := "crowdsec", role := .decision, network := d.pfx
      contributing := contributing, decisionID := d.id, decisionDeadline := d.deadline
      leaseDeadline := dynamic.lease a }

/-- Everything `explain` reports of an address. -/
def Static.gathered (s : Static) (dynamic : Dynamic) (rule : Rule) (stage : Stage) (a : Addr) :
    List Evidence :=
  globalEvidence s.globalAllow a "global_allowlist" .allow (stage = .globalAllow) ++
  globalEvidence s.globalBlock a "global_blocklist" .block (stage = .globalBlock) ++
  s.policyList.flatMap (s.policyEvidence rule stage a) ++
  dynamic.evidence a (stage = .crowdsec)

/-- `explain`: every append is refused from the limit on, so it fails when there is more. -/
def Static.explain (s : Static) (dynamic : Dynamic) (rule : Rule) (stage : Stage) (a : Addr)
    (limit : Nat) : Option (List Evidence) :=
  let evidence := s.gathered dynamic rule stage a
  if evidence.length > limit then none else some (sortSlice evidenceLess evidence)

/-! ## Outcomes -/

def makeNotManagedWith (address : Prefix) (d : Direction) (scope : FlowScope)
    (attachment : Attachment) (reason : String) : Outcome where
  network := address
  direction := d
  protocol := scope.protocol
  ports := scope.ports
  attachment := { attachment with managed := false }
  verdict := .notBlocked
  action := .ret
  stage := .notManaged
  reason := reason

def makeNotManaged (address : Prefix) (d : Direction) (scope : FlowScope) (reason : String) :
    Outcome :=
  makeNotManagedWith address d scope { portBasis := .currentDestination } reason

def Static.ruleOutcome (s : Static) (address : Prefix) (d : Direction) (scope : FlowScope)
    (attachment : Attachment) (rule : Rule) (evidence : List Evidence) : Outcome where
  network := address
  direction := d
  protocol := scope.protocol
  ports := scope.ports
  attachment := attachment
  verdict := if rule.action = .ret then .notBlocked else .blocked
  action := rule.action
  stage := (s.classifyRule rule).1
  policy := rule.policy
  priority := if rule.policy = "" then 0 else ((s.policy rule.policy).map (·.priority)).getD 0
  reason := (s.classifyRule rule).2
  evidence := evidence

def Static.evaluateScope (s : Static) (plan : FamilyPlan) (dynamic : Dynamic) (now : Time)
    (address : Prefix) (d : Direction) (scope : FlowScope) (attachment : Attachment)
    (limit : Nat) : Option Outcome :=
  match plan.paths.find? (·.direction = d) with
  | none => some (makeNotManagedWith address d scope attachment "direction is not managed")
  | some path => do
      let rule ← path.rules.find? (s.ruleMatches plan.family dynamic now address scope)
      let evidence ← s.explain dynamic rule (s.classifyRule rule).1 address.addr limit
      return s.ruleOutcome address d scope attachment rule evidence

def overlapping (left right : Prefix) : Bool :=
  left.addr.family = right.addr.family && (left.contains right.addr || right.contains left.addr)

/-- `uncertainDynamic`: a lease or decision on the cell has run out. -/
def uncertainDynamic (dynamic : Dynamic) (address : Prefix) (now : Time) : Bool :=
  (dynamic.prefixes.any fun v => !decide (now < v.deadline) && overlapping v.pfx address) ||
    dynamic.decisions.any fun d => !decide (now < d.deadline) && overlapping d.pfx address

/-- One turn of the loops of `Evaluate`; without an attachment nothing is managed. -/
structure Job where
  address : Prefix
  direction : Direction
  scope : FlowScope
  attachment : Option Attachment

/-- The attachments of a direction, or the one turn that stands for there being none. -/
def Static.places (s : Static) (d : Direction) : List (Option Attachment) :=
  match s.attachmentsFor d with
  | [] => [none]
  | attachments => attachments.map some

def Static.jobs (s : Static) (addresses : List Prefix) (directions : List Direction)
    (scopes : List FlowScope) : List Job :=
  addresses.flatMap fun address => directions.flatMap fun d => scopes.flatMap fun scope =>
    (s.places d).map fun place => ⟨address, d, scope, place⟩

def limitExceeded : Failure :=
  ⟨"limit_exceeded", "lookup outcomes and evidence exceed the record limit"⟩

def unavailable (message : String) : Failure := ⟨"enforcement_unavailable", message⟩

/-- What one turn appends, `records` being the records so far. -/
def Static.turn (s : Static) (f : Family) (dynamic : Dynamic) (now : Time) (records : Nat)
    (job : Job) : Except Failure Outcome :=
  match job.attachment, s.family f with
  | none, _ =>
      if records ≥ maxRecords then .error limitExceeded
      else .ok (makeNotManaged job.address job.direction job.scope "no managed attachment")
  | some attachment, none =>
      if records ≥ maxRecords then .error limitExceeded
      else .ok (makeNotManagedWith job.address job.direction job.scope attachment
        "address family is not managed")
  | some attachment, some plan =>
      if s.crowdsec && uncertainDynamic dynamic job.address now then
        .error (unavailable "acknowledged dynamic lease coverage is uncertain")
      else
        match s.evaluateScope plan dynamic now job.address job.direction job.scope attachment
            (maxRecords - records - 1) with
        | none => .error limitExceeded
        | some outcome =>
            if records + 1 + outcome.evidence.length > maxRecords then .error limitExceeded
            else .ok outcome

def Static.turns (s : Static) (f : Family) (dynamic : Dynamic) (now : Time) :
    Nat → List Job → Except Failure (List Outcome)
  | _, [] => .ok []
  | records, job :: rest => do
      let outcome ← s.turn f dynamic now records job
      let others ← s.turns f dynamic now (records + 1 + outcome.evidence.length) rest
      return outcome :: others

/-! ## The answer -/

/-- The verdict of a complete answer. -/
inductive Overall where
  | blocked
  | notBlocked
  | mixed
deriving DecidableEq

/-- A complete `Response`: the fields `Evaluate` fills in. -/
structure Answer where
  query : Query
  observedAt : Time
  manifest : Option State.Manifest
  verdict : Overall
  outcomes : List Outcome

def conclude (outcomes : List Outcome) : Overall :=
  let blocked := outcomes.any (·.verdict = .blocked)
  let clear := outcomes.any (·.verdict ≠ .blocked)
  if blocked && clear then .mixed else if blocked then .blocked else .notBlocked

def validateDynamic (dynamic : Dynamic) : Except String Unit :=
  if dynamic.prefixes.any fun v => ¬ v.pfx.Masked ∨ v.deadline = 0 then
    .error "dynamic projection contains invalid prefix evidence"
  else if dynamic.decisions.any fun d => d.id ≤ 0 ∨ ¬ d.pfx.Masked ∨ d.deadline = 0 then
    .error "dynamic decision evidence is invalid"
  else .ok ()

/-- `Evaluate` from the outcomes on. The argument is the context's error, if it has ended. -/
def finish (interrupted : Option String) (q : Query) (now : Time) (manifest : Option State.Manifest)
    (outcomes : List Outcome) : Except Failure Answer :=
  match interrupted with
  | some message => .error (unavailable message)
  | none =>
      let outcomes := coalesceOutcomes outcomes
      .ok { query := q, observedAt := now, manifest := manifest, verdict := conclude outcomes
            outcomes := outcomes }

def Static.evaluate (s : Static) (interrupted : Option String) (dynamic : Dynamic) (q : Query)
    (now : Time) : Except Failure Answer := do
  (validateDynamic dynamic).mapError unavailable
  if s.crowdsec && dynamic.validUntil ≠ 0 && !decide (now < dynamic.validUntil) then
    throw (unavailable "acknowledged CrowdSec lease view has expired")
  let f := q.network.addr.family
  let addresses ← (partitionPrefixes q.network (s.boundaries f) dynamic.prefixes
    dynamic.decisions).elim
      (.error ⟨"limit_exceeded", "address partition exceeds lookup work limit"⟩) .ok
  let scopes := trafficScopes (s.family f) q
  if scopes.isEmpty then throw ⟨"invalid_input", "request has no traffic scope"⟩
  let outcomes ← s.turns f dynamic now 0 (s.jobs addresses q.directions scopes)
  finish interrupted q now s.manifest outcomes

/-- `Evaluate` of a normalized request. The zero instant means the clock's. -/
def evaluate (interrupted : Option String) (clock : Time) (s : Option Static) (dynamic : Dynamic)
    (q : Query) (now : Time) : Except Failure Answer :=
  match s with
  | none => .error (unavailable "lookup state is unavailable")
  | some s => s.evaluate interrupted dynamic q (if now = 0 then clock else now)

end Perimeterd.Lookup
