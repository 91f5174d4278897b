import Perimeterd.Config.Types
import Perimeterd.Prefix.Set

/-!
# The backend-neutral policy model

`internal/policy/model.go`, and the evaluator the repository's own tests state its meaning with
(`evaluate_test.go`): the first rule of a path that matches a packet decides it.

A set is named by its ID and looked up in the family plan; a `Match` with no ID tests no address.
The dynamic CrowdSec set has no captured prefixes: its content at the moment of the packet is the
`banned` argument.
-/

namespace Perimeterd.Policy

inductive Direction where
  | ingress
  | egress
deriving DecidableEq, Repr

/-- `string(direction)`, as compared with a configured direction. -/
def Direction.word : Direction → Config.Direction
  | .ingress => .ingress
  | .egress => .egress

inductive RemoteField where
  | source
  | destination
deriving DecidableEq

inductive Action where
  | ret
  | drop
  | reject
deriving DecidableEq, Repr

inductive FlowMatch where
  | establishedRelated
  | notNew
deriving DecidableEq

inductive SetKind where
  | static
  | crowdsec
deriving DecidableEq

structure PrefixSet where
  id : String
  kind : SetKind
  prefixes : List Prefix
deriving DecidableEq

structure PortRange where
  start : Port
  stop : Port
deriving DecidableEq

structure Scope where
  any : Bool := false
  tcp : List PortRange := []
  udp : List PortRange := []
  icmp : Bool := false
deriving DecidableEq

/-- `policy.Match`; an empty `setID` omits the address test. -/
structure Match where
  flow : Option FlowMatch := none
  setID : String := ""
  negateSet : Bool := false
  traffic : Scope
deriving DecidableEq

inductive DenyReason where
  | globalBlocklist
  | crowdsec
  | geoPolicy
deriving DecidableEq, Repr

inductive CounterRole where
  | processed
  | denied (reason : DenyReason) (action : Action)
deriving DecidableEq, Repr

/-- `policy.Rule`; an empty `policy` is no trace identity, `none` is the zero counter role. -/
structure Rule where
  matching : Match
  action : Action
  policy : String := ""
  counter : Option CounterRole := none
deriving DecidableEq

structure Path where
  direction : Direction
  remote : RemoteField
  processed : CounterRole
  rules : List Rule
deriving DecidableEq

structure FamilyPlan where
  family : Family
  sets : List PrefixSet
  paths : List Path
deriving DecidableEq

structure State where
  families : List FamilyPlan
deriving DecidableEq

def State.empty (s : State) : Bool := s.families.isEmpty

/-! ## Timed prefixes -/

/-- `time.Time`: an instant on the clock, the zero time at `0`. -/
abbrev Time := Int

structure TimedPrefix where
  pfx : Prefix
  deadline : Time
deriving DecidableEq

/-! ## Evaluation -/

inductive FlowState where
  | new
  | established
  | other
deriving DecidableEq, Repr

inductive Protocol where
  | tcp
  | udp
  | icmp
  | other
deriving DecidableEq, Repr

/-- A packet as a rule sees it: both addresses, since a path chooses which one is remote. -/
structure Packet where
  flow : FlowState
  source : Addr
  destination : Addr
  protocol : Protocol
  port : Port
deriving DecidableEq

structure Evaluation where
  action : Action
  trace : String := ""
  processed : Option CounterRole := none
  denied : Option CounterRole := none
deriving DecidableEq

def portInRanges (ranges : List PortRange) (port : Port) : Bool :=
  ranges.any fun r => r.start ≤ port && port ≤ r.stop

def scopeMatches (scope : Scope) (protocol : Protocol) (port : Port) : Bool :=
  scope.any ||
    match protocol with
    | .tcp => portInRanges scope.tcp port
    | .udp => portInRanges scope.udp port
    | .icmp => scope.icmp
    | .other => false

def Path.remoteAddress (path : Path) (packet : Packet) : Addr :=
  match path.remote with
  | .source => packet.source
  | .destination => packet.destination

def flowMatches (flow : Option FlowMatch) (state : FlowState) : Bool :=
  match flow with
  | none => true
  | some .establishedRelated => state = .established
  | some .notNew => state ≠ .new

/-- Membership in the set an ID names: the first set of the plan with that ID, or none. -/
def FamilyPlan.member (plan : FamilyPlan) (id : String) (banned : Addr → Bool) (a : Addr) : Bool :=
  match plan.sets.find? (·.id = id) with
  | none => false
  | some set =>
      match set.kind with
      | .crowdsec => banned a
      | .static => set.prefixes.any (·.contains a)

def setMatches (plan : FamilyPlan) (m : Match) (banned : Addr → Bool) (a : Addr) : Bool :=
  m.setID = "" || (plan.member m.setID banned a != m.negateSet)

def ruleMatches (plan : FamilyPlan) (path : Path) (packet : Packet) (banned : Addr → Bool)
    (rule : Rule) : Bool :=
  flowMatches rule.matching.flow packet.flow &&
    setMatches plan rule.matching banned (path.remoteAddress packet) &&
      scopeMatches rule.matching.traffic packet.protocol packet.port

def Rule.result (rule : Rule) (entry : CounterRole) : Evaluation :=
  { action := rule.action
    trace := rule.policy
    processed := some entry
    denied := if rule.action = .ret then none else rule.counter }

/-- First-match evaluation of one path. -/
def Path.evaluate (plan : FamilyPlan) (path : Path) (packet : Packet) (banned : Addr → Bool) :
    Evaluation :=
  match path.rules.find? (ruleMatches plan path packet banned) with
  | some rule => rule.result path.processed
  | none => { action := .ret, processed := some path.processed }

theorem Path.evaluate_eq (plan : FamilyPlan) (path : Path) (packet : Packet) (banned : Addr → Bool) :
    path.evaluate plan packet banned =
      ((path.rules.find? (ruleMatches plan path packet banned)).map (·.result path.processed)).getD
        { action := .ret, processed := some path.processed } := by
  unfold Path.evaluate
  cases path.rules.find? (ruleMatches plan path packet banned) <;> rfl

/-- `evaluate`: the path of the direction, or return when the plan has none. -/
def FamilyPlan.evaluate (plan : FamilyPlan) (direction : Direction) (packet : Packet)
    (banned : Addr → Bool) : Evaluation :=
  match plan.paths.find? (·.direction = direction) with
  | some path => path.evaluate plan packet banned
  | none => { action := .ret }

end Perimeterd.Policy
