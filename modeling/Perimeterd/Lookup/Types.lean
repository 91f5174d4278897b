import Perimeterd.Policy.Model

/-!
# Lookup queries and answers

`internal/lookup/types.go`: what an operator asks and what the daemon answers. A `Query` is a request
as `Normalize` leaves it, so it carries what `Normalize` has checked: a masked network, and a port
only with a protocol that has ports. An omitted field means every scope.
-/

namespace Perimeterd.Lookup

open Policy

def ported : Protocol → Bool
  | .tcp | .udp => true
  | .icmp | .other => false

structure Query where
  network : Prefix
  direction : Option Direction := none
  protocol : Option Protocol := none
  port : Option Port := none
  masked : network.Masked
  portProtocol : port ≠ none → ∃ p, protocol = some p ∧ ported p = true

structure Ports where
  start : Port
  stop : Port
deriving DecidableEq

inductive PortBasis where
  | currentDestination
  | originalDestination
  | other (text : String)
deriving DecidableEq

structure Attachment where
  name : String := ""
  managed : Bool := false
  portBasis : PortBasis
  inputInterfaces : List String := []
  outputInterfaces : List String := []
deriving DecidableEq

inductive Verdict where
  | blocked
  | notBlocked
deriving DecidableEq

inductive Stage where
  | notManaged
  | globalAllow
  | globalBlock
  | crowdsec
  | classifier
  | policy
  | pass
deriving DecidableEq

inductive Role where
  | allow
  | block
  | includes
  | excludes
  | decision
deriving DecidableEq

structure Evidence where
  kind : String
  name : String
  provider : String := ""
  release : String := ""
  policy : String := ""
  role : Role
  via : List String := []
  network : Prefix
  contributing : Bool
  retrievedAt : Time := 0
  decisionID : Int := 0
  decisionDeadline : Time := 0
  leaseDeadline : Time := 0
deriving DecidableEq

structure Outcome where
  network : Prefix
  direction : Direction
  protocol : Protocol
  ports : Option Ports
  attachment : Attachment
  verdict : Verdict
  action : Action
  stage : Stage
  policy : String := ""
  priority : Int := 0
  reason : String
  evidence : List Evidence := []
deriving DecidableEq

/-! ## What an outcome covers -/

def Ports.holds (p : Ports) (port : Port) : Bool := p.start ≤ port && port ≤ p.stop

/-- Whether the outcome's ports include a port. Without ports it speaks for the whole protocol. -/
def Outcome.coversPort (o : Outcome) (port : Port) : Bool := o.ports.all (·.holds port)

/-- Whether the outcome speaks for an address, protocol and port. -/
def Outcome.covers (o : Outcome) (a : Addr) (protocol : Protocol) (port : Port) : Bool :=
  o.network.contains a && o.protocol = protocol && o.coversPort port

def Query.protocols (q : Query) : List Protocol :=
  match q.protocol with
  | none => [.tcp, .udp, .icmp, .other]
  | some p => [p]

def Query.directions (q : Query) : List Direction :=
  match q.direction with
  | none => [.ingress, .egress]
  | some d => [d]

/-- The ports in scope for a protocol. A protocol without ports has one point, written 0. -/
def Query.InScope (q : Query) (protocol : Protocol) (port : Port) : Prop :=
  match q.port with
  | some p => port = p
  | none => ported protocol = true ∨ port = 0

instance (q : Query) (protocol : Protocol) (port : Port) : Decidable (q.InScope protocol port) := by
  unfold Query.InScope
  split <;> infer_instance

end Perimeterd.Lookup
