import Perimeterd.Lookup.Evaluate

/-!
# Requests and responses

`Normalize` of `internal/lookup/request.go`, and `Evaluate` as an operator sees it: a `Request` is what
was typed, a `Response` is complete or unknown. `parseQuery` is `Normalize` with its finding as a
`Query`, and `Query.request` writes a query down again; the source keeps the request and replaces its
address, which is the same thing since the other fields are compared with fixed words.

How addresses are written is `net/netip`'s affair. `AddressTexts` asks one thing of it: what
`Prefix.String` writes, `ParsePrefix` reads back.
-/

namespace Perimeterd.Lookup

open Lib Policy

/-- `ParsePrefix`, `ParseAddr` with the zone, and `Prefix.String`. -/
structure AddressTexts where
  parsePrefix : String → Option Prefix
  parseAddr : String → Except String (Addr × String)
  prefixString : Prefix → String
  parse_string : ∀ p, parsePrefix (prefixString p) = some p
  string_ne : ∀ p, prefixString p ≠ ""

/-- `Request`; an empty text is an omitted field. -/
structure Request where
  address : String
  direction : String := ""
  protocol : String := ""
  port : Option Port := none
deriving DecidableEq

def directionText : Option Direction → String
  | none => ""
  | some .ingress => "ingress"
  | some .egress => "egress"

def optionalProtocolText : Option Protocol → String
  | none => ""
  | some p => protocolText p

def parseDirection (text : String) : Except String (Option Direction) :=
  match text with
  | "" => .ok none
  | "ingress" => .ok (some .ingress)
  | "egress" => .ok (some .egress)
  | _ => .error ("direction: unsupported value " ++ text.quote)

def parseProtocol (text : String) : Except String (Option Protocol) :=
  match text with
  | "" => .ok none
  | "tcp" => .ok (some .tcp)
  | "udp" => .ok (some .udp)
  | "icmp" => .ok (some .icmp)
  | "other" => .ok (some .other)
  | _ => .error ("protocol: unsupported value " ++ text.quote)

section Texts

variable (texts : AddressTexts)

def mappedMessage : String := "address: IPv4-mapped IPv6 is not supported"

/-- The network an address text names: a prefix is masked, a bare address is its own host prefix. -/
def parseNetwork (text : String) : Except String { p : Prefix // p.Masked } :=
  if text = "" then .error "address is required"
  else
    match texts.parsePrefix text with
    | some parsed =>
        if parsed.addr.is4In6 then .error mappedMessage
        else if parsed.masked.addr.is4In6 then .error mappedMessage
        else .ok ⟨parsed.masked, parsed.masked_masked⟩
    | none =>
        match texts.parseAddr text with
        | .error e => .error ("address: invalid IP or CIDR: " ++ e)
        | .ok (address, zone) =>
            if zone ≠ "" then .error "address: zones are not supported"
            else if address.is4In6 then .error mappedMessage
            else .ok ⟨.single address, Prefix.masked_single address⟩

/-- The query of a request whose fields have been read; only the protocols with ports take one. -/
def withPort (network : { p : Prefix // p.Masked }) (direction : Option Direction)
    (protocol : Option Protocol) (port : Option Port) : Except String Query :=
  if h : port ≠ none → ∃ p, protocol = some p ∧ ported p = true then
    .ok ⟨network.val, direction, protocol, port, network.property, h⟩
  else .error "port requires tcp or udp protocol"

def parseQuery (r : Request) : Except String Query := do
  let network ← parseNetwork texts r.address
  let direction ← parseDirection r.direction
  let protocol ← parseProtocol r.protocol
  withPort network direction protocol r.port

def Query.request (q : Query) : Request where
  address := texts.prefixString q.network
  direction := directionText q.direction
  protocol := optionalProtocolText q.protocol
  port := q.port

def normalize (r : Request) : Except String Request := (parseQuery texts r).map (·.request texts)

/-! ## Responses -/

inductive ResponseVerdict where
  | complete (verdict : Overall)
  | unknown
  | other (text : String)
deriving DecidableEq

/-- `Response`. The revision and the epochs are filled in by the daemon and read by nobody here. -/
structure Response where
  schemaVersion : Nat
  query : Request
  flow : String
  observedAt : Time := 0
  manifest : Option State.Manifest := none
  verdict : ResponseVerdict
  outcomes : List Outcome := []
  error : Option Failure := none

def schemaVersion : Nat := 2

def unknown (request : Request) (failure : Failure) : Response where
  schemaVersion := schemaVersion
  query := request
  flow := "new"
  verdict := .unknown
  error := some failure

def Answer.response (r : Answer) : Response where
  schemaVersion := schemaVersion
  query := r.query.request texts
  flow := "new"
  observedAt := r.observedAt
  manifest := r.manifest
  verdict := .complete r.verdict
  outcomes := r.outcomes

def evaluateRequest (interrupted : Option String) (clock : Time) (s : Option Static)
    (dynamic : Dynamic) (request : Request) (now : Time) : Response :=
  match parseQuery texts request with
  | .error message => unknown request ⟨"invalid_input", message⟩
  | .ok q =>
      match evaluate interrupted clock s dynamic q now with
      | .error failure => unknown (q.request texts) failure
      | .ok r => r.response texts

/-! ## A normalized request is its own normal form -/

theorem parseDirection_text (d : Option Direction) : parseDirection (directionText d) = .ok d := by
  rcases d with _ | _ | _ <;> rfl

theorem parseProtocol_text (p : Option Protocol) :
    parseProtocol (optionalProtocolText p) = .ok p := by
  rcases p with _ | _ | _ | _ | _ <;> rfl

theorem parseNetwork_eq_ok {texts : AddressTexts} {text : String} {p : { p : Prefix // p.Masked }}
    (h : parseNetwork texts text = .ok p) : p.val.addr.is4In6 = false := by
  unfold parseNetwork at h
  obtain ⟨-, h⟩ := ite_throw_eq_ok.mp h
  split at h
  · obtain ⟨-, h⟩ := ite_throw_eq_ok.mp h
    obtain ⟨hp, h⟩ := ite_throw_eq_ok.mp h
    cases h
    exact Bool.eq_false_iff.mpr hp
  · split at h
    · cases h
    · obtain ⟨-, h⟩ := ite_throw_eq_ok.mp h
      obtain ⟨hp, h⟩ := ite_throw_eq_ok.mp h
      cases h
      exact Bool.eq_false_iff.mpr hp

theorem parseNetwork_string {p : { p : Prefix // p.Masked }} (h : p.val.addr.is4In6 = false) :
    parseNetwork texts (texts.prefixString p.val) = .ok p := by
  have hma : p.val.masked = p.val := p.property
  unfold parseNetwork
  rw [if_neg (texts.string_ne _), texts.parse_string]
  simp only [hma, h, Bool.false_eq_true, if_false]

/-- **What `Normalize` returns it returns again.** -/
theorem parseQuery_request {texts : AddressTexts} {r : Request} {q : Query}
    (h : parseQuery texts r = .ok q) : parseQuery texts (q.request texts) = .ok q := by
  obtain ⟨network, hne, h⟩ := bind_eq_ok.mp h
  obtain ⟨dir, -, h⟩ := bind_eq_ok.mp h
  obtain ⟨proto, -, h⟩ := bind_eq_ok.mp h
  unfold withPort at h
  split at h
  case isFalse => cases h
  case isTrue hp =>
    cases h
    refine bind_eq_ok.mpr ⟨network, parseNetwork_string texts (parseNetwork_eq_ok hne), ?_⟩
    refine bind_eq_ok.mpr ⟨dir, parseDirection_text dir, ?_⟩
    refine bind_eq_ok.mpr ⟨proto, parseProtocol_text proto, ?_⟩
    exact dif_pos hp

end Texts

end Perimeterd.Lookup
