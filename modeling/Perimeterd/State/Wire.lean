import Perimeterd.Lib.Marshal
import Perimeterd.Netip

/-!
# Revisions as they are stored

The types `json.Marshal` meets below a `state.Revision`, field by field: `config.Config`,
`firewall.Target` and `policy.FamilyPlan`. A Go string is any sequence of bytes, so the other
modules' texts are byte strings here, and their enumerations are the texts Go keeps them as. A
`nil` slice, map or pointer is `none`.

Each record's codec lists its fields under the names they are stored by. Untagged fields are stored
under their Go name; `omitempty` and `omitzero` fields say when they are left out.

The keys of the three maps are the names an operator gives to IP lists, country groups and OpenZiti
identities. `config.Parse` takes only lower-case labels there, so a `Codec.Table` loses nothing by
asking for text. Every other string, the configuration path above all, may be any bytes.
-/

namespace Perimeterd.State.Wire

open Lib

/-- The text forms of the libraries: `netip.Prefix` and `float64`. A prefix stands for the zero
`netip.Prefix` when there is none; prefixes that are neither valid nor zero have no text that can be
read, and `policy.Compile` refuses a configuration that holds one. -/
structure Forms (φ : Type) where
  prefixText : Prefix → Bytes
  parsePrefix : Bytes → Option Prefix
  parse_prefixText : ∀ p, parsePrefix (prefixText p) = some p
  prefixText_ne_nil : ∀ p, prefixText p ≠ []
  prefixText_valid : ∀ p, Utf8.valid (prefixText p) = true
  zero : φ
  /-- `f == 0`, which both zeros satisfy. -/
  isZero : φ → Bool
  isZero_zero : isZero zero = true
  /-- None for the values JSON has no number for. -/
  floatText : φ → Option Json.Number
  parseFloat : Json.Number → Option φ
  parse_floatText : ∀ {f n}, floatText f = some n → parseFloat n = some f

/-! ## Scalars -/

def int64 : Codec Int64 :=
  .integer 0 Int64.toInt Int64.ofInt (-2 ^ 63) (2 ^ 63 - 1) Int64.ofInt_toInt
    fun a => ⟨a.le_toInt, Int.le_sub_one_of_lt a.toInt_lt⟩

def int32 : Codec Int32 :=
  .integer 0 Int32.toInt Int32.ofInt (-2 ^ 31) (2 ^ 31 - 1) Int32.ofInt_toInt
    fun a => ⟨a.le_toInt, Int.le_sub_one_of_lt a.toInt_lt⟩

def uint64 : Codec UInt64 :=
  .integer 0 (fun a => (a.toNat : Int)) (fun z => UInt64.ofNat z.toNat) 0 (2 ^ 64 - 1)
    (fun a => by simp) fun a => ⟨Int.natCast_nonneg _, by have := a.toNat_lt; omega⟩

def uint16 : Codec UInt16 :=
  .integer 0 (fun a => (a.toNat : Int)) (fun z => UInt16.ofNat z.toNat) 0 (2 ^ 16 - 1)
    (fun a => by simp) fun a => ⟨Int.natCast_nonneg _, by have := a.toNat_lt; omega⟩

def uint8 : Codec UInt8 :=
  .integer 0 (fun a => (a.toNat : Int)) (fun z => UInt8.ofNat z.toNat) 0 (2 ^ 8 - 1)
    (fun a => by simp) fun a => ⟨Int.natCast_nonneg _, by have := a.toNat_lt; omega⟩

def strings : Codec (Option (List Bytes)) := .slice .string

section Scalars

variable {φ : Type} (forms : Forms φ)

def float64 : Codec φ := .number forms.zero forms.floatText forms.parseFloat forms.parse_floatText

/-- `Prefix.MarshalText`: nothing for the zero prefix. -/
def formatPrefix : Option Prefix → Bytes
  | none => []
  | some p => forms.prefixText p

def readPrefix (s : Bytes) : Option (Option Prefix) :=
  if s = [] then some none else (forms.parsePrefix s).map some

def netipPrefix : Codec (Option Prefix) :=
  .text none (formatPrefix forms) (readPrefix forms)
    (by
      rintro (_ | p)
      · rfl
      · rw [formatPrefix, readPrefix, if_neg (forms.prefixText_ne_nil p), forms.parse_prefixText]
        rfl)
    (by
      rintro (_ | p)
      · rfl
      · exact forms.prefixText_valid p)

end Scalars

/-- A string that is left out when it is empty. -/
def nonempty {names : List Bytes} {ρ : Type} (name : Bytes) (rest : Fields names ρ)
    (valid : Utf8.valid name = true := by decide +kernel)
    (fresh : name ∉ names := by decide +kernel) : Fields (name :: names) (Bytes × ρ) :=
  .optional name List.isEmpty .string rest (fun _ _ => rfl) Utf8.isEmpty_coerce valid fresh

theorem isEmpty_nonempty (s : Bytes) :
    (if s.isEmpty then ([] : Bytes) else Utf8.coerce s).isEmpty = s.isEmpty := by
  cases s with
  | nil => rfl
  | cons b s => exact Utf8.isEmpty_coerce _

/-! ## `config.Config` -/

structure Transport where
  type : Bytes := []
  identity : Bytes := []
  service : Bytes := []
deriving DecidableEq

def Transport.isZero (t : Transport) : Bool :=
  t.type.isEmpty && t.identity.isEmpty && t.service.isEmpty

def transport : Codec Transport :=
  .record (fun t => (t.type, t.identity, t.service, ())) (fun r => ⟨r.1, r.2.1, r.2.2.1⟩)
    (nonempty (ascii "Type") <| nonempty (ascii "Identity") <| nonempty (ascii "Service") .nil)
    fun _ => rfl

theorem transport_norm (t : Transport) : (transport.norm t).isZero = t.isZero :=
  congrArg₂ and (congrArg₂ and (isEmpty_nonempty t.type) (isEmpty_nonempty t.identity))
    (isEmpty_nonempty t.service)

structure CSVFilter (φ : Type) where
  column : Int64 := 0
  op : Bytes := []
  value : φ

structure CSV (φ : Type) where
  delimiter : Bytes := []
  header : Bool := false
  ipColumn : Int64 := 0
  filter : CSVFilter φ

structure IPList (φ : Type) where
  url : Bytes := []
  refreshInterval : Int64 := 0
  requestTimeout : Int64 := 0
  transport : Transport := {}
  csv : CSV φ

structure OpenZitiIdentity where
  identityFile : Bytes := []

structure OpenZiti where
  identities : Option (Codec.Table OpenZitiIdentity) := none

structure Logging where
  level : Bytes := []
  format : Bytes := []

structure Metrics where
  listen : Bytes := []

structure Global where
  allowlist : Option (List (Option Prefix)) := none
  blocklist : Option (List (Option Prefix)) := none

structure Nftables where
  table : Bytes := []
  priority : Int32 := 0

structure Attachment where
  chain : Bytes := []
  direction : Bytes := []
  inputInterfaces : Option (List Bytes) := none
  outputInterfaces : Option (List Bytes) := none
  originalDestination : Bool := false

structure IPTables where
  attachments : Option (List Attachment) := none

structure Firewall where
  backend : Bytes := []
  denyAction : Bytes := []
  ipv4 : Bool := false
  ipv6 : Bool := false
  nftables : Nftables := {}
  iptables : IPTables := {}

structure Geo where
  countryProvider : Bytes := []
  refreshInterval : Int64 := 0
  requestTimeout : Int64 := 0
  refreshJitter : Int64 := 0

structure Providers where
  refreshInterval : Int64 := 0
  requestTimeout : Int64 := 0

structure CrowdSec where
  enabled : Bool := false
  lapiURL : Bytes := []
  apiKeyFile : Bytes := []
  updateFrequency : Int64 := 0
  transport : Transport := {}

structure PortRange where
  start : UInt16 := 0
  stop : UInt16 := 0

structure TrafficScope where
  tcp : Option (List PortRange) := none
  udp : Option (List PortRange) := none
  icmp : Bool := false
  icmpv6 : Bool := false
  any : Bool := false

structure Selector where
  countries : Option (List Bytes) := none
  rirs : Option (List Bytes) := none
  groups : Option (List Bytes) := none
  asns : Option (List Bytes) := none
  ipLists : Option (List Bytes) := none
  providers : Option (List Bytes) := none
  expandedCountries : Option (List Bytes) := none

structure Policy where
  name : Bytes := []
  priority : Int64 := 0
  direction : Bytes := []
  mode : Bytes := []
  traffic : TrafficScope := {}
  included : Selector := {}
  excluded : Selector := {}

structure Config (φ : Type) where
  version : Int64 := 0
  logging : Logging := {}
  metrics : Metrics := {}
  global : Global := {}
  firewall : Firewall := {}
  geo : Geo := {}
  providers : Providers := {}
  openZiti : OpenZiti := {}
  ipLists : Option (Codec.Table (IPList φ)) := none
  groups : Option (Codec.Table (Option (List Bytes))) := none
  policies : Option (List Policy) := none
  crowdsec : CrowdSec := {}

def openZitiIdentity : Codec OpenZitiIdentity :=
  .record (fun i => (i.identityFile, ())) (fun r => ⟨r.1⟩) (nonempty (ascii "IdentityFile") .nil)
    fun _ => rfl

/-- `OpenZitiConfig.IsZero`: no profile, whether or not the map was made. -/
def OpenZiti.isZero (z : OpenZiti) : Bool := z.identities.all fun t => t.entries.isEmpty

def openZiti : Codec OpenZiti :=
  .record (fun z => (z.identities, ())) (fun r => ⟨r.1⟩)
    (.optional (ascii "Identities") Option.isNone (.table openZitiIdentity) .nil (fun _ _ => rfl)
      fun t => by cases t <;> rfl)
    fun _ => rfl

theorem openZiti_norm (z : OpenZiti) : (openZiti.norm z).isZero = z.isZero := by
  obtain ⟨_ | ⟨_ | _, _, _⟩⟩ := z <;> rfl

def logging : Codec Logging :=
  .record (fun l => (l.level, l.format, ())) (fun r => ⟨r.1, r.2.1⟩)
    (.field (ascii "Level") .string <| .field (ascii "Format") .string .nil) fun _ => rfl

def metrics : Codec Metrics :=
  .record (fun m => (m.listen, ())) (fun r => ⟨r.1⟩) (.field (ascii "Listen") .string .nil)
    fun _ => rfl

def nftables : Codec Nftables :=
  .record (fun n => (n.table, n.priority, ())) (fun r => ⟨r.1, r.2.1⟩)
    (.field (ascii "Table") .string <| .field (ascii "Priority") int32 .nil) fun _ => rfl

def attachment : Codec Attachment :=
  .record
    (fun a => (a.chain, a.direction, a.inputInterfaces, a.outputInterfaces, a.originalDestination, ()))
    (fun r => ⟨r.1, r.2.1, r.2.2.1, r.2.2.2.1, r.2.2.2.2.1⟩)
    (.field (ascii "Chain") .string <| .field (ascii "Direction") .string <|
      .field (ascii "InputInterfaces") strings <| .field (ascii "OutputInterfaces") strings <|
      .field (ascii "OriginalDestination") .bool .nil)
    fun _ => rfl

def iptables : Codec IPTables :=
  .record (fun i => (i.attachments, ())) (fun r => ⟨r.1⟩)
    (.field (ascii "Attachments") (.slice attachment) .nil) fun _ => rfl

def firewall : Codec Firewall :=
  .record (fun f => (f.backend, f.denyAction, f.ipv4, f.ipv6, f.nftables, f.iptables, ()))
    (fun r => ⟨r.1, r.2.1, r.2.2.1, r.2.2.2.1, r.2.2.2.2.1, r.2.2.2.2.2.1⟩)
    (.field (ascii "Backend") .string <| .field (ascii "DenyAction") .string <|
      .field (ascii "IPv4") .bool <| .field (ascii "IPv6") .bool <|
      .field (ascii "Nftables") nftables <| .field (ascii "IPTables") iptables .nil)
    fun _ => rfl

def geo : Codec Geo :=
  .record (fun g => (g.countryProvider, g.refreshInterval, g.requestTimeout, g.refreshJitter, ()))
    (fun r => ⟨r.1, r.2.1, r.2.2.1, r.2.2.2.1⟩)
    (nonempty (ascii "CountryProvider") <| .field (ascii "RefreshInterval") int64 <|
      .field (ascii "RequestTimeout") int64 <| .field (ascii "RefreshJitter") int64 .nil)
    fun _ => rfl

def providers : Codec Providers :=
  .record (fun p => (p.refreshInterval, p.requestTimeout, ())) (fun r => ⟨r.1, r.2.1⟩)
    (.field (ascii "RefreshInterval") int64 <| .field (ascii "RequestTimeout") int64 .nil)
    fun _ => rfl

/-- A transport that is left out when it is the direct one. -/
def indirect {names : List Bytes} {ρ : Type} (rest : Fields names ρ)
    (fresh : ascii "Transport" ∉ names := by decide +kernel) :
    Fields (ascii "Transport" :: names) (Transport × ρ) :=
  .optional (ascii "Transport") Transport.isZero transport rest (fun _ _ => rfl)
    transport_norm (by decide +kernel) fresh

def crowdsec : Codec CrowdSec :=
  .record (fun c => (c.enabled, c.lapiURL, c.apiKeyFile, c.updateFrequency, c.transport, ()))
    (fun r => ⟨r.1, r.2.1, r.2.2.1, r.2.2.2.1, r.2.2.2.2.1⟩)
    (.field (ascii "Enabled") .bool <| .field (ascii "LAPIURL") .string <|
      .field (ascii "APIKeyFile") .string <| .field (ascii "UpdateFrequency") int64 <|
      indirect .nil)
    fun _ => rfl

/-- `config.PortRange` and `policy.PortRange`. -/
def portRange : Codec PortRange :=
  .record (fun p => (p.start, p.stop, ())) (fun r => ⟨r.1, r.2.1⟩)
    (.field (ascii "Start") uint16 <| .field (ascii "End") uint16 .nil) fun _ => rfl

def trafficScope : Codec TrafficScope :=
  .record (fun t => (t.tcp, t.udp, t.icmp, t.icmpv6, t.any, ()))
    (fun r => ⟨r.1, r.2.1, r.2.2.1, r.2.2.2.1, r.2.2.2.2.1⟩)
    (.field (ascii "TCP") (.slice portRange) <| .field (ascii "UDP") (.slice portRange) <|
      .field (ascii "ICMP") .bool <| .field (ascii "ICMPv6") .bool <|
      .field (ascii "Any") .bool .nil)
    fun _ => rfl

def selector : Codec Selector :=
  .record
    (fun s => (s.countries, s.rirs, s.groups, s.asns, s.ipLists, s.providers, s.expandedCountries, ()))
    (fun r => ⟨r.1, r.2.1, r.2.2.1, r.2.2.2.1, r.2.2.2.2.1, r.2.2.2.2.2.1, r.2.2.2.2.2.2.1⟩)
    (.field (ascii "Countries") strings <| .field (ascii "RIRs") strings <|
      .field (ascii "Groups") strings <| .field (ascii "ASNs") strings <|
      .field (ascii "IPLists") strings <| .field (ascii "Providers") strings <|
      .field (ascii "ExpandedCountries") strings .nil)
    fun _ => rfl

def policy : Codec Policy :=
  .record
    (fun p => (p.name, p.priority, p.direction, p.mode, p.traffic, p.included, p.excluded, ()))
    (fun r => ⟨r.1, r.2.1, r.2.2.1, r.2.2.2.1, r.2.2.2.2.1, r.2.2.2.2.2.1, r.2.2.2.2.2.2.1⟩)
    (.field (ascii "Name") .string <| .field (ascii "Priority") int64 <|
      .field (ascii "Direction") .string <| .field (ascii "Mode") .string <|
      .field (ascii "Traffic") trafficScope <| .field (ascii "Include") selector <|
      .field (ascii "Exclude") selector .nil)
    fun _ => rfl

section Config

variable {φ : Type} (forms : Forms φ)

def global : Codec Global :=
  .record (fun g => (g.allowlist, g.blocklist, ())) (fun r => ⟨r.1, r.2.1⟩)
    (.field (ascii "Allowlist") (.slice (netipPrefix forms)) <|
      .field (ascii "Blocklist") (.slice (netipPrefix forms)) .nil)
    fun _ => rfl

def CSVFilter.isZero (f : CSVFilter φ) : Bool := f.column == 0 && f.op.isEmpty && forms.isZero f.value

def CSV.isZero (c : CSV φ) : Bool :=
  c.delimiter.isEmpty && !c.header && c.ipColumn == 0 && c.filter.isZero forms

def csvFilter : Codec (CSVFilter φ) :=
  .record (fun f => (f.column, f.op, f.value, ())) (fun r => ⟨r.1, r.2.1, r.2.2.1⟩)
    (.field (ascii "Column") int64 <| .field (ascii "Op") .string <|
      .field (ascii "Value") (float64 forms) .nil)
    fun _ => rfl

theorem csvFilter_isZero_zero : ((csvFilter forms).zero).isZero forms = true := forms.isZero_zero

theorem csvFilter_norm (f : CSVFilter φ) :
    ((csvFilter forms).norm f).isZero forms = f.isZero forms :=
  congrArg (fun b => (f.column == 0 && b) && forms.isZero f.value) (Utf8.isEmpty_coerce f.op)

def csv : Codec (CSV φ) :=
  .record (fun c => (c.delimiter, c.header, c.ipColumn, c.filter, ()))
    (fun r => ⟨r.1, r.2.1, r.2.2.1, r.2.2.2.1⟩)
    (.field (ascii "Delimiter") .string <| .field (ascii "Header") .bool <|
      .field (ascii "IPColumn") int64 <|
      .optional (ascii "Filter") (CSVFilter.isZero forms) (csvFilter forms) .nil
        (fun _ _ => csvFilter_isZero_zero forms) (csvFilter_norm forms))
    fun _ => rfl

theorem csv_norm (c : CSV φ) : ((csv forms).norm c).isZero forms = c.isZero forms := by
  have hf : ((csv forms).norm c).filter.isZero forms = c.filter.isZero forms := by
    show (if c.filter.isZero forms then (csvFilter forms).zero
      else (csvFilter forms).norm c.filter).isZero forms = _
    split
    case isTrue h => rw [csvFilter_isZero_zero, h]
    case isFalse => exact csvFilter_norm forms c.filter
  show ((Utf8.coerce c.delimiter).isEmpty && _ && _ && ((csv forms).norm c).filter.isZero forms) = _
  rw [hf, Utf8.isEmpty_coerce]
  rfl

def ipList : Codec (IPList φ) :=
  .record (fun l => (l.url, l.refreshInterval, l.requestTimeout, l.transport, l.csv, ()))
    (fun r => ⟨r.1, r.2.1, r.2.2.1, r.2.2.2.1, r.2.2.2.2.1⟩)
    (.field (ascii "URL") .string <| .field (ascii "RefreshInterval") int64 <|
      .field (ascii "RequestTimeout") int64 <|
      indirect <|
      .optional (ascii "CSV") (CSV.isZero forms) (csv forms) .nil
        (fun _ _ => forms.isZero_zero) (csv_norm forms))
    fun _ => rfl

def config : Codec (Config φ) :=
  .record
    (fun c => (c.version, c.logging, c.metrics, c.global, c.firewall, c.geo, c.providers, c.openZiti,
      c.ipLists, c.groups, c.policies, c.crowdsec, ()))
    (fun r => ⟨r.1, r.2.1, r.2.2.1, r.2.2.2.1, r.2.2.2.2.1, r.2.2.2.2.2.1, r.2.2.2.2.2.2.1,
      r.2.2.2.2.2.2.2.1, r.2.2.2.2.2.2.2.2.1, r.2.2.2.2.2.2.2.2.2.1, r.2.2.2.2.2.2.2.2.2.2.1,
      r.2.2.2.2.2.2.2.2.2.2.2.1⟩)
    (.field (ascii "Version") int64 <| .field (ascii "Logging") logging <|
      .field (ascii "Metrics") metrics <| .field (ascii "Global") (global forms) <|
      .field (ascii "Firewall") firewall <| .field (ascii "Geo") geo <|
      .field (ascii "Providers") providers <|
      .optional (ascii "OpenZiti") OpenZiti.isZero openZiti
        (.field (ascii "IPLists") (.table (ipList forms)) <|
          .field (ascii "Groups") (.table strings) <|
          .field (ascii "Policies") (.slice policy) <| .field (ascii "CrowdSec") crowdsec .nil)
        (fun _ _ => rfl) openZiti_norm)
    fun _ => rfl

end Config

/-! ## `firewall.Target` -/

structure CounterRole where
  kind : Bytes := []
  reason : Bytes := []
  action : Bytes := []

structure CounterSpec where
  name : Bytes := []
  family : UInt8 := 0
  direction : Bytes := []
  role : CounterRole := {}

structure PrefixSet where
  id : Bytes := []
  kind : Bytes := []
  prefixes : Option (List (Option Prefix)) := none

structure Scope where
  any : Bool := false
  tcp : Option (List PortRange) := none
  udp : Option (List PortRange) := none
  icmp : Bool := false

structure Match where
  flow : Bytes := []
  setID : Bytes := []
  negateSet : Bool := false
  traffic : Scope := {}

structure Rule where
  matching : Match := {}
  action : Bytes := []
  policy : Bytes := []
  counter : CounterRole := {}

structure Path where
  direction : Bytes := []
  remote : Bytes := []
  processed : CounterRole := {}
  rules : Option (List Rule) := none

structure FamilyPlan where
  family : UInt8 := 0
  sets : Option (List PrefixSet) := none
  paths : Option (List Path) := none

structure IPTablesTarget where
  attachments : Option (List Attachment) := none

structure Target where
  owner : Bytes := []
  table : Bytes := []
  priority : Int32 := 0
  generation : Bytes := []
  families : Option (List FamilyPlan) := none
  counters : Option (List CounterSpec) := none
  iptables : Option IPTablesTarget := none
  dynamicGeneration : Bytes := []

structure Revision (φ : Type) where
  version : Int64 := 0
  id : Bytes := []
  epoch : UInt64 := 0
  refreshSequence : UInt64 := 0
  manifest : Bytes := []
  configPath : Bytes := []
  config : Config φ := {}
  target : Option Target := none

def counterRole : Codec CounterRole :=
  .record (fun c => (c.kind, c.reason, c.action, ())) (fun r => ⟨r.1, r.2.1, r.2.2.1⟩)
    (.field (ascii "Kind") .string <| .field (ascii "Reason") .string <|
      .field (ascii "Action") .string .nil)
    fun _ => rfl

def counterSpec : Codec CounterSpec :=
  .record (fun c => (c.name, c.family, c.direction, c.role, ()))
    (fun r => ⟨r.1, r.2.1, r.2.2.1, r.2.2.2.1⟩)
    (.field (ascii "name") .string <| .field (ascii "family") uint8 <|
      .field (ascii "direction") .string <| .field (ascii "role") counterRole .nil)
    fun _ => rfl

def scope : Codec Scope :=
  .record (fun s => (s.any, s.tcp, s.udp, s.icmp, ())) (fun r => ⟨r.1, r.2.1, r.2.2.1, r.2.2.2.1⟩)
    (.field (ascii "Any") .bool <| .field (ascii "TCP") (.slice portRange) <|
      .field (ascii "UDP") (.slice portRange) <| .field (ascii "ICMP") .bool .nil)
    fun _ => rfl

def ruleMatch : Codec Match :=
  .record (fun m => (m.flow, m.setID, m.negateSet, m.traffic, ()))
    (fun r => ⟨r.1, r.2.1, r.2.2.1, r.2.2.2.1⟩)
    (.field (ascii "Flow") .string <| .field (ascii "SetID") .string <|
      .field (ascii "NegateSet") .bool <| .field (ascii "Traffic") scope .nil)
    fun _ => rfl

def rule : Codec Rule :=
  .record (fun u => (u.matching, u.action, u.policy, u.counter, ()))
    (fun r => ⟨r.1, r.2.1, r.2.2.1, r.2.2.2.1⟩)
    (.field (ascii "Match") ruleMatch <| .field (ascii "Action") .string <|
      .field (ascii "Policy") .string <| .field (ascii "Counter") counterRole .nil)
    fun _ => rfl

def path : Codec Path :=
  .record (fun p => (p.direction, p.remote, p.processed, p.rules, ()))
    (fun r => ⟨r.1, r.2.1, r.2.2.1, r.2.2.2.1⟩)
    (.field (ascii "Direction") .string <| .field (ascii "Remote") .string <|
      .field (ascii "Processed") counterRole <| .field (ascii "Rules") (.slice rule) .nil)
    fun _ => rfl

def iptablesTarget : Codec IPTablesTarget :=
  .record (fun i => (i.attachments, ())) (fun r => ⟨r.1⟩)
    (.field (ascii "attachments") (.slice attachment) .nil) fun _ => rfl

section Target

variable {φ : Type} (forms : Forms φ)

def prefixSet : Codec PrefixSet :=
  .record (fun s => (s.id, s.kind, s.prefixes, ())) (fun r => ⟨r.1, r.2.1, r.2.2.1⟩)
    (.field (ascii "ID") .string <| .field (ascii "Kind") .string <|
      .field (ascii "Prefixes") (.slice (netipPrefix forms)) .nil)
    fun _ => rfl

def familyPlan : Codec FamilyPlan :=
  .record (fun f => (f.family, f.sets, f.paths, ())) (fun r => ⟨r.1, r.2.1, r.2.2.1⟩)
    (.field (ascii "Family") uint8 <| .field (ascii "Sets") (.slice (prefixSet forms)) <|
      .field (ascii "Paths") (.slice path) .nil)
    fun _ => rfl

def target : Codec Target :=
  .record
    (fun t => (t.owner, t.table, t.priority, t.generation, t.families, t.counters, t.iptables,
      t.dynamicGeneration, ()))
    (fun r => ⟨r.1, r.2.1, r.2.2.1, r.2.2.2.1, r.2.2.2.2.1, r.2.2.2.2.2.1, r.2.2.2.2.2.2.1,
      r.2.2.2.2.2.2.2.1⟩)
    (.field (ascii "owner") .string <| .field (ascii "table") .string <|
      .field (ascii "priority") int32 <| .field (ascii "generation") .string <|
      .field (ascii "families") (.slice (familyPlan forms)) <|
      .field (ascii "counters") (.slice counterSpec) <|
      .optional (ascii "iptables") Option.isNone
        (.pointer iptablesTarget Codec.record_ne_null)
        (nonempty (ascii "dynamic_generation") .nil)
        (fun _ _ => rfl) fun t => by cases t <;> rfl)
    fun _ => rfl

def revision : Codec (Revision φ) :=
  .record
    (fun r => (r.version, r.id, r.epoch, r.refreshSequence, r.manifest, r.configPath, r.config,
      r.target, ()))
    (fun r => ⟨r.1, r.2.1, r.2.2.1, r.2.2.2.1, r.2.2.2.2.1, r.2.2.2.2.2.1, r.2.2.2.2.2.2.1,
      r.2.2.2.2.2.2.2.1⟩)
    (.field (ascii "version") int64 <| .field (ascii "id") .string <|
      .field (ascii "epoch") uint64 <|
      .optional (ascii "refresh_sequence") (· == 0) uint64
        (nonempty (ascii "manifest") <| .field (ascii "config_path") .string <|
          .field (ascii "config") (config forms) <|
          .field (ascii "target") (.pointer (target forms) Codec.record_ne_null) .nil)
        (fun _ _ => rfl) fun _ => rfl)
    fun _ => rfl

end Target

end Perimeterd.State.Wire
