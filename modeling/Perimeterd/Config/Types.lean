import Perimeterd.Netip

/-!
# Normalized configuration

The part of `config.Config` the modelled code reads. The source keeps the deny action, a policy's
direction and its mode as strings and re-checks them where they are used; each is an enumeration
here with one extra constructor for any other text, so the rejecting branches stay reachable.
-/

namespace Perimeterd

/-- A transport port, `uint16`. -/
abbrev Port := Fin 65536

namespace Config

/-- `firewall.deny_action`. -/
inductive DenyAction where
  | drop
  | reject
  | other (text : String)
deriving DecidableEq

/-- A policy's or attachment's `direction`. -/
inductive Direction where
  | ingress
  | egress
  | other (text : String)
deriving DecidableEq

/-- A policy's `mode`. -/
inductive Mode where
  | allowlist
  | blocklist
  | disabled
  | other (text : String)
deriving DecidableEq

def Direction.text : Direction → String
  | .ingress => "ingress"
  | .egress => "egress"
  | .other text => text

structure PortRange where
  start : Port
  stop : Port
deriving DecidableEq

structure TrafficScope where
  tcp : List PortRange := []
  udp : List PortRange := []
  icmp : Bool := false
  icmpv6 : Bool := false
  any : Bool := false
deriving DecidableEq

def TrafficScope.icmpOf (t : TrafficScope) : Family → Bool
  | .ipv4 => t.icmp
  | .ipv6 => t.icmpv6

/-- `config.Selector`; `expandedCountries` is the union of `countries` and the members of
`groups`. -/
structure Selector where
  countries : List String := []
  rirs : List String := []
  groups : List String := []
  asns : List String := []
  ipLists : List String := []
  providers : List String := []
  expandedCountries : List String := []
deriving DecidableEq

structure Policy where
  name : String
  priority : Int
  direction : Direction
  mode : Mode
  traffic : TrafficScope
  included : Selector
  excluded : Selector := {}
deriving DecidableEq

structure Global where
  allowlist : List NetipPrefix := []
  blocklist : List NetipPrefix := []
deriving DecidableEq

/-- `config.Attachment`: one parent chain of an iptables target. -/
structure Attachment where
  chain : String
  direction : Direction
  inputInterfaces : List String := []
  outputInterfaces : List String := []
  originalDestination : Bool := false
deriving DecidableEq

inductive Backend where
  | nftables
  | iptables
  | other (text : String)
deriving DecidableEq

structure Firewall where
  backend : Backend := .nftables
  denyAction : DenyAction := .drop
  ipv4 : Bool := true
  ipv6 : Bool := true
  table : String := "perimeterd"
  priority : Int := -10
  attachments : List Attachment := []
deriving DecidableEq

def Firewall.enabled (fw : Firewall) : Family → Bool
  | .ipv4 => fw.ipv4
  | .ipv6 => fw.ipv6

structure CrowdSec where
  enabled : Bool := false
deriving DecidableEq

/-! ## Sources -/

/-- `time.Duration`, in nanoseconds. -/
abbrev Duration := Int

def second : Duration := 1000000000

/-- `geo.country_provider`. -/
inductive CountryProvider where
  | unset
  | dbipLite
  | ripestat
  | other (text : String)
deriving DecidableEq

structure Geo where
  countryProvider : CountryProvider := .dbipLite
  refreshInterval : Duration := 86400 * second
  requestTimeout : Duration := 30 * second
  refreshJitter : Duration := 600 * second
deriving DecidableEq

/-- `EffectiveCountryProvider`: configurations older than the setting mean RIPEstat. -/
def Geo.effectiveCountryProvider (g : Geo) : CountryProvider :=
  if g.countryProvider = .unset then .ripestat else g.countryProvider

structure Providers where
  refreshInterval : Duration := 86400 * second
  requestTimeout : Duration := 30 * second
deriving DecidableEq

/-- A transport's `type`. The empty text and `direct` both mean the direct route. -/
inductive TransportType where
  | unset
  | direct
  | openziti
  | other (text : String)
deriving DecidableEq

structure Transport where
  type : TransportType := .unset
  identity : String := ""
  service : String := ""
deriving DecidableEq

/-- `config.CSVFilterConfig`. A `float64` is known by its shortest text, which no two of them
share. -/
structure CSVFilter where
  column : Int := 0
  op : String := ""
  value : String := "0"
deriving DecidableEq

structure CSV where
  delimiter : String := ""
  header : Bool := false
  ipColumn : Int := 0
  filter : CSVFilter := {}
deriving DecidableEq

structure IPList where
  url : String
  refreshInterval : Duration := 86400 * second
  requestTimeout : Duration := 30 * second
  transport : Transport := {}
  csv : CSV := {}
deriving DecidableEq

end Config

/-- `config.Config`. A map is kept as its list of entries. -/
structure Config where
  global : Config.Global := {}
  firewall : Config.Firewall := {}
  geo : Config.Geo := {}
  providers : Config.Providers := {}
  ipLists : List (String × Config.IPList) := []
  policies : List Config.Policy := []
  crowdsec : Config.CrowdSec := {}
deriving DecidableEq

end Perimeterd
