import Perimeterd.State.Content
import Perimeterd.State.Wire

/-!
# Stored revisions in the other modules' types

`State.Wire` has Go's values as they are stored: strings are bytes, an enumeration is its text and a
`nil` is told apart from an empty slice. The compiler and the checks of a target are modelled over
types that cannot hold a malformed identity, family or action. This module leads from the former to
the latter, so that a stored revision is put to the checks that are proved about elsewhere and not to
a stand-in.

A configuration has a counterpart whatever it holds: unknown words have a constructor of their own. A
target may have none, and then `ValidateTarget` refuses it: its enumerations and identities are all
checked there. Strings become the texts they spell; a configuration is read from YAML, which is text
throughout, so the one string that may spell none is the path, and no check reads it.
-/

namespace Perimeterd.State.Wire

open Lib

def codePoint : Bytes → Nat
  | [] => 0
  | [a] => a.toNat
  | a :: rest => rest.foldl (fun n b => n * 64 + b.toNat % 64) (a.toNat % 2 ^ (6 - rest.length))

def text (s : Bytes) : String :=
  String.ofList ((Utf8.split s).map fun
    | .rune r => Char.ofNat (codePoint r.bytes)
    | .bad _ => Char.ofNat 0xFFFD)

def texts (ss : Option (List Bytes)) : List String := (ss.getD []).map text

/-- The meaning of a word, if it has one. -/
def word? {α : Type} (words : List (String × α)) (s : Bytes) : Option α :=
  (words.find? fun w => ascii w.1 = s).map (·.2)

def word {α : Type} (words : List (String × α)) (other : String → α) (s : Bytes) : α :=
  (word? words s).getD (other (text s))

/-! ## Configurations -/

def direction : Bytes → Config.Direction :=
  word [("ingress", .ingress), ("egress", .egress)] .other

def PortRange.view (p : PortRange) : Config.PortRange := ⟨p.start.toFin, p.stop.toFin⟩

def TrafficScope.view (t : TrafficScope) : Config.TrafficScope where
  tcp := (t.tcp.getD []).map PortRange.view
  udp := (t.udp.getD []).map PortRange.view
  icmp := t.icmp
  icmpv6 := t.icmpv6
  any := t.any

def Selector.view (s : Selector) : Config.Selector :=
  ⟨texts s.countries, texts s.rirs, texts s.groups, texts s.asns, texts s.ipLists, texts s.providers,
    texts s.expandedCountries⟩

def Policy.view (p : Policy) : Config.Policy where
  name := text p.name
  priority := p.priority.toInt
  direction := Wire.direction p.direction
  mode := word [("allowlist", .allowlist), ("blocklist", .blocklist), ("disabled", .disabled)] .other
    p.mode
  traffic := p.traffic.view
  included := p.included.view
  excluded := p.excluded.view

def Attachment.view (a : Attachment) : Config.Attachment where
  chain := text a.chain
  direction := Wire.direction a.direction
  inputInterfaces := texts a.inputInterfaces
  outputInterfaces := texts a.outputInterfaces
  originalDestination := a.originalDestination

def Firewall.view (f : Firewall) : Config.Firewall where
  backend := word [("nftables", .nftables), ("iptables", .iptables)] .other f.backend
  denyAction := word [("drop", .drop), ("reject", .reject)] .other f.denyAction
  ipv4 := f.ipv4
  ipv6 := f.ipv6
  table := text f.nftables.table
  priority := f.nftables.priority.toInt
  attachments := (f.iptables.attachments.getD []).map Attachment.view

def Geo.view (g : Geo) : Config.Geo where
  countryProvider :=
    word [("", .unset), ("dbip-lite", .dbipLite), ("ripestat", .ripestat)] .other g.countryProvider
  refreshInterval := g.refreshInterval.toInt
  requestTimeout := g.requestTimeout.toInt
  refreshJitter := g.refreshJitter.toInt

/-- The zero prefix has no place among the prefixes, but a configuration may hold it. -/
def netips (ps : Option (List (Option Prefix))) : List NetipPrefix :=
  (ps.getD []).map fun p => p.elim .zero .valid

section View

variable {φ : Type} (forms : Forms φ)

/-- A float is known by its shortest text. -/
def floatText (f : φ) : String := ((forms.floatText f).map fun n => text n.text).getD ""

def CSV.view (c : CSV φ) : Config.CSV where
  delimiter := text c.delimiter
  header := c.header
  ipColumn := c.ipColumn.toInt
  filter := ⟨c.filter.column.toInt, text c.filter.op, floatText forms c.filter.value⟩

def IPList.view (l : IPList φ) : Config.IPList where
  url := text l.url
  refreshInterval := l.refreshInterval.toInt
  requestTimeout := l.requestTimeout.toInt
  transport :=
    { type := word [("", .unset), ("direct", .direct), ("openziti", .openziti)] .other l.transport.type
      identity := text l.transport.identity
      service := text l.transport.service }
  csv := l.csv.view forms

def Config.view (c : Config φ) : Perimeterd.Config where
  global := ⟨netips c.global.allowlist, netips c.global.blocklist⟩
  firewall := c.firewall.view
  geo := c.geo.view
  providers := ⟨c.providers.refreshInterval.toInt, c.providers.requestTimeout.toInt⟩
  ipLists := (c.ipLists.elim [] (·.entries)).map fun e => (text e.1, e.2.view forms)
  policies := (c.policies.getD []).map Policy.view
  crowdsec := ⟨c.crowdsec.enabled⟩

end View

/-! ## Targets -/

/-- An identity of `n` hexadecimal characters. -/
def identity? (n : Nat) (s : Bytes) : Option (BitVec (4 * n)) :=
  if s.length = n ∧ s.all (fun a => (0x30 ≤ a && a ≤ 0x39) || (0x61 ≤ a && a ≤ 0x66)) then
    (Codec.each Json.hexValue s).map fun ds => BitVec.ofNat _ (ds.foldl (fun v d => v * 16 + d) 0)
  else none

def family? (f : UInt8) : Option Family :=
  if f = 4 then some .ipv4 else if f = 6 then some .ipv6 else none

def action? : Bytes → Option Perimeterd.Policy.Action :=
  word? [("return", .ret), ("drop", .drop), ("reject", .reject)]

def direction? : Bytes → Option Perimeterd.Policy.Direction :=
  word? [("ingress", .ingress), ("egress", .egress)]

/-- A counter role; the zero value is none. -/
def CounterRole.view? (c : CounterRole) : Option (Option Perimeterd.Policy.CounterRole) :=
  if c.kind = [] ∧ c.reason = [] ∧ c.action = [] then some none
  else if c.kind = ascii "processed" ∧ c.reason = [] ∧ c.action = [] then some (some .processed)
  else if c.kind = ascii "denied" then do
    let reason ← word? [("global_blocklist", .globalBlocklist), ("crowdsec", .crowdsec),
      ("geo_policy", .geoPolicy)] c.reason
    let action ← action? c.action
    some (some (.denied reason action))
  else none

def Scope.view (s : Scope) : Perimeterd.Policy.Scope where
  any := s.any
  tcp := (s.tcp.getD []).map fun p => ⟨p.start.toFin, p.stop.toFin⟩
  udp := (s.udp.getD []).map fun p => ⟨p.start.toFin, p.stop.toFin⟩
  icmp := s.icmp

def Rule.view? (r : Rule) : Option Perimeterd.Policy.Rule := do
  let flow ← word? [("", none), ("established_related", some .establishedRelated),
    ("not_new", some .notNew)] r.matching.flow
  let action ← action? r.action
  let counter ← r.counter.view?
  some
    { matching := ⟨flow, text r.matching.setID, r.matching.negateSet, r.matching.traffic.view⟩
      action := action, policy := text r.policy, counter := counter }

def Path.view? (p : Path) : Option Perimeterd.Policy.Path := do
  let direction ← direction? p.direction
  let remote ← word? [("source", .source), ("destination", .destination)] p.remote
  let entry ← p.processed.view?.join
  let rules ← Codec.each Rule.view? (p.rules.getD [])
  some ⟨direction, remote, entry, rules⟩

def PrefixSet.view? (s : PrefixSet) : Option Perimeterd.Policy.PrefixSet := do
  let kind ← word? [("static", .static), ("crowdsec", .crowdsec)] s.kind
  let prefixes ← Codec.each (fun p => p) (s.prefixes.getD [])
  some ⟨text s.id, kind, prefixes⟩

def FamilyPlan.view? (f : FamilyPlan) : Option Perimeterd.Policy.FamilyPlan := do
  let family ← family? f.family
  let sets ← Codec.each PrefixSet.view? (f.sets.getD [])
  let paths ← Codec.each Path.view? (f.paths.getD [])
  some ⟨family, sets, paths⟩

/-- A counter whose name is the one its other fields make. -/
def CounterSpec.view? (owner : Perimeterd.Firewall.Id) (c : CounterSpec) :
    Option Perimeterd.Firewall.CounterSpec := do
  let family ← family? c.family
  let direction ← direction? c.direction
  let role ← c.role.view?.join
  let name : Perimeterd.Firewall.CounterName := ⟨owner, family, direction, role⟩
  if ascii name.text = c.name then some name.spec else none

def Target.view? (t : Target) : Option Perimeterd.Firewall.Target := do
  let owner ← identity? 32 t.owner
  let generation ← identity? 32 t.generation
  let families ← Codec.each FamilyPlan.view? (t.families.getD [])
  let counters ← Codec.each (CounterSpec.view? owner) (t.counters.getD [])
  let dynamic ← if t.dynamicGeneration = [] then some none
    else (identity? 32 t.dynamicGeneration).map some
  some
    { owner := owner, table := text t.table, priority := t.priority.toInt, generation := generation
      families := families, counters := counters
      iptables := t.iptables.map fun i => (i.attachments.getD []).map Attachment.view
      dynamicGeneration := dynamic }

end Perimeterd.State.Wire
