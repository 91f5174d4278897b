import Perimeterd.Config.Catalog
import Perimeterd.Config.Types
import Perimeterd.Lib.Interval
import Perimeterd.Lib.Result

/-!
# The traffic of a policy

`normalizeTraffic` of `internal/config/normalize.go`: the entries of a policy's `traffic` list become a
scope. A port is decimal and not zero, a range does not run backwards, and ranges that touch are merged
into one, so the ranges of a normalized scope are ranges (`normalizeTraffic_ranges`).
-/

namespace Perimeterd.Config

open Lib List

def split (sep : Char) : List Char → List (List Char)
  | [] => [[]]
  | c :: rest =>
      if c = sep then [] :: split sep rest
      else
        match split sep rest with
        | [] => [[c]]
        | part :: parts => (c :: part) :: parts

def decimalPort (value : List Char) : Option Port :=
  if value = [] then none
  else if value.all Char.isDigit = false then none
  else if h : Catalog.decimal value < 65536 then
    if Catalog.decimal value = 0 then none else some ⟨Catalog.decimal value, h⟩
  else none

def parsePortRange (value : List Char) : Option PortRange :=
  match split '-' value with
  | [first] => (decimalPort first).map fun start => ⟨start, start⟩
  | [first, last] =>
      (decimalPort first).bind fun start =>
        (decimalPort last).bind fun stop => if stop < start then none else some ⟨start, stop⟩
  | _ => none

/-- The order `mergePortRanges` sorts by. -/
def PortRange.less (a b : PortRange) : Bool :=
  if a.start ≠ b.start then a.start < b.start else a.stop < b.stop

/-- The loop of `mergePortRanges`; `last` is the range at the end of the result. -/
def mergeRanges (last : PortRange) : List PortRange → List PortRange
  | [] => [last]
  | next :: rest =>
      if next.start.val ≤ last.stop.val + 1 then
        mergeRanges (if last.stop < next.stop then { last with stop := next.stop } else last) rest
      else last :: mergeRanges next rest

def mergePortRanges (values : List PortRange) : List PortRange :=
  match sortSlice PortRange.less values with
  | [] => []
  | first :: rest => mergeRanges first rest

inductive PortProtocol where
  | tcp
  | udp
deriving DecidableEq

/-- One entry of a traffic list. -/
inductive TrafficEntry where
  | any
  | icmp
  | icmpv6
  | ports (transport : PortProtocol) (range : PortRange)

/-- The transport and the ports of an entry; without a slash it means TCP. -/
def splitTransport (field : String) (value : List Char) : Except String (PortProtocol × List Char) :=
  if '/' ∈ value then
    match split '/' value with
    | [ports, transport] =>
        if transport = ['t', 'c', 'p'] then .ok (.tcp, ports)
        else if transport = ['u', 'd', 'p'] then .ok (.udp, ports)
        else .error (field ++ ": invalid transport")
    | _ => .error (field ++ ": invalid transport")
  else .ok (.tcp, value)

/-- The body of the loop of `normalizeTraffic`; `alone` says whether there is only this entry. -/
def trafficEntry (alone : Bool) (field value : String) : Except String TrafficEntry :=
  if value = "any" then
    if alone then .ok .any else .error (field ++ ": any must be the only entry")
  else if value = "icmp" then .ok .icmp
  else if value = "icmpv6" then .ok .icmpv6
  else do
    let (transport, ports) ← splitTransport field value.toList
    match parsePortRange ports with
    | none => throw (field ++ ": expected decimal port 1-65535 or inclusive range")
    | some range => return .ports transport range

def TrafficScope.add (scope : TrafficScope) : TrafficEntry → TrafficScope
  | .any => { scope with any := true }
  | .icmp => { scope with icmp := true }
  | .icmpv6 => { scope with icmpv6 := true }
  | .ports .tcp range => { scope with tcp := scope.tcp ++ [range] }
  | .ports .udp range => { scope with udp := scope.udp ++ [range] }

/-- The loop of `normalizeTraffic`; `i` is the entry's position. -/
def trafficLoop (alone : Bool) (policy : String) :
    Nat → TrafficScope → List String → Except String TrafficScope
  | _, scope, [] => .ok scope
  | i, scope, value :: rest => do
      let entry ← trafficEntry alone s!"policy {policy}.traffic[{i}]" value
      trafficLoop alone policy (i + 1) (scope.add entry) rest

def normalizeTraffic (values : List String) (policy : String) : Except String TrafficScope := do
  let scope ← trafficLoop (values.length = 1) policy 0 {} values
  return { scope with tcp := mergePortRanges scope.tcp, udp := mergePortRanges scope.udp }

/-! ## Ranges stay ranges -/

/-- A range of ports: it starts behind zero and does not run backwards. -/
def PortRange.Proper (r : PortRange) : Prop := r.start ≠ 0 ∧ r.start ≤ r.stop

theorem decimalPort_ne_zero {v : List Char} {port : Port} (h : decimalPort v = some port) :
    port ≠ 0 := by
  unfold decimalPort at h
  split at h
  · cases h
  split at h
  · cases h
  split at h
  · split at h
    · cases h
    case isFalse hne =>
      cases h
      exact fun hz => hne (Fin.mk.inj_iff.mp hz)
  · cases h

theorem parsePortRange_proper {v : List Char} {r : PortRange}
    (h : parsePortRange v = some r) : r.Proper := by
  unfold parsePortRange at h
  split at h
  case h_1 =>
    obtain ⟨start, hst, rfl⟩ := Option.map_eq_some_iff.mp h
    exact ⟨decimalPort_ne_zero hst, le_rfl⟩
  case h_2 =>
    obtain ⟨start, hst, h⟩ := Option.bind_eq_some_iff.mp h
    obtain ⟨stop, -, h⟩ := Option.bind_eq_some_iff.mp h
    split at h
    · cases h
    case isFalse hle =>
      cases h
      exact ⟨decimalPort_ne_zero hst, not_lt.mp hle⟩
  case h_3 => cases h

theorem mergeRanges_proper : ∀ {vs : List PortRange} {last : PortRange}, last.Proper →
    (∀ r ∈ vs, r.Proper) → ∀ r ∈ mergeRanges last vs, r.Proper := by
  intro vs
  induction vs with
  | nil =>
    intro last hl _ r hr
    rw [mem_singleton.mp hr]
    exact hl
  | cons next rest ih =>
    intro last hl hva
    rw [forall_mem_cons] at hva
    rw [mergeRanges]
    split
    · refine ih ?_ hva.2
      split
      case isTrue hlt => exact ⟨hl.1, hl.2.trans hlt.le⟩
      case isFalse => exact hl
    · exact forall_mem_cons.mpr ⟨hl, ih hva.1 hva.2⟩

theorem mergePortRanges_proper {vs : List PortRange} (h : ∀ r ∈ vs, r.Proper) :
    ∀ r ∈ mergePortRanges vs, r.Proper := by
  have hso : ∀ r ∈ sortSlice PortRange.less vs, r.Proper := fun r hr => h r (mem_sortSlice.mp hr)
  unfold mergePortRanges
  split
  · nofun
  case h_2 first rest heq =>
    rw [heq, forall_mem_cons] at hso
    exact mergeRanges_proper hso.1 hso.2

def TrafficScope.Proper (scope : TrafficScope) : Prop :=
  (∀ r ∈ scope.tcp, r.Proper) ∧ ∀ r ∈ scope.udp, r.Proper

theorem trafficEntry_proper {alone : Bool} {field v : String} {entry : TrafficEntry}
    (h : trafficEntry alone field v = .ok entry) {scope : TrafficScope} (hsc : scope.Proper) :
    (scope.add entry).Proper := by
  unfold trafficEntry at h
  split at h
  · split at h
    · cases h
      exact hsc
    · cases h
  split at h
  · cases h
    exact hsc
  split at h
  · cases h
    exact hsc
  obtain ⟨⟨transport, ports⟩, -, h⟩ := bind_eq_ok.mp h
  cases hp : parsePortRange ports with
  | none => simp only [hp] at h; cases h
  | some range =>
    simp only [hp] at h
    obtain rfl := pure_eq_ok.mp h
    have hl : ∀ r ∈ [range], r.Proper := by
      intro r hr
      rw [mem_singleton.mp hr]
      exact parsePortRange_proper hp
    cases transport with
    | tcp => exact ⟨forall_mem_append.mpr ⟨hsc.1, hl⟩, hsc.2⟩
    | udp => exact ⟨hsc.1, forall_mem_append.mpr ⟨hsc.2, hl⟩⟩

theorem trafficLoop_proper {alone : Bool} {policy : String} {vs : List String} :
    ∀ {i : Nat} {scope result : TrafficScope}, trafficLoop alone policy i scope vs = .ok result →
      scope.Proper → result.Proper := by
  induction vs with
  | nil =>
    intro i scope result h hsc
    cases h
    exact hsc
  | cons value rest ih =>
    intro i scope result h hsc
    obtain ⟨entry, hen, h⟩ := bind_eq_ok.mp h
    exact ih h (trafficEntry_proper hen hsc)

/-- **The ranges of a normalized scope are ranges.** -/
theorem normalizeTraffic_ranges {vs : List String} {policy : String} {scope : TrafficScope}
    (h : normalizeTraffic vs policy = .ok scope) : scope.Proper := by
  obtain ⟨raw, hra, h⟩ := bind_eq_ok.mp h
  obtain rfl := pure_eq_ok.mp h
  have hp := trafficLoop_proper hra ⟨by simp, by simp⟩
  exact ⟨mergePortRanges_proper hp.1, mergePortRanges_proper hp.2⟩

/-! ## The canonical form of port ranges -/

def PortRange.interval (r : PortRange) : Interval := ⟨r.start, r.stop⟩

theorem interval_injective : Function.Injective PortRange.interval := by
  rintro ⟨a, b⟩ ⟨c, d⟩ h
  simpa [PortRange.interval, Fin.ext_iff] using h

theorem holds_interval {rs : List PortRange} {p : Port} :
    Interval.Holds (rs.map PortRange.interval) p ↔ ∃ r ∈ rs, r.start ≤ p ∧ p ≤ r.stop := by
  simp [Interval.Holds, PortRange.interval]

theorem merge_interval (vs : List PortRange) :
    (mergePortRanges vs).map PortRange.interval = Interval.merge (vs.map PortRange.interval) := by
  have hby : mergePortRanges vs = Interval.mergeBy PortRange.less mergeRanges vs := by
    rw [mergePortRanges, Interval.mergeBy]
    cases sortSlice PortRange.less vs <;> rfl
  rw [hby]
  refine Interval.mergeBy_map PortRange.interval _ mergeRanges ?_ (fun _ => rfl)
    (fun a b l => ⟨_, ?_, rfl⟩) vs
  · simp [PortRange.less, Interval.less, PortRange.interval, Fin.ext_iff]
  · rw [apply_ite PortRange.interval]
    rfl

/-- **Merging is canonical**: in order, with a gap between neighbours, the same ports, and the same
result for every list of the same ranges. -/
theorem mergePortRanges_canonical {values : List PortRange} (h : ∀ r ∈ values, r.start ≤ r.stop) :
    (∀ r ∈ mergePortRanges values, r.start ≤ r.stop) ∧
      (mergePortRanges values).Pairwise (fun a b => a.stop.val + 1 < b.start.val) ∧
      (∀ p : Port, (∃ r ∈ mergePortRanges values, r.start ≤ p ∧ p ≤ r.stop) ↔
        ∃ r ∈ values, r.start ≤ p ∧ p ≤ r.stop) ∧
      ∀ values', (∀ r, r ∈ values' ↔ r ∈ values) →
        mergePortRanges values' = mergePortRanges values := by
  have hp : ∀ a ∈ values.map PortRange.interval, a.lo ≤ a.hi := forall_mem_map.mpr h
  obtain ⟨ha, hc⟩ := Interval.merge_spec hp
  rw [← merge_interval] at ha hc
  refine ⟨forall_mem_map.mp ha.proper, pairwise_map.mp ha.gaps, fun p => ?_,
    fun vs hmem => ?_⟩
  · rw [← holds_interval, hc, holds_interval]
  · refine map_injective_iff.mpr interval_injective ?_
    rw [merge_interval, merge_interval, Interval.merge_eq_iff ?_ hp]
    · exact fun x => by simp [Interval.Holds, hmem]
    · exact forall_mem_map.mpr fun r hr => h r ((hmem r).mp hr)

theorem mergePortRanges_canonical_sample :
    mergePortRanges [⟨443, 443⟩, ⟨1, 65535⟩] = [⟨1, 65535⟩] ∧
      mergePortRanges [⟨1, 65535⟩, ⟨443, 443⟩, ⟨443, 443⟩] =
        mergePortRanges [⟨443, 443⟩, ⟨1, 65535⟩] :=
  ⟨by decide, (mergePortRanges_canonical (by decide)).2.2.2 _ (by simp; tauto)⟩

end Perimeterd.Config
