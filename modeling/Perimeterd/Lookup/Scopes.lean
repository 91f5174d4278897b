import Perimeterd.Lookup.Static

/-!
# Partitioning the ports

`trafficScopes` of `internal/lookup/evaluate.go`. The ports of a protocol are cut at every port where a
rule of the plan begins or ceases to match, so that a rule matches the whole of a span or nothing of
it (`scopeCovers_eq`), and a span can be answered at once. Protocols without ports are one scope.
-/

namespace Perimeterd.Lookup

open Lib Policy List

structure FlowScope where
  protocol : Protocol
  ports : Option Ports
deriving DecidableEq

/-- The port ranges a scope names for a protocol. -/
def Scope.ranges (scope : Policy.Scope) : Protocol → List PortRange
  | .udp => scope.udp
  | _ => scope.tcp

/-- Where the ports of one range begin and end. -/
def rangeBoundaries (range : PortRange) : List Port :=
  if range.stop < 65535 then [range.start, range.stop + 1] else [range.start]

/-- Every port at which some rule of a plan may change its mind. -/
def portBoundaries (plan : Option FamilyPlan) (protocol : Protocol) : List Port :=
  let rules := (plan.elim [] (·.paths)).flatMap (·.rules)
  0 :: (rules.filter fun rule => !rule.matching.traffic.any).flatMap fun rule =>
    (Scope.ranges rule.matching.traffic protocol).flatMap rangeBoundaries

/-- The spans between ascending boundaries. -/
def spans : List Port → List Ports
  | [] => []
  | [start] => [⟨start, 65535⟩]
  | start :: next :: rest => ⟨start, next - 1⟩ :: spans (next :: rest)

def protocolScopes (plan : Option FamilyPlan) (q : Query) (protocol : Protocol) : List FlowScope :=
  match q.port with
  | some port => [⟨protocol, some ⟨port, port⟩⟩]
  | none =>
      if !ported protocol then [⟨protocol, none⟩]
      else
        (spans (compact (sortSlice (fun a b => a < b) (portBoundaries plan protocol)))).map
          fun ports => ⟨protocol, some ports⟩

def trafficScopes (plan : Option FamilyPlan) (q : Query) : List FlowScope :=
  q.protocols.flatMap (protocolScopes plan q)

def portMatches (values : List PortRange) (ports : Option Ports) : Bool :=
  match ports with
  | none => !values.isEmpty
  | some ports => values.any fun v => v.start ≤ ports.start && ports.stop ≤ v.stop

def scopeCovers (value : Policy.Scope) (scope : FlowScope) : Bool :=
  value.any ||
    match scope.protocol with
    | .tcp => portMatches value.tcp scope.ports
    | .udp => portMatches value.udp scope.ports
    | .icmp => value.icmp
    | .other => false

/-! ## Spans -/

variable {port start : Port} {rest : List Port}

theorem compact_strict {α : Type} [LinearOrder α] :
    ∀ {l : List α}, l.Pairwise (· ≤ ·) → (compact l).Pairwise (· < ·)
  | [], _ => .nil
  | [_], _ => pairwise_singleton _ _
  | a :: b :: rest, h => by
    obtain ⟨hh, hta⟩ := pairwise_cons.mp h
    have ih := compact_strict hta
    rw [compact]
    split
    · exact ih
    case isFalse hne =>
      refine pairwise_cons.mpr ⟨fun c hc => ?_, ih⟩
      have hab : a < b := lt_of_le_of_ne (hh b mem_cons_self) hne
      rcases mem_cons.mp (mem_compact.mp hc) with rfl | hc
      · exact hab
      · exact lt_of_lt_of_le hab ((pairwise_cons.mp hta).1 c hc)

theorem sorted_boundaries (vs : List Port) :
    ∃ rest, compact (sortSlice (fun a b => decide (a < b)) (0 :: vs)) = 0 :: rest ∧
      (0 :: rest).Pairwise (· < ·) := by
  have hst := compact_strict (sortSlice_sorted id (fun a b : Port => decide_eq_true_iff (p := a < b)) (0 :: vs))
  have hz : (0 : Port) ∈ compact (sortSlice (fun a b => decide (a < b)) (0 :: vs)) := by simp
  cases hl : compact (sortSlice (fun a b => decide (a < b)) (0 :: vs)) with
  | nil => simp [hl] at hz
  | cons first rest =>
    rw [hl] at hst hz
    -- zero is in the list and nothing is below it, so it comes first
    obtain rfl : first = 0 := by
      rcases mem_cons.mp hz with h | h
      · exact h.symm
      · exact absurd ((pairwise_cons.mp hst).1 0 h) (by simp)
    exact ⟨rest, rfl, hst⟩

theorem Ports.holds_iff {p : Ports} : p.holds port = true ↔ p.start ≤ port ∧ port ≤ p.stop := by
  simp [Ports.holds]

theorem le_pred_iff {next : Port} (h : start < next) : port ≤ next - 1 ↔ port < next := by
  have hp : next ≠ 0 := Fin.ne_of_gt (lt_of_le_of_lt (Fin.zero_le _) h)
  have hva := Fin.val_sub_one_of_ne_zero hp
  rw [Fin.lt_def] at h
  rw [Fin.le_def, Fin.lt_def, hva]
  omega

/-- Spans between ascending boundaries. -/
structure Spanned (start : Port) (rest : List Port) (l : List Ports) : Prop where
  cover : ∀ port, start ≤ port → ∃ span ∈ l, span.holds port = true
  ordered : ∀ span ∈ l, start ≤ span.start ∧ span.start ≤ span.stop
  separate : l.Pairwise fun s t => s.stop < t.start
  /-- No boundary lies behind the start of a span. -/
  whole : ∀ span ∈ l, ∀ port, span.holds port = true →
    ∀ b ∈ start :: rest, b ≤ port ↔ b ≤ span.start

theorem spans_spec (h : (start :: rest).Pairwise (· < ·)) :
    Spanned start rest (spans (start :: rest)) := by
  induction rest generalizing start with
  | nil =>
    have hmax : ∀ port : Port, port ≤ 65535 := fun port => Fin.le_last port
    refine ⟨fun port hp => ?_, ?_, pairwise_singleton _ _, ?_⟩
    · exact ⟨_, mem_singleton_self _, Ports.holds_iff.mpr ⟨hp, hmax port⟩⟩
    · simpa [spans] using hmax start
    · simp only [spans, mem_singleton, forall_eq, le_refl, iff_true]
      exact fun port hp => (Ports.holds_iff.mp hp).1
  | cons next rest ih =>
    obtain ⟨hhe, hta⟩ := pairwise_cons.mp h
    have hlt := hhe next mem_cons_self
    have ih := ih hta
    refine ⟨fun port hp => ?_, ?_, ?_, ?_⟩
    · rcases lt_or_ge port next with hbe | haf
      · exact ⟨_, mem_cons_self, Ports.holds_iff.mpr ⟨hp, (le_pred_iff hlt).mpr hbe⟩⟩
      · obtain ⟨span, hsp, hh⟩ := ih.cover port haf
        exact ⟨span, mem_cons_of_mem _ hsp, hh⟩
    · rw [spans, forall_mem_cons]
      refine ⟨⟨le_refl _, (le_pred_iff hlt).mpr hlt⟩, fun span hsp => ?_⟩
      obtain ⟨hst, hsto⟩ := ih.ordered span hsp
      exact ⟨le_trans hlt.le hst, hsto⟩
    · rw [spans, pairwise_cons]
      refine ⟨fun span hsp => ?_, ih.separate⟩
      exact lt_of_lt_of_le ((le_pred_iff hlt).mp le_rfl) (ih.ordered span hsp).1
    · rw [spans, forall_mem_cons]
      refine ⟨fun port hp => ?_, fun span hsp port hp => ?_⟩
      · obtain ⟨hge, hle⟩ := Ports.holds_iff.mp hp
        rw [forall_mem_cons]
        refine ⟨iff_of_true hge le_rfl, fun b hb => ?_⟩
        -- every later boundary is past the span
        have hne : next ≤ b := by
          rcases mem_cons.mp hb with rfl | hb
          · exact le_rfl
          · exact ((pairwise_cons.mp hta).1 b hb).le
        refine iff_of_false (not_le.mpr ?_) (not_le.mpr (lt_of_lt_of_le hlt hne))
        exact lt_of_lt_of_le ((le_pred_iff hlt).mp hle) hne
      · obtain ⟨hst, -⟩ := ih.ordered span hsp
        rw [forall_mem_cons]
        refine ⟨iff_of_true ?_ (le_trans hlt.le hst), ih.whole span hsp port hp⟩
        exact le_trans hlt.le (le_trans hst (Ports.holds_iff.mp hp).1)

theorem Spanned.unique {l : List Ports} (h : Spanned start rest l)
    {s t : Ports} (hs : s ∈ l) (ht : t ∈ l) (hsp : s.holds port = true)
    (htp : t.holds port = true) : s = t := by
  by_contra hne
  have hsy : Std.Symm fun s t : Ports => ¬ (s.holds port = true ∧ t.holds port = true) :=
    ⟨fun _ _ hst hts => hst hts.symm⟩
  have hal : l.Pairwise fun s t => ¬ (s.holds port = true ∧ t.holds port = true) := by
    refine h.separate.imp fun {s t} hst hbo => ?_
    have hsto := (Ports.holds_iff.mp hbo.1).2
    have hsta := (Ports.holds_iff.mp hbo.2).1
    exact absurd (lt_of_le_of_lt hsto (lt_of_lt_of_le hst hsta)) (lt_irrefl _)
  exact hal.forall hs ht hne ⟨hsp, htp⟩

/-! ## Scopes -/

def FlowScope.holds (scope : FlowScope) (port : Port) : Bool := scope.ports.all (·.holds port)

section Scopes

variable {plan : Option FamilyPlan} {q : Query} {protocol : Protocol} {s : FlowScope}

theorem protocolScopes_ported (plan : Option FamilyPlan) (hpo : q.port = none) (hp : ported protocol = true) :
    ∃ rest l, protocolScopes plan q protocol = l.map (fun ports => ⟨protocol, some ports⟩) ∧
      (∀ b, b ∈ portBoundaries plan protocol → b ∈ 0 :: rest) ∧ Spanned 0 rest l := by
  obtain ⟨rest, hrest, hst⟩ := sorted_boundaries (portBoundaries plan protocol).tail
  have hbo : compact (sortSlice (fun a b => decide (a < b)) (portBoundaries plan protocol)) =
      0 :: rest := hrest
  refine ⟨rest, spans (0 :: rest), ?_, fun b hb => ?_, spans_spec hst⟩
  · rw [protocolScopes, hpo]
    simp only [hp, Bool.not_true, Bool.false_eq_true, if_false, hbo]
  · rw [← hbo]
    simpa using hb

/-- **Every port in scope is in one scope of its protocol.** -/
theorem protocolScopes_cover (plan : Option FamilyPlan) {port : Port} (hsc : q.InScope protocol port) :
    ∃ scope ∈ protocolScopes plan q protocol, scope.holds port = true := by
  cases hp : q.port with
  | some p =>
    obtain rfl : port = p := by simpa [Query.InScope, hp] using hsc
    exact ⟨⟨protocol, some ⟨port, port⟩⟩, by simp [protocolScopes, hp], by
      simp [FlowScope.holds, Ports.holds]⟩
  | none =>
    cases hpo : ported protocol with
    | false => exact ⟨⟨protocol, none⟩, by simp [protocolScopes, hp, hpo], rfl⟩
    | true =>
      obtain ⟨rest, l, hl, -, hsp⟩ := protocolScopes_ported plan hp hpo
      obtain ⟨span, hin, hh⟩ := hsp.cover port (Fin.zero_le _)
      exact ⟨⟨protocol, some span⟩, hl ▸ mem_map_of_mem hin, hh⟩

theorem protocolScopes_unique {t : FlowScope} (hs : s ∈ protocolScopes plan q protocol)
    (ht : t ∈ protocolScopes plan q protocol) {port : Port} (hsp : s.holds port = true)
    (htp : t.holds port = true) : s = t := by
  cases hpo : q.port with
  | some p =>
    simp only [protocolScopes, hpo, mem_singleton] at hs ht
    rw [hs, ht]
  | none =>
    cases hp : ported protocol with
    | false =>
      simp only [protocolScopes, hpo, hp, Bool.not_false, if_true, mem_singleton] at hs ht
      rw [hs, ht]
    | true =>
      obtain ⟨rest, l, hl, -, hspa⟩ := protocolScopes_ported plan hpo hp
      rw [hl, mem_map] at hs ht
      obtain ⟨a, ha, rfl⟩ := hs
      obtain ⟨b, hb, rfl⟩ := ht
      rw [hspa.unique ha hb hsp htp]

theorem protocolScopes_protocol (hs : s ∈ protocolScopes plan q protocol) :
    s.protocol = protocol := by
  unfold protocolScopes at hs
  split at hs
  · rw [mem_singleton.mp hs]
  · split at hs
    · rw [mem_singleton.mp hs]
    · obtain ⟨ports, -, rfl⟩ := mem_map.mp hs
      rfl

theorem protocolScopes_inhabited (hs : s ∈ protocolScopes plan q protocol) :
    ∃ port, s.holds port = true ∧ q.InScope protocol port := by
  cases hp : q.port with
  | some p =>
    simp only [protocolScopes, hp, mem_singleton] at hs
    rw [hs]
    exact ⟨p, by simp [FlowScope.holds, Ports.holds], by simp [Query.InScope, hp]⟩
  | none =>
    cases hpo : ported protocol with
    | false =>
      simp only [protocolScopes, hp, hpo, Bool.not_false, if_true, mem_singleton] at hs
      rw [hs]
      exact ⟨0, rfl, by simp [Query.InScope, hp]⟩
    | true =>
      obtain ⟨rest, l, hl, -, hsp⟩ := protocolScopes_ported plan hp hpo
      rw [hl, mem_map] at hs
      obtain ⟨span, hin, rfl⟩ := hs
      refine ⟨span.start, ?_, by simp [Query.InScope, hp, hpo]⟩
      exact Ports.holds_iff.mpr ⟨le_rfl, (hsp.ordered span hin).2⟩

theorem protocolScopes_form (hpr : protocol ∈ q.protocols)
    (hs : s ∈ protocolScopes plan q protocol) :
    (if ported protocol then ∃ p, s.ports = some p ∧ p.start ≤ p.stop else s.ports = none) ∧
      ∀ p, q.port = some p → ∀ port, s.holds port = true → port = p := by
  cases hpo : q.port with
  | some p =>
    obtain ⟨asked, hask, hp⟩ := q.portProtocol (by rw [hpo]; nofun)
    have hsa : protocol = asked := by
      rw [Query.protocols, hask] at hpr
      exact mem_singleton.mp hpr
    simp only [protocolScopes, hpo, mem_singleton] at hs
    subst hs
    rw [hsa, if_pos hp]
    refine ⟨⟨⟨p, p⟩, rfl, le_rfl⟩, fun r hr port hh => ?_⟩
    cases hr
    simp only [FlowScope.holds, Option.all_some, Ports.holds, Bool.and_eq_true, decide_eq_true_eq]
      at hh
    exact le_antisymm hh.2 hh.1
  | none =>
    refine ⟨?_, nofun⟩
    cases hp : ported protocol with
    | false =>
      simp only [protocolScopes, hpo, hp, Bool.not_false, if_true, mem_singleton] at hs
      rw [hs]
      rfl
    | true =>
      obtain ⟨rest, l, hl, -, hsp⟩ := protocolScopes_ported plan hpo hp
      rw [hl] at hs
      obtain ⟨span, hspa, rfl⟩ := mem_map.mp hs
      exact ⟨span, rfl, (hsp.ordered span hspa).2⟩

theorem mem_trafficScopes :
    s ∈ trafficScopes plan q ↔ s.protocol ∈ q.protocols ∧ s ∈ protocolScopes plan q s.protocol := by
  rw [trafficScopes, mem_flatMap]
  constructor
  · rintro ⟨protocol, hin, hs⟩
    rw [protocolScopes_protocol hs]
    exact ⟨hin, hs⟩
  · rintro ⟨hin, hs⟩
    exact ⟨s.protocol, hin, hs⟩

end Scopes

/-! ## A scope is whole for every rule -/

theorem range_whole {l : List Ports} (h : Spanned start rest l)
    {span : Ports} (hsp : span ∈ l) (hp : span.holds port = true)
    {range : PortRange} (hra : ∀ b ∈ rangeBoundaries range, b ∈ start :: rest) :
    (range.start ≤ span.start && span.stop ≤ range.stop) =
      (range.start ≤ port && port ≤ range.stop) := by
  have hsto : span.holds span.stop = true := Ports.holds_iff.mpr ⟨(h.ordered span hsp).2, le_rfl⟩
  have hst : range.start ∈ rangeBoundaries range := by
    unfold rangeBoundaries
    split <;> simp
  have hlo := h.whole span hsp port hp _ (hra _ hst)
  have hh : span.stop ≤ range.stop ↔ port ≤ range.stop := by
    by_cases hl : range.stop < 65535
    · have hne : range.stop + 1 ∈ rangeBoundaries range := by simp [rangeBoundaries, hl]
      have hp := h.whole span hsp port hp _ (hra _ hne)
      have hen := h.whole span hsp span.stop hsto _ (hra _ hne)
      have hsu : ∀ x : Port, range.stop + 1 ≤ x ↔ range.stop < x := fun x => by
        rw [Fin.le_def, Fin.val_add_one_of_lt hl]
        rfl
      rw [hsu, hsu] at hp hen
      rw [← not_lt, ← not_lt, hp, hen]
    · have hmax : range.stop = 65535 := le_antisymm (Fin.le_last _) (not_lt.mp hl)
      rw [hmax]
      exact iff_of_true (Fin.le_last _) (Fin.le_last _)
  rw [Bool.eq_iff_iff]
  simp only [Bool.and_eq_true, decide_eq_true_eq]
  exact and_congr hlo.symm hh

theorem portMatches_eq {l : List Ports} (h : Spanned start rest l)
    {span : Ports} (hsp : span ∈ l) (hp : span.holds port = true) {vs : List PortRange}
    (hva : ∀ range ∈ vs, ∀ b ∈ rangeBoundaries range, b ∈ start :: rest) :
    portMatches vs (some span) = portInRanges vs port := by
  unfold portMatches portInRanges
  rw [Bool.eq_iff_iff, any_eq_true, any_eq_true]
  refine exists_congr fun range => and_congr_right fun hin => ?_
  rw [range_whole h hsp hp (hva range hin)]

/-- **A rule matches the whole of a scope or nothing of it.** -/
theorem scopeCovers_eq {plan : FamilyPlan} {q : Query} {scope : FlowScope} {protocol : Protocol}
    (hs : scope ∈ protocolScopes (some plan) q protocol)
    (hp : scope.holds port = true) {path : Path} (hpa : path ∈ plan.paths) {rule : Rule}
    (hru : rule ∈ path.rules) :
    scopeCovers rule.matching.traffic scope = scopeMatches rule.matching.traffic protocol port := by
  have hpr := protocolScopes_protocol hs
  unfold scopeCovers scopeMatches
  rw [hpr]
  cases han : rule.matching.traffic.any with
  | true => rfl
  | false =>
    rw [Bool.false_or, Bool.false_or]
    -- the two protocols with ports differ in the ranges they read
    have hra : ported protocol = true →
        portMatches (Scope.ranges rule.matching.traffic protocol) scope.ports =
          portInRanges (Scope.ranges rule.matching.traffic protocol) port := by
      intro hpo
      cases hq : q.port with
      | some p =>
        simp only [protocolScopes, hq, mem_singleton] at hs
        rw [hs] at hp ⊢
        obtain ⟨hge, hle⟩ := Ports.holds_iff.mp hp
        obtain rfl : port = p := le_antisymm hle hge
        rfl
      | none =>
        obtain ⟨rest, l, hl, hbo, hsp⟩ := protocolScopes_ported (some plan) hq hpo
        rw [hl, mem_map] at hs
        obtain ⟨span, hin, rfl⟩ := hs
        refine portMatches_eq hsp hin hp fun range hran b hb => hbo b ?_
        refine mem_cons_of_mem _ (mem_flatMap.mpr ⟨rule, ?_, ?_⟩)
        · rw [mem_filter, han]
          exact ⟨mem_flatMap.mpr ⟨path, hpa, hru⟩, rfl⟩
        · exact mem_flatMap.mpr ⟨range, hran, hb⟩
    cases protocol with
    | tcp | udp => exact hra rfl
    | icmp | other => rfl

end Perimeterd.Lookup
