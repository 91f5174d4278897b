import Perimeterd.Lib.Result
import Perimeterd.Lib.Tiling
import Perimeterd.Lookup.Types

/-!
# The coverage check of an answer

`validateCoverage` of `internal/lookup/server.go`. Outcomes are checked one by one against the
query, sorted into groups of one direction and attachment, and compared with the earlier outcomes of
their group; then every group's outcomes of a protocol must have the volume of the query.

**The check accepts exactly the answers in canonical form that lie inside the query, speak for every
direction asked for, and cover each point of every group once** (`coverage_exact`). The pairwise
comparison and the volumes replace the points by `Lib.exact_cover_iff`; a point is a pair of an
address and a port, and a protocol without ports has one port.
-/

namespace Perimeterd.Lookup

open Lib Policy

/-! ## The check -/

def Attachment.complete (a : Attachment) : Bool :=
  (a.portBasis = .currentDestination || a.portBasis = .originalDestination) &&
    !(a.managed && a.name = "")

/-- The ports of an outcome: an interval for a protocol that has ports, nothing for one that does
not. -/
def checkPorts (q : Query) (o : Outcome) : Except String Unit :=
  if ported o.protocol then
    match o.ports with
    | none => .error "lookup outcome has invalid ports"
    | some p =>
        if p.stop < p.start then .error "lookup outcome has invalid ports"
        else
          match q.port with
          | none => .ok ()
          | some port =>
              if p.start ≠ port ∨ p.stop ≠ port then
                .error "lookup outcome extends outside the port scope"
              else .ok ()
  else if o.ports ≠ none then .error "lookup outcome has ports on a portless protocol"
  else .ok ()

def checkOutcome (q : Query) (o : Outcome) : Except String Unit :=
  if ¬ o.network.Masked ∨ o.network.bits < q.network.bits ∨
      q.network.contains o.network.addr = false then
    .error "lookup outcome extends outside the query"
  else if (q.direction ≠ none ∧ q.direction ≠ some o.direction) ∨
      (q.protocol ≠ none ∧ q.protocol ≠ some o.protocol) then
    .error "lookup outcome extends outside the traffic scope"
  else do
    checkPorts q o
    if ¬ o.attachment.complete then .error "lookup outcome has incomplete attachment coverage"
    else .ok ()

/-- Two outcomes of one group that share a point. Both have passed `checkOutcome`, so those of one
protocol both have ports or neither does. -/
def conflicts (previous o : Outcome) : Bool :=
  previous.protocol = o.protocol && previous.network.overlaps o.network &&
    match previous.ports, o.ports with
    | some p, some r => p.start ≤ r.stop && r.start ≤ p.stop
    | _, _ => true

structure ScopeGroup where
  direction : Direction
  attachment : Attachment
  outcomes : List Outcome

def ScopeGroup.owns (g : ScopeGroup) (o : Outcome) : Bool :=
  g.direction = o.direction && g.attachment = o.attachment

/-- An outcome joins the first group it belongs to, or starts one. -/
def joinGroup (o : Outcome) : List ScopeGroup → Except String (List ScopeGroup)
  | [] => .ok [⟨o.direction, o.attachment, [o]⟩]
  | g :: rest =>
      if g.owns o then
        if g.outcomes.any (conflicts · o) then .error "lookup outcomes overlap"
        else .ok ({ g with outcomes := g.outcomes ++ [o] } :: rest)
      else do
        let rest ← joinGroup o rest
        .ok (g :: rest)

def groupOutcomes (q : Query) : List Outcome → List ScopeGroup → Except String (List ScopeGroup)
  | [], groups => .ok groups
  | o :: rest, groups => do
      checkOutcome q o
      let groups ← joinGroup o groups
      groupOutcomes q rest groups

/-- The number of ports of an outcome, or of the query for a protocol. -/
def Outcome.width (o : Outcome) : Nat :=
  match o.ports with
  | none => 1
  | some p => p.stop.val - p.start.val + 1

def Query.width (q : Query) (protocol : Protocol) : Nat :=
  if q.port = none ∧ ported protocol = true then 65536 else 1

def Outcome.volume (o : Outcome) : Nat := o.width * 2 ^ o.network.host

def Query.volume (q : Query) (protocol : Protocol) : Nat := q.width protocol * 2 ^ q.network.host

def validateCoverage (q : Query) (outcomes : List Outcome) : Except String Unit := do
  let groups ← groupOutcomes q outcomes []
  if ¬ q.directions.all (fun d => groups.any (·.direction = d)) then
    .error "lookup response omitted a requested direction"
  else if ¬ groups.all (fun g => q.protocols.all fun protocol =>
      ((g.outcomes.filter (·.protocol = protocol)).map Outcome.volume).sum = q.volume protocol) then
    .error "lookup response omitted requested address or traffic coverage"
  else .ok ()

/-! ## What it means -/

/-- The canonical form: a masked network, and a port interval exactly where the protocol has ports. -/
def Outcome.Canonical (o : Outcome) : Prop :=
  o.network.Masked ∧
    if ported o.protocol then ∃ p, o.ports = some p ∧ p.start ≤ p.stop else o.ports = none

/-- The outcome speaks for nothing the query did not ask about. -/
structure Inside (q : Query) (o : Outcome) : Prop where
  address : ∀ a, o.network.contains a = true → q.network.contains a = true
  direction : ∀ d, q.direction = some d → o.direction = d
  protocol : ∀ p, q.protocol = some p → o.protocol = p
  port : ∀ p, q.port = some p → ∀ port, o.coversPort port = true → port = p

/-- How many outcomes of a group cover a point. -/
def coverCount (outcomes : List Outcome) (d : Direction) (at_ : Attachment) (a : Addr)
    (protocol : Protocol) (port : Port) : Nat :=
  outcomes.countP fun o => o.direction = d && o.attachment = at_ && o.covers a protocol port

/-- Each point asked about is covered once by every group that occurs. -/
def CoversOnce (q : Query) (outcomes : List Outcome) : Prop :=
  ∀ o ∈ outcomes, ∀ protocol ∈ q.protocols, ∀ a, q.network.contains a = true →
    ∀ port, q.InScope protocol port →
      coverCount outcomes o.direction o.attachment a protocol port = 1

/-! ## One outcome -/

variable {q : Query} {protocol : Protocol} {o : Outcome}

theorem block_subset_iff {p r : Prefix} :
    p.block ⊆ r.block ↔ ∀ a, p.contains a = true → r.contains a = true := by
  constructor
  · intro h a ha
    exact Prefix.contains_iff.mpr (h _ (Prefix.contains_iff.mp ha))
  · intro h x hx
    obtain ⟨a, rfl, ha⟩ := Prefix.addr_of_block hx
    exact Prefix.contains_iff.mp (h a ha)

theorem inside_network {p r : Prefix} (hf : p.addr.family = r.addr.family) :
    (¬ p.bits < r.bits ∧ r.contains p.addr = true) ↔
      ∀ a, p.contains a = true → r.contains a = true := by
  have hh : ¬ p.bits < r.bits ↔ p.host ≤ r.host := by
    have hp := p.le
    have hr := r.le
    unfold Prefix.host
    rw [hf] at hp ⊢
    omega
  rw [hh, ← block_subset_iff]
  constructor
  · rintro ⟨hle, had⟩
    exact Block.subset_of_mem p.addr_mem (Prefix.contains_iff.mp had) hle
  · intro hsu
    exact ⟨Block.Subset.exp_le hsu, Prefix.contains_iff.mpr (hsu _ p.addr_mem)⟩

theorem none_or_eq_iff {α : Type} {x : Option α} {a : α} :
    ¬ (x ≠ none ∧ x ≠ some a) ↔ ∀ b, x = some b → a = b := by
  cases x with
  | none => simp
  | some b => simp [eq_comm]

theorem Query.ported_of_port {port : Port}
    (hpor : q.port = some port) (hpr : ∀ p, q.protocol = some p → protocol = p) :
    ported protocol = true := by
  obtain ⟨p, hp, hpo⟩ := q.portProtocol (by rw [hpor]; exact Option.some_ne_none port)
  rw [hpr p hp]
  exact hpo

theorem checkPorts_eq_ok (hpr : ∀ p, q.protocol = some p → o.protocol = p) :
    checkPorts q o = .ok () ↔
      (if ported o.protocol then ∃ p, o.ports = some p ∧ p.start ≤ p.stop else o.ports = none) ∧
        ∀ p, q.port = some p → ∀ port, o.coversPort port = true → port = p := by
  unfold checkPorts
  cases hpo : ported o.protocol with
  | false =>
    -- no port is asked for, or the protocol would have ports
    have hno : ∀ p, q.port ≠ some p := fun p hp => by
      rw [Query.ported_of_port hp hpr] at hpo
      cases hpo
    simp [hno]
  | true =>
    cases hpor : o.ports with
    | none => simp
    | some p =>
      rcases Nat.lt_or_ge p.stop.val p.start.val with hlt | hle
      · have hlt' : p.stop < p.start := hlt
        simp [hlt', not_le.mpr hlt']
      · have hle' : p.start ≤ p.stop := hle
        cases hq : q.port with
        | none => simp [hle', not_lt.mpr hle']
        | some asked =>
          have hen : (p.start = asked ∧ p.stop = asked) ↔
              ∀ port, p.start ≤ port → port ≤ p.stop → port = asked := by
            constructor
            · rintro ⟨rfl, hst⟩ port hl hh
              exact le_antisymm (hst ▸ hh) hl
            · intro h
              exact ⟨h _ le_rfl hle', h _ hle' le_rfl⟩
          simp [hle', not_lt.mpr hle', Outcome.coversPort, hpor, Ports.holds, hen]

/-- **What one outcome is checked for**, the attachment being complete. -/
theorem checkOutcome_eq_ok (hfa : o.network.addr.family = q.network.addr.family)
    (hcomplete : o.attachment.complete = true) :
    checkOutcome q o = .ok () ↔ o.Canonical ∧ Inside q o := by
  unfold checkOutcome
  rw [ite_throw_eq_ok, ite_throw_eq_ok]
  simp only [not_or, not_not, bind_eq_ok, hcomplete, not_true_eq_false, if_false, and_true,
    Bool.not_eq_false]
  rw [inside_network hfa, none_or_eq_iff, none_or_eq_iff]
  constructor
  · rintro ⟨⟨hma, had⟩, ⟨hd, hp⟩, ⟨⟩, hpo⟩
    obtain ⟨hf, hpor⟩ := (checkPorts_eq_ok hp).mp hpo
    exact ⟨⟨hma, hf⟩, ⟨had, hd, hp, hpor⟩⟩
  · rintro ⟨⟨hma, hf⟩, hin⟩
    exact ⟨⟨hma, hin.address⟩, ⟨hin.direction, hin.protocol⟩, (),
      (checkPorts_eq_ok hin.protocol).mpr ⟨hf, hin.port⟩⟩

/-! ## The groups -/

def Outcome.scope (o : Outcome) : Direction × Attachment := (o.direction, o.attachment)

/-- Outcomes of one group do not share a point. -/
def Apart (previous o : Outcome) : Prop := previous.scope = o.scope → conflicts previous o = false

/-- The group of a scope among the outcomes seen so far. -/
def groupOf (seen : List Outcome) (k : Direction × Attachment) : ScopeGroup :=
  ⟨k.1, k.2, seen.filter (·.scope = k)⟩

theorem owns_groupOf {seen : List Outcome} {k : Direction × Attachment} :
    (groupOf seen k).owns o = true ↔ k = o.scope := by
  simp [ScopeGroup.owns, groupOf, Outcome.scope, Prod.ext_iff]

/-- The scopes once an outcome has joined. -/
def noteScope (keys : List (Direction × Attachment)) (o : Outcome) : List (Direction × Attachment) :=
  if o.scope ∈ keys then keys else keys ++ [o.scope]

/-- The scopes of the outcomes seen, each once. -/
structure Scoped (seen : List Outcome) (keys : List (Direction × Attachment)) : Prop where
  distinct : keys.Nodup
  mem : ∀ k, k ∈ keys ↔ ∃ o ∈ seen, o.scope = k

section

variable {seen outcomes : List Outcome} {keys : List (Direction × Attachment)}
  {after : List ScopeGroup}

theorem joinGroup_eq_ok (hno : keys.Nodup) (hnew : o.scope ∉ keys → ∀ p ∈ seen, p.scope ≠ o.scope) :
    joinGroup o (keys.map (groupOf seen)) = .ok after ↔
      (∀ p ∈ seen, Apart p o) ∧ after = (noteScope keys o).map (groupOf (seen ++ [o])) := by
  have hot : ∀ k ≠ o.scope, groupOf (seen ++ [o]) k = groupOf seen k := fun k hk => by
    simp [groupOf, hk.symm]
  induction keys generalizing after with
  | nil =>
    have hse := hnew List.not_mem_nil
    have hap : ∀ p ∈ seen, Apart p o := fun p hp hsc => absurd hsc (hse p hp)
    have hgr : groupOf (seen ++ [o]) o.scope = ⟨o.direction, o.attachment, [o]⟩ := by
      have hnil : seen.filter (·.scope = o.scope) = [] := by simpa using hse
      rw [groupOf, List.filter_append, hnil]
      simp [Outcome.scope]
    simp [joinGroup, noteScope, hgr, iff_true_intro hap, eq_comm]
  | cons k rest ih =>
    obtain ⟨hk, hno⟩ := List.nodup_cons.mp hno
    rw [List.map_cons, joinGroup]
    by_cases hkey : k = o.scope
    · subst hkey
      have hrest : rest.map (groupOf (seen ++ [o])) = rest.map (groupOf seen) :=
        List.map_congr_left fun k' hk' => hot k' fun h => hk (h ▸ hk')
      rw [if_pos (owns_groupOf.mpr rfl), ite_throw_eq_ok, noteScope,
        if_pos List.mem_cons_self, List.map_cons, hrest]
      simp [groupOf, Apart, eq_comm (a := after)]
    · rw [if_neg fun h => hkey (owns_groupOf.mp h), bind_eq_ok]
      simp only [ih hno fun hn => hnew (by simp [hn, Ne.symm hkey])]
      have hno : noteScope (k :: rest) o = k :: noteScope rest o := by
        simp only [noteScope, List.mem_cons, Ne.symm hkey, false_or]
        split <;> rfl
      simp [hno, hot k hkey, eq_comm]

namespace Scoped

theorem note (h : Scoped seen keys) (o : Outcome) : Scoped (seen ++ [o]) (noteScope keys o) := by
  unfold noteScope
  split
  case isTrue hin =>
    refine ⟨h.distinct, fun k => ?_⟩
    have hk : k = o.scope → ∃ p ∈ seen, p.scope = k := fun heq => heq ▸ (h.mem _).mp hin
    rw [h.mem]
    simpa [or_and_right, exists_or, eq_comm (a := o.scope)] using hk
  case isFalse hnew =>
    refine ⟨List.nodup_append.mpr ⟨h.distinct, by simp, ?_⟩, fun k => ?_⟩
    · intro k hk r hr heq
      exact hnew (List.mem_singleton.mp hr ▸ heq ▸ hk)
    · simp [h.mem, or_and_right, exists_or, eq_comm]

theorem run (h : Scoped seen keys) (outcomes : List Outcome) :
    Scoped (seen ++ outcomes) (outcomes.foldl noteScope keys) := by
  induction outcomes generalizing seen keys with
  | nil => rwa [List.append_nil]
  | cons o rest ih =>
    rw [List.append_cons]
    exact ih (h.note o)

/-- **The loop succeeds when every outcome passes its own check and is apart from the earlier ones**,
and leaves their groups. -/
theorem groupOutcomes_eq_ok (h : Scoped seen keys) :
    groupOutcomes q outcomes (keys.map (groupOf seen)) = .ok after ↔
      ((∀ o ∈ outcomes, checkOutcome q o = .ok ()) ∧
        (∀ o ∈ outcomes, ∀ p ∈ seen, Apart p o) ∧ outcomes.Pairwise Apart) ∧
        after = (outcomes.foldl noteScope keys).map (groupOf (seen ++ outcomes)) := by
  induction outcomes generalizing seen keys with
  | nil => simp [groupOutcomes, eq_comm]
  | cons o rest ih =>
    unfold groupOutcomes
    have hnew : o.scope ∉ keys → ∀ p ∈ seen, p.scope ≠ o.scope := fun hn p hp heq =>
      hn ((h.mem _).mpr ⟨p, hp, heq⟩)
    simp only [bind_eq_ok, joinGroup_eq_ok h.distinct hnew, List.forall_mem_cons,
      List.pairwise_cons, List.foldl_cons]
    constructor
    · rintro ⟨⟨⟩, hch, mid, ⟨hse, rfl⟩, hrest⟩
      obtain ⟨⟨hc, hap, hpa⟩, haf⟩ := (ih (h.note o)).mp hrest
      rw [← List.append_cons] at haf
      refine ⟨⟨⟨hch, hc⟩, ⟨hse, fun r hr p hp => ?_⟩, fun r hr => ?_, hpa⟩, haf⟩
      · exact hap r hr p (List.mem_append_left _ hp)
      · exact hap r hr o (List.mem_append_right _ List.mem_cons_self)
    · rintro ⟨⟨⟨hch, hc⟩, ⟨hse, hrest⟩, ho, hpa⟩, haf⟩
      have hap : ∀ r ∈ rest, ∀ p ∈ seen ++ [o], Apart p r := by
        intro r hr p hp
        rcases List.mem_append.mp hp with hp | hp
        · exact hrest r hr p hp
        · exact List.mem_singleton.mp hp ▸ ho r hr
      rw [List.append_cons] at haf
      exact ⟨(), hch, _, ⟨hse, rfl⟩, (ih (h.note o)).mpr ⟨⟨hc, hap, hpa⟩, haf⟩⟩

end Scoped

end

/-! ## Rectangles -/

/-- The ports of an outcome as numbers. -/
def Outcome.lanes (o : Outcome) : Finset Nat :=
  match o.ports with
  | none => {0}
  | some p => Finset.Icc p.start.val p.stop.val

def Query.lanes (q : Query) (protocol : Protocol) : Finset Nat :=
  match q.port with
  | some p => {p.val}
  | none => if ported protocol then Finset.range 65536 else {0}

/-- The points of a network and some ports. -/
def rectangle (network : Prefix) (lanes : Finset Nat) : Finset (Nat × Nat) :=
  Finset.Ico network.block.lo network.block.hi ×ˢ lanes

theorem mem_rectangle {network : Prefix} {lanes : Finset Nat} {a : Addr} {port : Nat} :
    (a.point, port) ∈ rectangle network lanes ↔ network.contains a = true ∧ port ∈ lanes := by
  rw [rectangle, Finset.mem_product, Finset.mem_Ico, Prefix.contains_iff, Block.mem_iff]

theorem card_rectangle (network : Prefix) (lanes : Finset Nat) :
    (rectangle network lanes).card = lanes.card * 2 ^ network.host := by
  rw [rectangle, Finset.card_product, Nat.card_Ico, Block.hi_eq, Nat.add_sub_cancel_left,
    Prefix.block_exp, Nat.mul_comm]

theorem Outcome.Canonical.ported_eq (h : o.Canonical) : ported o.protocol = o.ports.isSome := by
  have hf := h.2
  split at hf
  case isTrue hpor =>
    obtain ⟨p, hp, -⟩ := hf
    rw [hpor, hp]
    rfl
  case isFalse hpo =>
    rw [Bool.not_eq_true] at hpo
    rw [hpo, hf]
    rfl

theorem Outcome.Canonical.ordered (h : o.Canonical) {p : Ports}
    (hp : o.ports = some p) : p.start.val ≤ p.stop.val := by
  have hf := h.2
  rw [h.ported_eq, hp] at hf
  obtain ⟨r, hr, hle⟩ := hf
  exact Option.some.inj hr ▸ hle

theorem Outcome.card_lanes (h : o.Canonical) : o.lanes.card = o.width := by
  unfold Outcome.lanes Outcome.width
  cases hp : o.ports with
  | none => rfl
  | some p =>
    have hle := h.ordered hp
    change (Finset.Icc p.start.val p.stop.val).card = p.stop.val - p.start.val + 1
    rw [Nat.card_Icc]
    omega

theorem Query.card_lanes (q : Query) (protocol : Protocol) :
    (q.lanes protocol).card = q.width protocol := by
  unfold Query.lanes Query.width
  cases q.port with
  | some p => simp
  | none => cases ported protocol <;> simp

theorem mem_protocols : protocol ∈ q.protocols ↔ ∀ p, q.protocol = some p → protocol = p := by
  unfold Query.protocols
  cases q.protocol with
  | none => cases protocol <;> simp
  | some p => simp

theorem mem_lanes {n : Nat} :
    n ∈ q.lanes protocol ↔ ∃ port : Port, port.val = n ∧ q.InScope protocol port := by
  unfold Query.lanes Query.InScope
  cases q.port with
  | some p => simp [eq_comm]
  | none =>
    cases ported protocol with
    | true => simpa using ⟨fun h => ⟨⟨n, h⟩, rfl⟩, fun ⟨port, hn⟩ => hn ▸ port.isLt⟩
    | false => simp [eq_comm]

theorem Outcome.mem_lanes {port : Port} (h : o.Canonical)
    (hpr : o.protocol ∈ q.protocols) (hsc : q.InScope o.protocol port) :
    port.val ∈ o.lanes ↔ o.coversPort port = true := by
  unfold Outcome.lanes Outcome.coversPort
  cases hpo : o.ports with
  | some p => simp [Ports.holds]
  | none =>
    -- without ports the protocol has none, so no port is asked for and the point is 0
    have hp : ported o.protocol = false := by rw [h.ported_eq, hpo]; rfl
    have hz : port = 0 := by
      unfold Query.InScope at hsc
      cases hq : q.port with
      | none => simpa [hq, hp] using hsc
      | some p =>
        rw [Query.ported_of_port hq (mem_protocols.mp hpr)] at hp
        cases hp
    simp [hz]

theorem Outcome.rectangle_subset (h : o.Canonical) (hin : Inside q o) :
    rectangle o.network o.lanes ⊆ rectangle q.network (q.lanes o.protocol) := by
  have hsu := Block.Subset.bounds (block_subset_iff.mpr hin.address)
  refine Finset.product_subset_product (Finset.Ico_subset_Ico hsu.1 hsu.2) fun n hn => ?_
  unfold Outcome.lanes at hn
  unfold Query.lanes
  cases hp : o.ports with
  | none =>
    have hpo : ported o.protocol = false := by rw [h.ported_eq, hp]; rfl
    cases hq : q.port with
    | none => simpa [hp, hpo] using hn
    | some p =>
      rw [Query.ported_of_port hq hin.protocol] at hpo
      cases hpo
  | some r =>
    have hpor : ported o.protocol = true := by rw [h.ported_eq, hp]; rfl
    rw [hp] at hn
    obtain ⟨hl, hh⟩ := Finset.mem_Icc.mp hn
    have hlt : n < 65536 := lt_of_le_of_lt hh r.stop.isLt
    cases hq : q.port with
    | none => simpa [hpor] using hlt
    | some p =>
      have hc : o.coversPort ⟨n, hlt⟩ = true := by
        simp only [Outcome.coversPort, hp, Option.all_some, Ports.holds, Bool.and_eq_true,
          decide_eq_true_eq]
        exact ⟨hl, hh⟩
      exact Finset.mem_singleton.mpr (congrArg Fin.val (hin.port p hq _ hc))

theorem disjoint_iff {p : Outcome} (hp : p.Canonical) (ho : o.Canonical)
    (hpr : p.protocol = o.protocol) :
    Disjoint (rectangle p.network p.lanes) (rectangle o.network o.lanes) ↔
      conflicts p o = false := by
  have hne : Disjoint (Finset.Ico p.network.block.lo p.network.block.hi)
      (Finset.Ico o.network.block.lo o.network.block.hi) ↔ p.network.overlaps o.network = false := by
    rw [← Bool.not_eq_true, Prefix.overlaps_iff, Finset.disjoint_left]
    simp only [Finset.mem_Ico, ← Block.mem_iff]
    constructor
    · rintro hno (hsu | hsu)
      · exact hno p.network.block.lo_mem (hsu _ p.network.block.lo_mem)
      · exact hno (hsu _ o.network.block.lo_mem) o.network.block.lo_mem
    · intro hnot x hxp hxo
      rcases Nat.le_total p.network.block.exp o.network.block.exp with hle | hle
      · exact hnot (.inl (Block.subset_of_mem hxp hxo hle))
      · exact hnot (.inr (Block.subset_of_mem hxo hxp hle))
  rw [rectangle, rectangle, Finset.disjoint_product, hne]
  simp only [conflicts, hpr, decide_true, Bool.true_and, Bool.and_eq_false_iff]
  refine or_congr Iff.rfl ?_
  have hsa : p.ports.isSome = o.ports.isSome := by
    rw [← hp.ported_eq, ← ho.ported_eq, hpr]
  unfold Outcome.lanes
  cases hpp : p.ports with
  | none =>
    cases hop : o.ports with
    | none => simp
    | some t => simp [hpp, hop] at hsa
  | some r =>
    cases hop : o.ports with
    | none => simp [hpp, hop] at hsa
    | some t =>
      have hr := hp.ordered hpp
      have ht := ho.ordered hop
      rw [← Bool.not_eq_true, Bool.and_eq_true, decide_eq_true_eq, decide_eq_true_eq,
        Finset.disjoint_left]
      simp only [Finset.mem_Icc]
      change _ ↔ ¬ (r.start.val ≤ t.stop.val ∧ t.start.val ≤ r.stop.val)
      constructor
      · rintro hno ⟨h₁, h₂⟩
        have hmax := hno (a := max r.start.val t.start.val) ⟨by omega, by omega⟩
        omega
      · intro hnot x hx hxt
        omega

/-! ## Exactness -/

/-- The outcomes of one group and protocol. -/
def cell (outcomes : List Outcome) (scope : Direction × Attachment) (protocol : Protocol) :
    List Outcome :=
  outcomes.filter fun o => o.scope = scope ∧ o.protocol = protocol

theorem mem_cell {outcomes : List Outcome} {scope : Direction × Attachment} :
    o ∈ cell outcomes scope protocol ↔ o ∈ outcomes ∧ o.scope = scope ∧ o.protocol = protocol := by
  simp [cell]

section Exact

variable {q : Query} {outcomes : List Outcome}

theorem cell_exact (hf : ∀ o ∈ outcomes, o.Canonical ∧ Inside q o) {protocol : Protocol}
    (hpr : protocol ∈ q.protocols) (scope : Direction × Attachment) :
    ((cell outcomes scope protocol).Pairwise (fun p o => conflicts p o = false) ∧
        ((cell outcomes scope protocol).map Outcome.volume).sum = q.volume protocol) ↔
      ∀ a, q.network.contains a = true → ∀ port, q.InScope protocol port →
        coverCount outcomes scope.1 scope.2 a protocol port = 1 := by
  let rect : Outcome → Finset (Nat × Nat) := fun o => rectangle o.network o.lanes
  let total := rectangle q.network (q.lanes protocol)
  have hce : ∀ o ∈ cell outcomes scope protocol, (o.Canonical ∧ Inside q o) ∧
      o.protocol = protocol := fun o ho => ⟨hf o (mem_cell.mp ho).1, (mem_cell.mp ho).2.2⟩
  have hsu : ∀ s ∈ (cell outcomes scope protocol).map rect, s ⊆ total := by
    intro s hs
    obtain ⟨o, ho, rfl⟩ := List.mem_map.mp hs
    obtain ⟨⟨hc, hin⟩, rfl⟩ := hce o ho
    exact Outcome.rectangle_subset hc hin
  have hd : ((cell outcomes scope protocol).map rect).Pairwise Disjoint ↔
      (cell outcomes scope protocol).Pairwise (fun p o => conflicts p o = false) := by
    rw [List.pairwise_map]
    refine List.Pairwise.iff_of_mem fun {p o} hp ho => ?_
    obtain ⟨⟨hpf, -⟩, hpp⟩ := hce p hp
    obtain ⟨⟨hof, -⟩, hop⟩ := hce o ho
    exact disjoint_iff hpf hof (hpp.trans hop.symm)
  have hvo : (((cell outcomes scope protocol).map rect).map Finset.card).sum =
      ((cell outcomes scope protocol).map Outcome.volume).sum := by
    rw [List.map_map]
    congr 1
    refine List.map_congr_left fun o ho => ?_
    change (rectangle o.network o.lanes).card = _
    rw [card_rectangle, Outcome.card_lanes (hce o ho).1.1]
    rfl
  have hto : total.card = q.volume protocol := by
    rw [card_rectangle, Query.card_lanes]
    rfl
  have hco : ∀ (a : Addr) (port : Port), q.InScope protocol port →
      holding ((cell outcomes scope protocol).map rect) (a.point, port.val) =
        coverCount outcomes scope.1 scope.2 a protocol port := by
    intro a port hsc
    rw [holding, List.countP_map, cell, List.countP_filter, coverCount]
    refine List.countP_congr fun o ho => ?_
    obtain ⟨hc, hin⟩ := hf o ho
    simp only [Function.comp_apply, Bool.and_eq_true, decide_eq_true_eq, Outcome.covers, rect,
      mem_rectangle, Outcome.scope, Prod.ext_iff]
    constructor
    · rintro ⟨⟨hne, hl⟩, hkey, rfl⟩
      exact ⟨hkey, ⟨hne, rfl⟩, (Outcome.mem_lanes hc hpr hsc).mp hl⟩
    · rintro ⟨hkey, ⟨hne, rfl⟩, hpo⟩
      exact ⟨⟨hne, (Outcome.mem_lanes hc hpr hsc).mpr hpo⟩, hkey, rfl⟩
  rw [← hd, ← hvo, ← hto, exact_cover_iff hsu]
  constructor
  · intro hon a ha port hsc
    rw [← hco a port hsc]
    exact hon _ (mem_rectangle.mpr ⟨ha, Lookup.mem_lanes.mpr ⟨port, rfl, hsc⟩⟩)
  · rintro hon ⟨x, n⟩ hx
    obtain ⟨hxb, hn⟩ := Finset.mem_product.mp hx
    obtain ⟨a, rfl, ha⟩ := Prefix.addr_of_block (Block.mem_iff.mpr (Finset.mem_Ico.mp hxb))
    obtain ⟨port, rfl, hsc⟩ := Lookup.mem_lanes.mp hn
    rw [hco a port hsc]
    exact hon a ha port hsc

theorem pairwise_apart_iff (hin : ∀ o ∈ outcomes, Inside q o) :
    outcomes.Pairwise Apart ↔ ∀ o ∈ outcomes, ∀ protocol ∈ q.protocols,
      (cell outcomes o.scope protocol).Pairwise (fun p o => conflicts p o = false) := by
  simp only [cell, List.pairwise_filter]
  constructor
  · intro hap o _ protocol _
    refine hap.imp fun {p r} happ hp hr => ?_
    rw [decide_eq_true_eq] at hp hr
    exact happ (hp.1.trans hr.1.symm)
  · intro hc
    rw [List.pairwise_iff_forall_sublist]
    intro p r hsu hsc
    have hp : p ∈ outcomes := hsu.subset List.mem_cons_self
    by_cases hpr : p.protocol = r.protocol
    · have hce := hc p hp p.protocol (mem_protocols.mpr (hin p hp).protocol)
      exact List.pairwise_iff_forall_sublist.mp hce hsu (decide_eq_true ⟨rfl, rfl⟩)
        (decide_eq_true ⟨hsc.symm, hpr.symm⟩)
    · simp [conflicts, hpr]

theorem validateCoverage_eq_ok :
    validateCoverage q outcomes = .ok () ↔
      ((∀ o ∈ outcomes, checkOutcome q o = .ok ()) ∧ outcomes.Pairwise Apart) ∧
        (∀ d ∈ q.directions, ∃ o ∈ outcomes, o.direction = d) ∧
          ∀ o ∈ outcomes, ∀ protocol ∈ q.protocols,
            ((cell outcomes o.scope protocol).map Outcome.volume).sum = q.volume protocol := by
  have hnil : Scoped [] [] := ⟨.nil, by simp⟩
  have hl := fun after => @Scoped.groupOutcomes_eq_ok q [] outcomes [] after hnil
  have hmem := (hnil.run outcomes).mem
  have hd : ∀ o : Outcome, (groupOf outcomes o.scope).direction = o.direction := fun _ => rfl
  have hc : ∀ k protocol, (groupOf outcomes k).outcomes.filter (·.protocol = protocol) =
      cell outcomes k protocol := fun k protocol => by
    simp [groupOf, cell, List.filter_filter, and_comm]
  unfold validateCoverage
  simp only [bind_eq_ok, ite_throw_eq_ok, not_not, and_true]
  simp only [List.map_nil, List.nil_append] at hl hmem
  simp [hl, hmem, hd, hc]

theorem covers_once_iff (hf : ∀ o ∈ outcomes, o.Canonical ∧ Inside q o) :
    (outcomes.Pairwise Apart ∧ ∀ o ∈ outcomes, ∀ protocol ∈ q.protocols,
      ((cell outcomes o.scope protocol).map Outcome.volume).sum = q.volume protocol) ↔
      CoversOnce q outcomes := by
  rw [pairwise_apart_iff fun o ho => (hf o ho).2]
  -- both conditions on a cell together are exact coverage of it
  simp only [← forall_and, CoversOnce]
  refine forall₂_congr fun o _ => forall₂_congr fun protocol hp => ?_
  exact cell_exact hf hp o.scope

end Exact

/-- **The coverage check is exact.** Of outcomes with complete attachments in the query's family it
accepts those in canonical form that lie inside the query, speak for every direction asked for, and
cover each point of each group once. -/
theorem coverage_exact (q : Query) (outcomes : List Outcome)
    (hfamily : ∀ o ∈ outcomes, o.network.addr.family = q.network.addr.family)
    (hcomplete : ∀ o ∈ outcomes, o.attachment.complete = true) :
    validateCoverage q outcomes = .ok () ↔
      (∀ o ∈ outcomes, o.Canonical ∧ Inside q o) ∧
        (∀ d ∈ q.directions, ∃ o ∈ outcomes, o.direction = d) ∧ CoversOnce q outcomes := by
  have hc : (∀ o ∈ outcomes, checkOutcome q o = .ok ()) ↔
      ∀ o ∈ outcomes, o.Canonical ∧ Inside q o :=
    forall₂_congr fun o ho => checkOutcome_eq_ok (hfamily o ho) (hcomplete o ho)
  rw [validateCoverage_eq_ok, hc, and_assoc]
  refine and_congr_right fun hf => ?_
  rw [and_left_comm, covers_once_iff hf]

theorem https_ported : (some 443 : Option Port) ≠ none → ∃ p, some Protocol.tcp = some p ∧
    ported p = true :=
  fun _ => ⟨.tcp, rfl, rfl⟩

/-- Inbound TCP traffic to port 443 of two addresses. -/
def pairQuery : Query where
  network := .v4 10 0 0 0 31
  direction := some .ingress
  protocol := some .tcp
  port := some 443
  masked := by decide
  portProtocol := https_ported

/-- An outcome for it on the given network. -/
def pairOutcome (network : Prefix) : Outcome where
  network := network
  direction := .ingress
  protocol := .tcp
  ports := some ⟨443, 443⟩
  attachment := { name := "wan", managed := true, portBasis := .originalDestination }
  verdict := .notBlocked
  action := .ret
  stage := .pass
  reason := "no managed rule denied this traffic"

/-- One outcome for each of the two addresses. -/
def pairOutcomes : List Outcome := [pairOutcome (.v4 10 0 0 0 32), pairOutcome (.v4 10 0 0 1 32)]

theorem pair_covered_once :
    validateCoverage pairQuery pairOutcomes = .ok () ∧ CoversOnce pairQuery pairOutcomes :=
  ⟨by decide, ((coverage_exact pairQuery pairOutcomes (by decide) (by decide)).mp (by decide)).2.2⟩

theorem host_bits_refused :
    ∃ (q : Query) (outcomes : List Outcome),
      (∀ o ∈ outcomes, o.network.addr.family = q.network.addr.family) ∧
      (∀ o ∈ outcomes, o.attachment.complete = true) ∧
      (∀ o ∈ outcomes, Inside q o) ∧
      (∀ d ∈ q.directions, ∃ o ∈ outcomes, o.direction = d) ∧ CoversOnce q outcomes ∧
      validateCoverage q outcomes = .error "lookup outcome extends outside the query" := by
  have hsa : ∀ a, (Prefix.v4 10 0 0 1 31).contains a = (Prefix.v4 10 0 0 0 31).contains a := by
    intro a
    have hma : (Prefix.v4 10 0 0 1 31).masked = Prefix.v4 10 0 0 0 31 := by decide
    rw [Bool.eq_iff_iff, Prefix.contains_iff, Prefix.contains_iff, ← hma, Prefix.masked_block]
  have hpor : ∀ port, (pairOutcome (.v4 10 0 0 1 31)).coversPort port = true → port = 443 := by
    intro port hpo
    obtain ⟨hl, hh⟩ := Bool.and_eq_true_iff.mp hpo
    exact le_antisymm (of_decide_eq_true hh) (of_decide_eq_true hl)
  refine ⟨pairQuery, [pairOutcome (.v4 10 0 0 1 31)], by decide, by decide, ?_, by decide, ?_,
    by decide⟩
  · intro o ho
    obtain rfl := List.mem_singleton.mp ho
    refine ⟨fun a ha => hsa a ▸ ha, fun d hd => Option.some.inj hd, fun p hp => Option.some.inj hp,
      fun p hp port hpo => ?_⟩
    exact (hpor port hpo).trans (Option.some.inj hp)
  · intro o ho protocol hpr a ha port hpo
    obtain rfl := List.mem_singleton.mp ho
    obtain rfl := List.mem_singleton.mp hpr
    obtain rfl : port = 443 := hpo
    have hc : (pairOutcome (.v4 10 0 0 1 31)).covers a .tcp 443 = true := by
      simp only [Outcome.covers, Bool.and_eq_true]
      exact ⟨⟨(hsa a).trans ha, rfl⟩, by decide⟩
    simp [coverCount, hc]

end Perimeterd.Lookup
