import Perimeterd.Policy.Model

/-!
# Firewall totals

`internal/metrics/metrics.go`, the part that turns native counters into exported totals. A native
counter is read as a cumulative value; the collector keeps the last value of every identity, its
baseline, and adds what a new reading has over it. A value below its baseline is a counter that
started again, and counts in full.

The series themselves belong to the metrics library. Here a series is the sum of what was added to
it, and every amount is added as the `float64` the code converts it to. The library keeps whole amounts
in an integer but exports the sum as a `float64`, so what is proved about an exported total is proved
for totals up to `2 ^ 53`, whatever the series held before.
-/

namespace Perimeterd.Metrics

open Policy

inductive BackendKind where
  | nftables
  | iptables
  | unknown
deriving DecidableEq

structure CounterIdentity where
  backend : BackendKind
  rule : String
deriving DecidableEq

/-- `CounterSnapshot`. A text that names no family, direction, reason or action is `none`. -/
structure CounterSnapshot where
  backend : BackendKind
  generation : String
  rule : String
  family : Option Family := none
  direction : Option Direction := none
  reason : Option DenyReason := none
  action : Option Action := none
  processedPackets : Nat := 0
  processedBytes : Nat := 0
  deniedPackets : Nat := 0
  deniedBytes : Nat := 0
deriving DecidableEq

structure CounterSample extends CounterSnapshot where
  current : Bool
deriving DecidableEq

structure CounterValue where
  processedPackets : Nat
  processedBytes : Nat
  deniedPackets : Nat
  deniedBytes : Nat
  family : Option Family
  direction : Option Direction
  reason : Option DenyReason
  action : Option Action
deriving DecidableEq

def CounterValue.zero : CounterValue := ⟨0, 0, 0, 0, none, none, none, none⟩

/-! ## Grouping samples -/

/-- One entry of the two maps `groupSamples` returns, which have the same keys. -/
structure GroupEntry where
  identity : CounterIdentity
  value : CounterValue
  current : Bool

def CounterSample.identity (sample : CounterSample) : CounterIdentity :=
  ⟨sample.backend, sample.rule⟩

def CounterSample.value (sample : CounterSample) : CounterValue where
  processedPackets := sample.processedPackets
  processedBytes := sample.processedBytes
  deniedPackets := sample.deniedPackets
  deniedBytes := sample.deniedBytes
  family := sample.family
  direction := sample.direction
  reason := sample.reason
  action := sample.action

/-- The value of an identity sampled twice: the larger numbers, the later labels. -/
def CounterValue.join (previous value : CounterValue) : CounterValue :=
  { value with
    processedPackets := max previous.processedPackets value.processedPackets
    processedBytes := max previous.processedBytes value.processedBytes
    deniedPackets := max previous.deniedPackets value.deniedPackets
    deniedBytes := max previous.deniedBytes value.deniedBytes }

def insertSample (sample : CounterSample) : List GroupEntry → List GroupEntry
  | [] => [⟨sample.identity, sample.value, sample.current⟩]
  | entry :: rest =>
      if entry.identity = sample.identity then
        ⟨entry.identity, entry.value.join sample.value, entry.current || sample.current⟩ :: rest
      else entry :: insertSample sample rest

def groupSamples (samples : List CounterSample) : List GroupEntry :=
  samples.foldl (fun grouped sample =>
    if sample.rule = "" then grouped else insertSample sample grouped) []

/-! ## Totals -/

/-- The label sets of the exported totals. -/
inductive Series where
  | processed (backend : BackendKind) (family : Family) (direction : Direction)
  | denied (backend : BackendKind) (family : Family) (direction : Direction) (reason : DenyReason)
      (action : Action)
deriving DecidableEq

inductive Measure where
  | packets
  | bytes
deriving DecidableEq

/-- A number as the nearest `float64`, ties to even. Below `2 ^ 53` that is the number itself. -/
def float64 (n : Nat) : Nat :=
  let k := n.log2 - 52
  let q := n / 2 ^ k
  let r := n % 2 ^ k
  if 2 ^ k < 2 * r ∨ (2 ^ k = 2 * r ∧ q % 2 = 1) then (q + 1) * 2 ^ k else q * 2 ^ k

abbrev Totals := Series → Measure → Nat

/-- `WithLabelValues(..).Add(float64(amount))`, made only when there is something to add. -/
def Totals.add (totals : Totals) (series : Series) (measure : Measure) (amount : Nat) : Totals :=
  if amount = 0 then totals
  else fun s m => if s = series ∧ m = measure then totals s m + float64 amount else totals s m

def counterDelta (previous current : Nat) : Nat :=
  if previous ≤ current then current - previous else current

/-- What a reading adds to one label set. -/
def Totals.credit (totals : Totals) (series : Series) (packets bytes : Nat) : Totals :=
  (totals.add series .packets packets).add series .bytes bytes

def addCounterDelta (totals : Totals) (identity : CounterIdentity) (previous current : CounterValue) :
    Totals :=
  match current.family, current.direction with
  | some family, some direction =>
      let totals := totals.credit (.processed identity.backend family direction)
        (counterDelta previous.processedPackets current.processedPackets)
        (counterDelta previous.processedBytes current.processedBytes)
      match current.reason, current.action with
      | some reason, some action =>
          if action = .drop ∨ action = .reject then
            totals.credit (.denied identity.backend family direction reason action)
              (counterDelta previous.deniedPackets current.deniedPackets)
              (counterDelta previous.deniedBytes current.deniedBytes)
          else totals
      | _, _ => totals
  | _, _ => totals

/-! ## The collector -/

structure Collector where
  pendingBaseline : Bool
  baselines : CounterIdentity → Option CounterValue
  active : CounterIdentity → Bool
  totals : Totals

def Collector.beginCounterCollection (c : Collector) : Collector := { c with pendingBaseline := true }

/-- Whether an identity belongs to the selected generation. -/
def isCurrent (grouped : List GroupEntry) (identity : CounterIdentity) : Bool :=
  grouped.any fun entry => entry.identity = identity && entry.current

def sampled (grouped : List GroupEntry) (identity : CounterIdentity) : Option CounterValue :=
  (grouped.find? (·.identity = identity)).map (·.value)

def Collector.primeCounters (c : Collector) (grouped : List GroupEntry) : Collector :=
  { c with
    baselines := fun identity => if isCurrent grouped identity then sampled grouped identity else none
    active := isCurrent grouped
    pendingBaseline := false }

/-- One round of the loops over the grouped samples. -/
def Collector.mergeCounter (c : Collector) (entry : GroupEntry) : Collector :=
  { c with
    totals := addCounterDelta c.totals entry.identity
      ((c.baselines entry.identity).getD .zero) entry.value
    baselines := fun identity =>
      if identity = entry.identity then some entry.value else c.baselines identity }

def Collector.counterRetired (c : Collector) (samples : List CounterSample) : Collector :=
  if c.pendingBaseline then c
  else (groupSamples samples).foldl Collector.mergeCounter c

def Collector.observeCounters (c : Collector) (samples : List CounterSample) : Collector :=
  let grouped := groupSamples samples
  if c.pendingBaseline then c.primeCounters grouped
  else
    let c := grouped.foldl Collector.mergeCounter { c with active := isCurrent grouped }
    { c with baselines := fun identity =>
        if c.active identity then c.baselines identity else none }

/-! ## Facts about the steps -/

theorem float64_eq_self {n : Nat} (h : n ≤ 2 ^ 53) : float64 n = n := by
  rcases Nat.lt_or_ge n (2 ^ 53) with hlt | hge
  · have hl : n.log2 - 52 = 0 := by
      rcases Nat.eq_zero_or_pos n with rfl | hp
      · rfl
      · have := (Nat.log2_lt hp.ne').mpr hlt
        omega
    simp [float64, hl, Nat.mod_one]
  · obtain rfl : n = 2 ^ 53 := le_antisymm h hge
    decide

theorem counterDelta_le {before after m : Nat} (h : before ≤ after) :
    counterDelta (before % m) (after % m) ≤ after - before := by
  have hb := Nat.div_add_mod before m
  have ha := Nat.div_add_mod after m
  have hd : before / m ≤ after / m := Nat.div_le_div_right h
  have hmu : m * (before / m) ≤ m * (after / m) := Nat.mul_le_mul_left m hd
  unfold counterDelta
  split
  case isTrue => omega
  case isFalse hlt =>
    -- the number fell, so it has wrapped at least once
    have hst : before / m < after / m := by
      by_contra hge
      have heq : before / m = after / m := by omega
      rw [heq] at hb
      omega
    have hw : m * (before / m) + m ≤ m * (after / m) := by
      rw [← Nat.mul_succ]
      exact Nat.mul_le_mul_left m hst
    have hm : m ≠ 0 := by
      rintro rfl
      simp at hst
    have hlt' := Nat.mod_lt before (Nat.pos_of_ne_zero hm)
    omega

theorem counterDelta_le_current (prev current : Nat) : counterDelta prev current ≤ current := by
  unfold counterDelta
  split <;> omega

theorem Totals.le_add (totals : Totals) (series : Series) (measure : Measure) (amount : Nat)
    (s : Series) (m : Measure) : totals s m ≤ totals.add series measure amount s m := by
  unfold Totals.add
  split
  · exact le_rfl
  · dsimp only
    split
    · exact Nat.le_add_right _ _
    · exact le_rfl

theorem Totals.le_credit (totals : Totals) (series : Series) (packets bytes : Nat) (s : Series)
    (m : Measure) : totals s m ≤ totals.credit series packets bytes s m :=
  le_trans (totals.le_add series .packets packets s m) (Totals.le_add _ series .bytes bytes s m)

theorem le_addCounterDelta (totals : Totals) (identity : CounterIdentity)
    (prev current : CounterValue) (s : Series) (m : Measure) :
    totals s m ≤ addCounterDelta totals identity prev current s m := by
  unfold addCounterDelta
  cases current.family with
  | none => exact le_rfl
  | some family =>
    cases current.direction with
    | none => exact le_rfl
    | some dir =>
      have hp := totals.le_credit (.processed identity.backend family dir)
        (counterDelta prev.processedPackets current.processedPackets)
        (counterDelta prev.processedBytes current.processedBytes) s m
      cases current.reason with
      | none => exact hp
      | some reason =>
        cases current.action with
        | none => exact hp
        | some action =>
          dsimp only
          split
          · exact le_trans hp (Totals.le_credit _ _ _ _ s m)
          · exact hp

theorem Collector.le_foldl_mergeCounter (c : Collector) (grp : List GroupEntry) (s : Series)
    (m : Measure) : c.totals s m ≤ (grp.foldl Collector.mergeCounter c).totals s m := by
  induction grp generalizing c with
  | nil => exact le_rfl
  | cons entry rest ih => exact le_trans (le_addCounterDelta _ _ _ _ s m) (ih (c.mergeCounter entry))

theorem Collector.le_counterRetired (c : Collector) (samples : List CounterSample) (s : Series)
    (m : Measure) : c.totals s m ≤ (c.counterRetired samples).totals s m := by
  unfold counterRetired
  split
  · exact le_rfl
  · exact c.le_foldl_mergeCounter _ s m

theorem Collector.le_observeCounters (c : Collector) (samples : List CounterSample) (s : Series)
    (m : Measure) : c.totals s m ≤ (c.observeCounters samples).totals s m := by
  unfold observeCounters
  dsimp only
  split
  · exact le_rfl
  · exact Collector.le_foldl_mergeCounter { c with active := isCurrent (groupSamples samples) } _ s m

end Perimeterd.Metrics
