import Perimeterd.Lib.Pointwise
import Perimeterd.Metrics.Collector

/-!
# Native counters and the totals read off them

`sampleNativeCountersLocked`, the retirement hook and `enableCounterTelemetry` of
`internal/app/metrics.go`, over a kernel whose counters count, come and go at any moment. The engine
lock admits one reading at a time, but a reading takes its values one by one and the kernel counts
on between them.

The kernel is the list of all counters there ever were, so that what a label set really counted is a
sum over the list (`counted`), those that are gone included. A counter that is created starts at zero
and may bear the identity of one that was deleted.
-/

namespace Perimeterd.Metrics

open Policy List

/-! ## The kernel -/

/-- A native counter: its labels and what it has counted since it was created. -/
structure NativeCounter where
  identity : CounterIdentity
  family : Family
  direction : Direction
  role : CounterRole
  packets : Nat
  bytes : Nat
  alive : Bool := true
deriving DecidableEq

namespace NativeCounter

/-- The label set the counter belongs to. -/
def series? (c : NativeCounter) : Option Series :=
  match c.role with
  | .processed => some (.processed c.identity.backend c.family c.direction)
  | .denied reason action =>
      if action = .drop ∨ action = .reject then
        some (.denied c.identity.backend c.family c.direction reason action)
      else none

def count (c : NativeCounter) : Measure → Nat
  | .packets => c.packets
  | .bytes => c.bytes

/-- What the counter contributes to a label set. -/
def share (c : NativeCounter) (s : Series) (m : Measure) : Nat :=
  if c.series? = some s then c.count m else 0

/-- `newCounterSnapshot`. The native numbers have 64 bits. -/
def newCounterSnapshot (generation : String) (c : NativeCounter) : CounterSnapshot :=
  match c.role with
  | .processed =>
      { backend := c.identity.backend, generation, rule := c.identity.rule
        family := some c.family, direction := some c.direction
        processedPackets := c.packets % 2 ^ 64, processedBytes := c.bytes % 2 ^ 64 }
  | .denied reason action =>
      { backend := c.identity.backend, generation, rule := c.identity.rule
        family := some c.family, direction := some c.direction
        reason := some reason, action := some action
        deniedPackets := c.packets % 2 ^ 64, deniedBytes := c.bytes % 2 ^ 64 }

end NativeCounter

/-- What the counters of a label set have counted, those that are gone included. -/
def counted (counters : List NativeCounter) (s : Series) (m : Measure) : Nat :=
  (counters.map (·.share s m)).sum

def currentCounterSamples (generation : String) (values : List CounterSnapshot) :
    List CounterSample :=
  values.map fun v => { v with current := v.generation = generation }

/-- The rows the retirement reporter hands to its hook: one that only names the target, then the
values. -/
def retiredRows (backend : BackendKind) (generation : String) (values : List CounterSnapshot) :
    List CounterSnapshot :=
  { backend, generation, rule := "" } :: values

def retiredCounterSamples (values : List CounterSnapshot) : List CounterSample :=
  (values.filter (·.rule ≠ "")).map fun v => { v with current := false }

/-! ## Runs -/

/-- Two counters do not share an identity while both exist. -/
def NativeCounter.Apart (c d : NativeCounter) : Prop :=
  c.alive = true → d.alive = true → c.identity ≠ d.identity

instance (c d : NativeCounter) : Decidable (c.Apart d) := by
  unfold NativeCounter.Apart
  infer_instance

variable {c : NativeCounter} {taken : List (Nat × NativeCounter)}

theorem unique_index {cs : List NativeCounter} (h : cs.Pairwise NativeCounter.Apart)
    {j k : Nat} {d : NativeCounter} (hj : cs[j]? = some d) (hk : cs[k]? = some c)
    (hd : d.alive = true) (hc : c.alive = true) (hid : d.identity = c.identity) : j = k := by
  obtain ⟨hjl, rfl⟩ := List.getElem?_eq_some_iff.mp hj
  obtain ⟨hkl, rfl⟩ := List.getElem?_eq_some_iff.mp hk
  have hu := pairwise_iff_getElem.mp h
  rcases Nat.lt_trichotomy j k with hlt | heq | hlt
  · exact absurd hid (hu j k hjl hkl hlt hd hc)
  · exact heq
  · exact absurd hid.symm (hu k j hkl hjl hlt hc hd)

/-- The kernel, the collector and the reading under way: which counters were read, and as what. -/
structure World where
  counters : List NativeCounter
  collector : Collector
  reading : Option (List (Nat × NativeCounter)) := none
  unique : counters.Pairwise NativeCounter.Apart

/-- The snapshots of a reading of a target's counters. -/
def snapshots (generation : String) (taken : List (Nat × NativeCounter)) : List CounterSnapshot :=
  taken.map fun e => e.2.newCounterSnapshot generation

inductive Step : World → World → Prop
  | count {s s' : World} (k : Nat) (c : NativeCounter) (packets bytes : Nat)
      (hcounter : s.counters[k]? = some c) (halive : c.alive = true)
      (hcounters : s'.counters = s.counters.set k
        { c with packets := c.packets + packets, bytes := c.bytes + bytes })
      (hcollector : s'.collector = s.collector) (hreading : s'.reading = s.reading) : Step s s'
  | create {s s' : World} (c : NativeCounter) (hpackets : c.packets = 0) (hbytes : c.bytes = 0)
      (hcounters : s'.counters = s.counters ++ [c])
      (hcollector : s'.collector = s.collector) (hreading : s'.reading = s.reading) : Step s s'
  | delete {s s' : World} (k : Nat) (c : NativeCounter) (hcounter : s.counters[k]? = some c)
      (hcounters : s'.counters = s.counters.set k { c with alive := false })
      (hcollector : s'.collector = s.collector) (hreading : s'.reading = s.reading) : Step s s'
  /-- A periodic or final read starts… -/
  | read {s s' : World} (hidle : s.reading = none) (hcounters : s'.counters = s.counters)
      (hcollector : s'.collector = s.collector) (hreading : s'.reading = some []) : Step s s'
  /-- … takes the value of a counter, of each identity once… -/
  | sample {s s' : World} (taken : List (Nat × NativeCounter)) (k : Nat) (c : NativeCounter)
      (hunder : s.reading = some taken) (hcounter : s.counters[k]? = some c)
      (halive : c.alive = true) (hnamed : c.identity.rule ≠ "")
      (hnew : ∀ e ∈ taken, e.2.identity ≠ c.identity) (hcounters : s'.counters = s.counters)
      (hcollector : s'.collector = s.collector)
      (hreading : s'.reading = some (taken ++ [(k, c)])) : Step s s'
  /-- … and fails, … -/
  | failed {s s' : World} (hcounters : s'.counters = s.counters)
      (hcollector : s'.collector = s.collector) (hreading : s'.reading = none) : Step s s'
  /-- … is a complete snapshot of the selected target, … -/
  | snapshot {s s' : World} (taken : List (Nat × NativeCounter)) (generation : String)
      (hunder : s.reading = some taken)
      (hcomplete : ∀ c ∈ s.counters, c.alive = true → ∃ e ∈ taken, e.2.identity = c.identity)
      (hcounters : s'.counters = s.counters)
      (hcollector : s'.collector = s.collector.observeCounters
        (currentCounterSamples generation (snapshots generation taken)))
      (hreading : s'.reading = none) : Step s s'
  /-- … or is the last one before a retirement, whatever then becomes of the counters. -/
  | retired {s s' : World} (taken : List (Nat × NativeCounter)) (backend : BackendKind)
      (generation : String) (hunder : s.reading = some taken) (hcounters : s'.counters = s.counters)
      (hcollector : s'.collector = s.collector.counterRetired
        (retiredCounterSamples (retiredRows backend generation (snapshots generation taken))))
      (hreading : s'.reading = none) : Step s s'
  /-- Collection starts over. -/
  | begin {s s' : World} (hidle : s.reading = none) (hcounters : s'.counters = s.counters)
      (hcollector : s'.collector = s.collector.beginCounterCollection)
      (hreading : s'.reading = none) : Step s s'

/-- A run of any length. -/
abbrev Run : World → World → Prop := Relation.ReflTransGen Step

/-! ## A counter and its earlier states -/

namespace NativeCounter

/-- `c` as it was, or could have been, at an earlier moment. -/
structure Before (f c : NativeCounter) : Prop where
  identity : f.identity = c.identity
  family : f.family = c.family
  direction : f.direction = c.direction
  role : f.role = c.role
  packets : f.packets ≤ c.packets
  bytes : f.bytes ≤ c.bytes

variable {c : NativeCounter}

@[simp] theorem Before.refl (c : NativeCounter) : c.Before c := ⟨rfl, rfl, rfl, rfl, le_rfl, le_rfl⟩

theorem Before.trans {f d : NativeCounter} (h : f.Before c) (h' : c.Before d) : f.Before d :=
  ⟨h.identity.trans h'.identity, h.family.trans h'.family, h.direction.trans h'.direction,
    h.role.trans h'.role, h.packets.trans h'.packets, h.bytes.trans h'.bytes⟩

theorem Before.count {f : NativeCounter} (h : f.Before c) (m : Measure) : f.count m ≤ c.count m := by
  cases m with
  | packets => exact h.packets
  | bytes => exact h.bytes

theorem Before.series? {f : NativeCounter} (h : f.Before c) : f.series? = c.series? := by
  unfold NativeCounter.series?
  rw [h.identity, h.family, h.direction, h.role]

/-- Nothing of the counter has been accounted for. -/
def Fresh (c : NativeCounter) : Prop := c.packets = 0 ∧ c.bytes = 0

theorem Fresh.count (h : c.Fresh) (m : Measure) : c.count m = 0 := by
  cases m with
  | packets => exact h.1
  | bytes => exact h.2

def value (c : NativeCounter) : CounterValue :=
  (CounterSample.mk (c.newCounterSnapshot "") false).value

/-- The two numbers of a value that a counter of the given role keeps. -/
def kept (role : CounterRole) (v : CounterValue) : Measure → Nat
  | .packets => if role = .processed then v.processedPackets else v.deniedPackets
  | .bytes => if role = .processed then v.processedBytes else v.deniedBytes

theorem kept_value (c : NativeCounter) (m : Measure) : kept c.role c.value m = c.count m % 2 ^ 64 := by
  unfold value newCounterSnapshot
  cases hro : c.role <;> cases m <;> rfl

theorem kept_zero (role : CounterRole) (m : Measure) : kept role .zero m = 0 := by
  cases m <;> simp [kept, CounterValue.zero]

end NativeCounter

open NativeCounter

theorem counterDelta_zero (prev : Nat) : counterDelta prev 0 = 0 :=
  Nat.le_zero.mp (counterDelta_le_current prev 0)

section

variable (totals : Totals)

include totals

theorem Totals.credit_zero (s : Series) : totals.credit s 0 0 = totals := rfl

theorem addCounterDelta_value (c : NativeCounter) (prev : CounterValue) :
    addCounterDelta totals c.identity prev c.value =
      match c.series? with
      | none => totals
      | some s => totals.credit s (counterDelta (kept c.role prev .packets) (c.packets % 2 ^ 64))
          (counterDelta (kept c.role prev .bytes) (c.bytes % 2 ^ 64)) := by
  unfold addCounterDelta value newCounterSnapshot series?
  cases hro : c.role with
  | processed => rfl
  | denied reason action =>
    -- the processed numbers of a denial counter are zero, so nothing is added for them
    simp only [CounterSample.value, counterDelta_zero, Totals.credit_zero]
    split <;> rfl

theorem Totals.credit_apply (s : Series) (packets bytes : Nat) (m : Measure) :
    totals.credit s packets bytes s m =
      totals s m + float64 (match m with | .packets => packets | .bytes => bytes) := by
  have hz : float64 0 = 0 := by decide
  unfold Totals.credit Totals.add
  cases m with
  | packets =>
    by_cases hp : packets = 0 <;> by_cases hb : bytes = 0 <;> simp [hp, hb, hz]
  | bytes =>
    by_cases hp : packets = 0 <;> by_cases hb : bytes = 0 <;> simp [hp, hb, hz]

theorem Totals.credit_other {s t : Series} (h : t ≠ s) (packets bytes : Nat)
    (m : Measure) : totals.credit s packets bytes t m = totals t m := by
  unfold Totals.credit Totals.add
  by_cases hp : packets = 0 <;> by_cases hb : bytes = 0 <;> simp [hp, hb, h]

theorem addCounterDelta_own (prev : CounterValue)
    {s : Series} (h : c.series? = some s) (m : Measure) :
    addCounterDelta totals c.identity prev c.value s m =
      totals s m + float64 (counterDelta (kept c.role prev m) (c.count m % 2 ^ 64)) := by
  rw [addCounterDelta_value, h]
  cases m <;> exact Totals.credit_apply totals s _ _ _

theorem addCounterDelta_other (prev : CounterValue)
    {s : Series} (h : c.series? ≠ some s) (m : Measure) :
    addCounterDelta totals c.identity prev c.value s m = totals s m := by
  rw [addCounterDelta_value]
  cases ho : c.series? with
  | none => rfl
  | some t =>
    have hne : s ≠ t := by
      rintro rfl
      exact h ho
    exact Totals.credit_other totals hne _ _ m

end

/-! ## The sums -/

theorem counted_append (cs : List NativeCounter) (c : NativeCounter) (s : Series) (m : Measure) :
    counted (cs ++ [c]) s m = counted cs s m + c.share s m := by
  simp [counted]

/-- The label set of the counter at a place. -/
def seriesAt (cs : List NativeCounter) (k : Nat) : Option Series := (cs[k]?).bind series?

/-- The sum, over the counters of a label set, of an amount given by place. -/
def amounts (cs : List NativeCounter) (amount : Nat → Measure → Nat) (s : Series) (m : Measure) :
    Nat :=
  ∑ k ∈ Finset.range cs.length, if seriesAt cs k = some s then amount k m else 0

def countAt (cs : List NativeCounter) (k : Nat) (m : Measure) : Nat := (cs[k]?).elim 0 (·.count m)

section

variable {cs : List NativeCounter} {amount : Nat → Measure → Nat} {k : Nat}

theorem amounts_concat (m : Measure) (s : Series) :
    amounts (cs ++ [c]) amount s m =
      amounts cs amount s m + if c.series? = some s then amount cs.length m else 0 := by
  rw [amounts, length_append, length_singleton, Finset.sum_range_succ]
  congr 1
  · refine Finset.sum_congr rfl fun k hk => ?_
    rw [seriesAt, List.getElem?_append_left (Finset.mem_range.mp hk)]
    rfl
  · rw [seriesAt, List.getElem?_concat_length, Option.bind_some]

theorem amounts_mono {more : Nat → Measure → Nat} {m : Measure}
    (h : ∀ (k : Nat) c, cs[k]? = some c → amount k m ≤ more k m) (s : Series) :
    amounts cs amount s m ≤ amounts cs more s m := by
  refine Finset.sum_le_sum fun k hk => ?_
  have hle := h k _ (List.getElem?_eq_getElem (Finset.mem_range.mp hk))
  split
  · exact hle
  · exact le_rfl

theorem amounts_countAt (s : Series) (m : Measure) :
    amounts cs (countAt cs) s m = counted cs s m := by
  induction cs using reverseRecOn with
  | nil => rfl
  | append_singleton cs c ih =>
    have hold : amounts cs (countAt (cs ++ [c])) s m = amounts cs (countAt cs) s m := by
      refine Finset.sum_congr rfl fun k hk => ?_
      rw [countAt, List.getElem?_append_left (Finset.mem_range.mp hk)]
      rfl
    rw [amounts_concat, hold, ih, counted_append, countAt, List.getElem?_concat_length]
    rfl

theorem amounts_update {n : Measure → Nat} (hc : cs[k]? = some c) {m : Measure}
    (hle : amount k m ≤ n m) (s : Series) :
    amounts cs (Function.update amount k n) s m =
      amounts cs amount s m + if c.series? = some s then n m - amount k m else 0 := by
  have hk : k < cs.length := (List.getElem?_eq_some_iff.mp hc).1
  have hterm : ∀ j, (if seriesAt cs j = some s then Function.update amount k n j m else 0) =
      (if seriesAt cs j = some s then amount j m else 0) +
        if j = k then if c.series? = some s then n m - amount k m else 0 else 0 := by
    intro j
    by_cases hj : j = k
    · subst hj
      rw [Function.update_self, seriesAt, hc, Option.bind_some, if_pos rfl]
      split <;> omega
    · rw [Function.update_of_ne hj, if_neg hj, Nat.add_zero]
  simp [amounts, hterm, Finset.sum_add_distrib, hk]

end

/-- The same counters at a later moment, some of them deleted. -/
structure Later (cs cs' : List NativeCounter) : Prop where
  length : cs'.length = cs.length
  before : ∀ (k : Nat) d, cs'[k]? = some d →
    ∃ c, cs[k]? = some c ∧ c.Before d ∧ (d.alive = true → c.alive = true)

namespace Later

variable {cs cs' : List NativeCounter} {k : Nat}

theorem place (h : Later cs cs') (hc : cs[k]? = some c) : ∃ d, cs'[k]? = some d ∧ c.Before d := by
  have hlt : k < cs'.length := h.length ▸ (List.getElem?_eq_some_iff.mp hc).1
  have hd := List.getElem?_eq_getElem hlt
  obtain ⟨c', hc', hbe, -⟩ := h.before k _ hd
  exact ⟨_, hd, Option.some.inj (hc.symm.trans hc') ▸ hbe⟩

theorem seriesAt (h : Later cs cs') (k : Nat) : seriesAt cs' k = Metrics.seriesAt cs k := by
  unfold Metrics.seriesAt
  cases hd : cs'[k]? with
  | none =>
    rw [List.getElem?_eq_none_iff, h.length] at hd
    rw [List.getElem?_eq_none hd]
  | some d =>
    obtain ⟨c, hc, hbe, -⟩ := h.before k d hd
    rw [hc, Option.bind_some, Option.bind_some, hbe.series?]

theorem amounts (h : Later cs cs') (amount : Nat → Measure → Nat) (s : Series) (m : Measure) :
    amounts cs' amount s m = Metrics.amounts cs amount s m := by
  simp only [Metrics.amounts, h.length, h.seriesAt]

theorem set {later : NativeCounter} (hc : cs[k]? = some c) (hl : c.Before later)
    (hke : later.alive = true → c.alive = true) : Later cs (cs.set k later) := by
  refine ⟨length_set, fun j d hd => ?_⟩
  rcases Lib.getElem?_set_cases hd with ⟨rfl, rfl⟩ | ⟨-, hd⟩
  · exact ⟨c, hc, hl, hke⟩
  · exact ⟨d, hd, .refl d, id⟩

end Later

/-! ## The samples of a reading -/

/-- A list of values as entries, none of them sampled twice. -/
def entries (current : Bool) (taken : List (Nat × NativeCounter)) : List GroupEntry :=
  taken.map fun e => ⟨e.2.identity, e.2.value, current⟩

theorem insertSample_new {sample : CounterSample} {grp : List GroupEntry}
    (h : ∀ entry ∈ grp, entry.identity ≠ sample.identity) :
    insertSample sample grp = grp ++ [⟨sample.identity, sample.value, sample.current⟩] := by
  induction grp with
  | nil => rfl
  | cons entry rest ih =>
    obtain ⟨hh, hrest⟩ := forall_mem_cons.mp h
    rw [insertSample, if_neg hh, ih hrest]
    rfl

theorem groupSamples_of_distinct {samples : List CounterSample}
    (hnamed : ∀ sample ∈ samples, sample.rule ≠ "")
    (hd : (samples.map CounterSample.identity).Nodup) :
    groupSamples samples = samples.map fun s => ⟨s.identity, s.value, s.current⟩ := by
  have hlo : ∀ (rest : List CounterSample) (grp : List GroupEntry),
      (∀ sample ∈ rest, sample.rule ≠ "") → (rest.map CounterSample.identity).Nodup →
      (∀ sample ∈ rest, ∀ entry ∈ grp, entry.identity ≠ sample.identity) →
      rest.foldl (fun grp sample =>
          if sample.rule = "" then grp else insertSample sample grp) grp =
        grp ++ rest.map fun s => ⟨s.identity, s.value, s.current⟩ := by
    intro rest
    induction rest with
    | nil =>
      intro grp _ _ _
      simp
    | cons sample rest ih =>
      intro grp hnamed hd hnew
      obtain ⟨hh, hnamed⟩ := forall_mem_cons.mp hnamed
      obtain ⟨hfirst, hnew⟩ := forall_mem_cons.mp hnew
      rw [map_cons, nodup_cons] at hd
      rw [foldl_cons, if_neg hh, insertSample_new hfirst, ih _ hnamed hd.2,
        append_assoc]
      · rfl
      · intro later hl entry hen
        rcases mem_append.mp hen with hen | hen
        · exact hnew later hl entry hen
        · obtain rfl := mem_singleton.mp hen
          intro heq
          exact hd.1 (mem_map.mpr ⟨later, hl, heq.symm⟩)
  exact hlo samples [] hnamed hd (by simp)

theorem isCurrent_entries {e : Nat × NativeCounter}
    (he : e ∈ taken) : isCurrent (entries true taken) e.2.identity = true := by
  rw [isCurrent, any_eq_true]
  exact ⟨_, mem_map_of_mem he, by simp⟩

theorem sampled_entries
    (hno : (taken.map (·.2.identity)).Nodup) {e : Nat × NativeCounter} (he : e ∈ taken)
    {current : Bool} : sampled (entries current taken) e.2.identity = some e.2.value := by
  induction taken with
  | nil => cases he
  | cons first rest ih =>
    rw [map_cons, nodup_cons] at hno
    unfold sampled entries
    rw [map_cons, List.find?_cons]
    rcases mem_cons.mp he with rfl | he
    · simp
    · have hne : first.2.identity ≠ e.2.identity := fun heq =>
        hno.1 (mem_map.mpr ⟨e, he, heq.symm⟩)
      simp only [hne, decide_false]
      exact ih hno.2 he

/-- What is known of the list of a reading: named counters, no identity twice. -/
structure Distinct (taken : List (Nat × NativeCounter)) : Prop where
  named : ∀ e ∈ taken, e.2.identity.rule ≠ ""
  nodup : (taken.map (·.2.identity)).Nodup

theorem identity_snapshot (gen : String) (c : NativeCounter) (current : Bool) :
    (CounterSample.mk (c.newCounterSnapshot gen) current).identity = c.identity := by
  unfold newCounterSnapshot CounterSample.identity
  cases c.role <;> rfl

theorem value_snapshot (gen : String) (c : NativeCounter) (current : Bool) :
    (CounterSample.mk (c.newCounterSnapshot gen) current).value = c.value := by
  unfold value newCounterSnapshot
  cases c.role <;> rfl

theorem generation_snapshot (generation : String) (c : NativeCounter) :
    (c.newCounterSnapshot generation).generation = generation := by
  unfold newCounterSnapshot
  cases c.role <;> rfl

theorem rule_snapshot (gen : String) (c : NativeCounter) :
    (c.newCounterSnapshot gen).rule = c.identity.rule := by
  unfold newCounterSnapshot
  cases c.role <;> rfl

theorem group_flagged (h : Distinct taken) (gen : String) (current : Bool) :
    groupSamples (taken.map fun e => ⟨e.2.newCounterSnapshot gen, current⟩) =
      entries current taken := by
  rw [groupSamples_of_distinct]
  · simp only [map_map, entries, Function.comp_def, identity_snapshot, value_snapshot]
  · intro sample hsa
    obtain ⟨e, he, rfl⟩ := mem_map.mp hsa
    rw [rule_snapshot]
    exact h.named e he
  · simp only [map_map, Function.comp_def, identity_snapshot]
    exact h.nodup

theorem group_current (h : Distinct taken) (gen : String) :
    groupSamples (currentCounterSamples gen (snapshots gen taken)) = entries true taken := by
  rw [← group_flagged h gen true]
  simp [currentCounterSamples, snapshots, Function.comp_def, generation_snapshot]

theorem group_retired (h : Distinct taken) (backend : BackendKind) (gen : String) :
    groupSamples (retiredCounterSamples (retiredRows backend gen
      (snapshots gen taken))) = entries false taken := by
  rw [← group_flagged h gen false]
  have hke : (snapshots gen taken).filter (·.rule ≠ "") = snapshots gen taken := by
    rw [filter_eq_self]
    intro v hv
    obtain ⟨e, he, rfl⟩ := mem_map.mp hv
    rw [rule_snapshot]
    exact decide_eq_true (h.named e he)
  rw [retiredCounterSamples, retiredRows, filter_cons_of_neg (by simp), hke, snapshots,
    map_map]
  rfl

end Perimeterd.Metrics
