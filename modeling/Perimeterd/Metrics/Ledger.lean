import Perimeterd.Metrics.Native

/-!
# No total is ahead of the counters

**From the moment collection starts, a total grows by no more than the counters of its label set
have counted since** (`totals_never_ahead`).

The proof keeps, for each counter, how much of it the collector has accounted for (`settled`). A
reading settles a counter up to the value read, and no total gets ahead of the sum of what is settled
(`Ledger`). What makes that work is the provenance of the
baselines (`Based`): the baseline of an identity is an earlier value of the counter that bears it
now, or nothing of that counter has been accounted for at all. A final read may therefore be
repeated, a failed one dropped, and an identity forgotten once no counter bears it.
-/

namespace Perimeterd.Metrics

open Policy NativeCounter List

/-! ## The ledger -/

/-- Where a baseline comes from: an earlier state of the counter, not before what is settled of it,
or else nothing is settled. -/
def Based (baseline : Option CounterValue) (settled : Measure → Nat) (now : NativeCounter) : Prop :=
  (∀ m, settled m = 0) ∨ ∃ past : NativeCounter, (∀ m, settled m ≤ past.count m) ∧
    past.Before now ∧ baseline = some past.value

variable {s s' : World}

section

variable {baseline : Option CounterValue} {settled : Measure → Nat} {now later : NativeCounter}

theorem Based.mono (h : Based baseline settled now) (hl : now.Before later) :
    Based baseline settled later := by
  rcases h with hf | ⟨past, hse, hp, rfl⟩
  · exact .inl hf
  · exact .inr ⟨past, hse, hp.trans hl, rfl⟩

theorem Based.delta_le (h : Based baseline settled now) (m : Measure) :
    counterDelta (kept now.role (baseline.getD .zero) m) (now.count m % 2 ^ 64) ≤
      now.count m - settled m := by
  rcases h with hf | ⟨past, hse, hp, rfl⟩
  · rw [hf m]
    exact le_trans (counterDelta_le_current _ _) (Nat.mod_le _ _)
  · rw [Option.getD_some, ← hp.role, kept_value]
    have hle := counterDelta_le (m := 2 ^ 64) (hp.count m)
    have hl := hse m
    omega

end

/-- The accounts of the totals: since `start`, a total and what is settled have grown in step. -/
structure Account (R : Nat → Nat → Prop) (start : List NativeCounter) (opening : Totals)
    (counters : List NativeCounter) (totals : Totals) (settled : Nat → Measure → Nat) : Prop where
  below : ∀ (k : Nat) c, counters[k]? = some c → ∀ m, settled k m ≤ c.count m
  unborn : ∀ k, counters.length ≤ k → ∀ m, settled k m = 0
  floor : ∀ s m, counted start s m ≤ amounts counters settled s m
  /-- While the numbers are exact. -/
  balance : ∀ s m, amounts counters settled s m ≤ counted start s m + 2 ^ 53 →
    R (totals s m + counted start s m) (opening s m + amounts counters settled s m)

namespace Account

variable {R : Nat → Nat → Prop} {start cs : List NativeCounter} {settled : Nat → Measure → Nat}
  {op totals : Totals} {k : Nat} {c : NativeCounter} (h : Account R start op cs totals settled)

include h

omit h in
theorem opening (hR : ∀ x, R x x) : Account R cs op cs op (countAt cs) := by
  refine ⟨fun k c hc m => by rw [countAt, hc]; rfl, fun k hk m => ?_, fun s m => ?_, fun s m _ => ?_⟩
  · rw [countAt, List.getElem?_eq_none hk]
    rfl
  · rw [amounts_countAt]
  · rw [amounts_countAt]
    exact hR _

theorem amounts_le (s : Series) (m : Measure) : amounts cs settled s m ≤ counted cs s m := by
  rw [← amounts_countAt]
  refine amounts_mono (fun k c hc => ?_) s
  rw [countAt, hc]
  exact h.below k c hc m

theorem merge {copy : NativeCounter} {baseline : Option CounterValue} (hle : ∀ {x y}, R x y → x ≤ y)
    (hadd : ∀ {a b x y}, R a b → R x y → R (a + x) (b + y))
    (hc : cs[k]? = some c) (hfc : ∀ m, settled k m ≤ copy.count m) (hco : copy.Before c)
    (hde : ∀ m, R (counterDelta (kept copy.role (baseline.getD .zero) m) (copy.count m % 2 ^ 64))
      (copy.count m - settled k m)) :
    Account R start op cs (addCounterDelta totals copy.identity (baseline.getD .zero) copy.value)
      (Function.update settled k copy.count) := by
  have hsum := fun s m => amounts_update hc (hfc m) s
  rw [← hco.series?] at hsum
  refine ⟨fun j d hd m => ?_, fun j hj => ?_, fun s m => ?_, fun s m hexa => ?_⟩
  · by_cases hj : j = k
    · subst hj
      rw [Function.update_self, Option.some.inj (hd.symm.trans hc)]
      exact hco.count m
    · rw [Function.update_of_ne hj]
      exact h.below j d hd m
  · have hlt := (List.getElem?_eq_some_iff.mp hc).1
    rw [Function.update_of_ne (by omega)]
    exact h.unborn j hj
  · rw [hsum s m]
    exact le_trans (h.floor s m) (Nat.le_add_right _ _)
  · rw [hsum s m] at hexa ⊢
    have hfl := h.floor s m
    have hba := h.balance s m (by omega)
    by_cases hse : copy.series? = some s
    · rw [if_pos hse] at hexa ⊢
      have hd := hle (hde m)
      rw [addCounterDelta_own _ _ hse, float64_eq_self (by omega), Nat.add_right_comm,
        ← Nat.add_assoc]
      exact hadd hba (hde m)
    · rw [if_neg hse, Nat.add_zero, addCounterDelta_other _ _ hse]
      exact hba

theorem later {cs' : List NativeCounter} (hl : Later cs cs') : Account R start op cs' totals settled := by
  refine ⟨fun k d hd m => ?_, hl.length ▸ h.unborn, fun s m => ?_, fun s m => ?_⟩
  · obtain ⟨c, hc, hbe, -⟩ := hl.before k d hd
    exact (h.below k c hc m).trans (hbe.count m)
  · rw [hl.amounts]
    exact h.floor s m
  · rw [hl.amounts]
    exact h.balance s m

theorem create : Account R start op (cs ++ [c]) totals settled := by
  have hz := h.unborn cs.length le_rfl
  have hsum : ∀ s m, amounts (cs ++ [c]) settled s m = amounts cs settled s m := fun s m => by
    rw [amounts_concat, hz, ite_self, Nat.add_zero]
  refine ⟨fun k d hd m => ?_, fun k hk => ?_, fun s m => hsum s m ▸ h.floor s m,
    fun s m => hsum s m ▸ h.balance s m⟩
  · rcases Lib.getElem?_concat_cases hd with hd | ⟨rfl, -⟩
    · exact h.below k d hd m
    · exact (hz m).trans_le (Nat.zero_le _)
  · rw [length_append] at hk
    exact h.unborn k (Nat.le_of_add_right_le hk)

end Account

/-- An entry of the reading under way: the counter it was read from, which may be gone, has gone on
counting since; of a counter that bears the identity in its place nothing is settled. -/
structure Taken (counters : List NativeCounter) (settled : Nat → Measure → Nat)
    (e : Nat × NativeCounter) : Prop where
  source : ∃ c, counters[e.1]? = some c ∧ (∀ m, settled e.1 m ≤ e.2.count m) ∧ e.2.Before c
  newer : ∀ (j : Nat) d, counters[j]? = some d → d.alive = true → d.identity = e.2.identity →
    j = e.1 ∨ ∀ m, settled j m = 0

/-- The accounts are in order, and no total is ahead: `taken` is the reading under way. -/
structure Ledger (start : List NativeCounter) (opening : Totals) (counters : List NativeCounter)
    (collector : Collector) (taken : List (Nat × NativeCounter)) (settled : Nat → Measure → Nat) :
    Prop extends Account (· ≤ ·) start opening counters collector.totals settled where
  distinct : Distinct taken
  read : ∀ e ∈ taken, Taken counters settled e
  readBased : collector.pendingBaseline = false → ∀ e ∈ taken,
    Based (collector.baselines e.2.identity) (settled e.1) e.2
  based : collector.pendingBaseline = false → ∀ (k : Nat) c, counters[k]? = some c → c.alive = true →
    (∀ e ∈ taken, e.2.identity ≠ c.identity) →
      Based (collector.baselines c.identity) (settled k) c

namespace Ledger

variable {start cs : List NativeCounter} {settled : Nat → Measure → Nat} {op : Totals}
  {collector : Collector} {taken : List (Nat × NativeCounter)} {c : NativeCounter}

/-- **Merging one value read.** Its counter is settled up to it. -/
theorem merge {e : Nat × NativeCounter} (h : Ledger start op cs collector (e :: taken) settled)
    (hre : collector.pendingBaseline = false) (current : Bool) :
    Ledger start op cs (collector.mergeCounter ⟨e.2.identity, e.2.value, current⟩) taken
      (Function.update settled e.1 e.2.count) := by
  obtain ⟨k, copy⟩ := e
  obtain ⟨hh, hread⟩ := forall_mem_cons.mp h.read
  obtain ⟨hba, hbased⟩ := forall_mem_cons.mp (h.readBased hre)
  obtain ⟨-, hnamed⟩ := forall_mem_cons.mp h.distinct.named
  obtain ⟨hnew, hno⟩ := nodup_cons.mp h.distinct.nodup
  obtain ⟨c, hc, hfc, hco⟩ := hh.source
  have ho : ∀ e ∈ taken, e.2.identity ≠ copy.identity := fun e he heq =>
    hnew (mem_map.mpr ⟨e, he, heq⟩)
  -- another identity is another counter, whose accounts do not change
  have hin : ∀ (j : Nat) d, cs[j]? = some d → d.identity ≠ copy.identity →
      Function.update settled k copy.count j = settled j := by
    refine fun j d hd hne => Function.update_of_ne ?_ _ _
    rintro rfl
    exact hne (Option.some.inj (hd.symm.trans hc) ▸ hco.identity.symm)
  refine ⟨h.toAccount.merge id Nat.add_le_add hc hfc hco hba.delta_le, ⟨hnamed, hno⟩, ?_, ?_, ?_⟩
  · intro e he
    obtain ⟨d, hd, hge, hed⟩ := (hread e he).source
    refine ⟨⟨d, hd, ?_, hed⟩, fun j d' hd' halive hid => ?_⟩
    · rwa [hin e.1 d hd (hed.identity ▸ ho e he)]
    · rw [hin j d' hd' (hid ▸ ho e he)]
      exact (hread e he).newer j d' hd' halive hid
  · intro _ e he
    obtain ⟨d, hd, -, hed⟩ := (hread e he).source
    rw [hin e.1 d hd (hed.identity ▸ ho e he)]
    simpa [Collector.mergeCounter, ho e he] using hbased e he
  · intro _ j d hd halive hnew
    by_cases hid : d.identity = copy.identity
    · have hbase : (collector.mergeCounter ⟨copy.identity, copy.value, current⟩).baselines
          d.identity = some copy.value := by simp [Collector.mergeCounter, hid]
      rw [hbase]
      by_cases hj : j = k
      · subst hj
        rw [Function.update_self]
        exact .inr ⟨copy, fun _ => le_rfl, Option.some.inj (hd.symm.trans hc) ▸ hco, rfl⟩
      · rw [Function.update_of_ne hj]
        exact .inl ((hh.newer j d hd halive hid).resolve_left hj)
    · rw [hin j d hd hid]
      have hke := h.based hre j d hd halive (forall_mem_cons.mpr ⟨fun heq => hid heq.symm, hnew⟩)
      simpa [Collector.mergeCounter, hid] using hke

section

variable (h : Ledger start op cs collector taken settled)

include h

theorem mergeAll (hre : collector.pendingBaseline = false) (current : Bool) :
    ∃ settled', Ledger start op cs
      ((entries current taken).foldl Collector.mergeCounter collector) [] settled' := by
  induction taken generalizing collector settled with
  | nil => exact ⟨settled, h⟩
  | cons e taken ih => exact ih (h.merge hre current) hre

theorem drop : Ledger start op cs collector [] settled := by
  refine ⟨h.toAccount, ⟨nofun, .nil⟩, nofun, fun _ => nofun, ?_⟩
  intro hre k c hc halive _
  by_cases hnew : ∀ e ∈ taken, e.2.identity ≠ c.identity
  · exact h.based hre k c hc halive hnew
  · push Not at hnew
    obtain ⟨e, he, hid⟩ := hnew
    obtain ⟨d, hd, -, hed⟩ := (h.read e he).source
    rcases (h.read e he).newer k c hc halive hid.symm with rfl | hfr
    · rw [← hid]
      exact (h.readBased hre e he).mono (Option.some.inj (hd.symm.trans hc) ▸ hed)
    · exact .inl hfr

theorem later {cs' : List NativeCounter} (hl : Later cs cs') :
    Ledger start op cs' collector taken settled := by
  refine ⟨h.toAccount.later hl, h.distinct, fun e he => ⟨?_, ?_⟩, h.readBased, ?_⟩
  · obtain ⟨c, hc, hfe, hec⟩ := (h.read e he).source
    obtain ⟨d, hd, hcd⟩ := hl.place hc
    exact ⟨d, hd, hfe, hec.trans hcd⟩
  · intro j d hd halive hid
    obtain ⟨c, hc, hbe, hw⟩ := hl.before j d hd
    exact (h.read e he).newer j c hc (hw halive) (hbe.identity.trans hid)
  · intro hre j d hd halive hnew
    obtain ⟨c, hc, hbe, hw⟩ := hl.before j d hd
    rw [← hbe.identity] at hnew ⊢
    exact (h.based hre j c hc (hw halive) hnew).mono hbe

theorem create : Ledger start op (cs ++ [c]) collector taken settled := by
  have hz := h.unborn cs.length le_rfl
  refine ⟨h.toAccount.create, h.distinct, fun e he => ⟨?_, ?_⟩, h.readBased, ?_⟩
  · obtain ⟨d, hd, hfe, hed⟩ := (h.read e he).source
    have hlt := (List.getElem?_eq_some_iff.mp hd).1
    exact ⟨d, (List.getElem?_append_left hlt).trans hd, hfe, hed⟩
  · intro j d hd halive hid
    rcases Lib.getElem?_concat_cases hd with hd | ⟨rfl, -⟩
    · exact (h.read e he).newer j d hd halive hid
    · exact .inr hz
  · intro hre j d hd halive hnew
    rcases Lib.getElem?_concat_cases hd with hd | ⟨rfl, -⟩
    · exact h.based hre j d hd halive hnew
    · exact .inl hz

theorem sample {k : Nat} (hc : cs[k]? = some c) (halive : c.alive = true)
    (hnamed : c.identity.rule ≠ "") (hnew : ∀ e ∈ taken, e.2.identity ≠ c.identity)
    (hu : ∀ (j : Nat) d, cs[j]? = some d → d.alive = true → d.identity = c.identity → j = k) :
    Ledger start op cs collector (taken ++ [(k, c)]) settled := by
  refine ⟨h.toAccount, ⟨Lib.forall_mem_concat.mpr ⟨h.distinct.named, hnamed⟩,
    Lib.nodup_map_concat.mpr ⟨h.distinct.nodup, hnew⟩⟩, ?_, fun hre => ?_, ?_⟩
  · refine Lib.forall_mem_concat.mpr ⟨h.read, ⟨c, hc, h.below k c hc, .refl c⟩, ?_⟩
    exact fun j d hd halive hid => .inl (hu j d hd halive hid)
  · exact Lib.forall_mem_concat.mpr ⟨h.readBased hre, h.based hre k c hc halive hnew⟩
  · intro hre j d hd halive ho
    exact h.based hre j d hd halive fun e he => ho e (mem_append_left _ he)

theorem prime (hcomplete : ∀ c ∈ cs, c.alive = true → ∃ e ∈ taken, e.2.identity = c.identity) :
    Ledger start op cs (collector.primeCounters (entries true taken)) [] settled := by
  refine ⟨h.toAccount, ⟨nofun, .nil⟩, nofun, fun _ => nofun, ?_⟩
  intro _ k c hc halive _
  obtain ⟨e, he, hid⟩ := hcomplete c (mem_of_getElem? hc) halive
  rcases (h.read e he).newer k c hc halive hid.symm with rfl | hfr
  · obtain ⟨d, hd, hfe, hed⟩ := (h.read e he).source
    obtain rfl := Option.some.inj (hd.symm.trans hc)
    have hcu : isCurrent (entries true taken) d.identity = true := hid ▸ isCurrent_entries he
    have hsa : sampled (entries true taken) d.identity = some e.2.value := by
      rw [← hid]
      exact sampled_entries h.distinct.nodup he
    refine .inr ⟨e.2, hfe, hed, ?_⟩
    simp [Collector.primeCounters, hcu, hsa]
  · exact .inl hfr

end

theorem prune (h : Ledger start op cs collector [] settled)
    (hac : ∀ c ∈ cs, c.alive = true → collector.active c.identity = true) :
    Ledger start op cs
      { collector with baselines := fun identity =>
          if collector.active identity then collector.baselines identity else none } [] settled := by
  refine ⟨h.toAccount, h.distinct, nofun, fun _ => nofun, ?_⟩
  intro hre k c hc halive hnew
  have hke := h.based hre k c hc halive hnew
  simpa [hac c (mem_of_getElem? hc) halive] using hke

end Ledger

/-! ## Steps and runs -/

theorem foldl_mergeCounter_active (c : Collector) (grp : List GroupEntry) :
    (grp.foldl Collector.mergeCounter c).active = c.active := by
  induction grp generalizing c with
  | nil => rfl
  | cons entry rest ih => exact ih (c.mergeCounter entry)

/-- The accounts of a world are in order. -/
def Accounted (start : List NativeCounter) (opening : Totals) (s : World) : Prop :=
  ∃ settled, Ledger start opening s.counters s.collector (s.reading.getD []) settled

/-- **Every step keeps the accounts in order.** -/
theorem Accounted.step {start : List NativeCounter} {op : Totals}
    (h : Accounted start op s) (hst : Step s s') : Accounted start op s' := by
  obtain ⟨settled, h⟩ := h
  cases hst with
  | count k c packets bytes hcounter halive hcounters hcollector hreading =>
    refine ⟨settled, ?_⟩
    rw [hcounters, hcollector, hreading]
    exact h.later (.set hcounter ⟨rfl, rfl, rfl, rfl, Nat.le_add_right _ _, Nat.le_add_right _ _⟩ id)
  | create c hpackets hbytes hcounters hcollector hreading =>
    refine ⟨settled, ?_⟩
    rw [hcounters, hcollector, hreading]
    exact h.create
  | delete k c hcounter hcounters hcollector hreading =>
    refine ⟨settled, ?_⟩
    rw [hcounters, hcollector, hreading]
    exact h.later (.set hcounter ⟨rfl, rfl, rfl, rfl, le_rfl, le_rfl⟩ fun hde => by cases hde)
  | read hidle hcounters hcollector hreading =>
    refine ⟨settled, ?_⟩
    rw [hcounters, hcollector, hreading]
    rwa [hidle] at h
  | sample taken k c hunder hcounter halive hnamed hnew hcounters hcollector hreading =>
    refine ⟨settled, ?_⟩
    rw [hcounters, hcollector, hreading]
    rw [hunder] at h
    exact h.sample hcounter halive hnamed hnew fun j d hd hl hid =>
      unique_index s.unique hd hcounter hl halive hid
  | failed hcounters hcollector hreading =>
    refine ⟨settled, ?_⟩
    rw [hcounters, hcollector, hreading]
    exact h.drop
  | snapshot taken gen hunder hcomplete hcounters hcollector hreading =>
    rw [hunder, Option.getD_some] at h
    unfold Accounted
    rw [hcounters, hcollector, hreading]
    unfold Collector.observeCounters
    rw [group_current h.distinct]
    dsimp only
    split
    case isTrue => exact ⟨settled, h.prime hcomplete⟩
    case isFalse hre =>
      have ho : Ledger start op s.counters
          { s.collector with active := isCurrent (entries true taken) } taken settled :=
        ⟨h.toAccount, h.distinct, h.read, h.readBased, h.based⟩
      obtain ⟨settled', hme⟩ := ho.mergeAll (Bool.not_eq_true _ ▸ hre) true
      refine ⟨settled', hme.prune fun c hc halive => ?_⟩
      -- a counter that exists was read, so its identity is active
      obtain ⟨e, he, hid⟩ := hcomplete c hc halive
      rw [foldl_mergeCounter_active, ← hid]
      exact isCurrent_entries he
  | retired taken backend gen hunder hcounters hcollector hreading =>
    rw [hunder, Option.getD_some] at h
    unfold Accounted
    rw [hcounters, hcollector, hreading]
    unfold Collector.counterRetired
    rw [group_retired h.distinct]
    split
    case isTrue => exact ⟨settled, h.drop⟩
    case isFalse hre => exact h.mergeAll (Bool.not_eq_true _ ▸ hre) false
  | begin hidle hcounters hcollector hreading =>
    refine ⟨settled, ?_⟩
    rw [hcounters, hcollector, hreading]
    rw [hidle] at h
    -- until the next complete snapshot no baseline is used
    exact ⟨h.toAccount, h.distinct, h.read, nofun, nofun⟩

theorem Accounted.run {start : List NativeCounter} {op : Totals}
    (h : Accounted start op s) (hru : Run s s') : Accounted start op s' := by
  induction hru with
  | refl => exact h
  | tail _ hst ih => exact ih.step hst

theorem Accounted.start (hbe : s.collector.pendingBaseline = true)
    (hidle : s.reading = none) : Accounted s.counters s.collector.totals s := by
  refine ⟨countAt s.counters, ?_⟩
  rw [hidle]
  refine ⟨.opening fun _ => le_rfl, ⟨nofun, .nil⟩, nofun, ?_, ?_⟩
  all_goals
    rw [hbe]
    nofun

theorem Step.totals_le (h : Step s s') (series : Series) (m : Measure) :
    s.collector.totals series m ≤ s'.collector.totals series m := by
  cases h with
  | snapshot taken gen hunder hcomplete hcounters hcollector hreading =>
    rw [hcollector]
    exact s.collector.le_observeCounters _ series m
  | retired taken backend gen hunder hcounters hcollector hreading =>
    rw [hcollector]
    exact s.collector.le_counterRetired _ series m
  | begin hidle hcounters hcollector hreading =>
    rw [hcollector]
    exact le_rfl
  | count | create | delete | read | sample | failed => simp only [*, le_refl]

theorem Run.totals_le (h : Run s s') (series : Series) (m : Measure) :
    s.collector.totals series m ≤ s'.collector.totals series m := by
  induction h with
  | refl => exact le_rfl
  | tail _ hst ih => exact ih.trans (hst.totals_le series m)

/-- **Native counters are never over-counted.** From any moment at which collection starts, no total
ever falls, and a total grows by no more than the counters of its label set have counted since,
as long as the two together are a number a `float64` holds exactly. -/
theorem totals_never_ahead {s₀ s : World} (hbegun : s₀.collector.pendingBaseline = true)
    (hidle : s₀.reading = none) (hrun : Run s₀ s) :
    (∀ s', Run s s' → ∀ series m, s.collector.totals series m ≤ s'.collector.totals series m) ∧
      ∀ series m, s₀.collector.totals series m +
          (counted s.counters series m - counted s₀.counters series m) ≤ 2 ^ 53 →
        s.collector.totals series m ≤ s₀.collector.totals series m +
          (counted s.counters series m - counted s₀.counters series m) := by
  refine ⟨fun s' hr' => hr'.totals_le, fun series m hexa => ?_⟩
  obtain ⟨settled, h⟩ := (Accounted.start hbegun hidle).run hrun
  have hf := h.floor series m
  have hbel := h.amounts_le series m
  have hbe := h.balance series m (by omega)
  omega

/-! ## One counter -/

/-- A step, by the counter it is about. -/
inductive Move where
  | count (k packets bytes : Nat)
  | create (c : NativeCounter)
  | delete (k : Nat)
  | read
  | sample (k : Nat)
  | failed
  | snapshot
  | retired

def World.setCounters (s : World) (counters : List NativeCounter) : Option World :=
  if h : counters.Pairwise NativeCounter.Apart then some { s with counters, unique := h } else none

/-- The world after a step, if it can be taken. -/
def World.move (s : World) : Move → Option World
  | .count k packets bytes =>
      match s.counters[k]? with
      | some c =>
          if c.alive then
            s.setCounters (s.counters.set k
              { c with packets := c.packets + packets, bytes := c.bytes + bytes })
          else none
      | none => none
  | .create c =>
      if c.packets = 0 ∧ c.bytes = 0 then s.setCounters (s.counters ++ [c]) else none
  | .delete k =>
      match s.counters[k]? with
      | some c => s.setCounters (s.counters.set k { c with alive := false })
      | none => none
  | .read => if s.reading = none then some { s with reading := some [] } else none
  | .sample k =>
      match s.reading, s.counters[k]? with
      | some taken, some c =>
          if c.alive = true ∧ c.identity.rule ≠ "" ∧ ∀ e ∈ taken, e.2.identity ≠ c.identity then
            some { s with reading := some (taken ++ [(k, c)]) }
          else none
      | _, _ => none
  | .failed => some { s with reading := none }
  | .snapshot =>
      match s.reading with
      | some taken =>
          if ∀ c ∈ s.counters, c.alive = true → ∃ e ∈ taken, e.2.identity = c.identity then
            some { s with
              collector := s.collector.observeCounters
                (currentCounterSamples "generation" (snapshots "generation" taken))
              reading := none }
          else none
      | none => none
  | .retired =>
      match s.reading with
      | some taken =>
          some { s with
            collector := s.collector.counterRetired (retiredCounterSamples
              (retiredRows .nftables "generation" (snapshots "generation" taken)))
            reading := none }
      | none => none

theorem setCounters_eq_some {counters : List NativeCounter} (h : s.setCounters counters = some s') :
    s'.counters = counters ∧ s'.collector = s.collector ∧ s'.reading = s.reading := by
  unfold World.setCounters at h
  split at h <;> cases h
  exact ⟨rfl, rfl, rfl⟩

theorem move_step {m : Move} (h : s.move m = some s') : Step s s' := by
  cases m with
  | count k packets bytes =>
    simp only [World.move] at h
    split at h
    case h_1 c hc =>
      obtain ⟨halive, h⟩ := Option.ite_none_right_eq_some.mp h
      obtain ⟨hcs, hco, hre⟩ := setCounters_eq_some h
      exact .count k c packets bytes hc halive hcs hco hre
    case h_2 => cases h
  | create c =>
    obtain ⟨hzero, h⟩ := Option.ite_none_right_eq_some.mp h
    obtain ⟨hcs, hco, hre⟩ := setCounters_eq_some h
    exact .create c hzero.1 hzero.2 hcs hco hre
  | delete k =>
    simp only [World.move] at h
    split at h
    case h_1 c hc =>
      obtain ⟨hcs, hco, hre⟩ := setCounters_eq_some h
      exact .delete k c hc hcs hco hre
    case h_2 => cases h
  | read =>
    obtain ⟨hidle, h⟩ := Option.ite_none_right_eq_some.mp h
    cases h
    exact .read hidle rfl rfl rfl
  | sample k =>
    simp only [World.move] at h
    split at h
    case h_1 taken c hunder hc =>
      obtain ⟨⟨halive, hnamed, hnew⟩, h⟩ := Option.ite_none_right_eq_some.mp h
      cases h
      exact .sample taken k c hunder hc halive hnamed hnew rfl rfl rfl
    case h_2 => cases h
  | failed =>
    cases h
    exact .failed rfl rfl rfl
  | snapshot =>
    simp only [World.move] at h
    split at h
    case h_1 taken hunder =>
      obtain ⟨hcomplete, h⟩ := Option.ite_none_right_eq_some.mp h
      cases h
      exact .snapshot taken "generation" hunder hcomplete rfl rfl rfl
    case h_2 => cases h
  | retired =>
    simp only [World.move] at h
    split at h
    case h_1 taken hunder =>
      cases h
      exact .retired taken .nftables "generation" hunder rfl rfl rfl
    case h_2 => cases h

def World.moves (s : World) : List Move → Option World
  | [] => some s
  | m :: rest => (s.move m).bind (·.moves rest)

theorem run_moves {ms : List Move} (h : s.moves ms = some s') : Run s s' := by
  induction ms generalizing s with
  | nil =>
    cases h
    exact .refl
  | cons m rest ih =>
    obtain ⟨next, hm, hr⟩ := Option.bind_eq_some_iff.mp h
    exact .head (move_step hm) (ih hr)

/-- The counter of inbound IPv4 traffic, new. -/
def inbound : NativeCounter where
  identity := ⟨.nftables, "perimeterd/pd_counter_v4_ingress_processed"⟩
  family := .ipv4
  direction := .ingress
  role := .processed
  packets := 0
  bytes := 0

/-- Collection has just begun and the counter stands at zero. -/
def idle : World where
  counters := [inbound]
  collector := ⟨true, fun _ => none, fun _ => false, fun _ _ => 0⟩
  unique := List.pairwise_singleton _ _

/-- Two packets are counted between two complete snapshots. -/
def sampledTwice (bytes : Nat) : List Move :=
  [.read, .sample 0, .snapshot, .count 0 2 bytes, .read, .sample 0, .snapshot]

/-- After that a read fails, and a final read is repeated because more was counted before the deletion.
The counter is created again under its name, beside one of what is denied, and both are read. -/
def retiredTwice : List Move :=
  sampledTwice 1500 ++
    [.count 0 1 100, .read, .sample 0, .failed, .read, .sample 0, .retired, .count 0 1 60,
     .read, .sample 0, .retired, .delete 0, .create inbound, .count 1 2 80,
     .create { inbound with
       identity := ⟨.nftables, "perimeterd/pd_counter_v4_ingress_denied"⟩
       role := .denied .geoPolicy .drop },
     .count 2 1 40, .read, .sample 1, .sample 2, .snapshot]

theorem exists_moves (ms : List Move) {P : World → Prop} [DecidablePred P]
    (h : ((idle.moves ms).any fun s => decide (P s)) = true) : ∃ s, idle.moves ms = some s ∧ P s := by
  cases hm : idle.moves ms with
  | none =>
    rw [hm] at h
    cases h
  | some s =>
    rw [hm] at h
    exact ⟨s, rfl, of_decide_eq_true h⟩

theorem retiredTwice_not_ahead :
    ∃ s, idle.moves retiredTwice = some s ∧
      (s.collector.totals (.processed .nftables .ipv4 .ingress) .bytes = 1740 ∧
        s.collector.totals (.denied .nftables .ipv4 .ingress .geoPolicy .drop) .bytes = 40) ∧
      ∀ series m, 0 + (counted s.counters series m - counted [inbound] series m) ≤ 2 ^ 53 →
        s.collector.totals series m ≤
          0 + (counted s.counters series m - counted [inbound] series m) := by
  obtain ⟨s, hmoves, htotals⟩ := exists_moves retiredTwice (P := fun s =>
    s.collector.totals (.processed .nftables .ipv4 .ingress) .bytes = 1740 ∧
      s.collector.totals (.denied .nftables .ipv4 .ingress .geoPolicy .drop) .bytes = 40)
    (by decide +kernel)
  exact ⟨s, hmoves, htotals, (totals_never_ahead rfl rfl (run_moves hmoves)).2⟩

theorem float64_rounds_up :
    ∃ s : World, Run idle s ∧
      counted s.counters (.processed .nftables .ipv4 .ingress) .bytes = 2 ^ 53 + 3 ∧
      s.collector.totals (.processed .nftables .ipv4 .ingress) .bytes = 2 ^ 53 + 4 := by
  obtain ⟨s, hmoves, hs⟩ := exists_moves (sampledTwice (2 ^ 53 + 3)) (P := fun s =>
    counted s.counters (.processed .nftables .ipv4 .ingress) .bytes = 2 ^ 53 + 3 ∧
      s.collector.totals (.processed .nftables .ipv4 .ingress) .bytes = 2 ^ 53 + 4)
    (by decide +kernel)
  exact ⟨s, run_moves hmoves, hs⟩

end Perimeterd.Metrics
