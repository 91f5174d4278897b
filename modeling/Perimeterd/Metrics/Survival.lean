import Perimeterd.Firewall.Names
import Perimeterd.Metrics.Applies
import Perimeterd.Metrics.Ledger

/-!
# What totals keep of counters that are gone

**After every complete snapshot, every total is exactly what the counters of its label set have
counted since collection began**, those that were deleted, and those that were created again under
the same name, included (`totals_exact`), in every run of applies, migrations and retirements whose
readings tell what was counted.

The condition is needed in one situation only. A complete snapshot forgets the baselines of deleted
counters, so that a counter which is created again counts from zero. After a retirement to the empty
state there is no snapshot: the baseline of the deleted counter stays, and the next counter of that
name is measured against it. As long as it is below, it is taken for a counter that started again;
once it has passed it, what the old counter ended with is missing (`totals_not_always_exact`).

As in the account of what totals never exceed, `settled` has how much of each counter has been
accounted for. Here the two sides are equal.
-/

namespace Perimeterd.Metrics

open Policy Firewall NativeCounter List

/-! ## Counters of targets -/

/-- The counter's labels are those its identity says. -/
def Named (c : NativeCounter) : Prop :=
  ∃ table name, c.identity = nftIdentity table name ∧ c.family = name.family ∧
    c.direction = name.direction ∧ c.role = name.role

variable {c : NativeCounter} {counters : List NativeCounter}

theorem Named.labels (h : Named c) {table : String} {name : CounterName}
    (hid : c.identity = nftIdentity table name) :
    c.family = name.family ∧ c.direction = name.direction ∧ c.role = name.role := by
  obtain ⟨table', name', hid', hfa, hdi, hro⟩ := h
  have hru := congrArg CounterIdentity.rule (hid'.symm.trans hid)
  obtain ⟨hf, hd, hr⟩ := labels_of_identity hru
  exact ⟨hfa.trans hf, hdi.trans hd, hro.trans hr⟩

theorem Named.rule_ne_nil (h : Named c) : c.identity.rule ≠ "" := by
  obtain ⟨table, name, hid, -⟩ := h
  rw [hid]
  intro hempty
  have hl := congrArg String.toList hempty
  simp [nftIdentity] at hl

theorem Named.role_eq {d : NativeCounter} (hc : Named c) (hd : Named d)
    (h : c.identity = d.identity) : c.role = d.role := by
  obtain ⟨table, name, hid, -, -, hro⟩ := hd
  exact (hc.labels (h.trans hid)).2.2.trans hro.symm

theorem Named.before {d : NativeCounter} (h : Named c) (hbe : c.Before d) : Named d := by
  obtain ⟨table, name, hid, hf, hd, hro⟩ := h
  exact ⟨table, name, hbe.identity ▸ hid, hbe.family ▸ hf,
    hbe.direction ▸ hd, hbe.role ▸ hro⟩

/-! ## Finding and reading -/

theorem findCounter_some {identity : CounterIdentity} {k : Nat}
    (h : findCounter counters identity = some (k, c)) :
    counters[k]? = some c ∧ c.alive = true ∧ c.identity = identity := by
  obtain ⟨⟨d, j⟩, hf, heq⟩ := Option.map_eq_some_iff.mp h
  obtain ⟨rfl, rfl⟩ := Prod.mk.inj heq
  have hmem := mem_of_find?_eq_some hf
  have hp := List.find?_some hf
  simp only [Bool.and_eq_true, decide_eq_true_eq] at hp
  exact ⟨mem_zipIdx_iff_getElem?.mp hmem, hp⟩

theorem findCounter_none {identity : CounterIdentity}
    (h : findCounter counters identity = none) (hc : c ∈ counters)
    (halive : c.alive = true) : c.identity ≠ identity := by
  intro hid
  rw [findCounter, Option.map_eq_none_iff, List.find?_eq_none] at h
  obtain ⟨k, hk⟩ := mem_iff_getElem?.mp hc
  exact h (c, k) (mem_zipIdx_iff_getElem?.mpr hk) (by simp [halive, hid])

/-- What was taken is what living counters show. -/
def Living (counters : List NativeCounter) (taken : List (Nat × NativeCounter)) : Prop :=
  ∀ e ∈ taken, counters[e.1]? = some e.2 ∧ e.2.alive = true

/-- What a successful reading is: the living counters of the target, each once. -/
structure Reading (t : Target) (counters : List NativeCounter) (taken : List (Nat × NativeCounter)) :
    Prop where
  living : Living counters taken
  distinct : Distinct taken
  identities : ∀ identity, identity ∈ nftIdentities t ↔ ∃ e ∈ taken, e.2.identity = identity

theorem readCounter_ok {t : Target} {spec : CounterSpec}
    {row : Nat × NativeCounter} (hnamed : ∀ c ∈ counters, Named c)
    (h : readCounter t counters spec = .ok row) :
    counters[row.1]? = some row.2 ∧ row.2.alive = true ∧
      row.2.identity = nftIdentity t.table spec.name := by
  rw [readCounter] at h
  split at h
  · cases h
  case isFalse how =>
    split at h
    · cases h
    case h_2 place c hfi =>
      obtain rfl := Except.ok.inj h
      obtain ⟨hp, halive, hid⟩ := findCounter_some hfi
      simp only [Bool.or_eq_true, Bool.not_eq_true', decide_eq_true_eq, not_or, not_not] at how
      obtain ⟨hf, hd, hro⟩ := (hnamed c (mem_of_getElem? hp)).labels hid
      rw [how.2] at hf hd hro
      -- the labels of the row are the target's, and those are the counter's own
      have hsa : { c with family := spec.family, direction := spec.direction, role := spec.role } = c := by
        obtain ⟨identity, family, direction, role, packets, bytes, alive⟩ := c
        simp only [counterName] at hf hd hro
        rw [hf, hd, hro]
      rw [hsa]
      exact ⟨hp, halive, hid⟩

theorem readCounters_ok {t : Target} (hnamed : ∀ c ∈ counters, Named c) (specs : List CounterSpec)
    {before taken : List (Nat × NativeCounter)} (h : readCounters t counters specs before = .ok taken)
    (hl : Living counters before) (hno : (before.map (·.2.identity)).Nodup) :
    Living counters taken ∧ (taken.map (·.2.identity)).Nodup ∧
      taken.map (·.2.identity) =
        before.map (·.2.identity) ++ specs.map fun spec => nftIdentity t.table spec.name := by
  induction specs generalizing before with
  | nil =>
    obtain rfl := Except.ok.inj h
    exact ⟨hl, hno, by simp⟩
  | cons spec rest ih =>
    rw [readCounters] at h
    obtain ⟨row, hro, h⟩ := Lib.bind_eq_ok.mp h
    obtain ⟨hp, halive, hid⟩ := readCounter_ok hnamed hro
    split at h
    · cases h
    case isFalse hnew =>
      simp only [any_eq_true, decide_eq_true_eq, not_exists, not_and] at hnew
      obtain ⟨hal, hd, hids⟩ := ih h (Lib.forall_mem_concat.mpr ⟨hl, hp, halive⟩)
        (Lib.nodup_map_concat.mpr ⟨hno, hnew⟩)
      exact ⟨hal, hd, by rw [hids]; simp [hid]⟩

theorem nftCounterSnapshots_ok {t : Target}
    {taken : List (Nat × NativeCounter)} (hnamed : ∀ c ∈ counters, Named c)
    (h : nftCounterSnapshots t counters = .ok taken) : Reading t counters taken := by
  rw [nftCounterSnapshots] at h
  split at h
  · cases h
  obtain ⟨hl, hno, hid⟩ := readCounters_ok hnamed t.counters h nofun (by simp)
  refine ⟨hl, ⟨fun e he => ?_, hno⟩, fun identity => ?_⟩
  · exact (hnamed e.2 (mem_of_getElem? (hl e he).1)).rule_ne_nil
  · have hi' : nftIdentities t = taken.map (·.2.identity) := hid.symm
    rw [hi', mem_map]

/-! ## What the kernel looks like -/

/-- Identities are borne by one living counter each, and counters have the labels of their names. -/
structure Orderly (counters : List NativeCounter) : Prop where
  unique : ∀ (j k : Nat) c d, counters[j]? = some c → counters[k]? = some d → c.alive = true → d.alive = true →
    c.identity = d.identity → j = k
  named : ∀ c ∈ counters, Named c

theorem Orderly.later {counters' : List NativeCounter} (h : Orderly counters)
    (hl : Later counters counters') : Orderly counters' := by
  refine ⟨fun j k c d hc hd halive hal' hid => ?_, fun d hd => ?_⟩
  · obtain ⟨c', hc', hbe, hw⟩ := hl.before j c hc
    obtain ⟨d', hd', hb', hw'⟩ := hl.before k d hd
    refine h.unique j k c' d' hc' hd' (hw halive) (hw' hal') ?_
    rw [hbe.identity, hid, hb'.identity]
  · obtain ⟨k, hk⟩ := mem_iff_getElem?.mp hd
    obtain ⟨c, hc, hbe, -⟩ := hl.before k d hk
    exact (h.named c (mem_of_getElem? hc)).before hbe

theorem Orderly.append (h : Orderly counters)
    (hnamed : Named c) (hnew : ∀ d ∈ counters, d.alive = true → d.identity ≠ c.identity) :
    Orderly (counters ++ [c]) := by
  refine ⟨fun j k d e hd he halive hal' hid => ?_, Lib.forall_mem_concat.mpr ⟨h.named, hnamed⟩⟩
  · rcases Lib.getElem?_concat_cases hd with hold | ⟨hj, hdc⟩ <;>
      rcases Lib.getElem?_concat_cases he with ho' | ⟨hk, hec⟩
    · exact h.unique j k d e hold ho' halive hal' hid
    · exact absurd (hec ▸ hid) (hnew d (mem_of_getElem? hold) halive)
    · exact absurd (hdc ▸ hid.symm) (hnew e (mem_of_getElem? ho') hal')
    · rw [hj, hk]

theorem deleteCounters_later (counters : List NativeCounter) (doomed : List CounterIdentity) (k : Nat)
    (d : NativeCounter) (hd : (deleteCounters counters doomed)[k]? = some d) :
    ∃ c, counters[k]? = some c ∧ c.Before d ∧ (d.alive = true → d = c ∧ c.identity ∉ doomed) ∧
      (d.alive = false → c.alive = true → c.identity ∈ doomed) ∧ ∀ m, d.count m = c.count m := by
  rw [deleteCounters, List.getElem?_map] at hd
  obtain ⟨c, hc, rfl⟩ := Option.map_eq_some_iff.mp hd
  refine ⟨c, hc, ?_⟩
  split
  case isTrue hki =>
    rw [Bool.and_eq_true, decide_eq_true_eq] at hki
    exact ⟨⟨rfl, rfl, rfl, rfl, le_rfl, le_rfl⟩, nofun, fun _ _ => hki.2, fun m => by cases m <;> rfl⟩
  case isFalse hke =>
    rw [Bool.and_eq_true, decide_eq_true_eq, not_and] at hke
    exact ⟨.refl c, fun halive => ⟨rfl, hke halive⟩, fun hde halive => absurd halive (by simp [hde]),
      fun _ => rfl⟩

theorem later_delete (counters : List NativeCounter) (doomed : List CounterIdentity) :
    Later counters (deleteCounters counters doomed) := by
  refine ⟨length_map _, fun k d hd => ?_⟩
  obtain ⟨c, hc, hbe, hsp, -⟩ := deleteCounters_later counters doomed k d hd
  exact ⟨c, hc, hbe, fun halive => (hsp halive).1 ▸ halive⟩

/-! ## The accounts -/

/-- What the collector keeps for a living counter: the value it was settled at, or, if nothing of it
has been accounted for, the last value of a deleted counter of its identity. -/
def Kept (baseline : Option CounterValue) (ended : Option NativeCounter) (role : CounterRole)
    (settled : Measure → Nat) : Prop :=
  (ended = none ∧ ∃ v, baseline = some v ∧ ∀ m, kept role v m = settled m % 2 ^ 64) ∨
    ((∀ m, settled m = 0) ∧ baseline = ended.map value)

/-- The accounts balance: since `start`, every total has grown by what is settled. -/
structure Balanced (start : List NativeCounter) (opening : Totals) (counters : List NativeCounter)
    (collector : Collector) (ended : CounterIdentity → Option NativeCounter)
    (settled : Nat → Measure → Nat) :
    Prop extends Account (· = ·) start opening counters collector.totals settled where
  ready : collector.pendingBaseline = false
  gone : ∀ (k : Nat) c, counters[k]? = some c → c.alive = false → ∀ m, settled k m = c.count m
  kept : ∀ (k : Nat) c, counters[k]? = some c → c.alive = true →
    Kept (collector.baselines c.identity) (ended c.identity) c.role (settled k)
  free : ∀ identity, (∀ c ∈ counters, c.alive = true → c.identity ≠ identity) →
    collector.baselines identity = (ended identity).map value
  former : ∀ identity d, ended identity = some d →
    d.identity = identity ∧ Named d ∧ ∀ m, d.count m < 2 ^ 64

theorem legible_iff {en : Option NativeCounter} :
    legible en c = true ↔ ∀ m, c.count m < 2 ^ 64 ∧
      ∀ d, en = some d → d.count m = 0 ∨ c.count m < d.count m := by
  have hal : ∀ p : Measure → Bool, [Measure.packets, Measure.bytes].all p = true ↔
      ∀ m, p m = true := by
    intro p
    refine ⟨fun h m => ?_, fun h => by simp [h]⟩
    simp only [all_cons, all_nil, Bool.and_eq_true] at h
    cases m with
    | packets => exact h.1
    | bytes => exact h.2.1
  rw [legible, hal]
  refine forall_congr' fun m => ?_
  rw [Bool.and_eq_true, decide_eq_true_eq]
  refine and_congr_right fun _ => ?_
  cases en <;> simp

/-- **A legible reading tells what the counter has counted since it was settled.** -/
theorem Kept.delta_eq {baseline : Option CounterValue} {en : Option NativeCounter}
    {settled : Measure → Nat} (h : Kept baseline en c.role settled) (hbe : ∀ m, settled m ≤ c.count m)
    (hf : ∀ d, en = some d → d.role = c.role ∧ ∀ m, d.count m < 2 ^ 64)
    (hl : legible en c = true) (m : Measure) :
    counterDelta (kept c.role (baseline.getD .zero) m) (c.count m % 2 ^ 64) =
      c.count m - settled m := by
  obtain ⟨hbits, hbel⟩ := legible_iff.mp hl m
  have hle := hbe m
  rw [Nat.mod_eq_of_lt hbits]
  rcases h with ⟨-, v, rfl, hv⟩ | ⟨hfr, rfl⟩
  · rw [Option.getD_some, hv, Nat.mod_eq_of_lt (by omega), counterDelta, if_pos hle]
  · rw [hfr m, Nat.sub_zero]
    cases hen : en with
    | none => rw [Option.map_none, Option.getD_none, kept_zero, counterDelta, if_pos (Nat.zero_le _),
        Nat.sub_zero]
    | some d =>
      obtain ⟨hro, hb'⟩ := hf d hen
      rw [Option.map_some, Option.getD_some, ← hro, kept_value, Nat.mod_eq_of_lt (hb' m),
        counterDelta]
      -- a value below the baseline is a counter that started again
      rcases hbel d hen with hz | hlt
      · rw [hz, if_pos (Nat.zero_le _), Nat.sub_zero]
      · rw [if_neg (by omega)]

section Accounts

variable {start counters : List NativeCounter} {settled : Nat → Measure → Nat} {op : Totals}
  {collector : Collector} {en : CounterIdentity → Option NativeCounter} {k : Nat} {c : NativeCounter}

theorem Balanced.merge (h : Balanced start op counters collector en settled)
    (ho : Orderly counters) (hc : counters[k]? = some c) (halive : c.alive = true)
    (hle : legible (en c.identity) c = true) (current : Bool) :
    Balanced start op counters (collector.mergeCounter ⟨c.identity, c.value, current⟩)
      (fun identity => if c.identity = identity then none else en identity)
      (Function.update settled k c.count) := by
  have hke := h.kept k c hc halive
  have hnamed := ho.named c (mem_of_getElem? hc)
  have hdel := hke.delta_eq (h.below k c hc) (fun d hd => by
    obtain ⟨hid, hdn, hbits⟩ := h.former _ d hd
    exact ⟨hdn.role_eq hnamed hid, hbits⟩) hle
  have hot : ∀ (j : Nat) d, counters[j]? = some d → j = k ∧ d = c ∨
      j ≠ k ∧ Function.update settled k c.count j = settled j := fun j d hd => by
    by_cases hj : j = k
    · subst hj
      exact .inl ⟨rfl, Option.some.inj (hd.symm.trans hc)⟩
    · exact .inr ⟨hj, Function.update_of_ne hj _ _⟩
  refine ⟨h.toAccount.merge Nat.le_of_eq (congrArg₂ (· + ·)) hc (h.below k c hc) (.refl c) hdel,
    h.ready, ?_, ?_, ?_, ?_⟩
  · intro j d hd hde
    rcases hot j d hd with ⟨-, rfl⟩ | ⟨-, hj⟩
    · rw [halive] at hde
      cases hde
    · rw [hj]
      exact h.gone j d hd hde
  · intro j d hd hl
    rcases hot j d hd with ⟨rfl, rfl⟩ | ⟨hj, hsame⟩
    · rw [Function.update_self]
      exact .inl ⟨if_pos rfl, d.value, by simp [Collector.mergeCounter], kept_value d⟩
    · have hne : d.identity ≠ c.identity := fun hid => hj (ho.unique j k d c hd hc hl halive hid)
      rw [hsame]
      simpa [Collector.mergeCounter, hne, Ne.symm hne] using h.kept j d hd hl
  · intro identity hfr
    have hne : identity ≠ c.identity := fun heq =>
      hfr c (mem_of_getElem? hc) halive heq.symm
    simpa [Collector.mergeCounter, hne, Ne.symm hne] using h.free identity hfr
  · intro identity d hd
    split at hd
    · cases hd
    · exact h.former identity d hd

theorem Balanced.mergeAll (ho : Orderly counters) (current : Bool)
    (taken : List (Nat × NativeCounter))
    (h : Balanced start op counters collector en settled) (hl : Living counters taken)
    (hno : (taken.map (·.2.identity)).Nodup)
    (hle : ∀ e ∈ taken, legible (en e.2.identity) e.2 = true) :
    let after := (entries current taken).foldl Collector.mergeCounter collector
    ∃ settled', Balanced start op counters after
        (fun identity => if taken.any (·.2.identity = identity) then none else en identity)
        settled' ∧
      (∀ e ∈ taken, settled' e.1 = e.2.count ∧
        after.baselines e.2.identity = some e.2.value) ∧
      (∀ j, (∀ e ∈ taken, e.1 ≠ j) → settled' j = settled j) ∧
      ∀ identity, (∀ e ∈ taken, e.2.identity ≠ identity) →
        after.baselines identity = collector.baselines identity := by
  induction taken generalizing collector en settled with
  | nil => exact ⟨settled, by simpa [entries] using h, nofun, fun _ _ => rfl, fun _ _ => rfl⟩
  | cons e taken ih =>
    obtain ⟨⟨hp, halive⟩, hl⟩ := forall_mem_cons.mp hl
    obtain ⟨hh, hle⟩ := forall_mem_cons.mp hle
    rw [map_cons, nodup_cons] at hno
    have hother : ∀ e' ∈ taken, e'.2.identity ≠ e.2.identity := fun e' he' heq =>
      hno.1 (mem_map.mpr ⟨e', he', heq⟩)
    have hpl : ∀ e' ∈ taken, e'.1 ≠ e.1 := by
      intro e' he' heq
      have hsa := (hl e' he').1
      rw [heq, hp] at hsa
      exact hother e' he' (congrArg identity (Option.some.inj hsa).symm)
    obtain ⟨settled', hbal, hta, hke, hba⟩ :=
      ih (h.merge ho hp halive hh current) hl hno.2 fun e' he' => by
        rw [if_neg (hother e' he').symm]
        exact hle e' he'
    refine ⟨settled', ?_, forall_mem_cons.mpr ⟨⟨?_, ?_⟩, hta⟩, fun j hj => ?_,
      fun identity hne => ?_⟩
    · have hen : (fun identity => if taken.any (·.2.identity = identity) then none
            else if e.2.identity = identity then none else en identity) =
          fun identity => if (e :: taken).any (·.2.identity = identity) then none
            else en identity := by
        funext identity
        rw [any_cons]
        by_cases hid : e.2.identity = identity
        · simp [hid]
        · rw [if_neg hid, decide_eq_false hid, Bool.false_or]
      rw [← hen]
      exact hbal
    · rw [hke e.1 hpl, Function.update_self]
    · refine (hba e.2.identity hother).trans ?_
      simp [Collector.mergeCounter]
    · obtain ⟨hne, hrest⟩ := forall_mem_cons.mp hj
      rw [hke j hrest, Function.update_of_ne hne.symm]
    · obtain ⟨hfirst, hrest⟩ := forall_mem_cons.mp hne
      refine (hba identity hrest).trans ?_
      simp [Collector.mergeCounter, hfirst.symm]

section

variable (h : Balanced start op counters collector en settled)

include h

theorem Balanced.traffic
    {later : NativeCounter} (hc : counters[k]? = some c) (halive : c.alive = true)
    (hl : c.Before later) (hli : later.alive = true) :
    Balanced start op (counters.set k later) collector en settled := by
  refine ⟨h.toAccount.later (.set hc hl fun _ => halive), h.ready, ?_, ?_, ?_, h.former⟩
  · intro j d hd hde
    rcases Lib.getElem?_set_cases hd with ⟨rfl, rfl⟩ | ⟨-, hd⟩
    · rw [hli] at hde
      cases hde
    · exact h.gone j d hd hde
  · intro j d hd hl'
    rcases Lib.getElem?_set_cases hd with ⟨rfl, rfl⟩ | ⟨-, hd⟩
    · exact hl.identity ▸ hl.role ▸ h.kept j c hc halive
    · exact h.kept j d hd hl'
  · intro identity hfr
    refine h.free identity fun d hd hl' hid => ?_
    obtain ⟨j, hj⟩ := mem_iff_getElem?.mp hd
    by_cases hjk : j = k
    · subst hjk
      obtain rfl := Option.some.inj (hc.symm.trans hj)
      refine hfr later ?_ hli (hl.identity.symm.trans hid)
      exact mem_of_getElem? (List.getElem?_set_self (List.getElem?_eq_some_iff.mp hc).1)
    · exact hfr d (mem_of_getElem? ((List.getElem?_set_ne (Ne.symm hjk)).trans hj)) hl' hid

theorem Balanced.append (hz : c.Fresh)
    (hnew : ∀ d ∈ counters, d.alive = true → d.identity ≠ c.identity) :
    Balanced start op (counters ++ [c]) collector en settled := by
  have hun := h.unborn counters.length le_rfl
  refine ⟨h.toAccount.create, h.ready, ?_, ?_, ?_, h.former⟩
  · intro j d hd hde
    rcases Lib.getElem?_concat_cases hd with hd | ⟨rfl, rfl⟩
    · exact h.gone j d hd hde
    · exact fun m => (hun m).trans (hz.count m).symm
  · intro j d hd hl'
    rcases Lib.getElem?_concat_cases hd with hd | ⟨rfl, rfl⟩
    · exact h.kept j d hd hl'
    · exact .inr ⟨hun, h.free _ hnew⟩
  · intro identity hfr
    exact h.free identity fun d hd => hfr d (mem_append_left _ hd)

theorem Balanced.delete (ho : Orderly counters) {doomed : List CounterIdentity}
    (hread : ∀ identity ∈ doomed, ∃ (k : Nat) (c : NativeCounter), counters[k]? = some c ∧
      c.alive = true ∧ c.identity = identity ∧ settled k = c.count ∧
      collector.baselines identity = some c.value ∧ ∀ m, c.count m < 2 ^ 64) :
    Balanced start op (deleteCounters counters doomed) collector
      (fun identity => if identity ∈ doomed then (findCounter counters identity).map (·.2)
        else en identity) settled := by
  have hfi : ∀ identity ∈ doomed, ∃ c, (findCounter counters identity).map (·.2) = some c ∧
      c ∈ counters ∧ c.identity = identity ∧ collector.baselines identity = some c.value ∧
      ∀ m, c.count m < 2 ^ 64 := by
    intro identity hid
    obtain ⟨k, c, hc, halive, hci, -, hbase, hbits⟩ := hread identity hid
    cases hfo : findCounter counters identity with
    | none => exact absurd hci (findCounter_none hfo (mem_of_getElem? hc) halive)
    | some found =>
      obtain ⟨j, d⟩ := found
      obtain ⟨hd, hda, hdi⟩ := findCounter_some hfo
      obtain rfl := ho.unique j k d c hd hc hda halive (hdi.trans hci.symm)
      obtain rfl := Option.some.inj (hd.symm.trans hc)
      exact ⟨d, rfl, mem_of_getElem? hc, hci, hbase, hbits⟩
  refine ⟨h.toAccount.later (later_delete counters doomed), h.ready, ?_, ?_, ?_, ?_⟩
  · intro k d hd hde m
    obtain ⟨c, hc, -, -, hki, hco⟩ := deleteCounters_later counters doomed k d hd
    rw [hco m]
    cases halive : c.alive with
    | false => exact h.gone k c hc halive m
    | true =>
      obtain ⟨j, c', hc', hal', hid', hse, -⟩ := hread _ (hki hde halive)
      obtain rfl := ho.unique j k c' c hc' hc hal' halive hid'
      rw [hse, Option.some.inj (hc'.symm.trans hc)]
  · intro k d hd hl
    obtain ⟨c, hc, -, hsp, -⟩ := deleteCounters_later counters doomed k d hd
    obtain ⟨rfl, hno⟩ := hsp hl
    rw [if_neg hno]
    exact h.kept k d hc hl
  · intro identity hfr
    by_cases hid : identity ∈ doomed
    · obtain ⟨c, hfo, -, -, hbase, -⟩ := hfi identity hid
      rw [if_pos hid, hfo, hbase]
      rfl
    · rw [if_neg hid]
      refine h.free identity fun c hc halive hci => ?_
      refine hfr c (mem_map.mpr ⟨c, hc, if_neg ?_⟩) halive hci
      simp [hci, hid]
  · intro identity d hd
    split at hd
    case isTrue hid =>
      obtain ⟨c, hfo, hc, hci, -, hbits⟩ := hfi identity hid
      obtain rfl := Option.some.inj (hfo.symm.trans hd)
      exact ⟨hci, ho.named _ hc, hbits⟩
    case isFalse => exact h.former identity d hd

end

/-! ## Complete snapshots -/

theorem isCurrent_entries_iff {taken : List (Nat × NativeCounter)} {identity : CounterIdentity} :
    isCurrent (entries true taken) identity = true ↔ ∃ e ∈ taken, e.2.identity = identity := by
  simp [isCurrent, entries]

structure Full (counters : List NativeCounter) (taken : List (Nat × NativeCounter)) : Prop where
  living : Living counters taken
  distinct : Distinct taken
  complete : ∀ c ∈ counters, c.alive = true → ∃ e ∈ taken, e.2.identity = c.identity

section Snapshots

variable {taken : List (Nat × NativeCounter)} (ho : Orderly counters) (hfull : Full counters taken)

include ho hfull

theorem Full.place (hc : counters[k]? = some c) (halive : c.alive = true) : (k, c) ∈ taken := by
  obtain ⟨e, he, hid⟩ := hfull.complete c (mem_of_getElem? hc) halive
  obtain ⟨hp, hl⟩ := hfull.living e he
  obtain rfl := ho.unique e.1 k e.2 c hp hc hl halive hid
  obtain rfl := Option.some.inj (hp.symm.trans hc)
  exact he

omit ho in
theorem Full.absent {identity : CounterIdentity}
    (hf : ∀ c ∈ counters, c.alive = true → c.identity ≠ identity) :
    ¬ isCurrent (entries true taken) identity = true := by
  rw [isCurrent_entries_iff]
  rintro ⟨e, he, hid⟩
  obtain ⟨hp, hl⟩ := hfull.living e he
  exact hf e.2 (mem_of_getElem? hp) hl hid

theorem balanced_prime :
    Balanced counters collector.totals counters (collector.primeCounters (entries true taken))
      (fun _ => none) (countAt counters) := by
  have hat : ∀ (k : Nat) c, counters[k]? = some c → countAt counters k = c.count := fun k c hc => by
    funext m
    rw [countAt, hc]
    rfl
  refine ⟨.opening fun _ => rfl, rfl, fun k c hc _ m => by rw [hat k c hc], fun k c hc halive => ?_,
    fun identity hfr => if_neg (hfull.absent hfr), fun _ _ h => by cases h⟩
  have he := hfull.place ho hc halive
  rw [hat k c hc]
  exact .inl ⟨rfl, c.value, (if_pos (isCurrent_entries_iff.mpr ⟨_, he, rfl⟩)).trans
    (sampled_entries hfull.distinct.nodup he), kept_value c⟩

/-- **A complete snapshot settles everything and forgets what is gone.** -/
theorem Balanced.snapshot (h : Balanced start op counters collector en settled)
    (hl : ∀ e ∈ taken, legible (en e.2.identity) e.2 = true) (gen : String) :
    ∃ settled', Balanced start op counters
        (collector.observeCounters (currentCounterSamples gen (snapshots gen taken)))
        (fun _ => none) settled' ∧
      ∀ s m, amounts counters settled' s m = counted counters s m := by
  have hop : Balanced start op counters
      { collector with active := isCurrent (entries true taken) } en settled :=
    ⟨h.toAccount, h.ready, h.gone, h.kept, h.free, h.former⟩
  obtain ⟨settled', hme, hse, -⟩ :=
    Balanced.mergeAll ho true taken hop hfull.living hfull.distinct.nodup hl
  refine ⟨settled', ?_, ?_⟩
  · unfold Collector.observeCounters
    rw [group_current hfull.distinct]
    dsimp only
    rw [if_neg (by simp [h.ready]), foldl_mergeCounter_active]
    refine ⟨hme.toAccount, hme.ready, hme.gone, ?_,
      fun identity hfr => if_neg (hfull.absent hfr), fun _ _ h => by cases h⟩
    intro k c hc halive
    have he := hfull.place ho hc halive
    obtain ⟨hp, hba⟩ := hse _ he
    rw [hp]
    exact .inl ⟨rfl, c.value, (if_pos (isCurrent_entries_iff.mpr ⟨_, he, rfl⟩)).trans hba,
      kept_value c⟩
  · refine fun s m => le_antisymm (hme.amounts_le s m) ?_
    rw [← amounts_countAt]
    refine amounts_mono (fun k c hc => ?_) s
    rw [countAt, hc]
    cases halive : c.alive with
    | true => exact (congrFun (hse _ (hfull.place ho hc halive)).1 m).ge
    | false => exact (hme.gone k c hc halive m).ge

end Snapshots

end Accounts

/-! ## Steps -/

def identitiesOf : Option Target → List CounterIdentity
  | none => []
  | some t => nftIdentities t

/-- The identities that living counters can have. -/
def Telemetry.owned (s : Telemetry) : List CounterIdentity :=
  match s.phase with
  | .steady => identitiesOf s.active
  | .switching candidate => identitiesOf s.active ++ identitiesOf candidate
  | .retired candidate forward | .observed candidate forward =>
      identitiesOf (s.ends candidate forward).2

/-- The accounts are open and balance, or the first complete snapshot is still to come. -/
def Balances (opening : Option (List NativeCounter × Totals)) (counters : List NativeCounter)
    (collector : Collector) (ended : CounterIdentity → Option NativeCounter) : Prop :=
  match opening with
  | none => collector.pendingBaseline = true
  | some (start, totals) => ∃ settled, Balanced start totals counters collector ended settled

/-- The living counters have identities of the list. -/
def Owned (counters : List NativeCounter) (identities : List CounterIdentity) : Prop :=
  ∀ c ∈ counters, c.alive = true → c.identity ∈ identities

structure Telemetry.Sound (s : Telemetry) : Prop where
  orderly : Orderly s.counters
  owned : Owned s.counters s.owned
  balances : Balances s.opening s.counters s.collector s.ended

/-- The counters of a target can be told from deleted ones of their names. -/
def Telemetry.Clear (s : Telemetry) (t : Target) : Prop :=
  ∀ c ∈ s.counters, c.alive = true → c.identity ∈ nftIdentities t →
    Metrics.legible (s.ended c.identity) c = true

section Steps

variable {counters : List NativeCounter} {collector : Collector}
  {en : CounterIdentity → Option NativeCounter} {op : Option (List NativeCounter × Totals)}
  {t : Target} {e : Event}

theorem Balances.imp {counters' : List NativeCounter} {collector' : Collector}
    {ended' : CounterIdentity → Option NativeCounter} (h : Balances op counters collector en)
    (hp : collector.pendingBaseline = true → collector'.pendingBaseline = true)
    (hst : ∀ start totals settled, Balanced start totals counters collector en settled →
      ∃ settled', Balanced start totals counters' collector' ended' settled') :
    Balances op counters' collector' ended' := by
  cases op with
  | none => exact hp h
  | some account =>
    obtain ⟨settled, h⟩ := h
    exact hst account.1 account.2 settled h

theorem addCounters_spec (specs : List CounterSpec)
    (how : ∀ spec ∈ specs, spec.name = counterName t.owner spec.family spec.direction spec.role)
    (ho : Orderly counters) (hb : Balances op counters collector en) :
    let after := specs.foldl (fun counters spec =>
      if (findCounter counters (nftIdentity t.table spec.name)).isSome then counters
      else counters ++ [addedCounter t.table spec]) counters
    Orderly after ∧ Balances op after collector en ∧
      ∀ c ∈ after, c.alive = true → c ∈ counters ∨
        c.identity ∈ specs.map fun spec => nftIdentity t.table spec.name := by
  induction specs generalizing counters with
  | nil => exact ⟨ho, hb, fun c hc _ => .inl hc⟩
  | cons spec specs ih =>
    obtain ⟨hna, how⟩ := forall_mem_cons.mp how
    rw [foldl_cons, map_cons]
    split
    case isTrue =>
      obtain ⟨ho', hb', hmem⟩ := ih how ho hb
      exact ⟨ho', hb', fun c hc halive => (hmem c hc halive).imp_right (mem_cons_of_mem _)⟩
    case isFalse hmi =>
      rw [Option.not_isSome_iff_eq_none] at hmi
      have hnew : ∀ d ∈ counters, d.alive = true → d.identity ≠ (addedCounter t.table spec).identity :=
        fun d hd halive => findCounter_none hmi hd halive
      have hnamed : Named (addedCounter t.table spec) :=
        ⟨t.table, spec.name, rfl, by rw [hna]; rfl, by rw [hna]; rfl, by rw [hna]; rfl⟩
      obtain ⟨ho', hb', hmem⟩ := ih how (ho.append hnamed hnew)
        (hb.imp id fun start totals settled h => ⟨_, h.append ⟨rfl, rfl⟩ hnew⟩)
      refine ⟨ho', hb', fun c hc halive => ?_⟩
      rcases hmem c hc halive with hold | hrest
      · rcases mem_append.mp hold with hold | had
        · exact .inl hold
        · rw [mem_singleton.mp had]
          exact .inr mem_cons_self
      · exact .inr (mem_cons_of_mem _ hrest)

theorem mem_obsolete {previous : Target} {next : Option Target} {identity : CounterIdentity} :
    identity ∈ obsolete previous next → identity ∈ nftIdentities previous := by
  unfold obsolete
  split
  · exact id
  · split
    · exact fun h => mem_of_mem_filter h
    · exact id

theorem spared {prev : Target} {next : Option Target} {identity : CounterIdentity}
    (h : identity ∈ identitiesOf (some prev) ++ identitiesOf next)
    (hsp : identity ∉ obsolete prev next) : identity ∈ identitiesOf next := by
  rcases mem_append.mp h with hp | hne
  · change identity ∈ nftIdentities prev at hp
    unfold obsolete at hsp
    cases next with
    | none => exact absurd hp hsp
    | some candidate =>
      dsimp only at hsp
      split at hsp
      · by_contra hno
        exact hsp (mem_filter.mpr ⟨hp, decide_eq_true hno⟩)
      · exact absurd hp hsp
  · exact hne

variable {s s' : Telemetry}

section Reads

variable {taken : List (Nat × NativeCounter)}

theorem Telemetry.Clear.reading (h : s.Clear t) (hreading : Reading t s.counters taken) :
    ∀ e ∈ taken, Metrics.legible (s.ended e.2.identity) e.2 = true := by
  intro e he
  obtain ⟨hp, halive⟩ := hreading.living e he
  exact h e.2 (mem_of_getElem? hp) halive ((hreading.identities _).mpr ⟨e, he, rfl⟩)

theorem Balanced.retire {start : List NativeCounter} {totals : Totals} {settled : Nat → Measure → Nat}
    (h : Balanced start totals s.counters s.collector s.ended settled) (ho : Orderly s.counters)
    (hreading : Reading t s.counters taken) (hc : s.Clear t) :
    let read := s.report t taken
    ∃ settled', Balanced start totals s.counters read.collector read.ended settled' ∧
      ∀ doomed, (∀ identity ∈ doomed, identity ∈ nftIdentities t) →
        Balanced start totals (read.delete doomed).counters read.collector
          (read.delete doomed).ended settled' := by
  have hl := hc.reading hreading
  obtain ⟨settled', hme, hse, -⟩ := Balanced.mergeAll ho false taken h hreading.living
    hreading.distinct.nodup hl
  have hcollector : (s.report t taken).collector =
      (entries false taken).foldl Collector.mergeCounter s.collector := by
    unfold Telemetry.report Collector.counterRetired
    rw [if_neg (by simp [h.ready]), group_retired hreading.distinct]
  dsimp only
  rw [hcollector]
  refine ⟨settled', hme, fun doomed hd => ?_⟩
  refine hme.delete ho fun identity hid => ?_
  obtain ⟨e, he, rfl⟩ := (hreading.identities identity).mp (hd identity hid)
  obtain ⟨hp, halive⟩ := hreading.living e he
  obtain ⟨hla, hba⟩ := hse e he
  exact ⟨e.1, e.2, hp, halive, rfl, hla, hba,
    fun m => (legible_iff.mp (hl e he) m).1⟩

end Reads

theorem retire_cases {prev next : Option Target} {present deleted : Bool}
    (h : s.retire prev next present deleted = some s') (hnamed : ∀ c ∈ s.counters, Named c) :
    (s' = s ∧ ∀ c ∈ s.counters, c.alive = true → c.identity ∉ identitiesOf prev) ∨
    ∃ t taken, prev = some t ∧ present = true ∧ Reading t s.counters taken ∧
      s' = if deleted then (s.report t taken).delete (obsolete t next) else s.report t taken := by
  unfold Telemetry.retire at h
  cases prev with
  | none =>
    dsimp only at h
    split at h
    · exact .inl ⟨(Option.some.inj h).symm, fun _ _ _ => not_mem_nil⟩
    · cases h
  | some t =>
    dsimp only at h
    split at h
    case isTrue =>
      split at h
      case isTrue hab =>
        rw [Bool.and_eq_true, all_eq_true] at hab
        refine .inl ⟨(Option.some.inj h).symm, fun c hc halive hid => ?_⟩
        have hno := hab.2 _ hid
        rw [Option.isNone_iff_eq_none] at hno
        exact findCounter_none hno hc halive rfl
      case isFalse => cases h
    case isFalse hp =>
      split at h
      · cases h
      case h_2 taken hread =>
        exact .inr ⟨t, taken, rfl, by simpa using hp, nftCounterSnapshots_ok hnamed hread,
          (Option.some.inj h).symm⟩

theorem retire_spec {prev next : Option Target} {present deleted : Bool}
    (h : s.retire prev next present deleted = some s') (ho : Orderly s.counters)
    (hb : Balances s.opening s.counters s.collector s.ended)
    (how : Owned s.counters (identitiesOf prev ++ identitiesOf next))
    (hcl : s.collector.pendingBaseline = false → present = true → ∀ t, prev = some t →
      s.Clear t) :
    Orderly s'.counters ∧ Balances s'.opening s'.counters s'.collector s'.ended ∧
      s'.active = s.active ∧ Owned s'.counters (identitiesOf prev ++ identitiesOf next) ∧
      (deleted = true → Owned s'.counters (identitiesOf next)) := by
  rcases retire_cases h ho.named with ⟨rfl, hab⟩ | ⟨t, taken, rfl, hp, hreading, rfl⟩
  · refine ⟨ho, hb, rfl, how, fun _ c hc halive => ?_⟩
    exact (mem_append.mp (how c hc halive)).resolve_left (hab c hc halive)
  have hba : s.collector.pendingBaseline = true →
      (s.report t taken).collector.pendingBaseline = true := fun hpe => by
    simp [Telemetry.report, Collector.counterRetired, hpe]
  cases deleted with
  | false =>
    refine ⟨ho, hb.imp hba fun start totals settled hbal => ?_, rfl, how, nofun⟩
    obtain ⟨settled', hre, -⟩ := hbal.retire ho hreading (hcl hbal.ready hp t rfl)
    exact ⟨settled', hre⟩
  | true =>
    have hl : ∀ c ∈ ((s.report t taken).delete (obsolete t next)).counters,
        c.alive = true → c ∈ s.counters ∧ c.identity ∉ obsolete t next := by
      intro d hd halive
      obtain ⟨k, hk⟩ := mem_iff_getElem?.mp hd
      obtain ⟨c, hc, -, hsp, -⟩ := deleteCounters_later _ _ k d hk
      obtain ⟨rfl, hno⟩ := hsp halive
      exact ⟨mem_of_getElem? hc, hno⟩
    refine ⟨ho.later (later_delete _ _), hb.imp hba fun start totals settled hbal => ?_, rfl,
      fun c hc halive => how c (hl c hc halive).1 halive, fun _ c hc halive => ?_⟩
    · obtain ⟨settled', -, hde⟩ := hbal.retire ho hreading (hcl hbal.ready hp t rfl)
      exact ⟨settled', hde _ fun _ => mem_obsolete⟩
    · obtain ⟨hmem, hno⟩ := hl c hc halive
      exact spared (how c hmem halive) hno

theorem clear_of_reads (h : s.legible e = true) (ht : s.reads e = some t)
    (hre : s.collector.pendingBaseline = false) : s.Clear t := by
  intro c hc halive hid
  rw [Telemetry.legible, hre, ht, Bool.false_or, Option.all_some, all_eq_true] at h
  have hc' := h c hc
  simpa [halive, hid] using hc'

section

variable (hs : s.Sound)

include hs

theorem Telemetry.Sound.owned_open {candidate : Option Target}
    (hop : s.phase.open? = some candidate) (forward : Bool) :
    Owned s.counters (identitiesOf (s.ends candidate forward).1 ++
      identitiesOf (s.ends candidate forward).2) := by
  intro c hc halive
  have hbo : c.identity ∈ identitiesOf s.active ∨ c.identity ∈ identitiesOf candidate := by
    have how := hs.owned c hc halive
    unfold Telemetry.owned at how
    cases hp : s.phase with
    | steady => simp [hp, Phase.open?] at hop
    | retired candidate' forward' => simp [hp, Phase.open?] at hop
    | switching candidate' =>
      obtain rfl : candidate' = candidate := by simpa [hp, Phase.open?] using hop
      rw [hp] at how
      exact mem_append.mp how
    | observed candidate' forward' =>
      obtain rfl : candidate' = candidate := by simpa [hp, Phase.open?] using hop
      rw [hp] at how
      cases forward' with
      | true => exact .inr how
      | false => exact .inl how
  rw [mem_append]
  cases forward with
  | true => exact hbo
  | false => exact hbo.symm

theorem Telemetry.Sound.traffic {place packets bytes : Nat}
    (h : s.step (.traffic place packets bytes) = some s') : s'.Sound := by
  rw [Telemetry.step] at h
  split at h
  case h_1 c hc =>
    split at h
    case isTrue halive =>
      obtain rfl := Option.some.inj h
      have hl : c.Before { c with packets := c.packets + packets, bytes := c.bytes + bytes } :=
        ⟨rfl, rfl, rfl, rfl, Nat.le_add_right _ _, Nat.le_add_right _ _⟩
      refine ⟨hs.orderly.later (.set hc hl fun _ => halive), fun d hd hli => ?_, hs.balances.imp id
        fun start totals settled hba => ⟨settled, hba.traffic hc halive hl halive⟩⟩
      rcases mem_or_eq_of_mem_set hd with hd | rfl
      · exact hs.owned d hd hli
      · exact hs.owned c (mem_of_getElem? hc) halive
    case isFalse => cases h
  · cases h

theorem Telemetry.Sound.prepare {cand : Option Target}
    (h : s.step (.prepare cand) = some s') : s'.Sound := by
  rw [Telemetry.step] at h
  split at h
  case h_1 hp =>
    obtain rfl := Option.some.inj h
    refine ⟨hs.orderly, fun c hc halive => mem_append_left _ ?_, hs.balances⟩
    have how := hs.owned c hc halive
    rwa [Telemetry.owned, hp] at how
  · cases h

theorem Telemetry.Sound.apply {forward : Bool}
    (h : s.step (.apply forward) = some s') : s'.Sound := by
  rw [Telemetry.step] at h
  split at h
  · cases h
  case h_2 candidate hop =>
    have how := hs.owned_open hop true
    split at h
    case h_1 =>
      obtain rfl := Option.some.inj h
      exact ⟨hs.orderly, how, hs.balances⟩
    case h_2 t hta =>
      split at h
      case isTrue hown =>
        obtain rfl := Option.some.inj h
        simp only [ownCounters, all_eq_true, decide_eq_true_eq] at hown
        obtain ⟨hor, hba, hmem⟩ := addCounters_spec t.counters hown hs.orderly hs.balances
        refine ⟨hor, fun c hc halive => ?_, hba⟩
        rcases hmem c hc halive with hold | had
        · exact how c hold halive
        · -- what is applied is one of the two targets
          have hid : c.identity ∈ identitiesOf (s.ends candidate forward).2 := hta ▸ had
          refine mem_append.mpr ?_
          cases forward with
          | true => exact .inr hid
          | false => exact .inl hid
      case isFalse => cases h

theorem Telemetry.Sound.retire {forward present deleted : Bool}
    (h : s.step (.retire forward present deleted) = some s')
    (hl : s.legible (.retire forward present deleted) = true) : s'.Sound := by
  rw [Telemetry.step] at h
  split at h
  · cases h
  case h_2 candidate hop =>
    obtain ⟨after, hre, rfl⟩ := Option.map_eq_some_iff.mp h
    have hrea : present = true → ∀ t, (s.ends candidate forward).1 = some t →
        s.reads (.retire forward present deleted) = some t := by
      rintro rfl t ht
      simp [Telemetry.reads, hop, ht]
    obtain ⟨hor, hba, hac, hbo, hne⟩ := retire_spec hre hs.orderly hs.balances
      (hs.owned_open hop forward)
      fun hready hp t ht => clear_of_reads hl (hrea hp t ht) hready
    refine ⟨hor, fun c hc halive => ?_, hba⟩
    have hen : ∀ f, after.ends candidate f = s.ends candidate f := fun f => by
      rw [Telemetry.ends, Telemetry.ends, hac]
    unfold Telemetry.owned
    cases deleted with
    | false =>
      have hmem := mem_append.mp (hbo c hc halive)
      rw [← hen] at hmem
      refine mem_append.mpr ?_
      cases forward with
      | true => exact hmem
      | false => exact hmem.symm
    | true =>
      have hmem := hne rfl c hc halive
      rw [← hen] at hmem
      cases hsome : (s.ends candidate forward).2.isSome with
      | true => exact hmem
      | false => exact hmem

theorem Telemetry.Sound.collect (h : s.step .collect = some s') : s'.Sound := by
  obtain rfl := Option.some.inj h
  exact ⟨hs.orderly, hs.owned, rfl⟩

theorem Telemetry.Sound.finish (h : s.step .finish = some s') : s'.Sound := by
  rw [Telemetry.step] at h
  split at h
  case h_1 candidate forward hp =>
    obtain rfl := Option.some.inj h
    refine ⟨hs.orderly, fun c hc halive => ?_, hs.balances⟩
    have how := hs.owned c hc halive
    rwa [Telemetry.owned, hp] at how
  · cases h

/-- The accounts after a complete snapshot: all that was counted is settled. -/
structure Telemetry.Settled (s : Telemetry) : Prop where
  sound : s.Sound
  settled : ∃ start totals, s.opening = some (start, totals) ∧
    ∀ series m, counted start series m ≤ counted s.counters series m ∧
      (counted s.counters series m ≤ counted start series m + 2 ^ 53 →
        s.collector.totals series m + counted start series m =
          totals series m + counted s.counters series m)

theorem Telemetry.Sound.snapshot (h : s.observe t = some s')
    (how : Owned s.counters (nftIdentities t))
    (hcl : s.collector.pendingBaseline = false → s.Clear t) :
    ∃ taken, s' = s.snapshot t taken ∧
      ∀ phase, nftIdentities t = Telemetry.owned { s' with phase } →
        Telemetry.Settled { s' with phase } := by
  unfold Telemetry.observe at h
  split at h
  · cases h
  case h_2 taken hread =>
    obtain rfl := Option.some.inj h
    have hreading := nftCounterSnapshots_ok hs.orderly.named hread
    have hfull : Full s.counters taken := ⟨hreading.living, hreading.distinct,
      fun c hc halive => (hreading.identities _).mp (how c hc halive)⟩
    have hac : ∃ start totals settled, (s.snapshot t taken).opening = some (start, totals) ∧
        Balanced start totals s.counters (s.snapshot t taken).collector (fun _ => none) settled ∧
        ∀ series m, amounts s.counters settled series m = counted s.counters series m := by
      cases hp : s.collector.pendingBaseline with
      | true =>
        have hcollector : (s.snapshot t taken).collector =
            s.collector.primeCounters (entries true taken) := by
          unfold Telemetry.snapshot Collector.observeCounters
          simp only [hp, if_true, group_current hreading.distinct]
        refine ⟨s.counters, s.collector.totals, countAt s.counters, if_pos hp, ?_, amounts_countAt⟩
        rw [hcollector]
        exact balanced_prime hs.orderly hfull
      | false =>
        have hb := hs.balances
        cases hop : s.opening with
        | none =>
          rw [hop] at hb
          exact absurd (hp.symm.trans hb) (by decide)
        | some account =>
          rw [hop] at hb
          obtain ⟨settled, hba⟩ := hb
          obtain ⟨settled', hsn, hco⟩ := hba.snapshot hs.orderly hfull
            ((hcl hp).reading hreading) (hex t.generation)
          refine ⟨account.1, account.2, settled', ?_, hsn, hco⟩
          exact (if_neg (by simp [hp])).trans hop
    obtain ⟨start, totals, settled, hop, hba, hco⟩ := hac
    refine ⟨taken, rfl, fun phase hph => ⟨⟨hs.orderly, hph ▸ how, ?_⟩, start, totals,
      hop, fun series m => ?_⟩⟩
    · change Balances (s.snapshot t taken).opening _ _ _
      rw [hop]
      exact ⟨settled, hba⟩
    · change _ ≤ counted s.counters series m ∧ (counted s.counters series m ≤ _ →
        _ = _ + counted s.counters series m)
      rw [← hco]
      exact ⟨hba.floor series m, hba.balance series m⟩

theorem Telemetry.Sound.observe (h : s.step .observe = some s')
    (hl : s.legible .observe = true) : s'.Settled := by
  rw [Telemetry.step] at h
  split at h
  case h_1 candidate forward hp =>
    split at h
    · cases h
    case h_2 t hta =>
      obtain ⟨after, hob, rfl⟩ := Option.map_eq_some_iff.mp h
      have how : s.owned = nftIdentities t := by
        rw [Telemetry.owned, hp]
        dsimp only
        rw [hta]
        rfl
      have hre : s.reads .observe = some t := by simp [Telemetry.reads, hp, hta]
      obtain ⟨taken, rfl, hse⟩ := hs.snapshot hob (how ▸ hs.owned) (clear_of_reads hl hre)
      exact hse _ (congrArg identitiesOf hta).symm
  · cases h

theorem Telemetry.Sound.sample (h : s.step .sample = some s')
    (hl : s.legible .sample = true) : s'.Settled := by
  rw [Telemetry.step] at h
  split at h
  case h_1 t hp hac =>
    have how : s.owned = nftIdentities t := by
      rw [Telemetry.owned, hp, hac]
      rfl
    obtain ⟨taken, rfl, hse⟩ := hs.snapshot h (how ▸ hs.owned) (clear_of_reads hl hac)
    exact hse s.phase how.symm
  · cases h

/-- **Every legible step keeps the accounts.** -/
theorem Telemetry.Sound.step (h : s.step e = some s') (hl : s.legible e = true) : s'.Sound := by
  cases e with
  | traffic place packets bytes => exact hs.traffic h
  | prepare candidate => exact hs.prepare h
  | apply forward => exact hs.apply h
  | retire forward present deleted => exact hs.retire h hl
  | observe => exact (hs.observe h hl).sound
  | finish => exact hs.finish h
  | sample => exact (hs.sample h hl).sound
  | collect => exact hs.collect h

theorem Telemetry.Sound.complete (h : s.step e = some s')
    (hcomplete : e.complete = true) (hl : s.legible e = true) : s'.Settled := by
  cases e with
  | observe => exact hs.observe h hl
  | sample => exact hs.sample h hl
  | traffic | prepare | apply | retire | finish | collect => cases hcomplete

theorem Telemetry.Sound.run {evs : List Event}
    (h : s.run evs = some s') (hl : s.legibleRun (evs ++ [e]) = true) :
    s'.Sound ∧ s'.legible e = true := by
  induction evs generalizing s with
  | nil =>
    obtain rfl := Option.some.inj h
    rw [nil_append, Telemetry.legibleRun, Bool.and_eq_true] at hl
    exact ⟨hs, hl.1⟩
  | cons first evs ih =>
    obtain ⟨next, hst, hru⟩ := Option.bind_eq_some_iff.mp h
    rw [cons_append, Telemetry.legibleRun, Bool.and_eq_true, hst, Option.all_some] at hl
    exact ih (hs.step hst hl.1) hru hl.2

end

end Steps

/-! ## Totals and retirements -/

/-- Collection is about to begin, on whatever is installed. -/
structure Telemetry.Begins (s : Telemetry) : Prop where
  orderly : Orderly s.counters
  owned : ∀ c ∈ s.counters, c.alive = true → c.identity ∈ s.owned
  pending : s.collector.pendingBaseline = true
  unopened : s.opening = none

/-- **Totals survive retirement exactly.** In a run of applies, migrations and retirements in which
every native read succeeds, after each complete snapshot every total has grown since collection began
by exactly what all counters of its label set have counted, as long as the total is a number a
`float64` holds exactly and every reading tells a counter from a deleted one of its name. -/
theorem totals_exact {s₀ s s' : Telemetry} {events : List Event} {e : Event} (hbegins : s₀.Begins)
    (hrun : s₀.run events = some s) (hstep : s.step e = some s') (hcomplete : e.complete = true)
    (hlegible : s₀.legibleRun (events ++ [e]) = true) :
    ∃ start totals, s'.opening = some (start, totals) ∧ ∀ series m,
      totals series m + (counted s'.counters series m - counted start series m) ≤ 2 ^ 53 →
        s'.collector.totals series m =
          totals series m + (counted s'.counters series m - counted start series m) := by
  have hso : s₀.Sound := by
    refine ⟨hbegins.orderly, hbegins.owned, ?_⟩
    rw [hbegins.unopened]
    exact hbegins.pending
  obtain ⟨hs, hl⟩ := hso.run hrun hlegible
  obtain ⟨start, totals, hop, hse⟩ := (hs.complete hstep hcomplete hl).settled
  refine ⟨start, totals, hop, fun series m hra => ?_⟩
  obtain ⟨hf, hexa⟩ := hse series m
  have := hexa (by omega)
  omega

/-! ## A counter that is created again -/

/-- A target with the counter of inbound IPv4 traffic. -/
def inboundTarget : Target where
  owner := 0
  table := "perimeterd"
  priority := 0
  generation := 0
  families := []
  counters := [⟨counterName 0 .ipv4 .ingress .processed, .ipv4, .ingress, .processed⟩]

/-- Nothing is installed and collection has just been asked for. -/
def uninstalled : Telemetry where
  counters := []
  collector := ⟨true, fun _ => none, fun _ => false, fun _ _ => 0⟩
  active := none
  phase := .steady
  opening := none
  ended := fun _ => none

/-- The target is installed and its counter counts, it is retired to the empty state, it is installed
again and the new counter counts before the snapshot. -/
def recreation (packets packets' : Nat) : List Event :=
  [.prepare (some inboundTarget), .apply true, .retire true true true, .observe, .finish,
    .traffic 0 packets (60 * packets),
    .prepare none, .apply true, .retire true true true, .finish,
    .prepare (some inboundTarget), .apply true, .traffic 1 packets' (60 * packets'),
    .retire true true true]

theorem uninstalled_begins : uninstalled.Begins :=
  ⟨⟨by simp [uninstalled], by simp [uninstalled]⟩, by simp [uninstalled], rfl, rfl⟩

/-- What the counters of a label set have counted since collection began, and what the total has grown
by. -/
def Telemetry.growth (s : Telemetry) (series : Series) (m : Measure) : Option (Nat × Nat) :=
  s.opening.map fun account =>
    (counted s.counters series m - counted account.1 series m,
      s.collector.totals series m - account.2 series m)

/-- The target is installed and its counter counts until the next sample. -/
def counting (packets : Nat) : List Event :=
  [.prepare (some inboundTarget), .apply true, .retire true true true, .observe, .finish,
    .traffic 0 packets (60 * packets), .sample]

theorem totals_not_always_exact :
    let growth (events : List Event) := (uninstalled.run events).bind
      (·.growth (.processed .nftables .ipv4 .ingress) .packets)
    growth (recreation 1 1 ++ [.observe]) = some (2, 1) ∧
      growth (counting (2 ^ 53 + 1)) = some (2 ^ 53 + 1, 2 ^ 53) ∧
      growth (counting (2 ^ 64)) = some (2 ^ 64, 0) := by
  decide +kernel

theorem totals_exact_recreated :
    ∃ s s' start totals, uninstalled.run (recreation 5 3) = some s ∧ s.step .observe = some s' ∧
      s'.opening = some (start, totals) ∧ ∀ series m,
        totals series m + (counted s'.counters series m - counted start series m) ≤ 2 ^ 53 →
          s'.collector.totals series m =
            totals series m + (counted s'.counters series m - counted start series m) := by
  have hl : ((uninstalled.run (recreation 5 3)).bind (·.step .observe)).isSome = true := by
    decide +kernel
  obtain ⟨s', hs'⟩ := Option.isSome_iff_exists.mp hl
  obtain ⟨s, hs, hst⟩ := Option.bind_eq_some_iff.mp hs'
  obtain ⟨start, totals, hop, hexa⟩ :=
    totals_exact uninstalled_begins hs hst rfl (by decide +kernel)
  exact ⟨s, s', start, totals, hs, hst, hop, hexa⟩

end Perimeterd.Metrics
