import Perimeterd.Lib.Interval
import Perimeterd.Lib.Marshal
import Perimeterd.Prefix.Range

/-!
# Observed set contents

`setElementsComplete` of `internal/firewall/nftables_model.go`: whether the elements nft lists for a
set are the prefixes of the target. nft lists addresses, prefixes and ranges, in any order and merged
as it likes. Both sides are merged in one way and compared, so what counts is the addresses
(`setElementsComplete_iff`).

What an element stands for is said apart from how the code reads it: `SetElement.WellFormed` and
`SetElement.Holds` speak of texts, prefixes and the order of addresses, not of merged intervals.
-/

namespace Perimeterd.Firewall

open Lib List

structure AddressInterval where
  start : Addr
  stop : Addr
deriving DecidableEq

def prefixInterval (p : Prefix) : AddressInterval := ⟨p.masked.addr, p.masked.prefixEnd⟩

/-- The order `mergeIntervals` sorts by. -/
def AddressInterval.less (a b : AddressInterval) : Bool :=
  if a.start.compare b.start ≠ .eq then a.start.compare b.start = .lt
  else a.stop.compare b.stop = .lt

/-- The loop of `mergeIntervals`; `previous` is the interval at the end of the result. -/
def mergeInto (previous : AddressInterval) : List AddressInterval → List AddressInterval
  | [] => [previous]
  | current :: rest =>
      if current.start.compare previous.stop ≠ .gt ∨ previous.stop.next = some current.start then
        mergeInto (if current.stop.compare previous.stop = .gt then ⟨previous.start, current.stop⟩
          else previous) rest
      else previous :: mergeInto current rest

def mergeIntervals (intervals : List AddressInterval) : List AddressInterval :=
  if intervals.length < 2 then intervals
  else Interval.mergeBy AddressInterval.less mergeInto intervals

/-- An element as nft lists it, once its JSON has been taken apart. -/
inductive SetElement where
  | address (text : String)
  | network (text : String) (length : Int)
  | range (first last : String)
  | other

section Reading

-- `ParseAddr`: the address and its zone
variable (parseAddr : String → Option (Addr × String)) (family : Family)

def parseObservedAddress (text : String) : Option Addr :=
  (parseAddr text).bind fun (address, zone) =>
    if zone ≠ "" ∨ address.family ≠ family then none else some address

/-- `parseObservedInterval`, without the texts of its errors: only that there is one is used. -/
def parseObservedInterval : SetElement → Option AddressInterval
  | .address text => (parseObservedAddress parseAddr family text).map fun a => ⟨a, a⟩
  | .network text bits =>
      (parseObservedAddress parseAddr family text).bind fun address =>
        if h : 0 ≤ bits ∧ bits ≤ address.family.width then
          some (prefixInterval ⟨address, bits.toNat, Int.toNat_le.mpr h.2⟩)
        else none
  | .range first last =>
      (parseObservedAddress parseAddr family first).bind fun start =>
        (parseObservedAddress parseAddr family last).bind fun stop =>
          if start.compare stop = .gt then none else some ⟨start, stop⟩
  | .other => none

/-- `setElementsComplete`; the listing may have no elements at all, or none that can be read. -/
def setElementsComplete (observed : Option (Option (List SetElement))) (expected : List Prefix) :
    Bool :=
  match observed with
  | none => expected = []
  | some none => false
  | some (some elements) =>
      if expected = [] then elements.isEmpty
      else if elements.isEmpty then false
      else
        match Codec.each (parseObservedInterval parseAddr family) elements with
        | none => false
        | some actual => mergeIntervals actual = mergeIntervals (expected.map prefixInterval)

end Reading

/-! ## Merging -/

namespace AddressInterval

variable {i : AddressInterval}

def Holds (i : AddressInterval) (a : Addr) : Prop :=
  i.start.compare a ≠ .gt ∧ a.compare i.stop ≠ .gt

def Proper (i : AddressInterval) : Prop :=
  i.start.family = i.stop.family ∧ i.start.point ≤ i.stop.point

def points (i : AddressInterval) : Interval := ⟨i.start.point, i.stop.point⟩

theorem points_injective : Function.Injective points := by
  rintro ⟨a, b⟩ ⟨c, d⟩ h
  simp only [points, Interval.mk.injEq] at h
  rw [Addr.point_inj h.1, Addr.point_inj h.2]

theorem holds_iff {a : Addr} : i.Holds a ↔ i.points.lo ≤ a.point ∧ a.point ≤ i.points.hi := by
  simp [Holds, points, Addr.compare_gt]

theorem Proper.exists_addr (h : i.Proper) {x : Nat} (hx : i.points.lo ≤ x ∧ x ≤ i.points.hi) :
    ∃ a : Addr, a.point = x := by
  have hst : i.start.family.base ≤ i.points.lo := Nat.le_add_right _ _
  have hlt := i.stop.point_lt
  rw [← h.1] at hlt
  obtain ⟨a, -, ha⟩ := Prefix.exists_addr_of_point (hst.trans hx.1) (hx.2.trans_lt hlt)
  exact ⟨a, ha⟩

end AddressInterval

open AddressInterval

theorem next_eq_some_iff {a b : Addr} : a.next = some b ↔ b.point = a.point + 1 := by
  unfold Addr.next
  split
  case isTrue h =>
    rw [Option.some.injEq]
    exact ⟨fun heq => heq ▸ rfl, fun heq => Addr.point_inj heq.symm⟩
  case isFalse h =>
    refine iff_of_false (by simp) fun heq => ?_
    have ha := a.lt
    have hb := b.lt
    cases hf : a.family <;> cases hg : b.family <;>
      simp only [Addr.point, hf, hg, Family.base, Family.width] at h heq ha hb <;> omega

variable {l m : List AddressInterval} {p : Prefix} {a : Addr}

theorem mergeIntervals_points (l : List AddressInterval) :
    (mergeIntervals l).map points = Interval.merge (l.map points) := by
  have hme : (Interval.mergeBy AddressInterval.less mergeInto l).map points =
      Interval.merge (l.map points) := by
    refine Interval.mergeBy_map points _ mergeInto (fun a b => ?_) (fun _ => rfl)
      (fun a b l => ⟨if b.stop.compare a.stop = .gt then ⟨a.start, b.stop⟩ else a, ?_, ?_⟩) l
    · rw [AddressInterval.less, Addr.compare_eq, Addr.compare_eq]
      simp only [ne_eq, Nat.compare_eq_lt]
      exact if_congr (not_congr Nat.compare_eq_eq.symm) rfl rfl
    · rw [apply_ite points]
      exact if_congr Addr.compare_gt rfl rfl
    · rw [mergeInto]
      refine if_congr ?_ rfl rfl
      rw [ne_eq, Addr.compare_gt, next_eq_some_iff]
      simp only [points]
      omega
  unfold mergeIntervals
  split
  case isTrue hlt =>
    rw [← hme]
    match l, hlt with
    | [], _ => rfl
    | [a], _ => rfl
  case isFalse => exact hme

/-- **Intervals merge alike iff they hold the same addresses.** -/
theorem mergeIntervals_eq_iff (hl : ∀ i ∈ l, i.Proper) (hm : ∀ i ∈ m, i.Proper) :
    mergeIntervals l = mergeIntervals m ↔ ∀ a, (∃ i ∈ l, i.Holds a) ↔ ∃ i ∈ m, i.Holds a := by
  have hho : ∀ (l : List AddressInterval) x,
      Interval.Holds (l.map points) x ↔ ∃ i ∈ l, i.points.lo ≤ x ∧ x ≤ i.points.hi := by
    simp [Interval.Holds]
  rw [← (map_injective_iff.mpr points_injective).eq_iff, mergeIntervals_points,
    mergeIntervals_points, Interval.merge_eq_iff (forall_mem_map.mpr fun i hi => (hl i hi).2)
      (forall_mem_map.mpr fun i hi => (hm i hi).2)]
  simp only [holds_iff, hho]
  refine ⟨fun h a => h a.point, fun h x => ?_⟩
  -- a number that is no address is in neither
  by_cases hx : ∃ a : Addr, a.point = x
  · obtain ⟨a, rfl⟩ := hx
    exact h a
  · apply iff_of_false
    · rintro ⟨i, hi, hh⟩
      exact hx ((hl i hi).exists_addr hh)
    · rintro ⟨i, hi, hh⟩
      exact hx ((hm i hi).exists_addr hh)

theorem holds_prefixInterval : (prefixInterval p).Holds a ↔ p.contains a = true := by
  have hend := p.masked.prefixEnd_point
  rw [Prefix.masked_block] at hend
  rw [holds_iff, Prefix.contains_iff, Block.mem_iff, ← p.masked_point, ← hend, Nat.lt_succ_iff]
  rfl

theorem prefixInterval_proper (p : Prefix) : (prefixInterval p).Proper :=
  ⟨rfl, (holds_iff.mp (holds_prefixInterval.mpr p.contains_addr)).elim le_trans⟩

/-! ## Elements -/

section Meaning

variable (parseAddr : String → Option (Addr × String)) (family : Family)

/-- The text is an address of the family, without a zone. -/
def ReadsAs (text : String) (a : Addr) : Prop :=
  parseAddr text = some (a, "") ∧ a.family = family

/-- A network may have host bits; a range runs forward. -/
def SetElement.WellFormed : SetElement → Prop
  | .address text => ∃ a, ReadsAs parseAddr family text a
  | .network text bits => (∃ a, ReadsAs parseAddr family text a) ∧ 0 ≤ bits ∧ bits ≤ family.width
  | .range first last => ∃ s t, ReadsAs parseAddr family first s ∧ ReadsAs parseAddr family last t ∧
      s.compare t ≠ .gt
  | .other => False

/-- The addresses an element stands for: an address, the network of a prefix, or what lies between
the ends of a range, both included. -/
def SetElement.Holds (a : Addr) : SetElement → Prop
  | .address text => ReadsAs parseAddr family text a
  | .network text bits => ∃ p : Prefix, ReadsAs parseAddr family text p.addr ∧ p.bits = bits ∧
      p.contains a = true
  | .range first last => ∃ s t, ReadsAs parseAddr family first s ∧ ReadsAs parseAddr family last t ∧
      s.compare a ≠ .gt ∧ a.compare t ≠ .gt
  | .other => False

end Meaning

variable {parseAddr : String → Option (Addr × String)} {family : Family} {e : SetElement}
  {i : AddressInterval} {elements : List SetElement} {intervals : List AddressInterval}

theorem parseObservedAddress_eq_some {text : String} :
    parseObservedAddress parseAddr family text = some a ↔ ReadsAs parseAddr family text a := by
  constructor
  · intro h
    obtain ⟨⟨address, zone⟩, hpa, h⟩ := Option.bind_eq_some_iff.mp h
    obtain ⟨hno, h⟩ := Option.ite_none_left_eq_some.mp h
    cases h
    obtain ⟨hzone, hfamily⟩ := not_or.mp hno
    rw [not_not.mp hzone] at hpa
    exact ⟨hpa, not_not.mp hfamily⟩
  · rintro ⟨hpa, hfamily⟩
    simp [parseObservedAddress, hpa, hfamily]

theorem ReadsAs.inj {text : String} {b : Addr} (h : ReadsAs parseAddr family text a)
    (h' : ReadsAs parseAddr family text b) : a = b := by
  cases h.1.symm.trans h'.1
  rfl

/-- **What is read of an element is what it stands for.** -/
theorem parseObservedInterval_spec (h : parseObservedInterval parseAddr family e = some i) :
    i.Proper ∧ e.WellFormed parseAddr family ∧ ∀ a, i.Holds a ↔ e.Holds parseAddr family a := by
  cases e with
  | address text =>
    obtain ⟨b, hb, rfl⟩ := Option.map_eq_some_iff.mp h
    rw [parseObservedAddress_eq_some] at hb
    refine ⟨⟨rfl, le_rfl⟩, ⟨b, hb⟩, fun a => ?_⟩
    rw [holds_iff]
    constructor
    · intro hab
      rwa [← Addr.point_inj (le_antisymm hab.1 hab.2)]
    · intro ha
      rw [hb.inj ha]
      exact ⟨le_rfl, le_rfl⟩
  | network text bits =>
    obtain ⟨b, hb, h⟩ := Option.bind_eq_some_iff.mp h
    rw [parseObservedAddress_eq_some] at hb
    split at h
    case isFalse => cases h
    case isTrue hbits =>
      cases h
      refine ⟨prefixInterval_proper _, ⟨⟨b, hb⟩, hb.2 ▸ hbits⟩, fun a => ?_⟩
      rw [holds_prefixInterval]
      constructor
      · intro ha
        exact ⟨_, hb, Int.toNat_of_nonneg hbits.1, ha⟩
      · rintro ⟨⟨q, n, hn⟩, hq, hlen, ha⟩
        obtain rfl := hb.inj hq
        obtain rfl : n = bits.toNat := by
          simp only at hlen
          omega
        exact ha
  | range first last =>
    obtain ⟨s, hs, h⟩ := Option.bind_eq_some_iff.mp h
    obtain ⟨t, ht, h⟩ := Option.bind_eq_some_iff.mp h
    obtain ⟨hle, h⟩ := Option.ite_none_left_eq_some.mp h
    cases h
    rw [parseObservedAddress_eq_some] at hs ht
    refine ⟨⟨hs.2.trans ht.2.symm, not_lt.mp (Addr.compare_gt.not.mp hle)⟩, ⟨s, t, hs, ht, hle⟩,
      fun a => ?_⟩
    constructor
    · intro ha
      exact ⟨s, t, hs, ht, ha⟩
    · rintro ⟨s', t', hs', ht', ha⟩
      rwa [AddressInterval.Holds, hs.inj hs', ht.inj ht']
  | other => cases h

theorem SetElement.WellFormed.read (h : e.WellFormed parseAddr family) :
    ∃ i, parseObservedInterval parseAddr family e = some i := by
  cases e with
  | address text =>
    obtain ⟨a, ha⟩ := h
    exact ⟨_, Option.map_eq_some_iff.mpr ⟨a, parseObservedAddress_eq_some.mpr ha, rfl⟩⟩
  | network text bits =>
    obtain ⟨⟨a, ha⟩, hbits⟩ := h
    rw [← ha.2] at hbits
    exact ⟨_, Option.bind_eq_some_iff.mpr ⟨a, parseObservedAddress_eq_some.mpr ha, dif_pos hbits⟩⟩
  | range first last =>
    obtain ⟨s, t, hs, ht, hle⟩ := h
    exact ⟨_, Option.bind_eq_some_iff.mpr ⟨s, parseObservedAddress_eq_some.mpr hs,
      Option.bind_eq_some_iff.mpr ⟨t, parseObservedAddress_eq_some.mpr ht, if_neg hle⟩⟩⟩
  | other => cases h

/-- A list of elements and the intervals read of them. -/
abbrev AllRead (parseAddr : String → Option (Addr × String)) (family : Family) :
    List SetElement → List AddressInterval → Prop :=
  List.Forall₂ fun e i => parseObservedInterval parseAddr family e = some i

theorem exists_allRead (h : ∀ e ∈ elements, e.WellFormed parseAddr family) :
    ∃ intervals, AllRead parseAddr family elements intervals := by
  induction elements with
  | nil => exact ⟨[], .nil⟩
  | cons e rest ih =>
    rw [forall_mem_cons] at h
    obtain ⟨i, hi⟩ := h.1.read
    obtain ⟨intervals, hre⟩ := ih h.2
    exact ⟨i :: intervals, .cons hi hre⟩

theorem AllRead.spec (h : AllRead parseAddr family elements intervals) :
    (∀ i ∈ intervals, i.Proper) ∧ (∀ e ∈ elements, e.WellFormed parseAddr family) ∧
      ∀ a, (∃ i ∈ intervals, i.Holds a) ↔ ∃ e ∈ elements, e.Holds parseAddr family a := by
  induction h with
  | nil => simp
  | cons hi _ ih =>
    obtain ⟨hp, hw, hh⟩ := parseObservedInterval_spec hi
    refine ⟨forall_mem_cons.mpr ⟨hp, ih.1⟩, forall_mem_cons.mpr ⟨hw, ih.2.1⟩, fun a => ?_⟩
    simp only [mem_cons, exists_eq_or_imp, hh, ih.2.2]

theorem setElementsComplete_iff_read (expected : List Prefix) :
    setElementsComplete parseAddr family (some (some elements)) expected = true ↔
      ∃ intervals, AllRead parseAddr family elements intervals ∧
        ∀ a, (∃ i ∈ intervals, i.Holds a) ↔ ∃ p ∈ expected, p.contains a = true := by
  unfold setElementsComplete
  dsimp only
  split
  case isTrue hem =>
    subst hem
    cases elements with
    | nil => simp
    | cons e rest =>
      refine iff_of_false (by simp) ?_
      rintro ⟨_, hre, hin⟩
      cases hre with
      | @cons _ i _ _ hi _ =>
        have hst := holds_iff.mpr ⟨le_rfl, (parseObservedInterval_spec hi).1.2⟩
        simpa using (hin i.start).mp ⟨i, mem_cons_self, hst⟩
  case isFalse hne =>
    obtain ⟨p, hp⟩ := exists_mem_of_ne_nil _ hne
    split
    case isTrue hem =>
      refine iff_of_false (by simp) ?_
      rintro ⟨intervals, hre, hin⟩
      rw [List.isEmpty_iff.mp hem] at hre
      cases hre
      simpa using (hin p.addr).mpr ⟨p, hp, p.contains_addr⟩
    case isFalse =>
      simp only [AllRead, ← Codec.each_eq_some]
      cases hre : Codec.each (parseObservedInterval parseAddr family) elements with
      | none => simp
      | some actual =>
        have hall : AllRead parseAddr family elements actual := Codec.each_eq_some.mp hre
        rw [decide_eq_true_eq, mergeIntervals_eq_iff hall.spec.1
          (forall_mem_map.mpr fun p _ => prefixInterval_proper p)]
        simp [holds_prefixInterval]

/-- **Set contents are compared by meaning**: whatever nft lists, the set is complete iff every element
is well formed and together they hold the addresses of the expected prefixes. -/
theorem setElementsComplete_iff (parseAddr : String → Option (Addr × String)) (family : Family)
    (elements : List SetElement) (expected : List Prefix) :
    setElementsComplete parseAddr family (some (some elements)) expected = true ↔
      (∀ e ∈ elements, e.WellFormed parseAddr family) ∧
        ∀ a, (∃ e ∈ elements, e.Holds parseAddr family a) ↔ ∃ p ∈ expected, p.contains a = true := by
  rw [setElementsComplete_iff_read]
  constructor
  · rintro ⟨intervals, hre, hin⟩
    obtain ⟨-, hw, hh⟩ := hre.spec
    exact ⟨hw, fun a => (hh a).symm.trans (hin a)⟩
  · rintro ⟨hw, hin⟩
    obtain ⟨intervals, hre⟩ := exists_allRead hw
    exact ⟨intervals, hre, fun a => (hre.spec.2.2 a).trans (hin a)⟩

end Perimeterd.Firewall
