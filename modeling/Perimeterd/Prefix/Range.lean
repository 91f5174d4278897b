import Perimeterd.Lib.Greedy
import Perimeterd.Prefix.Normal

/-!
# Ranges as prefixes

`AppendRange` of `internal/prefix/range.go`. From the first address on it takes the largest block the
address is aligned to, shrinks it until it ends by the last address, and goes on behind it. That is the
walk of `Lib.Greedy` on the common line of both families (`appendLoop_spec`), and what is known of the
walk there carries over: it is exact, in order, as short as any cover, and takes at most two blocks of
each size.

The loop is given a number of rounds; `none` is a loop that has not ended.
-/

namespace Perimeterd

open Lib List

theorem dvd_base {f : Family} {k : Nat} (h : k ≤ f.width) : 2 ^ k ∣ f.base := by
  cases f with
  | ipv4 => exact dvd_zero _
  | ipv6 => exact pow_dvd_pow 2 h

theorem fits_base {f : Family} {s e k : Nat} (h : k ≤ f.width) :
    Fits (f.base + s) (f.base + e) k ↔ Fits s e k := by
  unfold Fits
  rw [Nat.dvd_add_right (dvd_base h), Nat.add_assoc, Nat.add_le_add_iff_left]

namespace Addr

/-- `Addr.As16` as a number: an IPv4 address in its mapped form. -/
def as16 (a : Addr) : Nat :=
  match a.family with
  | .ipv4 => 0xFFFF * 2 ^ 32 + a.value
  | .ipv6 => a.value

/-- `Addr.Next`; the last address of a family has none. -/
def next (a : Addr) : Option Addr :=
  if h : a.value + 1 < 2 ^ a.family.width then some ⟨a.family, a.value + 1, h⟩ else none

end Addr

namespace Prefix

/-! ## The loop -/

/-- The trailing zeros among the lowest bits of a number. -/
def trailing : Nat → Nat → Nat
  | 0, _ => 0
  | n + 1, v => if v % 2 = 1 then 0 else trailing n (v / 2) + 1

def trailingZeros64 (v : Nat) : Nat := trailing 64 v

/-- The host bits an address leaves free, from its two words. -/
def alignment (a : Addr) : Nat :=
  let low := trailingZeros64 (a.as16 % 2 ^ 64)
  let zeros := if low = 64 then low + trailingZeros64 (a.as16 / 2 ^ 64) else low
  min zeros a.family.width

/-- The block of `k` host bits from an address on. -/
def blockFrom (a : Addr) (k : Nat) : Prefix := ⟨a, a.family.width - k, Nat.sub_le _ _⟩

/-- `rangeLast`: the last address of the block, every host bit set. -/
def rangeLast (p : Prefix) : Addr := prefixEnd p

/-- The inner loop: one host bit less until the block ends by the last address. A single address does,
as the first is not behind the last. -/
def shrink (start stop : Addr) : Nat → Nat
  | 0 => 0
  | k + 1 => if (rangeLast (blockFrom start (k + 1))).compare stop = .gt then shrink start stop k else k + 1

def appendLoop (stop : Addr) : Nat → Addr → List Prefix → Option (List Prefix)
  | 0, _, _ => none
  | rounds + 1, start, result =>
      let block := blockFrom start (shrink start stop (alignment start))
      if rangeLast block = stop then some (result ++ [block])
      else (rangeLast block).next.bind fun next => appendLoop stop rounds next (result ++ [block])

def appendRange (rounds : Nat) (result : List Prefix) (start stop : Addr) :
    Option (Except String (List Prefix)) :=
  if start.is4In6 ∨ stop.is4In6 ∨ start.family ≠ stop.family ∨ start.compare stop = .gt then
    some (.error "invalid inclusive address range")
  else (appendLoop stop rounds start result).map .ok

/-! ## Alignment -/

variable {a start stop : Addr} {k : Nat} {l : List Block} {ps : List Prefix}

theorem trailing_le : ∀ (n v : Nat), trailing n v ≤ n
  | 0, _ => le_rfl
  | n + 1, v => by
    rw [trailing]
    split
    · exact Nat.zero_le _
    · exact Nat.succ_le_succ (trailing_le n (v / 2))

theorem le_trailing_iff : ∀ {n v j : Nat}, j ≤ n → (j ≤ trailing n v ↔ 2 ^ j ∣ v)
  | 0, v, j, hj => by simp [Nat.le_zero.mp hj, trailing]
  | n + 1, v, 0, _ => by simp
  | n + 1, v, j + 1, hj => by
    rw [trailing]
    by_cases ho : v % 2 = 1
    · rw [if_pos ho]
      have hno : ¬ 2 ^ (j + 1) ∣ v := fun h => by
        have := (Dvd.intro_left (2 ^ j) (pow_succ 2 j).symm).trans h
        omega
      simp [hno]
    · rw [if_neg ho, Nat.add_le_add_iff_right, le_trailing_iff (Nat.le_of_succ_le_succ hj), pow_succ]
      have hev : v = v / 2 * 2 := by omega
      conv_rhs => rw [hev]
      exact (Nat.mul_dvd_mul_iff_right (by decide)).symm

section

variable (hk : k ≤ a.family.width)

include hk

theorem le_alignment_iff : k ≤ alignment a ↔ 2 ^ k ∣ a.value := by
  have hra : 2 ^ k ∣ a.as16 ↔ 2 ^ k ∣ a.value := by
    unfold Addr.as16
    cases hf : a.family with
    | ipv4 =>
      rw [hf] at hk
      exact Nat.dvd_add_right ((pow_dvd_pow 2 hk).trans (Dvd.intro_left _ rfl))
    | ipv6 => exact Iff.rfl
  have hw : k ≤ 128 := hk.trans (by cases a.family <;> decide)
  rw [alignment, le_min_iff, and_iff_left hk, ← hra]
  have hsp := Nat.div_add_mod a.as16 (2 ^ 64)
  have hl : trailingZeros64 (a.as16 % 2 ^ 64) = 64 ↔ a.as16 % 2 ^ 64 = 0 := by
    have hle := trailing_le 64 (a.as16 % 2 ^ 64)
    have hif := le_trailing_iff (v := a.as16 % 2 ^ 64) (le_refl 64)
    rw [trailingZeros64, Nat.le_antisymm_iff, and_iff_right hle, hif]
    constructor
    · intro h
      exact Nat.eq_zero_of_dvd_of_lt h (Nat.mod_lt _ (by decide))
    · intro h
      rw [h]
      exact dvd_zero _
  rcases Nat.lt_or_ge 64 k with hgt | hle
  · -- beyond the lower word: it is zero and the upper one is aligned to the rest
    obtain ⟨j, rfl⟩ := Nat.exists_eq_add_of_le hgt.le
    by_cases hz : a.as16 % 2 ^ 64 = 0
    · rw [if_pos (hl.mpr hz), hl.mpr hz, Nat.add_le_add_iff_left, trailingZeros64,
        le_trailing_iff (by omega), pow_add]
      rw [hz, Nat.add_zero] at hsp
      conv_rhs => rw [← hsp]
      exact (Nat.mul_dvd_mul_iff_left (by decide)).symm
    · rw [if_neg (mt hl.mp hz)]
      have hle := trailing_le 64 (a.as16 % 2 ^ 64)
      refine iff_of_false (by rw [trailingZeros64]; omega) fun h => hz ?_
      exact Nat.mod_eq_zero_of_dvd ((pow_dvd_pow 2 hgt.le).trans h)
  · have hmo : 2 ^ k ∣ a.as16 % 2 ^ 64 ↔ 2 ^ k ∣ a.as16 := Nat.dvd_mod_iff (pow_dvd_pow 2 hle)
    rw [← hmo, ← le_trailing_iff hle]
    split
    case isTrue h =>
      rw [trailingZeros64] at h ⊢
      rw [h]
      omega
    case isFalse => exact Iff.rfl

/-! ## One round -/

theorem dvd_point_iff : 2 ^ k ∣ a.point ↔ 2 ^ k ∣ a.value := Nat.dvd_add_right (dvd_base hk)

theorem blockFrom_block : (blockFrom a k).block = Block.around a.point k := by
  have hh : (blockFrom a k).host = k := Nat.sub_sub_self hk
  rw [block, hh]
  rfl

theorem rangeLast_point {e : Nat} (h : Fits a.point e k) :
    (rangeLast (blockFrom a k)).point + 1 = a.point + 2 ^ k := by
  rw [rangeLast, prefixEnd_point, blockFrom_block hk, h.hi]

theorem blockFrom_masked {e : Nat} (h : Fits a.point e k) : (blockFrom a k).Masked := by
  apply masked_of_point
  rw [blockFrom_block hk, h.lo]
  rfl

end

theorem shrink_spec (hle : start.point ≤ stop.point) :
    ∀ {n : Nat}, n ≤ start.family.width → 2 ^ n ∣ start.point →
      Fits start.point (stop.point + 1) (shrink start stop n) ∧
        ∀ j ≤ n, Fits start.point (stop.point + 1) j → j ≤ shrink start stop n
  | 0, _, _ => ⟨⟨one_dvd _, by simp [shrink, hle]⟩, fun j hj _ => hj⟩
  | n + 1, hn, hd => by
    have hse : Fits start.point (start.point + 2 ^ (n + 1)) (n + 1) := ⟨hd, le_rfl⟩
    have hl := rangeLast_point hn hse
    rw [shrink]
    split
    case isTrue hgt =>
      rw [Addr.compare_gt] at hgt
      obtain ⟨hfits, hmax⟩ := shrink_spec hle (n := n) (by omega) ((pow_dvd_pow 2 (by omega)).trans hd)
      refine ⟨hfits, fun j hj hf => hmax j ?_ hf⟩
      by_contra hjn
      obtain rfl : j = n + 1 := by omega
      have := hf.2
      omega
    case isFalse hno =>
      rw [Addr.compare_gt] at hno
      exact ⟨⟨hd, by omega⟩, fun j hj _ => hj⟩

theorem shrink_eq (hf : start.family = stop.family) (hfits : Fits start.point (stop.point + 1) k)
    (hmax : ∀ j, Fits start.point (stop.point + 1) j → j ≤ k) :
    k ≤ start.family.width ∧ shrink start stop (alignment start) = k := by
  have hsu := hfits.2
  have hp := Nat.two_pow_pos k
  have hst : stop.point + 1 ≤ start.point + 2 ^ start.family.width := by
    have hlt := stop.lt
    rw [Addr.point, Addr.point, hf]
    omega
  have hk : k ≤ start.family.width :=
    (Nat.pow_le_pow_iff_right (by decide)).mp (by omega : 2 ^ k ≤ 2 ^ start.family.width)
  have hal : k ≤ alignment start := (le_alignment_iff hk).mpr ((dvd_point_iff hk).mp hfits.1)
  have hw : alignment start ≤ start.family.width := min_le_right _ _
  obtain ⟨hsh, hl⟩ := @shrink_spec start stop (by omega) _ hw
    ((dvd_point_iff hw).mpr ((le_alignment_iff hw).mp le_rfl))
  exact ⟨hk, le_antisymm (hmax _ hsh) (hl k hal hfits)⟩

/-! ## The walk -/

theorem next_spec {b : Addr} (hf : a.family = b.family) (hlt : a.point < b.point) :
    ∃ next, a.next = some next ∧ next.point = a.point + 1 ∧ next.family = a.family := by
  have hbo := b.lt
  simp only [Addr.point, hf] at hlt
  have hfits : a.value + 1 < 2 ^ a.family.width := by
    rw [hf]
    omega
  exact ⟨⟨a.family, a.value + 1, hfits⟩, dif_pos hfits, rfl, rfl⟩

/-- **The loop returns the greedy walk**, given a round for each of its blocks. -/
theorem appendLoop_spec {s : Nat} (h : Greedy (stop.point + 1) s l) :
    ∀ {start : Addr}, start.point = s → start.family = stop.family → l ≠ [] →
      ∃ ps : List Prefix, ps.map block = l ∧ (∀ p ∈ ps, p.Masked) ∧
        ∀ rounds result, l.length ≤ rounds →
          appendLoop stop rounds start result = some (result ++ ps) := by
  induction h with
  | done => exact fun _ _ hne => absurd rfl hne
  | @step s k l hfits hmax hrest ih =>
    rintro start rfl hf -
    obtain ⟨hk, hsh⟩ := shrink_eq hf hfits hmax
    have hbl := blockFrom_block hk
    have hma := blockFrom_masked hk hfits
    have hl := rangeLast_point hk hfits
    by_cases hst : rangeLast (blockFrom start k) = stop
    · -- the walk is at its end too
      have hen : l = [] := hrest.eq_nil (by rw [← hl, hst])
      refine ⟨[blockFrom start k], by rw [hen, map_singleton, hbl], ?_, ?_⟩
      · intro p hp
        rw [mem_singleton.mp hp]
        exact hma
      · intro rounds result hr
        obtain ⟨rounds, rfl⟩ := Nat.exists_eq_add_of_le' (Nat.one_le_of_lt hr)
        simp only [appendLoop, hsh, hst, if_true]
    · have hle := hrest.le
      have hne : start.point + 2 ^ k ≠ stop.point + 1 := fun h => hst (Addr.point_inj (by omega))
      have hmo : l ≠ [] := by
        rintro rfl
        exact hne hrest.eq_of_nil
      obtain ⟨next, hnext, hpo, hnex⟩ := next_spec (a := rangeLast (blockFrom start k))
        (b := stop) hf (by omega)
      obtain ⟨ps, hps, hm, hlo⟩ := ih (hpo.trans hl) (hnex.trans hf) hmo
      refine ⟨blockFrom start k :: ps, by rw [map_cons, hps, hbl], ?_, ?_⟩
      · exact forall_mem_cons.mpr ⟨hma, hm⟩
      · intro rounds result hr
        rw [length_cons] at hr
        obtain ⟨rounds, rfl⟩ := Nat.exists_eq_add_of_le' (Nat.one_le_of_lt hr)
        have := hlo rounds (result ++ [blockFrom start k]) (by omega)
        simp only [appendLoop, hsh, hst, if_false, hnext, Option.bind_some, this,
          append_assoc, singleton_append]

theorem covered_iff_points
    (h : Greedy (stop.point + 1) start.point l) (hps : ps.map block = l) (a : Addr) :
    Covered ps a ↔ start.point ≤ a.point ∧ a.point < stop.point + 1 := by
  rw [← h.covers_iff, ← hps]
  simp only [Covered, Covers, contains_iff, mem_map, exists_exists_and_eq_and]

theorem covered_iff_between
    (hf : start.family = stop.family) (h : Greedy (stop.point + 1) start.point l)
    (hps : ps.map block = l) (a : Addr) :
    Covered ps a ↔ a.family = start.family ∧ start.value ≤ a.value ∧ a.value ≤ stop.value := by
  rw [covered_iff_points h hps]
  constructor
  · rintro ⟨hlo, hhi⟩
    have hsa : a.family = start.family := by
      have ha := a.point_family
      have hs := start.point_family
      have ht := stop.point_family
      rw [← hf] at ht
      cases hfa : a.family <;> cases hfs : start.family <;> simp [hfa, hfs] at ha hs ht ⊢ <;> omega
    refine ⟨hsa, ?_⟩
    simp only [Addr.point, hsa, ← hf] at hlo hhi
    omega
  · rintro ⟨hsa, hlo, hhi⟩
    simp only [Addr.point, hsa, ← hf]
    omega

theorem length_le_of_largest {P : Nat → Prop} {qs : List Prefix}
    (hti : ps.Pairwise fun p q => p.block.Before q.block) (hl : ∀ p ∈ ps, Largest P p.block)
    (hin : ∀ a, Covered qs a → P a.point) (hre : ∀ a, Covered ps a → Covered qs a) :
    ps.length ≤ qs.length := by
  have key := Lib.length_le_of_largest (P := P) (l := ps.map block) (m := qs.map block)
    (pairwise_map.mpr hti) ?_ ?_ ?_
  · rwa [length_map, length_map] at key
  · intro b hb
    obtain ⟨p, hp, rfl⟩ := mem_map.mp hb
    exact hl p hp
  · intro c hc x hx
    obtain ⟨q, hq, rfl⟩ := mem_map.mp hc
    obtain ⟨a, rfl, ha⟩ := addr_of_block hx
    exact hin a ⟨q, hq, ha⟩
  · intro b hb
    obtain ⟨p, hp, rfl⟩ := mem_map.mp hb
    obtain ⟨a, ha, hpa⟩ := addr_of_block p.block.lo_mem
    obtain ⟨q, hq, hqa⟩ := hre a ⟨p, hp, hpa⟩
    exact ⟨q.block, mem_map_of_mem hq, ha ▸ contains_iff.mp hqa⟩

theorem length_le_of_covers {qs : List Prefix}
    (h : Greedy (stop.point + 1) start.point l) (hps : ps.map block = l)
    (hqs : ∀ a, Covered qs a ↔ Covered ps a) : ps.length ≤ qs.length := by
  have hli : ∀ a : Addr, Covered qs a ↔ start.point ≤ a.point ∧ a.point < stop.point + 1 :=
    fun a => (hqs a).trans (covered_iff_points h hps a)
  -- nothing lies left of the start, so no block can straddle it
  have hst : Greedy.Unstraddled start.point (stop.point + 1) start.point :=
    fun c hlo _ hc => absurd hc.1 (by omega)
  have hl : ∀ b ∈ l, Largest (fun x => start.point ≤ x ∧ x < stop.point + 1) b := by
    intro b hb
    refine ⟨fun x hx => h.covers_iff.mp ⟨b, hb, hx⟩, fun c hc x hxc hxb => ?_⟩
    have hlo := (hc _ c.lo_mem).1
    have hhi := (hc (c.hi - 1) ?_).2
    · exact h.maximal hst hb hlo (by omega) hxc hxb
    · rw [Block.mem_iff]
      have := Block.mem_iff.mp c.lo_mem
      omega
  refine length_le_of_largest (P := fun x => start.point ≤ x ∧ x < stop.point + 1)
    (pairwise_map.mp (hps ▸ h.tidy)) (fun p hp => ?_) (fun a => (hli a).mp)
    fun a => (hqs a).mpr
  exact hl _ (hps ▸ mem_map_of_mem hp)

/-- **`AppendRange` is exact and minimal.** For a range of one family, neither end an IPv4-mapped
address, the loop ends within two rounds for each bit of the family; what it appends behind the
earlier contents is masked, in order, free of overlap, covers the addresses of the range and no other,
is no longer than anything that covers the same, and takes at most two prefixes for each bit. -/
theorem appendRange_exact (start stop : Addr) (hfamily : start.family = stop.family)
    (hstart : start.is4In6 = false) (hstop : stop.is4In6 = false) (hle : start.value ≤ stop.value) :
    ∃ ps : List Prefix,
      (∀ rounds result, 2 * start.family.width ≤ rounds →
        appendRange rounds result start stop = some (.ok (result ++ ps))) ∧
      (∀ p ∈ ps, p.Masked) ∧
      ps.Pairwise (fun p q => less p q = true) ∧
      ps.Pairwise (fun p q => p.overlaps q = false) ∧
      (∀ a : Addr, (∃ p ∈ ps, p.contains a = true) ↔
        a.family = start.family ∧ start.value ≤ a.value ∧ a.value ≤ stop.value) ∧
      (∀ qs : List Prefix, (∀ a : Addr, (∃ q ∈ qs, q.contains a = true) ↔
        a.family = start.family ∧ start.value ≤ a.value ∧ a.value ≤ stop.value) →
          ps.length ≤ qs.length) ∧
      ps.length ≤ 2 * start.family.width := by
  have hp : start.point ≤ stop.point := by
    simp only [Addr.point, hfamily]
    omega
  obtain ⟨l, hw⟩ := Greedy.exists_walk (Nat.le_succ_of_le hp)
  have hne : l ≠ [] := by
    rintro rfl
    have := hw.eq_of_nil
    omega
  obtain ⟨ps, hps, hma, hlo⟩ := appendLoop_spec hw rfl hfamily hne
  have hc : Canonical ps := ⟨hma, pairwise_map.mp (hps ▸ hw.tidy)⟩
  have hco := covered_iff_between hfamily hw hps
  have hl : l.length ≤ 2 * start.family.width := by
    have hst := stop.point_lt
    rw [← hfamily] at hst
    have hwi : 0 < start.family.width := by cases start.family <;> decide
    have := hw.length_le hwi (one_dvd _ : 2 ^ 0 ∣ start.point) (Nat.zero_le _)
      (Nat.le_add_right _ _ : start.family.base ≤ start.point) hst
    omega
  have hsi : ps.length = l.length := by rw [← hps, length_map]
  refine ⟨ps, fun rounds result hr => ?_, hma, hc.sorted, hc.disjoint, hco,
    fun qs hqs => ?_, hsi ▸ hl⟩
  · have hcom : start.compare stop ≠ .gt := by
      rw [Ne, Addr.compare_gt]
      omega
    rw [appendRange, hlo rounds result (hl.trans hr)]
    simp [hstart, hstop, hfamily, hcom]
  · exact length_le_of_covers hw hps fun a => (hqs a).trans (hco a).symm

theorem six_addresses_covered : ∃ ps : List Prefix, ps.length ≤ 64 ∧
    appendRange 64 [Prefix.v4 192 0 2 0 24] (Addr.v4 10 0 0 1) (Addr.v4 10 0 0 6) =
      some (.ok (Prefix.v4 192 0 2 0 24 :: ps)) := by
  obtain ⟨ps, hru, -, -, -, -, -, hl⟩ :=
    appendRange_exact (Addr.v4 10 0 0 1) (Addr.v4 10 0 0 6) rfl (by decide) (by decide) (by decide)
  exact ⟨ps, hl, hru 64 _ (by decide)⟩

end Prefix

end Perimeterd
