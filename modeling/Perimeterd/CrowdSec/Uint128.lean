import Perimeterd.Netip

/-!
# Boundaries of the address space in two machine words

`internal/crowdsec/projection.go` keeps an address as two 64-bit words and a boundary as an address
or the mark `top`, one past the last address of the family. This module says what that arithmetic
means as numbers: with `top` read as `2 ^ width`, `addPower` is addition, `compareBoundary` is the
order and `aligned` is divisibility, for both widths the program uses and up to the very end of the
space.
-/

namespace Perimeterd.CrowdSec

structure Uint128 where
  hi : UInt64
  lo : UInt64
deriving DecidableEq

namespace Uint128

def zero : Uint128 := ⟨0, 0⟩

def toNat (u : Uint128) : Nat := u.hi.toNat * 2 ^ 64 + u.lo.toNat

theorem toNat_lt (u : Uint128) : u.toNat < 2 ^ 128 := by
  have h₁ := u.hi.toNat_lt
  have h₂ := u.lo.toNat_lt
  unfold toNat
  omega

theorem toNat_inj {u v : Uint128} (h : u.toNat = v.toNat) : u = v := by
  have hu := u.lo.toNat_lt
  have hv := v.lo.toNat_lt
  unfold toNat at h
  cases u; cases v
  simp only at *
  congr
  · exact UInt64.toNat_inj.mp (by omega)
  · exact UInt64.toNat_inj.mp (by omega)

end Uint128

structure ProjectionBoundary where
  value : Uint128 := .zero
  top : Bool := false
deriving DecidableEq

/-- `bits.Add64`: the sum and the carry out. -/
def add64 (x y carry : UInt64) : UInt64 × UInt64 :=
  (x + y + carry, if 2 ^ 64 ≤ x.toNat + y.toNat + carry.toNat then 1 else 0)

def shift1 (n : Nat) : UInt64 := 1 <<< UInt64.ofNat n

def addPower (start : Uint128) (sizeBits width : Nat) : ProjectionBoundary :=
  if sizeBits = width then { top := true }
  else if sizeBits < 64 then
    let (lo, carry) := add64 start.lo (shift1 sizeBits) 0
    let (hi, overflow) := add64 start.hi 0 carry
    if overflow ≠ 0 ∨ (width < 64 ∧ (hi ≠ 0 ∨ shift1 width ≤ lo)) then { top := true }
    else { value := ⟨hi, lo⟩ }
  else if sizeBits = 64 then
    let (hi, overflow) := add64 start.hi 1 0
    if overflow ≠ 0 then { top := true } else { value := ⟨hi, start.lo⟩ }
  else
    let (hi, overflow) := add64 start.hi (shift1 (sizeBits - 64)) 0
    if overflow ≠ 0 then { top := true } else { value := ⟨hi, start.lo⟩ }

def prefixEnd (start : Uint128) (prefixBits width : Nat) : ProjectionBoundary :=
  addPower start (width - prefixBits) width

def compareUint128 (left right : Uint128) : Ordering :=
  if left.hi < right.hi then .lt
  else if right.hi < left.hi then .gt
  else if left.lo < right.lo then .lt
  else if right.lo < left.lo then .gt
  else .eq

def compareBoundary (left right : ProjectionBoundary) : Ordering :=
  if left.top then (if right.top then .eq else .gt)
  else if right.top then .lt
  else compareUint128 left.value right.value

def aligned (start : Uint128) (sizeBits width : Nat) : Bool :=
  if sizeBits = 0 then true
  else if sizeBits = width then start.hi = 0 && start.lo = 0
  else if sizeBits < 64 then start.lo &&& (shift1 sizeBits - 1) = 0
  else if sizeBits = 64 then start.lo = 0
  else start.lo = 0 && start.hi &&& (shift1 (sizeBits - 64) - 1) = 0

/-- `addr128` and `addr128v4`: the address's value in two words. -/
def addr128 (a : Addr) : Uint128 :=
  ⟨UInt64.ofNat (a.value / 2 ^ 64), UInt64.ofNat (a.value % 2 ^ 64)⟩

/-! ## As numbers -/

variable {x : UInt64} {start : Uint128} {sizeBits width : Nat}

theorem toNat_shift1 {n : Nat} (h : n < 64) : (shift1 n).toNat = 2 ^ n := by
  have h64 : n < 2 ^ 64 := by omega
  rw [shift1, UInt64.toNat_shiftLeft, UInt64.toNat_ofNat_of_lt' h64]
  simp only [UInt64.toNat_one, Nat.shiftLeft_eq, one_mul]
  rw [Nat.mod_eq_of_lt h, Nat.mod_eq_of_lt]
  exact Nat.pow_lt_pow_right (by decide) h

theorem toNat_addr128 (a : Addr) : (addr128 a).toNat = a.value := by
  have hlt : a.value < 2 ^ 128 :=
    lt_of_lt_of_le a.lt (Nat.pow_le_pow_right (by decide) (by cases a.family <;> decide))
  have hhi : a.value / 2 ^ 64 < 2 ^ 64 := by omega
  have hlo : a.value % 2 ^ 64 < 2 ^ 64 := by omega
  rw [addr128, Uint128.toNat, UInt64.toNat_ofNat_of_lt' hhi, UInt64.toNat_ofNat_of_lt' hlo]
  omega

theorem add64_cases (x y carry : UInt64) (hc : carry.toNat ≤ 1) :
    ((add64 x y carry).2 = 0 ∧ x.toNat + y.toNat + carry.toNat < 2 ^ 64 ∧
        (add64 x y carry).1.toNat = x.toNat + y.toNat + carry.toNat) ∨
      ((add64 x y carry).2 = 1 ∧
        (add64 x y carry).1.toNat + 2 ^ 64 = x.toNat + y.toNat + carry.toNat) := by
  have hx := x.toNat_lt
  have hy := y.toNat_lt
  have hsu : (x + y + carry).toNat = (x.toNat + y.toNat + carry.toNat) % 2 ^ 64 := by
    rw [UInt64.toNat_add, UInt64.toNat_add]
    omega
  unfold add64
  by_cases h : 2 ^ 64 ≤ x.toNat + y.toNat + carry.toNat
  · rw [if_pos h]
    refine .inr ⟨rfl, ?_⟩
    rw [hsu]
    omega
  · rw [if_neg h]
    refine .inl ⟨rfl, by omega, ?_⟩
    rw [hsu]
    omega

theorem ne_zero_iff : x ≠ 0 ↔ x.toNat ≠ 0 := by
  rw [ne_eq, ← UInt64.toNat_inj]
  rfl

namespace ProjectionBoundary

/-- The boundary as a number, `top` one past the end. -/
def toNat (b : ProjectionBoundary) (width : Nat) : Nat :=
  if b.top then 2 ^ width else b.value.toNat

/-- A boundary of a family: `top`, or an address of the family. -/
def Valid (b : ProjectionBoundary) (width : Nat) : Prop :=
  b.top = false → b.value.toNat < 2 ^ width

theorem Valid.le {b : ProjectionBoundary} {width : Nat} (h : b.Valid width) :
    b.toNat width ≤ 2 ^ width := by
  unfold toNat
  split
  · exact le_rfl
  · rename_i ht
    exact (h (by simpa using ht)).le

end ProjectionBoundary

def Width (width : Nat) : Prop := width = 32 ∨ width = 128

theorem width_ok (f : Family) : Width f.width := by
  cases f
  · exact .inl rfl
  · exact .inr rfl

theorem add_high (start : Uint128) (inc : UInt64) :
    ((add64 start.hi inc 0).2 ≠ 0 ∧ 2 ^ 128 ≤ start.toNat + inc.toNat * 2 ^ 64) ∨
      ((add64 start.hi inc 0).2 = 0 ∧ start.toNat + inc.toNat * 2 ^ 64 < 2 ^ 128 ∧
        (Uint128.mk (add64 start.hi inc 0).1 start.lo).toNat =
          start.toNat + inc.toNat * 2 ^ 64) := by
  have hlo := start.lo.toNat_lt
  unfold Uint128.toNat
  rcases add64_cases start.hi inc 0 (by decide) with ⟨hc, hlt, hv⟩ | ⟨hc, hv⟩
  · refine .inr ⟨hc, ?_, ?_⟩
    · rw [UInt64.toNat_zero] at hlt
      omega
    · rw [UInt64.toNat_zero] at hv
      simp only [hv]
      omega
  · refine .inl ⟨by rw [hc]; decide, ?_⟩
    rw [UInt64.toNat_zero] at hv
    omega

theorem add_low (start : Uint128) (inc : UInt64) :
    ((add64 start.hi 0 (add64 start.lo inc 0).2).2 ≠ 0 ∧ 2 ^ 128 ≤ start.toNat + inc.toNat) ∨
      ((add64 start.hi 0 (add64 start.lo inc 0).2).2 = 0 ∧ start.toNat + inc.toNat < 2 ^ 128 ∧
        (Uint128.mk (add64 start.hi 0 (add64 start.lo inc 0).2).1 (add64 start.lo inc 0).1).toNat =
          start.toNat + inc.toNat) := by
  have hhi := start.hi.toNat_lt
  unfold Uint128.toNat
  rcases add64_cases start.lo inc 0 (by decide) with ⟨hc, hlt, hv⟩ | ⟨hc, hv⟩
  · rw [hc]
    rw [UInt64.toNat_zero] at hlt hv
    rcases add64_cases start.hi 0 0 (by decide) with ⟨hc', -, hv'⟩ | ⟨-, hv'⟩
    · refine .inr ⟨hc', by omega, ?_⟩
      rw [UInt64.toNat_zero] at hv'
      simp only [hv, hv']
      omega
    · rw [UInt64.toNat_zero] at hv'
      omega
  · rw [hc]
    rw [UInt64.toNat_zero] at hv
    have hlo := (add64 start.lo inc 0).1.toNat_lt
    rcases add64_cases start.hi 0 1 (by decide) with ⟨hc', hlt', hv'⟩ | ⟨hc', hv'⟩
    · rw [UInt64.toNat_zero, UInt64.toNat_one] at hv' hlt'
      refine .inr ⟨hc', by omega, ?_⟩
      simp only [hv']
      omega
    · rw [UInt64.toNat_zero, UInt64.toNat_one] at hv'
      exact .inl ⟨by rw [hc']; decide, by omega⟩

/-- **`addPower` is addition**, with everything from the end of the space on read as `top`. -/
theorem addPower_spec (hw : Width width) (hs : sizeBits ≤ width) (hst : start.toNat < 2 ^ width) :
    ((addPower start sizeBits width).top = true ∧ 2 ^ width ≤ start.toNat + 2 ^ sizeBits) ∨
      ((addPower start sizeBits width).top = false ∧
        start.toNat + 2 ^ sizeBits < 2 ^ width ∧
        (addPower start sizeBits width).value.toNat = start.toNat + 2 ^ sizeBits) := by
  unfold addPower
  by_cases hf : sizeBits = width
  · subst hf
    simp only [if_true]
    exact .inl ⟨trivial, Nat.le_add_left _ _⟩
  rw [if_neg hf]
  by_cases hsm : sizeBits < 64
  · rw [if_pos hsm]
    have had := add_low start (shift1 sizeBits)
    rw [toNat_shift1 hsm] at had
    rcases hw with rfl | rfl
    · -- 32 bits: the high word is zero and the test is on the low word's value
      have hp : 2 ^ sizeBits ≤ 2 ^ 32 := Nat.pow_le_pow_right (by decide) hs
      have h32 := toNat_shift1 (show 32 < 64 by decide)
      rcases had with ⟨-, hle⟩ | ⟨hc, -, hv⟩
      · omega
      · simp only [hc, ne_eq, not_true_eq_false, false_or, show 32 < 64 by decide, true_and]
        split
        · rename_i hco
          refine .inl ⟨rfl, ?_⟩
          rw [UInt64.le_iff_toNat_le, h32, ← ne_eq, ne_zero_iff] at hco
          rw [Uint128.toNat] at hv
          simp only at hv
          rcases hco with h | h <;> omega
        · rename_i hco
          refine .inr ⟨rfl, ?_, hv⟩
          rw [UInt64.le_iff_toNat_le, h32, ← ne_eq, ne_zero_iff] at hco
          rw [Uint128.toNat] at hv
          simp only at hv
          omega
    · rcases had with ⟨hc, hle⟩ | ⟨hc, hlt, hv⟩
      · simp only [hc, ne_eq, not_false_eq_true, true_or, if_true]
        exact .inl ⟨trivial, hle⟩
      · simp only [hc, ne_eq, not_true_eq_false, false_or, show ¬ 128 < 64 by decide, false_and,
          if_false]
        exact .inr ⟨trivial, hlt, hv⟩
  · rw [if_neg hsm]
    have hw1 : width = 128 := by
      rcases hw with h | h <;> omega
    subst hw1
    by_cases h64 : sizeBits = 64
    · rw [if_pos h64]
      subst h64
      rcases add_high start 1 with ⟨hc, hle⟩ | ⟨hc, hlt, hv⟩
      · simp only [hc, not_false_eq_true, ne_eq, if_true]
        exact .inl ⟨trivial, by simpa using hle⟩
      · simp only [hc, not_true_eq_false, ne_eq, if_false]
        exact .inr ⟨trivial, by simpa using hlt, by simpa using hv⟩
    · rw [if_neg h64]
      have hp : (shift1 (sizeBits - 64)).toNat * 2 ^ 64 = 2 ^ sizeBits := by
        rw [toNat_shift1 (by omega), ← pow_add]
        congr 1
        omega
      rcases add_high start (shift1 (sizeBits - 64)) with ⟨hc, hle⟩ | ⟨hc, hlt, hv⟩
      · rw [hp] at hle
        simp only [hc, not_false_eq_true, ne_eq, if_true]
        exact .inl ⟨trivial, hle⟩
      · rw [hp] at hlt hv
        simp only [hc, not_true_eq_false, ne_eq, if_false]
        exact .inr ⟨trivial, hlt, hv⟩

theorem addPower_toNat (hw : Width width) (hs : sizeBits ≤ width) (hst : start.toNat < 2 ^ width) :
    (addPower start sizeBits width).toNat width = min (start.toNat + 2 ^ sizeBits) (2 ^ width) ∧
      (addPower start sizeBits width).Valid width := by
  unfold ProjectionBoundary.toNat ProjectionBoundary.Valid
  rcases addPower_spec hw hs hst with ⟨ht, hle⟩ | ⟨ht, hlt, hv⟩
  · simp only [ht, if_true, reduceCtorEq, false_implies, and_true]
    omega
  · simp only [ht, Bool.false_eq_true, if_false, hv, true_implies]
    omega

theorem compareUint128_eq (u v : Uint128) : compareUint128 u v = compare u.toNat v.toNat := by
  have hu := u.lo.toNat_lt
  have hv := v.lo.toNat_lt
  unfold compareUint128 Uint128.toNat
  simp only [UInt64.lt_iff_toNat_lt]
  split
  · rw [Nat.compare_eq_lt.mpr (by omega)]
  split
  · rw [Nat.compare_eq_gt.mpr (by omega)]
  split
  · rw [Nat.compare_eq_lt.mpr (by omega)]
  split
  · rw [Nat.compare_eq_gt.mpr (by omega)]
  · rw [Nat.compare_eq_eq.mpr (by omega)]

/-- **Boundaries compare as numbers.** -/
theorem compareBoundary_eq {a b : ProjectionBoundary} (ha : a.Valid width)
    (hb : b.Valid width) : compareBoundary a b = compare (a.toNat width) (b.toNat width) := by
  unfold compareBoundary ProjectionBoundary.toNat
  cases hta : a.top <;> cases htb : b.top
  · simp [compareUint128_eq]
  · have := ha hta
    simp [Nat.compare_eq_lt.mpr this]
  · have := hb htb
    simp [Nat.compare_eq_gt.mpr this]
  · simp

theorem and_mask_eq_zero {n : Nat} (h : n < 64) : x &&& (shift1 n - 1) = 0 ↔ 2 ^ n ∣ x.toNat := by
  have ho : (1 : UInt64) ≤ shift1 n := by
    rw [UInt64.le_iff_toNat_le, toNat_shift1 h]
    exact Nat.one_le_two_pow
  rw [← UInt64.toNat_inj, UInt64.toNat_and, UInt64.toNat_sub_of_le _ _ ho, toNat_shift1 h]
  simp only [UInt64.toNat_one, UInt64.toNat_zero, Nat.and_two_pow_sub_one_eq_mod]
  exact Nat.dvd_iff_mod_eq_zero.symm

theorem eq_zero_iff : x = 0 ↔ x.toNat = 0 := by
  rw [← UInt64.toNat_inj]
  rfl

/-- **`aligned` is divisibility.** -/
theorem aligned_iff (hw : Width width) (hs : sizeBits ≤ width) (hst : start.toNat < 2 ^ width) :
    aligned start sizeBits width = true ↔ 2 ^ sizeBits ∣ start.toNat := by
  have hlo := start.lo.toNat_lt
  unfold aligned
  by_cases h0 : sizeBits = 0
  · simp [h0]
  rw [if_neg h0]
  by_cases hf : sizeBits = width
  · rw [if_pos hf, hf, Bool.and_eq_true, decide_eq_true_eq, decide_eq_true_eq, eq_zero_iff,
      eq_zero_iff]
    rw [show (2 ^ width ∣ start.toNat ↔ start.toNat = 0) from
      ⟨fun h => Nat.eq_zero_of_dvd_of_lt h hst, fun h => h ▸ dvd_zero _⟩]
    unfold Uint128.toNat
    omega
  rw [if_neg hf]
  by_cases hsm : sizeBits < 64
  · rw [if_pos hsm, decide_eq_true_eq, and_mask_eq_zero hsm]
    have hd : 2 ^ sizeBits ∣ start.hi.toNat * 2 ^ 64 := Dvd.dvd.mul_left (pow_dvd_pow 2 hsm.le) _
    exact (Nat.dvd_add_right hd).symm
  rw [if_neg hsm]
  by_cases h64 : sizeBits = 64
  · rw [if_pos h64, h64, decide_eq_true_eq, eq_zero_iff, Nat.dvd_iff_mod_eq_zero, Uint128.toNat]
    omega
  · rw [if_neg h64, Bool.and_eq_true, decide_eq_true_eq, decide_eq_true_eq, eq_zero_iff,
      and_mask_eq_zero (show sizeBits - 64 < 64 by rcases hw with h | h <;> omega)]
    have hsp : 2 ^ sizeBits = 2 ^ (sizeBits - 64) * 2 ^ 64 := by
      rw [← pow_add]
      congr 1
      omega
    rw [hsp]
    unfold Uint128.toNat
    constructor
    · rintro ⟨hz, hd⟩
      rw [hz, Nat.add_zero]
      exact Nat.mul_dvd_mul_right hd _
    · intro hd
      have hz : start.lo.toNat = 0 := by
        have h64 : 2 ^ 64 ∣ start.hi.toNat * 2 ^ 64 + start.lo.toNat :=
          dvd_trans (Dvd.intro_left _ rfl) hd
        have := (Nat.dvd_add_right (Dvd.intro_left _ rfl)).mp h64
        exact Nat.eq_zero_of_dvd_of_lt this hlo
      rw [hz, Nat.add_zero] at hd
      exact ⟨hz, Nat.dvd_of_mul_dvd_mul_right (Nat.two_pow_pos 64) hd⟩

end Perimeterd.CrowdSec
