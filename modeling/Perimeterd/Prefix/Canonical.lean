import Perimeterd.Prefix.Ops

/-!
# Canonical prefix lists

`Canonical` is the invariant of a `prefix.Set`: masked prefixes, in the order of the line, none
meeting another. This file proves that `canonicalize` establishes it without changing what is
covered, and what bisection answers on a list that has it.

The scan of `canonicalize` compares each candidate with the **last kept** prefix only, and with its
*address* only. Both shortcuts are laminarity: in sorted order a later block that starts inside the
last kept one lies inside it entirely, and if it starts outside it lies beyond everything kept.
-/

namespace Perimeterd

open Lib List

namespace Prefix

/-- Some prefix of the list contains the address. -/
def Covered (l : List Prefix) (a : Addr) : Prop := ∃ p ∈ l, p.contains a = true

instance (l : List Prefix) (a : Addr) : Decidable (Covered l a) :=
  inferInstanceAs (Decidable (∃ p ∈ l, p.contains a = true))

variable {p q : Prefix} {l m : List Prefix} {a : Addr} {x : Nat}

@[simp] theorem covered_nil (a : Addr) : ¬ Covered [] a := by simp [Covered]

@[simp] theorem covered_cons :
    Covered (p :: l) a ↔ p.contains a = true ∨ Covered l a := by simp [Covered]

@[simp] theorem covered_append : Covered (l ++ m) a ↔ Covered l a ∨ Covered m a := by
  simp [Covered, or_and_right, exists_or]

theorem Covered.perm (h : l.Perm m) : Covered l a ↔ Covered m a := by
  simp only [Covered, h.mem_iff]

/-- Masked, sorted along the line and pairwise disjoint. -/
structure Canonical (l : List Prefix) : Prop where
  masked : ∀ p ∈ l, p.Masked
  tidy : l.Pairwise fun p q => p.block.Before q.block

theorem Canonical.nil : Canonical [] := ⟨by simp, List.Pairwise.nil⟩

theorem Canonical.sublist (h : Canonical m) (hs : l.Sublist m) : Canonical l :=
  ⟨fun p hp => h.masked p (hs.subset hp), h.tidy.sublist hs⟩

theorem Canonical.unique (h : Canonical l) (hp : p ∈ l)
    (hq : q ∈ l) (hpa : p.contains a = true) (hqa : q.contains a = true) : p = q := by
  have hti : Tidy (l.map block) := pairwise_map.mpr h.tidy
  refine eq_of_block (h.masked p hp) (h.masked q hq) ?_
  exact hti.unique (mem_map_of_mem hp) (mem_map_of_mem hq)
    (contains_iff.mp hpa) (contains_iff.mp hqa)

/-! ## The end of a prefix, and its halves -/

theorem or_two_pow_sub_one (v k : Nat) : v ||| (2 ^ k - 1) = v / 2 ^ k * 2 ^ k + (2 ^ k - 1) := by
  have hlt : 2 ^ k - 1 < 2 ^ k := Nat.sub_lt (Nat.two_pow_pos _) Nat.one_pos
  rw [Nat.mul_comm, Nat.two_pow_add_eq_or_of_lt hlt]
  apply Nat.eq_of_testBit_eq
  intro i
  simp only [Nat.testBit_or, Nat.testBit_two_pow_mul, Nat.testBit_div_two_pow,
    Nat.testBit_two_pow_sub_one]
  by_cases h : i < k
  · simp [h]
  · simp [h, Nat.sub_add_cancel (Nat.le_of_not_lt h), Nat.le_of_not_lt h]

theorem prefixEnd_point (p : Prefix) : (prefixEnd p).point + 1 = p.block.hi := by
  have hlo := p.masked_point
  change p.addr.family.base + p.addr.value / 2 ^ p.host * 2 ^ p.host = p.block.lo at hlo
  rw [Block.hi_eq, ← hlo, block_exp]
  change p.addr.family.base + (p.addr.value ||| (2 ^ p.host - 1)) + 1 = _
  rw [or_two_pow_sub_one]
  have := Nat.two_pow_pos p.host
  omega

theorem block_hi_le (p : Prefix) : p.block.hi ≤ p.addr.family.base + 2 ^ p.addr.family.width := by
  rw [← prefixEnd_point]
  exact (prefixEnd p).point_lt

theorem mem_block_bounds (h : x ∈ p.block) :
    p.addr.family.base ≤ x ∧ x < p.addr.family.base + 2 ^ p.addr.family.width := by
  obtain ⟨hlo, hhi⟩ := Block.mem_iff.mp h
  have h₁ := p.block_hi_le
  have h₂ := p.masked_point
  have h₃ : p.addr.family.base ≤ p.masked.addr.point := Nat.le_add_right _ _
  omega

theorem exists_addr_of_point {f : Family} (hlo : f.base ≤ x) (hhi : x < f.base + 2 ^ f.width) :
    ∃ a : Addr, a.family = f ∧ a.point = x := by
  refine ⟨⟨f, x - f.base, by omega⟩, rfl, ?_⟩
  simp only [Addr.point]
  omega

theorem addr_of_block (h : x ∈ p.block) : ∃ a : Addr, a.point = x ∧ p.contains a = true := by
  obtain ⟨hlo, hhi⟩ := mem_block_bounds h
  obtain ⟨a, -, rfl⟩ := exists_addr_of_point hlo hhi
  exact ⟨a, rfl, contains_iff.mpr h⟩

theorem clearBit_of_masked {v h : Nat} (hv : v / 2 ^ h * 2 ^ h = v) {i : Nat} (hi : i < h) :
    clearBit v i = v := by
  have : v.testBit i = false := by
    rw [← hv, Nat.mul_comm, Nat.testBit_two_pow_mul]
    simp [Nat.not_le.mpr hi]
  simp [clearBit, this]

theorem or_bit_of_masked {v h : Nat} (hv : v / 2 ^ h * 2 ^ h = v) {i : Nat} (hi : i < h) :
    v ||| 2 ^ i = v + 2 ^ i := by
  have hlt : 2 ^ i < 2 ^ h := Nat.pow_lt_pow_right (by norm_num) hi
  conv_lhs => rw [← hv, Nat.mul_comm, ← Nat.two_pow_add_eq_or_of_lt hlt, Nat.mul_comm, hv]

theorem Masked.value (h : p.Masked) : p.addr.value / 2 ^ p.host * 2 ^ p.host = p.addr.value :=
  congrArg (fun q : Prefix => q.addr.value) h

theorem masked_of_point (h : p.addr.point = p.block.lo) : p.Masked := by
  have ha : p.masked.addr = p.addr := Addr.point_inj (by rw [masked_point, h])
  unfold Masked
  cases hm : p.masked
  cases p
  rw [hm] at ha
  simp only at ha
  have hb := masked_bits _ ▸ congrArg Prefix.bits hm
  simp only at hb
  subst ha; subst hb
  rfl

theorem block_eq_of_lo {b : Block} (hexp : p.host = b.exp)
    (hpt : p.addr.point = b.lo) : p.block = b := by
  rw [block, hpt, hexp]
  exact (Block.eq_around b.lo_mem).symm

/-- **Splitting a masked prefix halves its block**; only a single address cannot be split. -/
theorem split_spec (hm : p.Masked) :
    (p.host = 0 ∧ split p = none) ∨
      ∃ l r, split p = some (l, r) ∧ 0 < p.host ∧ l.Masked ∧ r.Masked ∧
        l.block = p.block.left ∧ r.block = p.block.right ∧
        l.host + 1 = p.host ∧ r.host + 1 = p.host := by
  unfold split
  by_cases h : p.bits < p.addr.family.width
  · right
    have hp : 0 < p.host := by unfold host; omega
    have hi : p.addr.family.width - 1 - p.bits = p.host - 1 := by unfold host; omega
    have hc : clearBit p.addr.value (p.host - 1) = p.addr.value :=
      clearBit_of_masked hm.value (by omega)
    have hse : p.addr.value ||| 2 ^ (p.host - 1) = p.addr.value + 2 ^ (p.host - 1) :=
      or_bit_of_masked hm.value (by omega)
    rw [dif_pos h]
    simp only [hi, hc, hse]
    refine ⟨_, _, rfl, hp, ?_⟩
    generalize hl : (Prefix.mk (Addr.mk p.addr.family p.addr.value _) (p.bits + 1) _) = l
    generalize hr : (Prefix.mk (Addr.mk p.addr.family
      (p.addr.value + 2 ^ (p.host - 1)) _) (p.bits + 1) _) = r
    have hlh : l.host = p.host - 1 := by subst hl; simp only [host]; omega
    have hrh : r.host = p.host - 1 := by subst hr; simp only [host]; omega
    have hlp : l.addr.point = p.block.left.lo := by
      rw [Block.left_lo (by simpa using hp), ← hm.point]; subst hl; rfl
    have hrp : r.addr.point = p.block.right.lo := by
      rw [Block.right_lo (by simpa using hp), ← hm.point]; subst hr
      simp only [Addr.point, block_exp]; omega
    have hlb : l.block = p.block.left := block_eq_of_lo (by rw [hlh]; rfl) hlp
    have hrb : r.block = p.block.right := block_eq_of_lo (by rw [hrh]; rfl) hrp
    refine ⟨masked_of_point (by rw [hlb, hlp]), masked_of_point (by rw [hrb, hrp]), hlb, hrb, ?_, ?_⟩
    · omega
    · omega
  · left
    have := p.le
    exact ⟨by unfold host; omega, by rw [dif_neg h]⟩

/-! ## `canonicalize` -/

theorem less_iff : less p q = true ↔
    p.addr.point < q.addr.point ∨ p.addr.point = q.addr.point ∧ p.bits < q.bits := by
  have hp := p.addr.point_family
  have hq := q.addr.point_family
  unfold less
  by_cases hf : (p.addr.is4 != q.addr.is4) = true
  · rw [if_pos hf]
    simp only [Addr.is4, bne_iff_ne, ne_eq, decide_eq_decide] at hf
    rw [Addr.is4, decide_eq_true_eq, hp]
    rw [hp, hq] at hf
    omega
  · rw [if_neg hf]
    cases hc : p.addr.compare q.addr with
    | lt => simpa using Or.inl (Addr.compare_lt.mp hc)
    | gt => have := Addr.compare_gt.mp hc; simp; omega
    | eq =>
      have := Addr.compare_eq_eq.mp hc
      simp [this]

theorem less_eq_false : less q p = false ↔
    p.addr.point < q.addr.point ∨ p.addr.point = q.addr.point ∧ p.bits ≤ q.bits := by
  rw [← Bool.not_eq_true, less_iff]
  omega

theorem sorted_by_less (l : List Prefix) :
    (sortSlice less l).Pairwise fun p q => less q p = false := by
  refine (sortSlice_sorted key (fun _ _ => less_iff.trans key_lt.symm) l).imp fun {p q} h => ?_
  rwa [← Bool.not_eq_true, less_iff, ← key_lt, not_lt]

theorem subset_of_less (hp : p.Masked) (hq : q.Masked) (hle : less q p = false)
    (hc : p.contains q.addr = true) : q.block ⊆ p.block := by
  have hmem := contains_iff.mp hc
  rcases le_total q.block.exp p.block.exp with h | h
  · exact Block.subset_of_mem q.addr_mem hmem h
  · -- the other nesting would make `q` start no later than `p`, so the two coincide
    have hsu := Block.subset_of_mem hmem q.addr_mem h
    have hlo := hsu.bounds.1
    rw [← hp.point, ← hq.point] at hlo
    rw [less_eq_false] at hle
    have hpt : p.addr = q.addr := Addr.point_inj (by omega)
    have hh : q.host ≤ p.host := by
      unfold host
      rw [hpt]
      omega
    exact Block.subset_of_mem q.addr_mem hmem hh

theorem before_of_less (hp : p.Masked) (hq : q.Masked) (hle : less q p = false)
    (hc : p.contains q.addr = false) : p.block.Before q.block := by
  rw [less_eq_false, hp.point, hq.point] at hle
  refine Block.before_of_lo_le (by omega) ?_
  rw [← hq.point, ← contains_iff, hc]
  exact Bool.false_ne_true

theorem keepUncovered_sublist : ∀ (last : Option Prefix) (l : List Prefix),
    (keepUncovered last l).Sublist l
  | _, [] => List.Sublist.slnil
  | last, c :: rest => by
    rw [keepUncovered]
    split
    · exact (keepUncovered_sublist last rest).cons c
    · exact (keepUncovered_sublist (some c) rest).cons_cons c

theorem keepUncovered_after {last : Prefix} (hl : last.Masked)
    (hm : ∀ p ∈ l, p.Masked) (hs : (last :: l).Pairwise fun p q => less q p = false) :
    (last :: keepUncovered (some last) l).Pairwise (fun p q => p.block.Before q.block) ∧
      ∀ a, Covered (last :: keepUncovered (some last) l) a ↔ Covered (last :: l) a := by
  induction l generalizing last with
  | nil => simp [keepUncovered]
  | cons c rest ih =>
    have hc : c.Masked := hm c (by simp)
    have hmr : ∀ p ∈ rest, p.Masked := fun p hp => hm p (by simp [hp])
    rw [pairwise_cons] at hs
    have hle : less c last = false := hs.1 c (by simp)
    have hsr : (last :: rest).Pairwise fun p q => less q p = false :=
      pairwise_cons.mpr ⟨fun q hq => hs.1 q (by simp [hq]), (pairwise_cons.mp hs.2).2⟩
    rw [keepUncovered]
    cases hco : last.contains c.addr with
    | true =>
      obtain ⟨ht, hcov⟩ := ih hl hmr hsr
      simp only [Option.any_some, hco, if_true]
      refine ⟨ht, fun a => ?_⟩
      have hsu := subset_of_less hl hc hle hco
      have him : c.contains a = true → last.contains a = true := fun h =>
        contains_iff.mpr (hsu _ (contains_iff.mp h))
      rw [hcov a, covered_cons, covered_cons, covered_cons]
      tauto
    | false =>
      obtain ⟨ht, hcov⟩ := ih hc hmr hs.2
      simp only [Option.any_some, hco, Bool.false_eq_true, if_false]
      have hb := before_of_less hl hc hle hco
      refine ⟨pairwise_cons.mpr ⟨?_, ht⟩, fun a => ?_⟩
      · intro q hq
        rcases mem_cons.mp hq with rfl | hq
        · exact hb
        · exact hb.trans ((pairwise_cons.mp ht).1 q hq)
      · rw [covered_cons, hcov a]
        exact covered_cons.symm

/-- **`canonicalize` establishes the invariant and preserves membership.** -/
theorem canonicalize_spec (hm : ∀ p ∈ l, p.Masked) :
    Canonical (canonicalize l) ∧ ∀ a, Covered (canonicalize l) a ↔ Covered l a := by
  have hpe := sortSlice_perm less l
  have hms : ∀ p ∈ sortSlice less l, p.Masked := fun p hp => hm p (hpe.mem_iff.mp hp)
  have hsu := keepUncovered_sublist none (sortSlice less l)
  have hso := sorted_by_less l
  unfold canonicalize
  suffices h : (keepUncovered none (sortSlice less l)).Pairwise
      (fun p q => p.block.Before q.block) ∧
      ∀ a, Covered (keepUncovered none (sortSlice less l)) a ↔ Covered (sortSlice less l) a from
    ⟨⟨fun p hp => hms p (hsu.subset hp), h.1⟩, fun a => (h.2 a).trans (Covered.perm hpe)⟩
  cases hl : sortSlice less l with
  | nil => simp [keepUncovered]
  | cons c rest =>
    rw [hl] at hms hso
    have hst : keepUncovered none (c :: rest) = c :: keepUncovered (some c) rest := by
      simp [keepUncovered]
    rw [hst]
    exact keepUncovered_after (hms c (by simp)) (fun p hp => hms p (by simp [hp])) hso

/-! ## `normalize` -/

theorem maskAll_spec : ∀ {i : Nat} {values : List NetipPrefix} {ps : List Prefix},
    maskAll i values = .ok ps →
      (∀ p ∈ ps, p.Masked) ∧ ∀ a, Covered ps a ↔ ∃ p, .valid p ∈ values ∧ p.contains a = true
  | _, [], ps, h => by
    simp only [maskAll, Except.ok.injEq] at h
    subst h
    simp
  | i, v :: vs, ps, h => by
    rw [maskAll] at h
    cases v with
    | zero => simp [validate] at h
    | badBits _ => simp [validate] at h
    | valid p =>
      simp only [validate] at h
      cases hr : maskAll (i + 1) vs with
      | error e => rw [hr] at h; cases h
      | ok rest =>
        rw [hr] at h
        simp only [Except.ok.injEq] at h
        subst h
        obtain ⟨hm, hc⟩ := maskAll_spec hr
        have hpm : ∀ a, p.masked.contains a = true ↔ p.contains a = true := fun a => by
          rw [contains_iff, contains_iff, masked_block]
        refine ⟨?_, fun a => ?_⟩
        · intro q hq
          rcases mem_cons.mp hq with rfl | hq
          · exact p.masked_masked
          · exact hm q hq
        · rw [covered_cons, hpm a, hc a]
          constructor
          · rintro (h | ⟨q, hq, hqa⟩)
            · exact ⟨p, by simp, h⟩
            · exact ⟨q, by simp [hq], hqa⟩
          · rintro ⟨q, hq, hqa⟩
            rcases mem_cons.mp hq with h | h
            · cases h; exact .inl hqa
            · exact .inr ⟨q, h, hqa⟩

/-- **`Normalize` returns a canonical list of the same addresses.** -/
theorem normalize_spec {vs : List NetipPrefix} {ps : List Prefix} (h : normalize vs = .ok ps) :
    Canonical ps ∧ ∀ a, Covered ps a ↔ ∃ p, .valid p ∈ vs ∧ p.contains a = true := by
  unfold normalize at h
  cases hm : maskAll 0 vs with
  | error e => rw [hm] at h; cases h
  | ok qs =>
    rw [hm] at h
    simp only [Except.ok.injEq] at h
    subst h
    obtain ⟨hma, hc⟩ := maskAll_spec hm
    obtain ⟨hca, hc'⟩ := canonicalize_spec hma
    exact ⟨hca, fun a => (hc' a).trans (hc a)⟩

end Prefix

end Perimeterd
