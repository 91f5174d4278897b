import Perimeterd.Lib.Block

/-!
# `net/netip`: addresses and prefixes

The values every other module is about. Two choices shape the proofs downstream.

**Invalid values cannot be built.** An `Addr` carries the bound of its family's width and a `Prefix`
carries `bits ≤ width`, so the zero `netip.Addr` and the `Bits() == -1` prefixes do not inhabit
these types. Where the code really receives such values it receives a `NetipPrefix`, and its
`validate` is the only way from there to a `Prefix`. Zones do not appear: `netip.PrefixFrom` drops
them, so no prefix has one.

**Both families live on one number line.** `Addr.point` places IPv4 at `[0, 2^32)` and IPv6 at
`[2^128, 2^129)`. `netip.Addr.Compare` orders by bit length first and by value second, which is
exactly the order of the points (`Addr.compare_eq`), and because `2^128` is a multiple of every
IPv6 block size a prefix of either family is a dyadic block of the line (`Prefix.contains_iff`).
Every fact about mixed-family prefix lists is therefore a fact about `Lib.Block`.
-/

namespace Perimeterd

open Lib

inductive Family where
  | ipv4
  | ipv6
deriving DecidableEq, Repr

def Family.width : Family → Nat
  | .ipv4 => 32
  | .ipv6 => 128

/-- Where the family's addresses begin on the common line. -/
def Family.base : Family → Nat
  | .ipv4 => 0
  | .ipv6 => 2 ^ 128

structure Addr where
  family : Family
  value : Nat
  lt : value < 2 ^ family.width
deriving DecidableEq

namespace Addr

def point (a : Addr) : Nat := a.family.base + a.value

def is4In6 (a : Addr) : Bool := a.family = .ipv6 && a.value / 2 ^ 32 = 0xFFFF

/-- `Addr.Compare`: bit length, then value. -/
def compare (a b : Addr) : Ordering :=
  (Ord.compare a.family.width b.family.width).then (Ord.compare a.value b.value)

def is4 (a : Addr) : Bool := a.family = .ipv4

variable {a b : Addr}

theorem point_lt (a : Addr) : a.point < a.family.base + 2 ^ a.family.width := by
  unfold point; have := a.lt; omega

theorem point_family : a.family = .ipv4 ↔ a.point < 2 ^ 128 := by
  have h := a.lt
  cases a with
  | mk f v lt =>
    cases f with
    | ipv4 =>
      simp only [Family.width] at h
      simp only [point, Family.base, true_iff]
      omega
    | ipv6 => simp [point, Family.base]

theorem family_eq_of_point (h : a.point = b.point) : a.family = b.family := by
  have hif : a.family = .ipv4 ↔ b.family = .ipv4 := by rw [point_family, point_family, h]
  cases hfa : a.family <;> cases hfb : b.family <;> simp [hfa, hfb] at hif ⊢

theorem point_inj (h : a.point = b.point) : a = b := by
  have hf := family_eq_of_point h
  cases a; cases b
  simp only at hf
  subst hf
  simp only [point, Nat.add_left_cancel_iff] at h
  subst h
  rfl

theorem compare_eq (a b : Addr) : a.compare b = Ord.compare a.point b.point := by
  obtain ⟨fa, va, ha⟩ := a
  obtain ⟨fb, vb, hb⟩ := b
  cases fa <;> cases fb <;> simp only [Family.width] at ha hb <;>
    simp only [compare, point, Family.width, Family.base]
  · rw [show Ord.compare 32 32 = Ordering.eq from rfl, Nat.zero_add, Nat.zero_add]
    rfl
  · rw [show Ord.compare 32 128 = Ordering.lt from rfl, Nat.zero_add,
      Nat.compare_eq_lt.mpr (show va < 2 ^ 128 + vb by omega)]
    rfl
  · rw [show Ord.compare 128 32 = Ordering.gt from rfl, Nat.zero_add,
      Nat.compare_eq_gt.mpr (show vb < 2 ^ 128 + va by omega)]
    rfl
  · rw [show Ord.compare 128 128 = Ordering.eq from rfl]
    change Ord.compare va vb = _
    rcases Nat.lt_trichotomy va vb with h | h | h
    · rw [Nat.compare_eq_lt.mpr h, Nat.compare_eq_lt.mpr (Nat.add_lt_add_left h _)]
    · rw [h, Nat.compare_eq_eq.mpr rfl, Nat.compare_eq_eq.mpr rfl]
    · rw [Nat.compare_eq_gt.mpr h, Nat.compare_eq_gt.mpr (Nat.add_lt_add_left h _)]

theorem compare_lt : a.compare b = .lt ↔ a.point < b.point := by
  rw [compare_eq, Nat.compare_eq_lt]

theorem compare_gt : a.compare b = .gt ↔ b.point < a.point := by
  rw [compare_eq, Nat.compare_eq_gt]

theorem compare_eq_eq : a.compare b = .eq ↔ a = b := by
  rw [compare_eq, Nat.compare_eq_eq]
  exact ⟨point_inj, fun h => h ▸ rfl⟩

end Addr

/-- A valid `netip.Prefix`. Host bits may be set; see `masked`. -/
structure Prefix where
  addr : Addr
  bits : Nat
  le : bits ≤ addr.family.width
deriving DecidableEq

namespace Prefix

def host (p : Prefix) : Nat := p.addr.family.width - p.bits

/-- `Prefix.Masked`: host bits cleared. -/
def masked (p : Prefix) : Prefix where
  addr :=
    { family := p.addr.family
      value := p.addr.value / 2 ^ p.host * 2 ^ p.host
      lt := lt_of_le_of_lt (Nat.div_mul_le_self _ _) p.addr.lt }
  bits := p.bits
  le := p.le

/-- `Prefix.Contains`: same family, same network bits. -/
def contains (p : Prefix) (a : Addr) : Bool :=
  p.addr.family = a.family && a.value / 2 ^ p.host = p.addr.value / 2 ^ p.host

/-- `Prefix.Overlaps`: same family, and the shorter network bits agree. -/
def overlaps (p q : Prefix) : Bool :=
  p.addr.family = q.addr.family &&
    p.addr.value / 2 ^ max p.host q.host = q.addr.value / 2 ^ max p.host q.host

/-- The prefix as a block of the common line. -/
def block (p : Prefix) : Block := Block.around p.addr.point p.host

variable {p q : Prefix}

theorem host_le (p : Prefix) : p.host ≤ p.addr.family.width := Nat.sub_le _ _

theorem base_div {f : Family} {k : Nat} (h : k ≤ f.width) (v : Nat) :
    (f.base + v) / 2 ^ k = f.base / 2 ^ k + v / 2 ^ k := by
  cases f with
  | ipv4 => simp [Family.base]
  | ipv6 =>
    have hd : 2 ^ k ∣ 2 ^ 128 := pow_dvd_pow 2 h
    rw [Family.base, Nat.add_div_of_dvd_right hd]

theorem div_lt_of_split {k v : Nat} (hk : k ≤ 128) (hv : v < 2 ^ 128) (w : Nat) :
    v / 2 ^ k < (2 ^ 128 + w) / 2 ^ k := by
  have hsp : 2 ^ 128 = 2 ^ k * 2 ^ (128 - k) := by
    rw [← pow_add]
    congr 1
    omega
  have h₁ : v / 2 ^ k < 2 ^ (128 - k) := Nat.div_lt_of_lt_mul (hsp ▸ hv)
  have h₂ : 2 ^ (128 - k) ≤ (2 ^ 128 + w) / 2 ^ k := by
    rw [Nat.le_div_iff_mul_le (Nat.two_pow_pos k), mul_comm, ← hsp]
    omega
  omega

/-- **Containment is block membership**, both families at once. -/
theorem contains_iff {a : Addr} : p.contains a = true ↔ a.point ∈ p.block := by
  rw [contains, Bool.and_eq_true, decide_eq_true_eq, decide_eq_true_eq, Block.mem_def]
  change _ ↔ a.point / 2 ^ p.host = p.addr.point / 2 ^ p.host
  constructor
  · rintro ⟨hf, hv⟩
    rw [Addr.point, Addr.point, ← hf, base_div p.host_le, base_div p.host_le, hv]
  · intro h
    by_cases hf : p.addr.family = a.family
    · refine ⟨hf, ?_⟩
      rw [Addr.point, Addr.point, ← hf, base_div p.host_le, base_div p.host_le] at h
      omega
    · -- the block of `p` stays inside its own family's stretch of the line
      exfalso
      have hk : p.host ≤ 128 := le_trans p.host_le (by cases p.addr.family <;> decide)
      have hpa := a.point_family
      have hpp := p.addr.point_family
      cases hfp : p.addr.family <;> cases hfa : a.family <;> rw [hfp, hfa] at hf
      · exact hf rfl
      · have hlt := div_lt_of_split hk (hpp.mp hfp) a.value
        rw [show 2 ^ 128 + a.value = a.point by rw [Addr.point, hfa]; rfl] at hlt
        omega
      · have hlt := div_lt_of_split hk (hpa.mp hfa) p.addr.value
        rw [show 2 ^ 128 + p.addr.value = p.addr.point by rw [Addr.point, hfp]; rfl] at hlt
        omega
      · exact hf rfl

theorem addr_mem (p : Prefix) : p.addr.point ∈ p.block := Block.mem_around _ _

theorem contains_addr (p : Prefix) : p.contains p.addr = true := contains_iff.mpr p.addr_mem

theorem contains_family {a : Addr} (h : p.contains a = true) : p.addr.family = a.family := by
  rw [contains, Bool.and_eq_true, decide_eq_true_eq] at h
  exact h.1

@[simp] theorem block_exp (p : Prefix) : p.block.exp = p.host := rfl

@[simp] theorem masked_bits (p : Prefix) : p.masked.bits = p.bits := rfl

theorem masked_point (p : Prefix) : p.masked.addr.point = p.block.lo := by
  change p.addr.family.base + p.addr.value / 2 ^ p.host * 2 ^ p.host
    = p.addr.point / 2 ^ p.host * 2 ^ p.host
  rw [Addr.point, base_div p.host_le, Nat.add_mul]
  congr 1
  cases hf : p.addr.family with
  | ipv4 => simp [Family.base]
  | ipv6 =>
    have hd : 2 ^ p.host ∣ 2 ^ 128 := pow_dvd_pow 2 (by simpa [hf, Family.width] using p.host_le)
    rw [Family.base, Nat.div_mul_cancel hd]

/-- Masking keeps the block. -/
@[simp] theorem masked_block (p : Prefix) : p.masked.block = p.block := by
  have h : p.masked.addr.point ∈ p.block := p.masked_point ▸ p.block.lo_mem
  have := Block.eq_around h
  rw [block_exp] at this
  exact this.symm

theorem masked_masked (p : Prefix) : p.masked.masked = p.masked := by
  have h : p.masked.masked.addr = p.masked.addr := by
    apply Addr.point_inj
    rw [masked_point, masked_block, masked_point]
  cases hm : p.masked.masked
  cases hn : p.masked
  rw [hm, hn] at h
  simp only at h
  have hb : p.masked.masked.bits = p.masked.bits := rfl
  rw [hm, hn] at hb
  simp only at hb
  subst h; subst hb
  rfl

/-- No host bits set: what `p == p.Masked()` tests. -/
def Masked (p : Prefix) : Prop := p.masked = p

instance (p : Prefix) : Decidable p.Masked := inferInstanceAs (Decidable (p.masked = p))

def single (a : Addr) : Prefix := ⟨a, a.family.width, le_rfl⟩

theorem masked_single (a : Addr) : (single a).Masked := by
  simp [Masked, masked, single, host]

theorem Masked.point (h : p.Masked) : p.addr.point = p.block.lo := by
  rw [← masked_point, h]

theorem eq_of_block (hp : p.Masked) (hq : q.Masked) (h : p.block = q.block) : p = q := by
  have ha : p.addr = q.addr := Addr.point_inj (by rw [hp.point, hq.point, h])
  have hh : p.host = q.host := by rw [← block_exp, h, block_exp]
  have hb : p.bits = q.bits := by
    have h₁ := p.le
    have h₂ := q.le
    unfold host at hh
    rw [ha] at hh h₁
    omega
  cases p; cases q
  simp only at ha hb
  subst ha; subst hb
  rfl

/-- By first address and then by length, as the sorts compare prefixes. -/
def key (p : Prefix) : ℕ ×ₗ ℕ := toLex (p.addr.point, p.bits)

theorem key_lt : p.key < q.key ↔
    p.addr.point < q.addr.point ∨ p.addr.point = q.addr.point ∧ p.bits < q.bits :=
  Prod.Lex.toLex_lt_toLex

theorem point_le_of_key (h : p.key ≤ q.key) : p.addr.point ≤ q.addr.point :=
  (Prod.Lex.toLex_le_toLex.mp h).elim le_of_lt fun h => h.1.le

theorem overlaps_comm (p q : Prefix) : p.overlaps q = q.overlaps p := by
  rw [overlaps, overlaps, max_comm]
  congr 1
  · exact decide_eq_decide.mpr eq_comm
  · exact decide_eq_decide.mpr eq_comm

theorem overlaps_iff : p.overlaps q = true ↔ p.block ⊆ q.block ∨ q.block ⊆ p.block := by
  have key : ∀ p q : Prefix, p.host ≤ q.host → (p.overlaps q = true ↔ p.block ⊆ q.block) := by
    intro p q hle
    have hmax : max p.host q.host = q.host := Nat.max_eq_right hle
    rw [overlaps, hmax]
    have hc : (decide (p.addr.family = q.addr.family) &&
        decide (p.addr.value / 2 ^ q.host = q.addr.value / 2 ^ q.host)) = q.contains p.addr := by
      rw [contains]
      congr 1
      exact decide_eq_decide.mpr eq_comm
    rw [hc, contains_iff]
    exact ⟨fun h => Block.subset_of_mem p.addr_mem h hle, fun h => h _ p.addr_mem⟩
  rcases le_total p.host q.host with hle | hle
  · rw [key p q hle]
    refine ⟨Or.inl, fun h => h.elim id fun h => ?_⟩
    exact Block.subset_of_mem (h _ q.addr_mem) q.addr_mem hle
  · rw [overlaps_comm, key q p hle]
    refine ⟨Or.inr, fun h => h.elim (fun h => ?_) id⟩
    exact Block.subset_of_mem (h _ p.addr_mem) p.addr_mem hle

theorem overlaps_of_mem {x : Nat} (hp : x ∈ p.block) (hq : x ∈ q.block) : p.overlaps q = true :=
  overlaps_iff.mpr
    ((le_total p.host q.host).imp (Block.subset_of_mem hp hq) (Block.subset_of_mem hq hp))

theorem overlaps_common : p.overlaps q = true ↔ ∃ a, p.contains a = true ∧ q.contains a = true := by
  simp only [contains_iff]
  refine ⟨fun h => ?_, fun ⟨a, hp, hq⟩ => overlaps_of_mem hp hq⟩
  rcases overlaps_iff.mp h with h | h
  · exact ⟨p.addr, p.addr_mem, h _ p.addr_mem⟩
  · exact ⟨q.addr, h _ q.addr_mem, q.addr_mem⟩

theorem point_lt_of_before (h : p.block.Before q.block) : p.addr.point < q.addr.point := by
  have hp := (Block.mem_iff.mp p.addr_mem).2
  have hq := (Block.mem_iff.mp q.addr_mem).1
  unfold Block.Before at h
  omega

theorem overlaps_of_before (h : p.block.Before q.block) : p.overlaps q = false := by
  rw [← Bool.not_eq_true, overlaps_iff]
  rintro (hsu | hsu)
  · exact h.not_mem p.addr_mem (hsu _ p.addr_mem)
  · exact h.not_mem (hsu _ q.addr_mem) q.addr_mem

end Prefix

instance neZero_octet : NeZero 256 := ⟨by decide⟩

instance neZero_group : NeZero 65536 := ⟨by decide⟩

instance neZero_v4 : NeZero 33 := ⟨by decide⟩

instance neZero_v6 : NeZero 129 := ⟨by decide⟩

def Addr.v4 (a b c d : Fin 256) : Addr :=
  ⟨.ipv4, ((a.val * 256 + b.val) * 256 + c.val) * 256 + d.val, by simp only [Family.width]; omega⟩

/-- The IPv6 address with the given eight groups. -/
def Addr.v6 (a b c d e f g h : Fin 65536) : Addr :=
  ⟨.ipv6,
    (((((((a.val * 65536 + b.val) * 65536 + c.val) * 65536 + d.val) * 65536 + e.val) * 65536
      + f.val) * 65536 + g.val) * 65536 + h.val),
    by simp only [Family.width]; omega⟩

def Prefix.v4 (a b c d : Fin 256) (bits : Fin 33) : Prefix :=
  ⟨Addr.v4 a b c d, bits.val, Nat.le_of_lt_succ bits.isLt⟩

/-- An IPv6 prefix from its leading three groups; the rest are zero. -/
def Prefix.v6 (a b c : Fin 65536) (bits : Fin 129) : Prefix :=
  ⟨Addr.v6 a b c 0 0 0 0 0, bits.val, Nat.le_of_lt_succ bits.isLt⟩

/-- Any `netip.Prefix` value the code can be handed: the zero value (or one built from an invalid
address), one whose length does not fit its address (`Bits() == -1`), or a valid one. -/
inductive NetipPrefix where
  | zero
  | badBits (addr : Addr)
  | valid (p : Prefix)
deriving DecidableEq

end Perimeterd
