import Mathlib

/-!
# Dyadic blocks of the number line

A CIDR prefix is a *dyadic block*: an interval of `2 ^ exp` consecutive numbers that starts at a
multiple of its own size. Everything the prefix algorithms downstream rely on is a consequence of
one fact about such blocks, **laminarity** (`Block.subset_of_mem`): two blocks that share a point
are nested, the smaller inside the larger. No two ever overlap partially.

A block is stored as its size exponent and its *index* among the blocks of that size, so every pair
of numbers is a block and there is no alignment side condition to carry: `lo` is aligned because it
is computed as `index * 2 ^ exp`.
-/

namespace Lib

/-- The block number `index` among the blocks of size `2 ^ exp`. -/
structure Block where
  index : Nat
  exp : Nat
deriving DecidableEq, Repr

namespace Block

def lo (b : Block) : Nat := b.index * 2 ^ b.exp

def hi (b : Block) : Nat := (b.index + 1) * 2 ^ b.exp

instance : Membership Nat Block := ⟨fun b x => x / 2 ^ b.exp = b.index⟩

instance (b : Block) (x : Nat) : Decidable (x ∈ b) :=
  inferInstanceAs (Decidable (x / 2 ^ b.exp = b.index))

/-- Inclusion, as sets of points. -/
protected def Subset (b c : Block) : Prop := ∀ x, x ∈ b → x ∈ c

instance : HasSubset Block := ⟨Block.Subset⟩

/-- The block of size `2 ^ k` around a point. -/
def around (x k : Nat) : Block := ⟨x / 2 ^ k, k⟩

variable {b c : Block} {x : Nat}

theorem mem_def : x ∈ b ↔ x / 2 ^ b.exp = b.index := Iff.rfl

theorem hi_eq (b : Block) : b.hi = b.lo + 2 ^ b.exp := by
  unfold hi lo; ring

theorem lo_lt_hi (b : Block) : b.lo < b.hi := by
  rw [hi_eq]; exact Nat.lt_add_of_pos_right (Nat.two_pow_pos _)

theorem mem_iff : x ∈ b ↔ b.lo ≤ x ∧ x < b.hi := by
  rw [mem_def, Nat.div_eq_iff (Nat.two_pow_pos _), hi_eq, lo]
  have := Nat.two_pow_pos b.exp
  omega

theorem lo_mem (b : Block) : b.lo ∈ b := mem_iff.mpr ⟨le_rfl, b.lo_lt_hi⟩

theorem mem_around (x k : Nat) : x ∈ around x k := rfl

theorem eq_around (h : x ∈ b) : b = around x b.exp := by
  cases b
  simp only [mem_def] at h
  simp [around, h]

theorem lo_inj (hexp : b.exp = c.exp) (hlo : b.lo = c.lo) : b = c := by
  have h : c.lo ∈ b := hlo ▸ b.lo_mem
  have hb := eq_around h
  rw [hexp, ← eq_around c.lo_mem] at hb
  exact hb

/-- **Laminarity.** A block that shares a point with one at least as large lies inside it. -/
theorem subset_of_mem (hb : x ∈ b) (hc : x ∈ c) (hle : b.exp ≤ c.exp) : b ⊆ c := by
  intro y hy
  rw [mem_def] at hb hc hy ⊢
  obtain ⟨d, hd⟩ := Nat.le.dest hle
  -- dividing by the larger size factors through dividing by the smaller one
  have hf : ∀ z : Nat, z / 2 ^ c.exp = z / 2 ^ b.exp / 2 ^ d := by
    intro z
    rw [← hd, pow_add, Nat.div_div_eq_div_mul]
  rw [hf, hy, ← hb, ← hf, hc]

theorem subset_refl (b : Block) : b ⊆ b := fun _ h => h

theorem subset_trans {a : Block} (hab : a ⊆ b) (hbc : b ⊆ c) : a ⊆ c := fun x hx => hbc x (hab x hx)

theorem Subset.bounds (h : b ⊆ c) : c.lo ≤ b.lo ∧ b.hi ≤ c.hi := by
  have h₁ := mem_iff.mp (h _ b.lo_mem)
  have hl : b.hi - 1 ∈ b := mem_iff.mpr (by have := b.lo_lt_hi; omega)
  have h₂ := mem_iff.mp (h _ hl)
  omega

theorem Subset.exp_le (h : b ⊆ c) : b.exp ≤ c.exp := by
  have hb := h.bounds
  rw [hi_eq, hi_eq] at hb
  have hle : 2 ^ b.exp ≤ 2 ^ c.exp := by
    have := h.bounds.1
    omega
  exact (Nat.pow_le_pow_iff_right (by norm_num)).mp hle

theorem subset_iff : b ⊆ c ↔ b.exp ≤ c.exp ∧ b.lo ∈ c :=
  ⟨fun h => ⟨h.exp_le, h _ b.lo_mem⟩, fun h => subset_of_mem b.lo_mem h.2 h.1⟩

instance (b c : Block) : Decidable (b ⊆ c) := decidable_of_iff' _ subset_iff

theorem subset_antisymm (h₁ : b ⊆ c) (h₂ : c ⊆ b) : b = c :=
  lo_inj (le_antisymm h₁.exp_le h₂.exp_le) (le_antisymm h₂.bounds.1 h₁.bounds.1)

/-! ## Blocks that stand apart -/

def Before (b c : Block) : Prop := b.hi ≤ c.lo

instance (b c : Block) : Decidable (b.Before c) := inferInstanceAs (Decidable (b.hi ≤ c.lo))

theorem Before.trans {a : Block} (hab : a.Before b) (hbc : b.Before c) : a.Before c := by
  unfold Before at *
  have := b.lo_lt_hi
  omega

theorem Before.not_mem (h : b.Before c) (hb : x ∈ b) : x ∉ c := by
  intro hc
  unfold Before at h
  have h₁ := mem_iff.mp hb
  have h₂ := mem_iff.mp hc
  omega

theorem nested_or_apart (b c : Block) : b ⊆ c ∨ c ⊆ b ∨ b.Before c ∨ c.Before b := by
  by_cases h₁ : b.Before c
  · exact .inr (Or.inr (Or.inl h₁))
  by_cases h₂ : c.Before b
  · exact .inr (Or.inr (Or.inr h₂))
  -- neither ends before the other begins, so the later of the two starts is common
  unfold Before at h₁ h₂
  have hb := b.lo_lt_hi
  have hc := c.lo_lt_hi
  have hmb : max b.lo c.lo ∈ b := mem_iff.mpr (by omega)
  have hmc : max b.lo c.lo ∈ c := mem_iff.mpr (by omega)
  rcases le_total b.exp c.exp with hle | hle
  · exact .inl (subset_of_mem hmb hmc hle)
  · exact .inr (Or.inl (subset_of_mem hmc hmb hle))

theorem before_of_lo_le (hlo : b.lo ≤ c.lo) (hn : c.lo ∉ b) : b.Before c := by
  unfold Before
  by_contra hlt
  exact hn (mem_iff.mpr ⟨hlo, by omega⟩)

/-! ## Halving -/

/-- The lower half of a block that has one. -/
def left (b : Block) : Block := ⟨2 * b.index, b.exp - 1⟩

def right (b : Block) : Block := ⟨2 * b.index + 1, b.exp - 1⟩

/-- The block twice the size around this one. -/
def parent (b : Block) : Block := ⟨b.index / 2, b.exp + 1⟩

section

variable (h : 0 < b.exp)

include h

theorem left_lo : b.left.lo = b.lo := by
  obtain ⟨k, hk⟩ := Nat.exists_eq_succ_of_ne_zero (Nat.pos_iff_ne_zero.mp h)
  simp only [lo, left, hk, Nat.succ_eq_add_one, Nat.add_sub_cancel]
  ring

theorem left_hi : b.left.hi = b.lo + 2 ^ (b.exp - 1) := by
  rw [hi_eq, left_lo h]; rfl

theorem right_lo : b.right.lo = b.lo + 2 ^ (b.exp - 1) := by
  obtain ⟨k, hk⟩ := Nat.exists_eq_succ_of_ne_zero (Nat.pos_iff_ne_zero.mp h)
  simp only [lo, right, hk, Nat.succ_eq_add_one, Nat.add_sub_cancel]
  ring

theorem right_hi : b.right.hi = b.hi := by
  obtain ⟨k, hk⟩ := Nat.exists_eq_succ_of_ne_zero (Nat.pos_iff_ne_zero.mp h)
  simp only [hi, right, hk, Nat.succ_eq_add_one, Nat.add_sub_cancel]
  ring

theorem left_before_right : b.left.Before b.right := by
  unfold Before
  rw [left_hi h, right_lo h]

theorem mem_halves : x ∈ b ↔ x ∈ b.left ∨ x ∈ b.right := by
  have hmi : b.lo + 2 ^ (b.exp - 1) ≤ b.hi := by
    rw [← right_lo h, ← right_hi h]; exact b.right.lo_lt_hi.le
  have hp := Nat.two_pow_pos (b.exp - 1)
  rw [mem_iff, mem_iff, mem_iff, left_lo h, left_hi h, right_lo h, right_hi h]
  omega

theorem left_subset : b.left ⊆ b := fun _ hx => (mem_halves h).mpr (Or.inl hx)

theorem right_subset : b.right ⊆ b := fun _ hx => (mem_halves h).mpr (Or.inr hx)

end

theorem subset_parent (b : Block) : b ⊆ b.parent := by
  intro x hx
  rw [mem_def] at hx ⊢
  simp only [parent, pow_succ]
  rw [← Nat.div_div_eq_div_mul, hx]

theorem halves_of_parent_eq (hp : b.parent = c.parent) (hbe : b.Before c) :
    b = b.parent.left ∧ c = b.parent.right := by
  obtain ⟨i, k⟩ := b
  obtain ⟨j, m⟩ := c
  simp only [parent, mk.injEq, Nat.add_right_cancel_iff] at hp
  obtain ⟨hin, rfl⟩ := hp
  have hlt : i + 1 ≤ j := Nat.le_of_mul_le_mul_right hbe (Nat.two_pow_pos k)
  simp only [parent, left, right, mk.injEq, Nat.add_sub_cancel, and_true]
  omega

end Block

/-! ## Lists of blocks -/

/-- Sorted by position and pairwise disjoint. -/
def Tidy (l : List Block) : Prop := l.Pairwise Block.Before

instance (l : List Block) : Decidable (Tidy l) := inferInstanceAs (Decidable (l.Pairwise _))

/-- Some block of the list holds the point. -/
def Covers (l : List Block) (x : Nat) : Prop := ∃ b ∈ l, x ∈ b

instance (l : List Block) (x : Nat) : Decidable (Covers l x) :=
  inferInstanceAs (Decidable (∃ b ∈ l, x ∈ b))

@[simp] theorem covers_nil (x : Nat) : ¬ Covers [] x := by simp [Covers]

@[simp] theorem covers_cons {b : Block} {l : List Block} {x : Nat} :
    Covers (b :: l) x ↔ x ∈ b ∨ Covers l x := by simp [Covers]

@[simp] theorem covers_append {l m : List Block} {x : Nat} :
    Covers (l ++ m) x ↔ Covers l x ∨ Covers m x := by
  simp [Covers, or_and_right, exists_or]

theorem Tidy.unique {l : List Block} (h : Tidy l) {b c : Block} (hb : b ∈ l) (hc : c ∈ l)
    {x : Nat} (hxb : x ∈ b) (hxc : x ∈ c) : b = c := by
  have hsy : Std.Symm fun b c : Block => ∀ x, x ∈ b → x ∉ c := ⟨fun b c hbc x hc hb => hbc x hb hc⟩
  have hal : l.Pairwise fun b c => ∀ x, x ∈ b → x ∉ c := by
    refine h.imp ?_
    intro b c hbc x hx
    exact hbc.not_mem hx
  by_contra hne
  exact hal.forall hb hc hne x hxb hxc

end Lib
