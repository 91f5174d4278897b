import Perimeterd.Lib.Block

/-!
# Covering an interval with as few blocks as possible

Walk an interval `[s, e)` from the left and always take the largest dyadic block that starts here
and still fits. `Greedy e s l` says that `l` is such a walk. Each block the walk takes is maximal
*inside the whole interval*, not only among the blocks that start where it stands, because no block
of the interval straddles a point where the walk stops (`Greedy.maximal`).

Being maximal is enough to be optimal (`length_le_of_largest`): by laminarity every block of a
competing cover that meets a maximal block lies inside it, and maximal blocks are disjoint.
-/

namespace Lib

open List

/-- A block of size `2 ^ k` starts at `s` and ends by `e`. -/
def Fits (s e k : Nat) : Prop := 2 ^ k ∣ s ∧ s + 2 ^ k ≤ e

/-- `l` is the walk from `s` to `e` that takes the largest fitting block each time. -/
inductive Greedy (e : Nat) : Nat → List Block → Prop
  | done : Greedy e e []
  | step {s k : Nat} {l : List Block} (hfits : Fits s e k) (hmax : ∀ j, Fits s e j → j ≤ k)
      (hrest : Greedy e (s + 2 ^ k) l) : Greedy e s (Block.around s k :: l)

variable {s e k : Nat} {b : Block}

theorem Fits.lo (h : Fits s e k) : (Block.around s k).lo = s := Nat.div_mul_cancel h.1

theorem Fits.hi (h : Fits s e k) : (Block.around s k).hi = s + 2 ^ k := by
  rw [Block.hi_eq, h.lo]; rfl

theorem Fits.of_block (h : b.hi ≤ e) : Fits b.lo e b.exp :=
  ⟨Dvd.intro_left _ rfl, by rw [← Block.hi_eq]; exact h⟩

namespace Greedy

variable {e s x s₀ k : Nat} {l : List Block}

theorem le (h : Greedy e s l) : s ≤ e := by
  induction h with
  | done => exact le_rfl
  | step hfits _ _ _ => exact le_trans (Nat.le_add_right _ _) hfits.2

theorem eq_of_nil (h : Greedy e s []) : s = e := by
  cases h
  rfl

theorem eq_nil (h : Greedy e s l) (he : s = e) : l = [] := by
  cases h with
  | done => rfl
  | @step _ k _ hfits _ _ =>
    have := hfits.2
    have := Nat.two_pow_pos k
    omega

theorem inside (h : Greedy e s l) : ∀ b ∈ l, s ≤ b.lo ∧ b.hi ≤ e := by
  induction h with
  | done => simp
  | step hfits _ hrest ih =>
    intro b hb
    rcases mem_cons.mp hb with rfl | hb
    · rw [hfits.lo, hfits.hi]; exact ⟨le_rfl, hfits.2⟩
    · obtain ⟨hlo, hhi⟩ := ih b hb
      exact ⟨le_trans (Nat.le_add_right _ _) hlo, hhi⟩

theorem tidy (h : Greedy e s l) : Tidy l := by
  induction h with
  | done => exact List.Pairwise.nil
  | step hfits _ hrest ih =>
    refine List.Pairwise.cons (fun b hb => ?_) ih
    unfold Block.Before
    rw [hfits.hi]
    exact (hrest.inside b hb).1

theorem covers_iff (h : Greedy e s l) : Covers l x ↔ s ≤ x ∧ x < e := by
  induction h with
  | done => simp
  | @step s k _ hfits _ hrest ih =>
    have hle := hrest.le
    have hp := Nat.two_pow_pos k
    rw [covers_cons, ih, Block.mem_iff, hfits.lo, hfits.hi]
    omega

/-- No block inside `[s₀, e)` straddles the point `s`. -/
def Unstraddled (s₀ e s : Nat) : Prop :=
  ∀ c : Block, s₀ ≤ c.lo → c.hi ≤ e → ¬ (c.lo < s ∧ s < c.hi)

theorem subset_taken (hs : Unstraddled s₀ e s) (hfits : Fits s e k)
    (hmax : ∀ j, Fits s e j → j ≤ k) {c : Block} (hlo : s₀ ≤ c.lo) (hhi : c.hi ≤ e)
    (hc : x ∈ c) (hb : x ∈ Block.around s k) : c ⊆ Block.around s k := by
  rcases le_or_gt c.exp k with hle | hgt
  · exact Block.subset_of_mem hc hb hle
  · -- otherwise `c` swallows the block, so it starts at `s`, where nothing larger fits
    have hsu : Block.around s k ⊆ c := Block.subset_of_mem hb hc hgt.le
    obtain ⟨hcl, hch⟩ := hsu.bounds
    rw [hfits.lo] at hcl
    rw [hfits.hi] at hch
    have hp := Nat.two_pow_pos k
    have heq : c.lo = s := by
      by_contra hne
      exact hs c hlo hhi ⟨by omega, by omega⟩
    have := hmax c.exp (heq ▸ Fits.of_block hhi)
    omega

theorem Unstraddled.step (hs : Unstraddled s₀ e s) (hfits : Fits s e k)
    (hmax : ∀ j, Fits s e j → j ≤ k) : Unstraddled s₀ e (s + 2 ^ k) := by
  rintro c hlo hhi ⟨h₁, h₂⟩
  have hp := Nat.two_pow_pos k
  by_cases hcs : c.lo < s
  · exact hs c hlo hhi ⟨hcs, by omega⟩
  · have hc : c.lo ∈ Block.around s k := by
      rw [Block.mem_iff, hfits.lo, hfits.hi]; omega
    have hbo := (subset_taken hs hfits hmax hlo hhi c.lo_mem hc).bounds
    rw [hfits.hi] at hbo
    omega

theorem maximal (h : Greedy e s l) (hs : Unstraddled s₀ e s) {b c : Block} (hb : b ∈ l)
    (hlo : s₀ ≤ c.lo) (hhi : c.hi ≤ e) (hxc : x ∈ c) (hxb : x ∈ b) : c ⊆ b := by
  induction h with
  | done => cases hb
  | step hfits hmax _ ih =>
    rcases mem_cons.mp hb with rfl | hb
    · exact subset_taken hs hfits hmax hlo hhi hxc hxb
    · exact ih (hs.step hfits hmax) hb

theorem exists_walk {s e : Nat} (h : s ≤ e) : ∃ l, Greedy e s l := by
  classical
  induction hn : e - s using Nat.strong_induction_on generalizing s with
  | _ n ih =>
    rcases h.eq_or_lt with rfl | hlt
    · exact ⟨[], .done⟩
    · have hz : Fits s e 0 := ⟨one_dvd _, hlt⟩
      have hfits : Fits s e (Nat.findGreatest (Fits s e) e) :=
        Nat.findGreatest_spec (Nat.zero_le e) hz
      have hmax : ∀ j, Fits s e j → j ≤ Nat.findGreatest (Fits s e) e := fun j hj =>
        Nat.le_findGreatest (by have := hj.2; have := @Nat.lt_two_pow_self j; omega) hj
      have hp := Nat.two_pow_pos (Nat.findGreatest (Fits s e) e)
      have hsu := hfits.2
      obtain ⟨l, hl⟩ := ih (e - (s + 2 ^ Nat.findGreatest (Fits s e) e)) (by omega) hsu rfl
      exact ⟨_, .step hfits hmax hl⟩

theorem length_le_of_short (h : Greedy e s l) (hd : 2 ^ k ∣ s) (hlt : e < s + 2 ^ k) :
    l.length ≤ k := by
  induction h generalizing k with
  | done => exact Nat.zero_le k
  | @step s j l hfits hmax hrest ih =>
    have hsu := hfits.2
    have hj : j < k := (Nat.pow_lt_pow_iff_right (by decide)).mp (by omega : 2 ^ j < 2 ^ k)
    have hsh : e < s + 2 ^ j + 2 ^ j := by
      by_contra hge
      have hne : Fits s e (j + 1) := ⟨(pow_dvd_pow 2 hj).trans hd, by rw [pow_succ]; omega⟩
      have := hmax _ hne
      omega
    have := ih (Nat.dvd_add hfits.1 dvd_rfl) hsh
    rw [length_cons]
    omega

/-- **A walk inside a block takes at most two blocks of each size.** They grow while the alignment of
the start is what limits them, and shrink once the end does. -/
theorem length_le (h : Greedy e s l) {b w : Nat} (hw : 0 < w) (hd : 2 ^ k ∣ s) (hk : k ≤ w)
    (hb : b ≤ s) (he : e ≤ b + 2 ^ w) : l.length ≤ w - k + w := by
  induction h generalizing k with
  | done => exact Nat.zero_le _
  | @step s j l hfits hmax hrest ih =>
    have hsu := hfits.2
    have hjw : j ≤ w := (Nat.pow_le_pow_iff_right (by decide)).mp (by omega : 2 ^ j ≤ 2 ^ w)
    have hne : 2 ^ j ∣ s + 2 ^ j := Nat.dvd_add hfits.1 dvd_rfl
    rw [length_cons]
    rcases hjw.eq_or_lt with rfl | hjw
    · -- the whole block is taken at once
      have hdo := hrest.length_le_of_short (one_dvd _) (by omega : e < s + 2 ^ j + 2 ^ 0)
      omega
    by_cases hal : 2 ^ (j + 1) ∣ s
    · have hsh : e < s + 2 ^ j + 2 ^ j := by
        by_contra hge
        have := hmax _ ⟨hal, by rw [pow_succ]; omega⟩
        omega
      have := hrest.length_le_of_short hne hsh
      omega
    · have hkj : k ≤ j := by
        by_contra hlt
        exact hal ((pow_dvd_pow 2 (by omega)).trans hd)
      have hg : 2 ^ (j + 1) ∣ s + 2 ^ j := by
        obtain ⟨a, rfl⟩ := hfits.1
        have ho : ¬ 2 ∣ a := fun ha => hal (by
          rw [pow_succ]
          exact Nat.mul_dvd_mul_left _ ha)
        have hev : 2 ∣ a + 1 := by omega
        rw [pow_succ, ← Nat.mul_succ]
        exact Nat.mul_dvd_mul_left _ hev
      have := ih hg hjw (by omega)
      omega

end Greedy

theorem add_le_of_dvd {w : Nat} (hk : k ≤ w) (hd : 2 ^ k ∣ s) (hs : s < 2 ^ w) :
    s + 2 ^ k ≤ 2 ^ w := by
  obtain ⟨a, rfl⟩ := hd
  obtain ⟨b, hb⟩ := pow_dvd_pow 2 hk
  rw [hb] at hs ⊢
  have hab : a < b := Nat.lt_of_mul_lt_mul_left hs
  calc 2 ^ k * a + 2 ^ k = 2 ^ k * (a + 1) := by ring
    _ ≤ 2 ^ k * b := Nat.mul_le_mul_left _ hab

/-! ## Maximal blocks -/

/-- `b` is a largest block on which `P` holds throughout: any other that meets it lies inside. -/
def Largest (P : Nat → Prop) (b : Block) : Prop :=
  (∀ x ∈ b, P x) ∧ ∀ c : Block, (∀ x ∈ c, P x) → ∀ x, x ∈ c → x ∈ b → c ⊆ b

theorem Largest.unique {P : Nat → Prop} {c : Block} (hb : Largest P b) (hc : Largest P c)
    {x : Nat} (hxb : x ∈ b) (hxc : x ∈ c) : b = c :=
  Block.subset_antisymm (hc.2 b hb.1 x hxb hxc) (hb.2 c hc.1 x hxc hxb)

/-- **Largest blocks are as few as possible**: a list of blocks inside `P` that reaches every one of
them is at least as long. -/
theorem length_le_of_largest {P : Nat → Prop} {l m : List Block} (ht : Tidy l)
    (hl : ∀ b ∈ l, Largest P b) (hm : ∀ c ∈ m, ∀ x ∈ c, P x) (hre : ∀ b ∈ l, Covers m b.lo) :
    l.length ≤ m.length := by
  classical
  -- every largest block owns a block of the competitor
  have ho : ∀ b ∈ l, ∃ c ∈ m, c ⊆ b := by
    intro b hb
    obtain ⟨c, hc, hx⟩ := hre b hb
    exact ⟨c, hc, (hl b hb).2 c (hm c hc) b.lo hx b.lo_mem⟩
  choose! owned hmem hsub using ho
  have hno : (l.map owned).Nodup := by
    refine List.Nodup.map_on ?_ ?_
    · intro b hb b' hb' heq
      refine ht.unique hb hb' (hsub b hb _ (owned b).lo_mem) ?_
      rw [heq]
      exact hsub b' hb' _ (owned b').lo_mem
    · refine ht.imp ?_
      rintro b c hbc rfl
      exact hbc.not_mem b.lo_mem b.lo_mem
  have hsu : l.map owned ⊆ m := by
    intro c hc
    obtain ⟨b, hb, rfl⟩ := mem_map.mp hc
    exact hmem b hb
  have := (subperm_of_subset hno hsu).length_le
  rwa [length_map] at this

/-- **Blocks of which no two share a parent are largest** in what they cover. -/
theorem largest_of_unpaired {l : List Block} (ht : Tidy l)
    (hun : ∀ b ∈ l, ∀ c ∈ l, b.parent = c.parent → b = c) (hb : b ∈ l) : Largest (Covers l) b := by
  refine ⟨fun x hx => ⟨b, hb, hx⟩, fun c hc x hxc hxb => ?_⟩
  by_contra hno
  have hlt : b.exp < c.exp := not_le.mp fun hle => hno (Block.subset_of_mem hxc hxb hle)
  -- Below a covered block that is no member lies a smaller member, and so without end.
  induction hk : b.exp using Nat.strong_induction_on generalizing b x with
  | _ k ih =>
    have hpc : b.parent ⊆ c := Block.subset_of_mem (Block.subset_parent b _ hxb) hxc hlt
    obtain ⟨y, hyp, hyb⟩ : ∃ y ∈ b.parent, y ∉ b := by
      by_contra! hall
      exact Nat.not_succ_le_self _ (Block.Subset.exp_le hall)
    obtain ⟨d, hd, hyd⟩ := hc y (hpc y hyp)
    rcases Nat.lt_trichotomy d.exp b.exp with hde | hde | hde
    · exact ih d.exp (hk ▸ hde) hd y (hpc y hyp) hyd (fun h => absurd h.exp_le (by omega))
        (hde.trans hlt) rfl
    · have hpa : d.parent = b.parent := (Block.eq_around (Block.subset_parent d y hyd)).trans
          ((Block.eq_around hyp).trans (by rw [Block.parent, Block.parent, hde])).symm
      exact hyb (hun d hd b hb hpa ▸ hyd)
    · have hbd : b.parent ⊆ d := Block.subset_of_mem hyp hyd hde
      exact hyb (ht.unique hd hb (hbd x (Block.subset_parent b x hxb)) hxb ▸ hyd)

end Lib
