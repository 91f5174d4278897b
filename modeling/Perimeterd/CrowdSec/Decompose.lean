import Perimeterd.CrowdSec.Projection
import Perimeterd.Prefix.Range

/-!
# Cutting a range into prefixes is the greedy walk

`decomposeRange` never panics and never runs out of steps, and the blocks of the prefixes it returns
are the walk of `Lib.Greedy` over the range, on the common line of both families. What the walk is
known to be there (disjoint, in order, exactly the range, as few blocks as possible) then holds of
the prefixes.
-/

namespace Perimeterd.CrowdSec

open Lib Policy List

variable {f : Family} {start : Uint128} {stop : ProjectionBoundary} {k : Nat} {deadline : Time}

theorem size_fits (hk : k ≤ f.width) (hs : start.toNat < 2 ^ f.width) (hv : stop.Valid f.width) :
    (aligned start k f.width = true ∧
      compareBoundary (addPower start k f.width) stop ≠ .gt) ↔
      Fits start.toNat (stop.toNat f.width) k := by
  obtain ⟨had, hva⟩ := addPower_toNat (width_ok f) hk hs
  rw [aligned_iff (width_ok f) hk hs, compareBoundary_eq hva hv, had, ne_eq,
    Nat.compare_eq_gt, not_lt]
  unfold Fits
  refine and_congr_right fun hd => ?_
  have := add_le_of_dvd hk hd hs
  omega

theorem chosenSize_spec (hs : start.toNat < 2 ^ f.width) (hv : stop.Valid f.width)
    (hlt : start.toNat < stop.toNat f.width) : ∀ {n : Nat}, n ≤ f.width →
      ∃ k, chosenSize start stop f.width n = some k ∧ k ≤ n ∧
        Fits start.toNat (stop.toNat f.width) k ∧
        ∀ j ≤ n, Fits start.toNat (stop.toNat f.width) j → j ≤ k := by
  intro n
  induction n with
  | zero =>
    intro hn
    have h0 : Fits start.toNat (stop.toNat f.width) 0 := ⟨one_dvd _, hlt⟩
    refine ⟨0, ?_, le_rfl, h0, fun j hj _ => hj⟩
    rw [chosenSize, if_pos ((size_fits hn hs hv).mpr h0)]
  | succ n ih =>
    intro hn
    rw [chosenSize]
    by_cases hfi : Fits start.toNat (stop.toNat f.width) (n + 1)
    · rw [if_pos ((size_fits hn hs hv).mpr hfi)]
      exact ⟨n + 1, rfl, le_rfl, hfi, fun j hj _ => hj⟩
    · rw [if_neg (mt (size_fits hn hs hv).mp hfi)]
      obtain ⟨k, hk, hkn, hf, hmax⟩ := ih (Nat.le_of_succ_le hn)
      refine ⟨k, hk, by omega, hf, fun j hj hfj => ?_⟩
      rcases Nat.lt_or_ge n j with h | h
      · exact absurd (show Fits _ _ (n + 1) from (show j = n + 1 by omega) ▸ hfj) hfi
      · exact hmax j h hfj

theorem prefixFrom_block (hk : k ≤ f.width) (hs : start.toNat < 2 ^ f.width) :
    (prefixFrom f start k).block = Block.around (f.base + start.toNat) k := by
  have hh : (prefixFrom f start k).host = k := by
    change f.width - (f.width - k) = k
    omega
  have hp : (prefixFrom f start k).addr.point = f.base + start.toNat := by
    change f.base + start.toNat % 2 ^ f.width = _
    rw [Nat.mod_eq_of_lt hs]
  rw [Prefix.block, hh, hp]

theorem prefixFrom_masked {e : Nat} (hk : k ≤ f.width) (hs : start.toNat < 2 ^ f.width)
    (hf : Fits start.toNat e k) : (prefixFrom f start k).Masked := by
  apply Prefix.masked_of_point
  rw [prefixFrom_block hk hs, ((fits_base hk).mpr hf).lo]
  change f.base + start.toNat % 2 ^ f.width = _
  rw [Nat.mod_eq_of_lt hs]

/-- A range's prefixes: the greedy walk over it, masked, all with the range's deadline. -/
structure Cut (f : Family) (deadline : Time) (s e : Nat) (ps : List TimedPrefix) : Prop where
  walk : Greedy (f.base + e) (f.base + s) (ps.map (·.pfx.block))
  masked : ∀ p ∈ ps, p.pfx.Masked
  deadline : ∀ p ∈ ps, p.deadline = deadline
  family : ∀ p ∈ ps, p.pfx.addr.family = f

theorem Cut.nil {s : Nat} : Cut f deadline s s [] := ⟨Greedy.done, by simp, by simp, by simp⟩

theorem Cut.cons {ps : List TimedPrefix} (hk : k ≤ f.width)
    (hs : start.toNat < 2 ^ f.width) (hv : stop.Valid f.width)
    (hf : Fits start.toNat (stop.toNat f.width) k)
    (hmax : ∀ j ≤ f.width, Fits start.toNat (stop.toNat f.width) j → j ≤ k)
    (hrest : Cut f deadline (start.toNat + 2 ^ k) (stop.toNat f.width) ps) :
    Cut f deadline start.toNat (stop.toNat f.width) (⟨prefixFrom f start k, deadline⟩ :: ps) := by
  refine ⟨?_, ?_, ?_, ?_⟩
  · rw [map_cons, prefixFrom_block hk hs]
    refine Greedy.step ((fits_base hk).mpr hf) ?_ ?_
    · intro j hj
      have hjw : j ≤ f.width := by
        have hle := hv.le
        have hj2 := hj.2
        by_contra hgt
        have : 2 ^ f.width < 2 ^ j := Nat.pow_lt_pow_right (by decide) (by omega)
        omega
      exact hmax j hjw ((fits_base hjw).mp hj)
    · rw [Nat.add_assoc]
      exact hrest.walk
  · intro p hp
    rcases mem_cons.mp hp with rfl | hp
    · exact prefixFrom_masked hk hs hf
    · exact hrest.masked p hp
  · intro p hp
    rcases mem_cons.mp hp with rfl | hp
    · rfl
    · exact hrest.deadline p hp
  · intro p hp
    rcases mem_cons.mp hp with rfl | hp
    · rfl
    · exact hrest.family p hp

/-- **`decomposeRange` returns the greedy walk**, given a step for every address of the range. -/
theorem decomposeRange_spec (hv : stop.Valid f.width) :
    ∀ {fuel : Nat} (start : Uint128), start.toNat < 2 ^ f.width →
      start.toNat ≤ stop.toNat f.width → stop.toNat f.width - start.toNat < fuel →
      ∃ ps, decomposeRange f stop deadline fuel start = some ps ∧
        Cut f deadline start.toNat (stop.toNat f.width) ps := by
  intro fuel
  induction fuel with
  | zero => intro start _ _ h; omega
  | succ fuel ih =>
    intro start hs hle hfu
    rw [decomposeRange]
    by_cases hw : stop.top = true ∧ start = .zero
    · -- the whole family: the shortcut takes the block the search would have taken
      rw [if_pos hw]
      have hz : start.toNat = 0 := by rw [hw.2]; rfl
      have hst : stop.toNat f.width = 2 ^ f.width := by
        simp [ProjectionBoundary.toNat, hw.1]
      have hf : Fits start.toNat (stop.toNat f.width) f.width := by
        rw [hz, hst]; exact ⟨dvd_zero _, by omega⟩
      refine ⟨_, rfl, ?_⟩
      rw [← hw.2]
      refine Cut.cons le_rfl hs hv hf (fun j hj _ => hj) ?_
      rw [hz, hst, Nat.zero_add]
      exact Cut.nil
    rw [if_neg hw]
    by_cases hen : stop.top = false ∧ compareUint128 start stop.value ≠ .lt
    · rw [if_pos hen]
      refine ⟨[], rfl, ?_⟩
      have hst : stop.toNat f.width = stop.value.toNat := by
        simp [ProjectionBoundary.toNat, hen.1]
      have hge : stop.value.toNat ≤ start.toNat := by
        have := hen.2
        rwa [compareUint128_eq, ne_eq, Nat.compare_eq_lt, not_lt] at this
      rw [show start.toNat = stop.toNat f.width by omega]
      exact Cut.nil
    rw [if_neg hen]
    have hlt : start.toNat < stop.toNat f.width := by
      cases ht : stop.top with
      | true => simpa [ProjectionBoundary.toNat, ht] using hs
      | false =>
        rw [not_and, ne_eq, not_not] at hen
        have := hen ht
        rw [compareUint128_eq, Nat.compare_eq_lt] at this
        simpa [ProjectionBoundary.toNat, ht] using this
    obtain ⟨k, hk, hkw, hf, hmax⟩ := chosenSize_spec hs hv hlt le_rfl
    rw [hk]
    have hste := add_le_of_dvd hkw hf.1 hs
    have hp := Nat.two_pow_pos k
    simp only
    rcases addPower_spec (width_ok f) hkw hs with ⟨ht, hge⟩ | ⟨ht, hlt', hva⟩
    · -- the walk reached the end of the space, so the range ends there too
      rw [if_pos ht]
      refine ⟨_, rfl, Cut.cons hkw hs hv hf hmax ?_⟩
      have h2 := hf.2
      have h3 := hv.le
      rw [show start.toNat + 2 ^ k = stop.toNat f.width by omega]
      exact Cut.nil
    · rw [if_neg (by simp [ht])]
      have h2 := hf.2
      obtain ⟨ps, hps, hc⟩ := ih (addPower start k f.width).value (by omega) (by omega) (by omega)
      rw [hps]
      refine ⟨_, rfl, Cut.cons hkw hs hv hf hmax ?_⟩
      rwa [hva] at hc

end Perimeterd.CrowdSec
