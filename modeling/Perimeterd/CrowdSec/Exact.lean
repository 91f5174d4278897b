import Perimeterd.CrowdSec.Decompose
import Perimeterd.CrowdSec.Sweep
import Perimeterd.Firewall.Dynamic

/-!
# The projection is exact

`Latest ds now x t` is what the decisions mean at a point of the address line: `t` is the latest
deadline of a live decision over it. The projection is characterised completely by it: its prefixes
are the *largest* blocks of constant `Latest` (`Projected.largest`), in order. Coverage, deadlines,
minimality and independence from the order in which the map is iterated all follow from that.
-/

namespace Perimeterd.CrowdSec

open Lib Policy List
open Prefix (Covered)

/-- `t` is the latest deadline of a live decision over the point `x`. -/
def Latest (ds : List Decision) (now : Time) (x : Nat) (t : Time) : Prop :=
  (∃ d ∈ ds, d.live now = true ∧ x ∈ d.pfx.block ∧ d.deadline = t) ∧
    ∀ d ∈ ds, d.live now = true → x ∈ d.pfx.block → d.deadline ≤ t

variable {ds : List Decision} {now t : Time} {x : Nat} {f : Family} {a : Addr}

theorem Latest.unique {u : Time} (ht : Latest ds now x t) (hu : Latest ds now x u) : t = u := by
  obtain ⟨⟨d, hd, hl, hx, rfl⟩, hmax⟩ := ht
  obtain ⟨⟨e, he, hl', hx', rfl⟩, hm'⟩ := hu
  exact le_antisymm (hm' d hd hl hx) (hmax e he hl' hx')

theorem exists_latest
    (h : ∃ d ∈ ds, d.live now = true ∧ x ∈ d.pfx.block) : ∃ t, Latest ds now x t := by
  induction ds with
  | nil => obtain ⟨d, hd, -⟩ := h; cases hd
  | cons a ds ih =>
    by_cases hrest : ∃ d ∈ ds, d.live now = true ∧ x ∈ d.pfx.block
    · obtain ⟨t, ⟨d, hd, hl, hx, rfl⟩, hmax⟩ := ih hrest
      by_cases ha : a.live now = true ∧ x ∈ a.pfx.block ∧ d.deadline < a.deadline
      · refine ⟨a.deadline, ⟨a, mem_cons_self, ha.1, ha.2.1, rfl⟩, ?_⟩
        intro e he hle hxe
        rcases mem_cons.mp he with rfl | he
        · exact le_rfl
        · exact le_trans (hmax e he hle hxe) ha.2.2.le
      · refine ⟨d.deadline, ⟨d, mem_cons_of_mem _ hd, hl, hx, rfl⟩, ?_⟩
        intro e he hle hxe
        rcases mem_cons.mp he with rfl | he
        · by_contra hlt
          exact ha ⟨hle, hxe, not_le.mp hlt⟩
        · exact hmax e he hle hxe
    · obtain ⟨d, hd, hl, hx⟩ := h
      rcases mem_cons.mp hd with rfl | hd
      · refine ⟨d.deadline, ⟨d, mem_cons_self, hl, hx, rfl⟩, ?_⟩
        intro e he hle hxe
        rcases mem_cons.mp he with rfl | he
        · exact le_rfl
        · exact absurd ⟨e, he, hle, hxe⟩ hrest
      · exact absurd ⟨d, hd, hl, hx⟩ hrest

theorem over_span_iff {d : Decision} :
    d.span.Over x ↔ d.pfx.addr.family.base + x ∈ d.pfx.block := by
  have hlo : d.pfx.block.lo = d.pfx.addr.family.base + d.span.lo := by
    rw [← d.pfx.masked_point]; rfl
  have hhi : d.pfx.block.hi = d.pfx.addr.family.base + d.span.hi := by
    rw [Block.hi_eq, hlo, Nat.add_assoc]; rfl
  rw [Block.mem_iff, hlo, hhi]
  unfold Span.Over
  omega

theorem family_of_point {g : Family} (hx : x < 2 ^ f.width)
    (h : g.base ≤ f.base + x ∧ f.base + x < g.base + 2 ^ g.width) : g = f := by
  cases f <;> cases g <;> simp only [Family.base, Family.width] at * <;> first | rfl | omega

theorem best_iff_latest
    (hx : x < 2 ^ f.width) : Best (familySpan ds f now) x t ↔ Latest ds now (f.base + x) t := by
  have key : ∀ u, (∃ i s, familySpan ds f now i = some s ∧ s.Over x ∧ s.deadline = u) ↔
      ∃ d ∈ ds, d.live now = true ∧ f.base + x ∈ d.pfx.block ∧ d.deadline = u := by
    intro u
    constructor
    · rintro ⟨i, s, hs, ho, rfl⟩
      obtain ⟨d, hd, rfl, hl, rfl⟩ := familySpan_eq_some.mp hs
      exact ⟨d, mem_of_getElem? hd, hl, over_span_iff.mp ho, rfl⟩
    · rintro ⟨d, hd, hl, hm, rfl⟩
      obtain ⟨i, hi⟩ := mem_iff_getElem?.mp hd
      have hf : d.pfx.addr.family = f := family_of_point hx (Prefix.mem_block_bounds hm)
      refine ⟨i, d.span, familySpan_eq_some.mpr ⟨d, hi, hf, hl, rfl⟩, over_span_iff.mpr ?_, rfl⟩
      rw [hf]
      exact hm
  unfold Best Latest
  rw [key]
  refine and_congr_right fun _ => ?_
  constructor
  · intro h d hd hl hm
    obtain ⟨i, s, hs, ho, hdl⟩ := (key d.deadline).mpr ⟨d, hd, hl, hm, rfl⟩
    exact hdl ▸ h i s hs ho
  · intro h i s hs ho
    obtain ⟨d, hd, hl, hm, hdl⟩ := (key s.deadline).mp ⟨i, s, hs, ho, rfl⟩
    exact hdl ▸ h d hd hl hm

/-! ## From ranges to prefixes -/

structure CutAll (f : Family) (ranges : List ProjectionRange) (ps : List TimedPrefix) : Prop where
  origin : ∀ p ∈ ps, ∃ r ∈ ranges, ∃ qs, p ∈ qs ∧
    Cut f r.deadline r.start.toNat (r.stop.toNat f.width) qs
  tidy : Tidy (ps.map (·.pfx.block))
  covers : ∀ r ∈ ranges, ∀ x, f.base + r.start.toNat ≤ x → x < f.base + r.stop.toNat f.width →
    Covers (ps.map (·.pfx.block)) x

theorem decomposeAll_spec {ranges : List ProjectionRange} (hva : ∀ r ∈ ranges, r.stop.Valid f.width)
    (hpr : ∀ r ∈ ranges, r.start.toNat < r.stop.toNat f.width)
    (hap : ranges.Pairwise fun a b => a.stop.toNat f.width ≤ b.start.toNat) :
    ∃ ps, decomposeAll f ranges = some ps ∧ CutAll f ranges ps := by
  induction ranges with
  | nil => exact ⟨[], rfl, by simp, List.Pairwise.nil, by simp⟩
  | cons r rest ih =>
    have hv := hva r mem_cons_self
    have hp := hpr r mem_cons_self
    rw [pairwise_cons] at hap
    obtain ⟨others, ho, hal⟩ := ih (fun r hr => hva r (mem_cons_of_mem _ hr))
      (fun r hr => hpr r (mem_cons_of_mem _ hr)) hap.2
    have hle := hv.le
    obtain ⟨first, hfirst, hcu⟩ : ∃ ps,
        decomposeRange f r.stop r.deadline (2 ^ f.width + 1) r.start = some ps ∧
          Cut f r.deadline r.start.toNat (r.stop.toNat f.width) ps :=
      decomposeRange_spec hv r.start (by omega) hp.le (by omega)
    refine ⟨first ++ others, by simp [decomposeAll, hfirst, ho], ?_, ?_, ?_⟩
    · intro p hp
      rcases mem_append.mp hp with hp | hp
      · exact ⟨r, mem_cons_self, first, hp, hcu⟩
      · obtain ⟨r', hr', h⟩ := hal.origin p hp
        exact ⟨r', mem_cons_of_mem _ hr', h⟩
    · rw [map_append]
      refine pairwise_append.mpr ⟨hcu.walk.tidy, hal.tidy, ?_⟩
      intro b hb c hc
      obtain ⟨q, hq, rfl⟩ := mem_map.mp hc
      obtain ⟨r', hr', qs, hqs, hc'⟩ := hal.origin q hq
      have h₁ := (hcu.walk.inside b hb).2
      have h₂ := (hc'.walk.inside q.pfx.block (mem_map_of_mem hqs)).1
      have h₃ := hap.1 r' hr'
      unfold Block.Before
      omega
    · intro r' hr' x hlo hhi
      rw [map_append, covers_append]
      rcases mem_cons.mp hr' with rfl | hr'
      · exact .inl (hcu.walk.covers_iff.mpr ⟨hlo, hhi⟩)
      · exact .inr (hal.covers r' hr' x hlo hhi)

theorem not_latest_end : ¬ Latest ds now (f.base + 2 ^ f.width) t := by
  rintro ⟨⟨d, -, -, hx, -⟩, -⟩
  have h := Prefix.mem_block_bounds hx
  cases f <;> cases hg : d.pfx.addr.family <;> rw [hg] at h <;>
    simp only [Family.base, Family.width] at h <;> omega

theorem not_latest_before (hx : x + 1 = f.base) : ¬ Latest ds now x t := by
  rintro ⟨⟨d, -, -, hm, -⟩, -⟩
  have h := Prefix.mem_block_bounds hm
  cases f <;> cases hg : d.pfx.addr.family <;> rw [hg] at h <;>
    simp only [Family.base, Family.width] at h hx <;> omega

section Family

variable {ds : List Decision} {now : Time} {f : Family} {ranges : List ProjectionRange}
  (h : Swept (familySpan ds f now) f.width (2 ^ f.width) ranges)
include h

theorem Swept.separate {r r' : ProjectionRange} (hr : r ∈ ranges) (hr' : r' ∈ ranges)
    (hdl : r.deadline = r'.deadline) (hne : r ≠ r') :
    r.stop.toNat f.width < r'.start.toNat ∨ r'.stop.toNat f.width < r.start.toNat := by
  have hsy : Std.Symm fun a b : ProjectionRange => a.deadline = b.deadline →
      a.stop.toNat f.width < b.start.toNat ∨ b.stop.toNat f.width < a.start.toNat :=
    ⟨fun a b hab heq => (hab heq.symm).symm⟩
  have hal : ranges.Pairwise fun a b => a.deadline = b.deadline →
      a.stop.toNat f.width < b.start.toNat ∨ b.stop.toNat f.width < a.start.toNat := by
    refine h.apart.imp ?_
    intro a b hab heq
    exact .inl (lt_of_le_of_ne hab.1 fun hto => hab.2 hto heq)
  exact hal.forall hr hr' hne hdl

theorem Swept.range_of_latest {x : Nat} {t : Time} (hx : x < 2 ^ f.width)
    (hl : Latest ds now (f.base + x) t) :
    ∃ r ∈ ranges, r.deadline = t ∧ r.start.toNat ≤ x ∧ x < r.stop.toNat f.width := by
  have hbe := (best_iff_latest hx).mpr hl
  obtain ⟨i, s, hs, ho, -⟩ := hbe.1
  obtain ⟨r, hr, hlo, hhi⟩ := h.covers x hx ⟨i, s, hs, ho⟩
  exact ⟨r, hr, (h.best r hr x hlo hhi).unique hbe, hlo, hhi⟩

/-- **A range is a maximal run**: a block of its deadline that meets it stays inside it. -/
theorem Swept.encloses {r : ProjectionRange} (hr : r ∈ ranges) {c : Block}
    (hc : ∀ x ∈ c, Latest ds now x r.deadline) {x : Nat} (hxc : x ∈ c)
    (hlo : f.base + r.start.toNat ≤ x) (hhi : x < f.base + r.stop.toNat f.width) :
    f.base + r.start.toNat ≤ c.lo ∧ c.hi ≤ f.base + r.stop.toNat f.width := by
  have hx := Block.mem_iff.mp hxc
  have hp := h.proper r hr
  have hle := (h.valid r hr).le
  constructor
  · by_contra hlt
    -- the point just before the range is in the block
    have hmem : f.base + r.start.toNat - 1 ∈ c := Block.mem_iff.mpr (by omega)
    have hl := hc _ hmem
    rcases Nat.eq_zero_or_pos r.start.toNat with hz | hz
    · have hbase : f.base + r.start.toNat - 1 + 1 = f.base := by omega
      exact not_latest_before hbase hl
    · rw [show f.base + r.start.toNat - 1 = f.base + (r.start.toNat - 1) by omega] at hl
      obtain ⟨r', hr', hdl, h₁, h₂⟩ := h.range_of_latest (by omega) hl
      have hp' := h.proper r' hr'
      have hne : r ≠ r' := by rintro rfl; omega
      rcases h.separate hr hr' hdl.symm hne with hs | hs <;> omega
  · by_contra hlt
    have hmem : f.base + r.stop.toNat f.width ∈ c := Block.mem_iff.mpr (by omega)
    have hl := hc _ hmem
    rcases Nat.eq_or_lt_of_le hle with heq | hlt'
    · rw [heq] at hl
      exact not_latest_end hl
    · obtain ⟨r', hr', hdl, h₁, h₂⟩ := h.range_of_latest hlt' hl
      have hp' := h.proper r' hr'
      have hne : r ≠ r' := by rintro rfl; omega
      rcases h.separate hr hr' hdl.symm hne with hs | hs <;> omega

end Family

/-- The prefixes of one family: the largest blocks of constant deadline, in order. -/
structure Projected (ds : List Decision) (now : Time) (f : Family) (ps : List TimedPrefix) :
    Prop where
  masked : ∀ p ∈ ps, p.pfx.Masked
  family : ∀ p ∈ ps, p.pfx.addr.family = f
  tidy : Tidy (ps.map (·.pfx.block))
  largest : ∀ p ∈ ps, Largest (fun x => Latest ds now x p.deadline) p.pfx.block
  covers : ∀ x t, f.base ≤ x → x < f.base + 2 ^ f.width → Latest ds now x t →
    Covers (ps.map (·.pfx.block)) x

theorem sorted_events (evs : List ProjectionEvent) :
    (sortSlice (fun a b => decide (compareBoundary a.boundary b.boundary = .lt)) evs).Pairwise
      fun a b => compareBoundary b.boundary a.boundary ≠ .lt := by
  have hkey : ∀ a b : ProjectionEvent, compareBoundary a.boundary b.boundary = .lt ↔
      a.boundary.toNat 128 < b.boundary.toNat 128 := by
    intro a b
    rw [compareBoundary_eq (fun _ => a.boundary.value.toNat_lt) (fun _ => b.boundary.value.toNat_lt),
      Nat.compare_eq_lt]
  refine (sortSlice_sorted _ (fun a b => decide_eq_true_iff.trans (hkey a b)) evs).imp ?_
  exact fun {a b} h => (hkey b a).not.mpr (not_lt.mpr h)

/-- **One family's projection.** -/
theorem projectFamily_spec (ds : List Decision) (f : Family) (now : Time) :
    ∃ ps, projectFamily ds f now = some ps ∧ Projected ds now f ps := by
  have hsw := sweep_events (sortSlice_perm _ (projectionEvents ds f now))
    (sorted_events (projectionEvents ds f now))
  obtain ⟨ps, hps, hcu⟩ := decomposeAll_spec hsw.valid hsw.proper (hsw.apart.imp fun hab => hab.1)
  refine ⟨ps, hps, ?_, ?_, hcu.tidy, ?_, ?_⟩
  · intro p hp
    obtain ⟨r, -, qs, hq, hc⟩ := hcu.origin p hp
    exact hc.masked p hq
  · intro p hp
    obtain ⟨r, -, qs, hq, hc⟩ := hcu.origin p hp
    exact hc.family p hq
  · intro p hp
    obtain ⟨r, hr, qs, hq, hc⟩ := hcu.origin p hp
    have hbl : p.pfx.block ∈ qs.map (·.pfx.block) := mem_map_of_mem hq
    obtain ⟨hlo, hhi⟩ := hc.walk.inside _ hbl
    have hdl := hc.deadline p hq
    refine ⟨?_, ?_⟩
    · intro x hx
      have hx' := Block.mem_iff.mp hx
      have hle := (hsw.valid r hr).le
      have hbe := hsw.best r hr (x - f.base) (by omega) (by omega)
      rw [best_iff_latest (by omega), show f.base + (x - f.base) = x by omega] at hbe
      rw [hdl]
      exact hbe
    · intro c hcl x hxc hxp
      have hx' := Block.mem_iff.mp hxp
      rw [hdl] at hcl
      obtain ⟨hclo, hch⟩ := hsw.encloses hr hcl hxc (by omega) (by omega)
      exact hc.walk.maximal (fun c hlo _ hlt => by omega) hbl hclo hch hxc hxp
  · intro x t hlo hhi hl
    rw [show x = f.base + (x - f.base) by omega] at hl
    obtain ⟨r, hr, -, h₁, h₂⟩ := hsw.range_of_latest (by omega) hl
    exact hcu.covers r hr x (by omega) (by omega)

/-! ## Both families -/

theorem latest_congr {es : List Decision} (h : ∀ d, d.live now = true → (d ∈ ds ↔ d ∈ es)) :
    Latest ds now x t ↔ Latest es now x t := by
  have hal : ∀ {ds es : List Decision}, (∀ d, d.live now = true → (d ∈ ds ↔ d ∈ es)) →
      Latest ds now x t → Latest es now x t := by
    rintro ds es h ⟨⟨d, hd, hl, hx, ht⟩, hmax⟩
    exact ⟨⟨d, (h d hl).mp hd, hl, hx, ht⟩, fun e he hl hx => hmax e ((h e hl).mpr he) hl hx⟩
  exact ⟨hal h, hal fun d hl => (h d hl).symm⟩

/-- The whole projection: the largest blocks of constant deadline, in order. -/
structure Complete (ds : List Decision) (now : Time) (ps : List TimedPrefix) : Prop where
  masked : ∀ p ∈ ps, p.pfx.Masked
  tidy : Tidy (ps.map (·.pfx.block))
  largest : ∀ p ∈ ps, Largest (fun x => Latest ds now x p.deadline) p.pfx.block
  covers : ∀ x t, Latest ds now x t → Covers (ps.map (·.pfx.block)) x

theorem Complete.congr {es : List Decision} {ps : List TimedPrefix}
    (h : ∀ d, d.live now = true → (d ∈ ds ↔ d ∈ es)) (hp : Complete ds now ps) :
    Complete es now ps where
  masked := hp.masked
  tidy := hp.tidy
  largest p hm := by
    have := hp.largest p hm
    simpa only [latest_congr h] using this
  covers x t hl := hp.covers x t ((latest_congr h).mpr hl)

/-- **The projection runs to its end**, IPv4 before IPv6. -/
theorem projection_complete (ds : List Decision) (now : Time) :
    ∃ v4 v6, projection ds now = some (v4 ++ v6) ∧ (∀ p ∈ v4, p.pfx.addr.family = .ipv4) ∧
      (∀ p ∈ v6, p.pfx.addr.family = .ipv6) ∧ Complete ds now (v4 ++ v6) := by
  obtain ⟨v4, h4, hp4⟩ := projectFamily_spec (ds.filter (·.live now)) .ipv4 now
  obtain ⟨v6, h6, hp6⟩ := projectFamily_spec (ds.filter (·.live now)) .ipv6 now
  refine ⟨v4, v6, ?_, hp4.family, hp6.family, ?_⟩
  · simp [projection, h4, h6]
  refine @Complete.congr (ds.filter (·.live now)) now ds _ ?_ ⟨?_, ?_, ?_, ?_⟩
  · intro d hl
    simp [hl]
  · intro p hp
    rcases mem_append.mp hp with hp | hp
    · exact hp4.masked p hp
    · exact hp6.masked p hp
  · rw [map_append, Tidy, pairwise_append]
    refine ⟨hp4.tidy, hp6.tidy, ?_⟩
    rintro b hb c hc
    obtain ⟨p, hp, rfl⟩ := mem_map.mp hb
    obtain ⟨q, hq, rfl⟩ := mem_map.mp hc
    have hlo := p.pfx.block_hi_le
    have hhi := Prefix.mem_block_bounds q.pfx.block.lo_mem
    rw [hp4.family p hp] at hlo
    rw [hp6.family q hq] at hhi
    simp only [Family.base, Family.width] at hlo hhi
    unfold Block.Before
    omega
  · intro p hp
    rcases mem_append.mp hp with hp | hp
    · exact hp4.largest p hp
    · exact hp6.largest p hp
  · intro x t hl
    rw [map_append]
    obtain ⟨d, -, -, hx, -⟩ := hl.1
    have hb := Prefix.mem_block_bounds hx
    cases hf : d.pfx.addr.family with
    | ipv4 =>
      rw [hf] at hb
      obtain ⟨c, hc, hxc⟩ := hp4.covers x t hb.1 hb.2 hl
      exact ⟨c, mem_append_left _ hc, hxc⟩
    | ipv6 =>
      rw [hf] at hb
      obtain ⟨c, hc, hxc⟩ := hp6.covers x t hb.1 hb.2 hl
      exact ⟨c, mem_append_right _ hc, hxc⟩

namespace Complete

variable {ds : List Decision} {now : Time} {ps qs : List TimedPrefix}

theorem exists_prefix (h : Complete ds now ps) {x : Nat} {t : Time} (hl : Latest ds now x t) :
    ∃ p ∈ ps, x ∈ p.pfx.block ∧ p.deadline = t := by
  obtain ⟨b, hb, hx⟩ := h.covers x t hl
  obtain ⟨p, hp, rfl⟩ := mem_map.mp hb
  exact ⟨p, hp, hx, ((h.largest p hp).1 x hx).unique hl⟩

theorem subset (hp : Complete ds now ps) (hq : Complete ds now qs) : ps ⊆ qs := by
  intro p hpm
  have hl := (hp.largest p hpm).1 _ p.pfx.block.lo_mem
  obtain ⟨q, hqm, hx, hdl⟩ := hq.exists_prefix hl
  have hlq := hq.largest q hqm
  rw [hdl] at hlq
  have hbl := (hp.largest p hpm).unique hlq p.pfx.block.lo_mem hx
  have heq : p = q := by
    have hpf := Prefix.eq_of_block (hp.masked p hpm) (hq.masked q hqm) hbl
    cases p; cases q
    simp only at hpf hdl
    rw [hpf, hdl]
  rwa [heq]

theorem sorted (h : Complete ds now ps) : ps.Pairwise fun p q => p.pfx.block.Before q.pfx.block :=
  pairwise_map.mp h.tidy

theorem nodup (h : Complete ds now ps) : ps.Nodup := by
  refine h.sorted.imp ?_
  rintro p q hb rfl
  exact hb.not_mem p.pfx.block.lo_mem p.pfx.block.lo_mem

/-- **One projection**: what is characterised by the decisions alone is the same list. -/
theorem unique (hp : Complete ds now ps) (hq : Complete ds now qs) : ps = qs := by
  have hpe : ps.Perm qs := (perm_ext_iff_of_nodup hp.nodup hq.nodup).mpr fun p =>
      ⟨fun h => hp.subset hq h, fun h => hq.subset hp h⟩
  refine hpe.eq_of_pairwise ?_ hp.sorted hq.sorted
  intro p q _ _ hpq hqp
  have h₁ := p.pfx.block.lo_lt_hi
  have h₂ := q.pfx.block.lo_lt_hi
  unfold Block.Before at hpq hqp
  omega

end Complete

/-! ## In terms of addresses -/

/-- The deadlines of the live decisions that cover an address. -/
def liveDeadlines (ds : List Decision) (now : Time) (a : Addr) : Set Time :=
  {t | ∃ d ∈ ds, now < d.deadline ∧ d.pfx.contains a = true ∧ d.deadline = t}

theorem latest_iff : Latest ds now a.point t ↔ IsGreatest (liveDeadlines ds now a) t := by
  constructor
  · rintro ⟨⟨d, hd, hl, hx, rfl⟩, hmax⟩
    refine ⟨⟨d, hd, of_decide_eq_true hl, Prefix.contains_iff.mpr hx, rfl⟩, ?_⟩
    rintro _ ⟨e, he, hl', hx', rfl⟩
    exact hmax e he (decide_eq_true hl') (Prefix.contains_iff.mp hx')
  · rintro ⟨⟨d, hd, hl, hx, rfl⟩, hmax⟩
    refine ⟨⟨d, hd, decide_eq_true hl, Prefix.contains_iff.mp hx, rfl⟩, ?_⟩
    intro e he hl' hx'
    exact hmax ⟨e, he, of_decide_eq_true hl', Prefix.contains_iff.mpr hx', rfl⟩

/-- Addresses of one family from `first` to `last`. -/
structure Interval where
  first : Addr
  last : Addr
  family : first.family = last.family
  ordered : first.point ≤ last.point

instance : Membership Addr Interval := ⟨fun i a => i.first.point ≤ a.point ∧ a.point ≤ i.last.point⟩

/-- Every address of the interval has the latest deadline `t`. -/
def Constant (ds : List Decision) (now t : Time) (i : Interval) : Prop :=
  ∀ a ∈ i, IsGreatest (liveDeadlines ds now a) t

/-- A maximal contiguous run of addresses with the latest deadline `t`. -/
structure Run (ds : List Decision) (now t : Time) (i : Interval) : Prop where
  constant : Constant ds now t i
  maximal : ∀ j : Interval, (∀ a ∈ i, a ∈ j) → Constant ds now t j → ∀ a ∈ j, a ∈ i

/-- The prefixes of a projection that start inside an interval. -/
def within (ps : List TimedPrefix) (i : Interval) : List Prefix :=
  (ps.map (·.pfx)).filter fun p => i.first.point ≤ p.addr.point ∧ p.addr.point ≤ i.last.point

/-- **What the projection is for.** -/
structure Exact (ds : List Decision) (now : Time) (ps : List TimedPrefix) : Prop where
  masked : ∀ p ∈ ps, p.pfx.Masked
  families : ∃ v4 v6, ps = v4 ++ v6 ∧ (∀ p ∈ v4, p.pfx.addr.family = .ipv4) ∧
    ∀ p ∈ v6, p.pfx.addr.family = .ipv6
  sorted : ps.Pairwise fun p q => p.pfx.addr.compare q.pfx.addr = .lt
  disjoint : ps.Pairwise fun p q => ∀ a, p.pfx.contains a = true → q.pfx.contains a = false
  covered : ∀ a, Covered (ps.map (·.pfx)) a ↔ ∃ d ∈ ds, now < d.deadline ∧ d.pfx.contains a = true
  deadline : ∀ p ∈ ps, ∀ a, p.pfx.contains a = true →
    IsGreatest (liveDeadlines ds now a) p.deadline
  /-- The prefixes that start in a maximal run are exactly a cover of it… -/
  run : ∀ t i, Run ds now t i → ∀ a, Covered (within ps i) a ↔ a ∈ i
  /-- … and no cover of the run is shorter. -/
  minimal : ∀ t i, Run ds now t i → ∀ qs : List Prefix, (∀ a, Covered qs a ↔ a ∈ i) →
    (within ps i).length ≤ qs.length

theorem Interval.family_of_mem {i : Interval} (h : a ∈ i) : a.family = i.first.family := by
  have h₁ := @Addr.point_family i.first
  have h₂ := @Addr.point_family i.last
  have h₃ := @Addr.point_family a
  rw [← i.family] at h₂
  obtain ⟨hlo, hhi⟩ := h
  cases hf : i.first.family <;> cases ha : a.family <;> simp only [hf, ha, true_iff, reduceCtorEq,
    false_iff] at h₁ h₂ h₃ ⊢ <;> omega

theorem Interval.exists_hull {i : Interval} {p : Prefix} (hi : a ∈ i)
    (hp : p.contains a = true) : ∃ j : Interval, (∀ b, b ∈ j ↔ b ∈ i ∨ p.contains b = true) := by
  have hfa : p.addr.family = i.first.family := by
    rw [← Interval.family_of_mem hi]
    rw [Prefix.contains, Bool.and_eq_true, decide_eq_true_eq] at hp
    exact hp.1
  have hmem := Block.mem_iff.mp (Prefix.contains_iff.mp hp)
  have hen := p.prefixEnd_point
  have hst := p.masked_point
  have hif := i.family
  obtain ⟨hlo, hhi⟩ := hi
  obtain ⟨first, hf, hfp⟩ : ∃ first : Addr, first.family = i.first.family ∧
      first.point = min i.first.point p.block.lo := by
    rcases le_total i.first.point p.block.lo with h | h
    · exact ⟨i.first, rfl, (min_eq_left h).symm⟩
    · exact ⟨p.masked.addr, hfa, by rw [min_eq_right h, hst]⟩
  obtain ⟨last, hl, hlp⟩ : ∃ last : Addr, last.family = i.first.family ∧
      last.point = max i.last.point (p.block.hi - 1) := by
    rcases le_total i.last.point (p.block.hi - 1) with h | h
    · refine ⟨p.prefixEnd, hfa, ?_⟩
      rw [max_eq_right h]
      omega
    · exact ⟨i.last, hif.symm, (max_eq_left h).symm⟩
  refine ⟨⟨first, last, hf.trans hl.symm, by omega⟩, fun b => ?_⟩
  rw [Prefix.contains_iff, Block.mem_iff]
  change first.point ≤ b.point ∧ b.point ≤ last.point ↔
    (i.first.point ≤ b.point ∧ b.point ≤ i.last.point) ∨ _
  omega

theorem Run.encloses {i : Interval} (h : Run ds now t i)
    {p : Prefix} (hp : ∀ x ∈ p.block, Latest ds now x t) (ha : a ∈ i)
    (hpa : p.contains a = true) {b : Addr} (hb : p.contains b = true) : b ∈ i := by
  obtain ⟨j, hj⟩ := Interval.exists_hull ha hpa
  refine h.maximal j (fun c hc => (hj c).mpr (Or.inl hc)) ?_ b ((hj b).mpr (Or.inr hb))
  intro c hc
  rcases (hj c).mp hc with hc | hc
  · exact h.constant c hc
  · exact latest_iff.mp (hp _ (Prefix.contains_iff.mp hc))

namespace Complete

variable {ds : List Decision} {now : Time} {ps : List TimedPrefix} {i : Interval}

theorem mem_within {q : Prefix} : q ∈ within ps i ↔ ∃ p ∈ ps, p.pfx = q ∧ q.addr ∈ i := by
  rw [within, mem_filter, mem_map, decide_eq_true_eq]
  exact ⟨fun ⟨⟨p, hp, hq⟩, hi⟩ => ⟨p, hp, hq, hi⟩, fun ⟨p, hp, hq, hi⟩ => ⟨⟨p, hp, hq⟩, hi⟩⟩

section

variable (h : Complete ds now ps)

include h

theorem largest_within {t : Time} (hru : Run ds now t i)
    {q : Prefix} (hq : q ∈ within ps i) : Largest (fun x => Latest ds now x t) q.block := by
  obtain ⟨p, hp, rfl, hi⟩ := mem_within.mp hq
  have hl := h.largest p hp
  have hdl : p.deadline = t := (hl.1 _ p.pfx.addr_mem).unique (latest_iff.mpr (hru.constant _ hi))
  rwa [hdl] at hl

theorem covered_within {t : Time} (hru : Run ds now t i)
    (a : Addr) : Covered (within ps i) a ↔ a ∈ i := by
  constructor
  · rintro ⟨q, hq, ha⟩
    have hl := (h.largest_within hru hq).1
    obtain ⟨p, -, -, hi⟩ := mem_within.mp hq
    exact hru.encloses hl hi q.contains_addr ha
  · intro ha
    obtain ⟨p, hp, hx, rfl⟩ := h.exists_prefix (latest_iff.mpr (hru.constant a ha))
    have hpa := Prefix.contains_iff.mpr hx
    have hin := hru.encloses (h.largest p hp).1 ha hpa p.pfx.contains_addr
    exact ⟨p.pfx, mem_within.mpr ⟨p, hp, rfl, hin⟩, hpa⟩

theorem minimal_within {t : Time} (hru : Run ds now t i)
    {qs : List Prefix} (hqs : ∀ a, Covered qs a ↔ a ∈ i) : (within ps i).length ≤ qs.length := by
  have hso : (ps.map (·.pfx)).Pairwise fun p q => p.block.Before q.block :=
    pairwise_map.mpr h.sorted
  refine Prefix.length_le_of_largest (P := fun x => Latest ds now x t) (hso.filter _)
    (fun q hq => h.largest_within hru hq) (fun a ha => ?_) (fun a ha => ?_)
  · exact latest_iff.mpr (hru.constant a ((hqs a).mp ha))
  · exact (hqs a).mpr ((h.covered_within hru a).mp ha)

theorem exact (hf : ∃ v4 v6, ps = v4 ++ v6 ∧
    (∀ p ∈ v4, p.pfx.addr.family = .ipv4) ∧ ∀ p ∈ v6, p.pfx.addr.family = .ipv6) :
    Exact ds now ps where
  masked := h.masked
  families := hf
  sorted := by
    refine h.sorted.imp_of_mem ?_
    intro p q hp hq hb
    have h₁ := (h.masked p hp).point
    have h₂ := (h.masked q hq).point
    have h₃ := p.pfx.block.lo_lt_hi
    unfold Block.Before at hb
    rw [Addr.compare_lt]
    omega
  disjoint := by
    refine h.sorted.imp ?_
    intro p q hb a ha
    rw [← Bool.not_eq_true, Prefix.contains_iff]
    exact hb.not_mem (Prefix.contains_iff.mp ha)
  covered a := by
    constructor
    · rintro ⟨q, hq, ha⟩
      obtain ⟨p, hp, rfl⟩ := mem_map.mp hq
      obtain ⟨d, hd, hl, hx, -⟩ := ((h.largest p hp).1 _ (Prefix.contains_iff.mp ha)).1
      exact ⟨d, hd, of_decide_eq_true hl, Prefix.contains_iff.mpr hx⟩
    · rintro ⟨d, hd, hl, hx⟩
      obtain ⟨t, ht⟩ := exists_latest ⟨d, hd, decide_eq_true hl, Prefix.contains_iff.mp hx⟩
      obtain ⟨p, hp, hxp, -⟩ := h.exists_prefix ht
      exact ⟨p.pfx, mem_map_of_mem hp, Prefix.contains_iff.mpr hxp⟩
  deadline p hp a ha := latest_iff.mp ((h.largest p hp).1 _ (Prefix.contains_iff.mp ha))
  run t i hru a := h.covered_within hru a
  minimal t i hru qs hqs := h.minimal_within hru hqs

theorem acceptable (hds : ∀ d ∈ ds, d.deadline ≠ 0) : Firewall.Acceptable ps where
  masked := h.masked
  deadline p hp := by
    obtain ⟨d, hd, -, -, hdl⟩ := ((h.largest p hp).1 _ p.pfx.addr_mem).1
    rw [← hdl]
    exact hds d hd
  apart := h.sorted.imp Prefix.overlaps_of_before

end

end Complete

/-- **The projection of a store is exact**, is accepted, and does not depend on the order in which
the map of decisions is iterated. -/
theorem projection_exact (s : Store) (now : Time) :
    ∃ ps, projection s.contents now = some ps ∧ Exact s.contents now ps ∧
      Firewall.validateDynamic ps = .ok () ∧
      ∀ order, order.Perm s.contents → projection order now = some ps := by
  obtain ⟨v4, v6, hps, h4, h6, hc⟩ := projection_complete s.contents now
  refine ⟨v4 ++ v6, hps, hc.exact ⟨v4, v6, rfl, h4, h6⟩, ?_, ?_⟩
  · refine Firewall.validateDynamic_iff.mpr (hc.acceptable fun d hd => ?_)
    exact (s.valid_contents d hd).2.2.2
  · intro order hp
    obtain ⟨w4, w6, hws, -, -, hw⟩ := projection_complete order now
    rw [hws, (hw.congr fun d _ => hp.mem_iff).unique hc]

end Perimeterd.CrowdSec
