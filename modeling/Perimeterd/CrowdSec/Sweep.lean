import Perimeterd.CrowdSec.Projection

/-!
# What the sweep computes

The sweep is analysed over an arbitrary family of *spans*, intervals with a deadline; that the spans
are the live decisions of one address family comes in afterwards. `Best x t` says that `t` is the
latest deadline of a span over `x`. `Swept p ranges` is the invariant between rounds: below `p` the
ranges are exactly the maximal stretches of equal `Best`. A round at boundary `p` turns "running
just before `p`" into "running at `p`" (`active_round`), and because no boundary lies between `p`
and the next one, what runs at `p` runs up to there.
-/

namespace Perimeterd.CrowdSec

open Lib Policy List

structure Span where
  lo : Nat
  hi : Nat
  deadline : Time

def Span.edge (s : Span) (remove : Bool) : Nat := if remove then s.hi else s.lo

def Span.Over (s : Span) (x : Nat) : Prop := s.lo ≤ x ∧ x < s.hi

/-! ## The active flags and the heap -/

variable {f : Family} {ds : List Decision} {now : Time}

theorem foldl_deactivate (group : List ProjectionEvent) : ∀ (active : Nat → Bool) (i : Nat),
    group.foldl deactivate active i = true ↔
      active i = true ∧ ¬ ∃ e ∈ group, e.remove = true ∧ e.index = i := by
  induction group with
  | nil => simp
  | cons e rest ih =>
    intro active i
    rw [foldl_cons, ih]
    simp only [deactivate, mem_cons, exists_eq_or_imp, not_or, not_and]
    by_cases hr : e.remove = true
    · by_cases hi : e.index = i
      · subst hi; simp [hr]
      · simp [hr, hi, Function.update_of_ne (Ne.symm hi)]
    · simp [hr]

theorem foldl_activate (ds : List Decision) (group : List ProjectionEvent) :
    ∀ (s : (Nat → Bool) × DeadlineHeap),
      (∀ i, (group.foldl (activate ds) s).1 i = true ↔
        s.1 i = true ∨ ∃ e ∈ group, e.remove = false ∧ e.index = i) ∧
      (∀ item, item ∈ (group.foldl (activate ds) s).2 ↔
        item ∈ s.2 ∨ ∃ e ∈ group, e.remove = false ∧
          item = ⟨e.index, deadlineOf ds e.index⟩) ∧
      (s.2.Pairwise (fun a b => b.deadline ≤ a.deadline) →
        (group.foldl (activate ds) s).2.Pairwise fun a b => b.deadline ≤ a.deadline) := by
  induction group with
  | nil => simp
  | cons e rest ih =>
    intro s
    rw [foldl_cons]
    obtain ⟨h₁, h₂, h₃⟩ := ih (activate ds s e)
    cases hr : e.remove with
    | true =>
      have hs : activate ds s e = s := by simp [activate, hr]
      rw [hs] at h₁ h₂ h₃ ⊢
      exact ⟨by simpa [hr] using h₁, by simpa [hr] using h₂, h₃⟩
    | false =>
      have hs : activate ds s e = (Function.update s.1 e.index true,
          DeadlineHeap.push s.2 ⟨e.index, deadlineOf ds e.index⟩) := by
        simp [activate, hr]
      rw [hs] at h₁ h₂ h₃ ⊢
      refine ⟨?_, ?_, ?_⟩
      · intro i
        rw [h₁]
        by_cases hi : e.index = i
        · subst hi; simp [hr]
        · simp [hr, hi, Function.update_of_ne (Ne.symm hi)]
      · intro item
        rw [h₂]
        simp only [DeadlineHeap.push, mem_orderedInsert, mem_cons, exists_eq_or_imp, hr,
          true_and]
        tauto
      · intro hso
        refine h₃ ?_
        have : Std.Total fun a b : ProjectionHeapItem => b.deadline ≤ a.deadline :=
          ⟨fun a b => le_total b.deadline a.deadline⟩
        have : IsTrans ProjectionHeapItem fun a b => b.deadline ≤ a.deadline :=
          ⟨fun a b c hab hbc => le_trans hbc hab⟩
        exact hso.orderedInsert _ _

theorem current_spec (active : Nat → Bool) {h : DeadlineHeap}
    (hso : h.Pairwise fun a b => b.deadline ≤ a.deadline) :
    (DeadlineHeap.current active h).Pairwise (fun a b => b.deadline ≤ a.deadline) ∧
      (∀ item ∈ DeadlineHeap.current active h, item ∈ h) ∧
      (∀ item ∈ h, active item.index = true → item ∈ DeadlineHeap.current active h) ∧
      ∀ best rest, DeadlineHeap.current active h = best :: rest → active best.index = true := by
  induction h with
  | nil => exact ⟨List.Pairwise.nil, by simp [DeadlineHeap.current], by simp, by
      intro best rest h; cases h⟩
  | cons top rest ih =>
    rw [DeadlineHeap.current]
    cases hac : active top.index with
    | true =>
      rw [if_pos rfl]
      refine ⟨hso, fun _ h => h, fun _ h _ => h, ?_⟩
      intro best tail h
      cases h
      exact hac
    | false =>
      rw [if_neg (by decide)]
      obtain ⟨h₁, h₂, h₃, h₄⟩ := ih (pairwise_cons.mp hso).2
      refine ⟨h₁, fun item h => mem_cons_of_mem _ (h₂ item h), ?_, h₄⟩
      intro item hit hru
      rcases mem_cons.mp hit with rfl | hit
      · rw [hac] at hru; cases hru
      · exact h₃ item hit hru

/-! ## One round -/

def ProjectionEvent.pos (e : ProjectionEvent) (w : Nat) : Nat := e.boundary.toNat w

section Spans

variable (span : Nat → Option Span) (w : Nat)

/-- `t` is the latest deadline of a span over `x`. -/
def Best (x : Nat) (t : Time) : Prop :=
  (∃ i s, span i = some s ∧ s.Over x ∧ s.deadline = t) ∧
    ∀ i s, span i = some s → s.Over x → s.deadline ≤ t

variable {p : Nat} {ev : ProjectionEvent} {rest : List ProjectionEvent} {ds : List Decision}
  {active : Nat → Bool}

theorem Best.unique {span : Nat → Option Span} {x : Nat} {t u : Time} (ht : Best span x t)
    (hu : Best span x u) : t = u := by
  obtain ⟨⟨i, s, hs, ho, rfl⟩, hmax⟩ := ht
  obtain ⟨⟨j, r, hr, ho', rfl⟩, hm'⟩ := hu
  exact le_antisymm (hm' i s hs ho) (hmax j r hr ho')

/-- The events still to come: exactly those at `p` or later, in order. -/
structure Pending (p : Nat) (events : List ProjectionEvent) : Prop where
  sorted : events.Pairwise fun a b => a.pos w ≤ b.pos w
  valid : ∀ e ∈ events, e.boundary.Valid w
  origin : ∀ e ∈ events, ∃ s, span e.index = some s ∧ e.pos w = s.edge e.remove
  after : ∀ e ∈ events, p ≤ e.pos w
  edges : ∀ i s remove, span i = some s → p ≤ s.edge remove →
    ∃ e ∈ events, e.index = i ∧ e.remove = remove

variable {span w}

theorem Pending.event {evs : List ProjectionEvent} (h : Pending span w p evs) {i : Nat}
    {s : Span} (hs : span i = some s) (remove : Bool) (hle : p ≤ s.edge remove) :
    ∃ e ∈ evs, e.index = i ∧ e.remove = remove ∧ e.pos w = s.edge remove := by
  obtain ⟨e, he, rfl, rfl⟩ := h.edges i s remove hs hle
  obtain ⟨s', hs', hat⟩ := h.origin e he
  obtain rfl := Option.some.inj (hs.symm.trans hs')
  exact ⟨e, he, rfl, rfl, hat⟩

theorem Pending.group (h : Pending span w p (ev :: rest)) (hp : ev.pos w = p) :
    (∀ e, e ∈ ev :: rest.takeWhile (fun e =>
        decide (compareBoundary ev.boundary e.boundary = .eq)) ↔
      e ∈ ev :: rest ∧ e.pos w = p) ∧
    rest.dropWhile (fun e => decide (compareBoundary ev.boundary e.boundary = .eq)) =
      rest.filter fun e => p < e.pos w := by
  have hsa : ∀ e ∈ rest, (compareBoundary ev.boundary e.boundary = .eq ↔ e.pos w = p) := by
    intro e he
    rw [compareBoundary_eq (h.valid ev mem_cons_self)
      (h.valid e (mem_cons_of_mem _ he)), Nat.compare_eq_eq, ← hp]
    exact eq_comm
  have hle : ∀ e ∈ rest, p ≤ e.pos w := fun e he => h.after e (mem_cons_of_mem _ he)
  have hmo : rest.Pairwise fun a b =>
      decide (compareBoundary ev.boundary b.boundary = .eq) = true →
        decide (compareBoundary ev.boundary a.boundary = .eq) = true := by
    refine (pairwise_cons.mp h.sorted).2.imp_of_mem ?_
    intro a b ha hb hab heq
    rw [decide_eq_true_eq, hsa b hb] at heq
    rw [decide_eq_true_eq, hsa a ha]
    have := hle a ha
    omega
  obtain ⟨hta, hd⟩ := takeWhile_eq_filter hmo
  refine ⟨?_, ?_⟩
  · intro e
    rw [hta]
    simp only [mem_cons, mem_filter, decide_eq_true_eq]
    constructor
    · rintro (rfl | ⟨he, heq⟩)
      · exact ⟨Or.inl rfl, hp⟩
      · exact ⟨Or.inr he, (hsa e he).mp heq⟩
    · rintro ⟨rfl | he, heq⟩
      · exact .inl rfl
      · exact .inr ⟨he, (hsa e he).mpr heq⟩
  · rw [hd]
    refine filter_congr fun e he => ?_
    have := hle e he
    rw [Bool.eq_iff_iff]
    simp only [Bool.not_eq_true', decide_eq_false_iff_not, hsa e he, decide_eq_true_eq]
    omega

/-- **A round moves the running spans to the boundary.** -/
theorem active_round (hpos : ∀ i s, span i = some s → s.lo < s.hi)
    {dls : DeadlineHeap} {group : List ProjectionEvent} (h : Pending span w p (ev :: rest))
    (hg : ∀ e, e ∈ group ↔ e ∈ ev :: rest ∧ e.pos w = p)
    (hac : ∀ i, active i = true ↔ ∃ s, span i = some s ∧ s.lo < p ∧ p ≤ s.hi) (i : Nat) :
    (group.foldl (activate ds) (group.foldl deactivate active, dls)).1 i = true ↔
      ∃ s, span i = some s ∧ s.Over p := by
  rw [(foldl_activate ds group _).1 i, foldl_deactivate, hac]
  have hed : ∀ remove, (∃ e ∈ group, e.remove = remove ∧ e.index = i) ↔
      ∃ s, span i = some s ∧ s.edge remove = p := by
    intro remove
    constructor
    · rintro ⟨e, he, rfl, rfl⟩
      obtain ⟨hmem, hat⟩ := (hg e).mp he
      obtain ⟨s, hs, ho⟩ := h.origin e hmem
      exact ⟨s, hs, ho.symm.trans hat⟩
    · rintro ⟨s, hs, rfl⟩
      obtain ⟨e, he, rfl, rfl, hat⟩ := h.event hs remove le_rfl
      exact ⟨e, (hg e).mpr ⟨he, hat⟩, rfl, rfl⟩
  rw [hed, hed]
  cases hs : span i with
  | none => simp
  | some s =>
    have hlt := hpos i s hs
    simp only [Option.some.injEq, exists_eq_left', Span.Over, Span.edge, if_true, Bool.false_eq_true,
      if_false]
    omega

section

variable {next : ProjectionEvent} {tail : List ProjectionEvent}
  (hre : (rest.filter fun e => p < e.pos w) = next :: tail)

include hre

theorem lt_next : p < next.pos w := by
  have hmem : next ∈ rest.filter fun e => p < e.pos w := hre ▸ mem_cons_self
  simpa using (mem_filter.mp hmem).2

theorem mem_later {e : ProjectionEvent} (hp : ev.pos w = p) (he : e ∈ ev :: rest)
    (hlt : p < e.pos w) : e ∈ next :: tail := by
  rcases mem_cons.mp he with rfl | he
  · omega
  · exact hre ▸ mem_filter.mpr ⟨he, by simpa using hlt⟩

theorem Pending.advance (h : Pending span w p (ev :: rest)) (hp : ev.pos w = p) :
    Pending span w (next.pos w) (next :: tail) := by
  have hsu : ∀ e ∈ next :: tail, e ∈ ev :: rest := by
    intro e he
    rw [← hre] at he
    exact mem_cons_of_mem _ (mem_filter.mp he).1
  have hso : (next :: tail).Pairwise fun a b => a.pos w ≤ b.pos w :=
    hre ▸ (pairwise_cons.mp h.sorted).2.filter _
  have hpn := lt_next hre
  refine ⟨hso, fun e he => h.valid e (hsu e he), fun e he => h.origin e (hsu e he), ?_, ?_⟩
  · exact forall_mem_cons.mpr ⟨le_rfl, (pairwise_cons.mp hso).1⟩
  · intro i s remove hs hle
    obtain ⟨e, he, rfl, rfl, hat⟩ := h.event hs remove (by omega)
    exact ⟨e, mem_later hre hp he (by omega), rfl, rfl⟩

theorem Pending.over_iff (h : Pending span w p (ev :: rest)) (hp : ev.pos w = p)
    {i : Nat} {s : Span} (hs : span i = some s) :
    (∀ x, p ≤ x → x < next.pos w → (s.Over x ↔ s.Over p)) ∧
      (s.Over p ↔ s.lo < next.pos w ∧ next.pos w ≤ s.hi) := by
  have hpn := lt_next hre
  have hed : ∀ remove, p < s.edge remove → next.pos w ≤ s.edge remove := by
    intro remove hlt
    obtain ⟨e, he, -, -, hat⟩ := h.event hs remove hlt.le
    rw [← hat] at hlt ⊢
    exact (h.advance hre hp).after e (mem_later hre hp he hlt)
  have hlo : p < s.lo → next.pos w ≤ s.lo := hed false
  have hhi : p < s.hi → next.pos w ≤ s.hi := hed true
  unfold Span.Over
  refine ⟨fun x hpx hxn => ?_, ?_⟩
  · constructor
    · rintro ⟨h₁, h₂⟩
      refine ⟨?_, by omega⟩
      by_contra hc
      have := hlo (by omega)
      omega
    · rintro ⟨h₁, h₂⟩
      have := hhi h₂
      exact ⟨by omega, by omega⟩
  · constructor
    · rintro ⟨h₁, h₂⟩
      exact ⟨by omega, hhi h₂⟩
    · rintro ⟨h₁, h₂⟩
      refine ⟨?_, by omega⟩
      by_contra hc
      have := hlo (by omega)
      omega

end

/-! ## The ranges -/

/-- The ranges so far: below `p`, the maximal stretches of equal best deadline. -/
structure Swept (span : Nat → Option Span) (w p : Nat) (ranges : List ProjectionRange) : Prop where
  valid : ∀ r ∈ ranges, r.stop.Valid w
  proper : ∀ r ∈ ranges, r.start.toNat < r.stop.toNat w
  below : ∀ r ∈ ranges, r.stop.toNat w ≤ p
  best : ∀ r ∈ ranges, ∀ x, r.start.toNat ≤ x → x < r.stop.toNat w → Best span x r.deadline
  apart : ranges.Pairwise fun a b =>
    a.stop.toNat w ≤ b.start.toNat ∧ (a.stop.toNat w = b.start.toNat → a.deadline ≠ b.deadline)
  covers : ∀ x < p, (∃ i s, span i = some s ∧ s.Over x) →
    ∃ r ∈ ranges, r.start.toNat ≤ x ∧ x < r.stop.toNat w

theorem Swept.skip {q : Nat} {ranges : List ProjectionRange} (h : Swept span w p ranges)
    (hle : p ≤ q) (hno : ∀ x, p ≤ x → x < q → ¬ ∃ i s, span i = some s ∧ s.Over x) :
    Swept span w q ranges := by
  refine ⟨h.valid, h.proper, fun r hr => le_trans (h.below r hr) hle, h.best, h.apart, ?_⟩
  intro x hx ho
  rcases Nat.lt_or_ge x p with hlt | hge
  · exact h.covers x hlt ho
  · exact absurd ho (hno x hge hx)

theorem Swept.append {ranges : List ProjectionRange} (h : Swept span w p ranges)
    {start : Uint128} {next : ProjectionBoundary} {t : Time} (hst : start.toNat = p)
    (hne : next.Valid w) (hlt : p < next.toNat w)
    (hbe : ∀ x, p ≤ x → x < next.toNat w → Best span x t)
    (hnew : ∀ r ∈ ranges, r.stop.toNat w = p → r.deadline ≠ t) :
    Swept span w (next.toNat w) (ranges ++ [⟨start, next, t⟩]) := by
  have hsp : ∀ {P : ProjectionRange → Prop}, (∀ r ∈ ranges, P r) → P ⟨start, next, t⟩ →
      ∀ r ∈ ranges ++ [⟨start, next, t⟩], P r := fun hold hl =>
    forall_mem_append.mpr ⟨hold, forall_mem_singleton.mpr hl⟩
  refine ⟨hsp h.valid hne, hsp h.proper (by simpa [hst] using hlt),
    hsp (fun r hr => le_trans (h.below r hr) hlt.le) le_rfl,
    hsp h.best (by simpa [hst] using hbe), ?_, ?_⟩
  · rw [pairwise_append]
    refine ⟨h.apart, pairwise_singleton _ _, ?_⟩
    intro a ha b hb
    rw [mem_singleton.mp hb]
    exact ⟨by simpa [hst] using h.below a ha, fun heq => hnew a ha (by simpa [hst] using heq)⟩
  · intro x hx ho
    rcases Nat.lt_or_ge x p with hxp | hxp
    · obtain ⟨r, hr, hin⟩ := h.covers x hxp ho
      exact ⟨r, mem_append_left _ hr, hin⟩
    · exact ⟨_, mem_append_right _ (mem_singleton_self _), by simpa [hst] using hxp, hx⟩

theorem Swept.grow {init : List ProjectionRange} {last : ProjectionRange}
    (h : Swept span w p (init ++ [last])) {next : ProjectionBoundary}
    (hst : last.stop.toNat w = p) (hne : next.Valid w) (hlt : p < next.toNat w)
    (hbe : ∀ x, p ≤ x → x < next.toNat w → Best span x last.deadline) :
    Swept span w (next.toNat w) (init ++ [{ last with stop := next }]) := by
  have hl : last ∈ init ++ [last] := mem_append_right _ (mem_singleton_self _)
  have hini : ∀ r ∈ init, r ∈ init ++ [last] := fun r hr => mem_append_left _ hr
  have hp := h.proper last hl
  have hsp : ∀ {P : ProjectionRange → Prop}, (∀ r ∈ init, P r) → P { last with stop := next } →
      ∀ r ∈ init ++ [{ last with stop := next }], P r := fun hold hnew =>
    forall_mem_append.mpr ⟨hold, forall_mem_singleton.mpr hnew⟩
  obtain ⟨hap, -, hc⟩ := pairwise_append.mp h.apart
  refine ⟨hsp (fun r hr => h.valid r (hini r hr)) hne,
    hsp (fun r hr => h.proper r (hini r hr)) (by simp only; omega),
    hsp (fun r hr => le_trans (h.below r (hini r hr)) hlt.le) le_rfl,
    hsp (fun r hr => h.best r (hini r hr)) ?_, ?_, ?_⟩
  · intro x hlo hhi
    rcases Nat.lt_or_ge x p with hxp | hxp
    · exact h.best last hl x hlo (by omega)
    · exact hbe x hxp hhi
  · rw [pairwise_append]
    refine ⟨hap, pairwise_singleton _ _, ?_⟩
    intro a ha b hb
    rw [mem_singleton.mp hb]
    exact hc a ha last (mem_singleton_self _)
  · intro x hx ho
    rcases Nat.lt_or_ge x p with hxp | hxp
    · obtain ⟨r, hr, hin⟩ := h.covers x hxp ho
      rcases mem_append.mp hr with hr | hr
      · exact ⟨r, mem_append_left _ hr, hin⟩
      · rw [mem_singleton.mp hr] at hin
        exact ⟨_, mem_append_right _ (mem_singleton_self _), hin.1, by simp only; omega⟩
    · exact ⟨_, mem_append_right _ (mem_singleton_self _), by simp only; omega, hx⟩

theorem Swept.extend {p : Nat} {ranges : List ProjectionRange} (h : Swept span w p ranges)
    {start : Uint128} {next : ProjectionBoundary} {t : Time} (hst : start.toNat = p)
    (hne : next.Valid w) (hlt : p < next.toNat w)
    (hbe : ∀ x, p ≤ x → x < next.toNat w → Best span x t) :
    Swept span w (next.toNat w) (extendRanges ranges start next t) := by
  have hpw : p < 2 ^ w := lt_of_lt_of_le hlt hne.le
  unfold extendRanges
  cases hl : ranges.getLast? with
  | none =>
    refine h.append hst hne hlt hbe ?_
    rw [List.getLast?_eq_none_iff.mp hl]
    simp
  | some last =>
    obtain ⟨init, rfl⟩ := List.getLast?_eq_some_iff.mp hl
    have hmem : last ∈ init ++ [last] := mem_append_right _ (mem_singleton_self _)
    -- the source's test says that the last range ends here with the same deadline
    have hte : (last.stop.value = start ∧ last.stop.top = false ∧ last.deadline = t) ↔
        last.stop.toNat w = p ∧ last.deadline = t := by
      unfold ProjectionBoundary.toNat
      cases hto : last.stop.top with
      | true =>
        simp only [reduceCtorEq, false_and, and_false, if_true, false_iff, not_and]
        omega
      | false =>
        simp only [true_and, Bool.false_eq_true, if_false]
        refine and_congr_left fun _ => ?_
        rw [← hst]
        exact ⟨fun h => h ▸ rfl, Uint128.toNat_inj⟩
    simp only
    by_cases hjo : last.stop.toNat w = p ∧ last.deadline = t
    · rw [if_pos (hte.mpr hjo), dropLast_concat]
      refine h.grow hjo.1 hne hlt ?_
      rw [hjo.2]
      exact hbe
    · rw [if_neg (mt hte.mp hjo)]
      refine h.append hst hne hlt hbe ?_
      intro r hr heq hdl
      rcases mem_append.mp hr with hr | hr
      · -- an earlier range ends before the last one starts
        have h₁ := (pairwise_append.mp h.apart).2.2 r hr last (mem_singleton_self _)
        have h₂ := h.proper last hmem
        have h₃ := h.below last hmem
        omega
      · rw [mem_singleton.mp hr] at heq hdl
        exact hjo ⟨heq, hdl⟩

/-- The heap holds every running decision, with its deadline. -/
structure Held (span : Nat → Option Span) (active : Nat → Bool) (h : DeadlineHeap) : Prop where
  sorted : h.Pairwise fun a b => b.deadline ≤ a.deadline
  deadline : ∀ item ∈ h, ∃ s, span item.index = some s ∧ item.deadline = s.deadline
  running : ∀ i, active i = true → ∃ item ∈ h, item.index = i

theorem Held.round {active' : Nat → Bool} {h : DeadlineHeap}
    {group : List ProjectionEvent} (hh : Held span active h)
    (hdl : ∀ i s, span i = some s → deadlineOf ds i = s.deadline)
    (ho : ∀ e ∈ group, ∃ s, span e.index = some s) (hac : ∀ i, active' i = true → active i = true) :
    Held span (group.foldl (activate ds) (active', h)).1
      (group.foldl (activate ds) (active', h)).2 := by
  obtain ⟨h₁, h₂, h₃⟩ := foldl_activate ds group (active', h)
  refine ⟨h₃ hh.sorted, ?_, ?_⟩
  · intro item hit
    rcases (h₂ item).mp hit with hit | ⟨e, he, -, rfl⟩
    · exact hh.deadline item hit
    · obtain ⟨s, hs⟩ := ho e he
      exact ⟨s, hs, hdl _ s hs⟩
  · intro i hi
    rcases (h₁ i).mp hi with hi | ⟨e, he, hr, rfl⟩
    · obtain ⟨item, hit, rfl⟩ := hh.running i (hac i hi)
      exact ⟨item, (h₂ item).mpr (Or.inl hit), rfl⟩
    · exact ⟨_, (h₂ _).mpr (Or.inr ⟨e, he, hr, rfl⟩), rfl⟩

theorem Held.current {h : DeadlineHeap} (hh : Held span active h) {x : Nat}
    (hru : ∀ i, active i = true ↔ ∃ s, span i = some s ∧ s.Over x) :
    Held span active (DeadlineHeap.current active h) ∧
      (∀ best rest, DeadlineHeap.current active h = best :: rest → Best span x best.deadline) ∧
      (DeadlineHeap.current active h = [] → ¬ ∃ i s, span i = some s ∧ s.Over x) := by
  obtain ⟨h₁, h₂, h₃, h₄⟩ := current_spec active hh.sorted
  have hke : ∀ i, active i = true → ∃ item ∈ DeadlineHeap.current active h, item.index = i := by
    intro i hi
    obtain ⟨item, hit, rfl⟩ := hh.running i hi
    exact ⟨item, h₃ item hit hi, rfl⟩
  refine ⟨⟨h₁, fun item hit => hh.deadline item (h₂ item hit), hke⟩, ?_, ?_⟩
  · intro best rest heq
    have hbe : best ∈ DeadlineHeap.current active h := heq ▸ mem_cons_self
    obtain ⟨s, hs, hsd⟩ := hh.deadline best (h₂ best hbe)
    refine ⟨?_, ?_⟩
    · obtain ⟨s', hs', ho⟩ := (hru best.index).mp (h₄ best rest heq)
      rw [hs] at hs'
      cases hs'
      exact ⟨_, s, hs, ho, hsd.symm⟩
    · intro i r hr ho
      obtain ⟨item, hit, rfl⟩ := hke i ((hru i).mpr ⟨r, hr, ho⟩)
      obtain ⟨r', hr', hrd⟩ := hh.deadline item (h₂ item hit)
      rw [hr] at hr'
      cases hr'
      rw [← hrd]
      rw [heq] at hit h₁
      rcases mem_cons.mp hit with rfl | hit
      · exact le_rfl
      · exact (pairwise_cons.mp h₁).1 item hit
  · rintro hnil ⟨i, s, hs, ho⟩
    obtain ⟨item, hit, -⟩ := hke i ((hru i).mpr ⟨s, hs, ho⟩)
    rw [hnil] at hit
    cases hit

/-- **The sweep finds the maximal stretches of equal best deadline.** -/
theorem sweep_spec (hpos : ∀ i s, span i = some s → s.lo < s.hi)
    (hdl : ∀ i s, span i = some s → deadlineOf ds i = s.deadline) : ∀ {fuel p : Nat}
    {ev : ProjectionEvent} {rest : List ProjectionEvent} {active : Nat → Bool}
    {deadlines : DeadlineHeap} {ranges : List ProjectionRange}, rest.length < fuel →
      Pending span w p (ev :: rest) → ev.pos w = p →
      (∀ i, active i = true ↔ ∃ s, span i = some s ∧ s.lo < p ∧ p ≤ s.hi) →
      Held span active deadlines → Swept span w p ranges →
      Swept span w (2 ^ w) (sweep ds fuel (ev :: rest) active deadlines ranges) := by
  intro fuel
  induction fuel with
  | zero => intro p ev rest active deadlines ranges h; omega
  | succ fuel ih =>
    intro p ev rest active deadlines ranges hf hpe hp hac hh hsw
    obtain ⟨hg, hrem⟩ := hpe.group hp
    have hva := hpe.valid ev mem_cons_self
    have hpw : p ≤ 2 ^ w := hp ▸ hva.le
    rw [sweep]
    simp only [hrem]
    set group := ev :: rest.takeWhile (fun e =>
      decide (compareBoundary ev.boundary e.boundary = .eq)) with hgroup_def
    have hru : ∀ i, (group.foldl (activate ds)
        (group.foldl deactivate active, deadlines)).1 i = true ↔ ∃ s, span i = some s ∧ s.Over p :=
      active_round hpos hpe hg hac
    have hro : Held span (group.foldl (activate ds) (group.foldl deactivate active, deadlines)).1
        (group.foldl (activate ds) (group.foldl deactivate active, deadlines)).2 :=
      hh.round hdl (fun e he => (hpe.origin e ((hg e).mp he).1).imp fun _ h => h.1)
        fun i hi => ((foldl_deactivate group active i).mp hi).1
    generalize group.foldl (activate ds) (group.foldl deactivate active, deadlines) = st
      at hru hro ⊢
    cases hre : rest.filter fun e => p < e.pos w with
    | nil =>
      -- the last boundary: every span has ended by now
      refine hsw.skip hpw ?_
      rintro x hxp - ⟨i, s, hs, hlo, hhi⟩
      obtain ⟨e, he, -, -, hat⟩ := hpe.event hs true (hxp.trans hhi.le)
      change e.pos w = s.hi at hat
      rcases mem_cons.mp he with rfl | he
      · omega
      · have : e ∈ rest.filter fun e => p < e.pos w :=
          mem_filter.mpr ⟨he, by simp only [decide_eq_true_eq]; omega⟩
        rw [hre] at this
        cases this
    | cons next tail =>
      have hnex := hpe.advance hre hp
      have hov := fun i s hs => hpe.over_iff (i := i) (s := s) hre hp hs
      have hpn := lt_next hre
      -- what is best at the boundary is best up to the next one
      have hbest_const : ∀ t, Best span p t → ∀ x, p ≤ x → x < next.pos w → Best span x t := by
        rintro t ⟨⟨i, s, hs, ho, rfl⟩, hmax⟩ x hpx hxn
        refine ⟨⟨i, s, hs, ((hov i s hs).1 x hpx hxn).mpr ho, rfl⟩, fun j r hr hor => ?_⟩
        exact hmax j r hr (((hov j r hr).1 x hpx hxn).mp hor)
      obtain ⟨active', deadlines'⟩ := st
      simp only at hru hro ⊢
      obtain ⟨hh', hbe, hnon⟩ := hro.current hru
      have hlen : tail.length < fuel := by
        have := length_filter_le (fun e => decide (p < e.pos w)) rest
        rw [hre, length_cons] at this
        omega
      refine ih hlen hnex rfl ?_ hh' ?_
      · intro i
        rw [hru]
        constructor
        · rintro ⟨s, hs, ho⟩
          exact ⟨s, hs, (hov i s hs).2.mp ho⟩
        · rintro ⟨s, hs, ho⟩
          exact ⟨s, hs, (hov i s hs).2.mpr ho⟩
      · have hne := hnex.valid next mem_cons_self
        cases hc : DeadlineHeap.current active' deadlines' with
        | nil =>
          refine hsw.skip hpn.le ?_
          rintro x hpx hxn ⟨i, s, hs, ho⟩
          exact hnon hc ⟨i, s, hs, ((hov i s hs).1 x hpx hxn).mp ho⟩
        | cons best others =>
          have hlt : compareBoundary ev.boundary next.boundary = .lt := by
            rw [compareBoundary_eq hva hne, Nat.compare_eq_lt]
            change ev.pos w < next.pos w
            omega
          simp only
          rw [if_pos hlt]
          refine hsw.extend ?_ hne hpn (hbest_const _ (hbe best others hc))
          have hno : ev.boundary.top = false := by
            by_contra hto
            rw [Bool.not_eq_false] at hto
            have h₁ : ev.pos w = 2 ^ w := by
              simp [ProjectionEvent.pos, ProjectionBoundary.toNat, hto]
            have h₂ := hne.le
            change next.pos w ≤ 2 ^ w at h₂
            omega
          rw [← hp]
          simp [ProjectionEvent.pos, ProjectionBoundary.toNat, hno]

end Spans

/-! ## The spans of a family -/

/-- The interval of a decision within its family. -/
def Decision.span (d : Decision) : Span where
  lo := d.pfx.masked.addr.value
  hi := d.pfx.masked.addr.value + 2 ^ d.pfx.host
  deadline := d.deadline

/-- The spans of the live decisions of a family, by index. -/
def familySpan (decisions : List Decision) (f : Family) (now : Time) (i : Nat) : Option Span :=
  match decisions[i]? with
  | some d => if d.pfx.addr.family ≠ f ∨ d.live now = false then none else some d.span
  | none => none

theorem familySpan_eq_some {i : Nat} {s : Span} : familySpan ds f now i = some s ↔
      ∃ d, ds[i]? = some d ∧ d.pfx.addr.family = f ∧ d.live now = true ∧ d.span = s := by
  unfold familySpan
  cases ds[i]? with
  | none => simp
  | some d =>
    by_cases hf : d.pfx.addr.family = f <;> cases hl : d.live now <;> simp [hf, hl]

theorem mem_projectionEvents
    {e : ProjectionEvent} : e ∈ projectionEvents ds f now ↔
      ∃ i d, ds[i]? = some d ∧ d.pfx.addr.family = f ∧ d.live now = true ∧
        e ∈ decisionEvents f i d := by
  simp only [projectionEvents, mem_flatMap, Prod.exists, mem_zipIdx_iff_getElem?]
  constructor
  · rintro ⟨d, i, hd, he⟩
    split at he
    · cases he
    · rename_i hc
      rw [not_or, not_not, Bool.not_eq_false] at hc
      exact ⟨i, d, hd, hc.1, hc.2, he⟩
  · rintro ⟨i, d, hd, hf, hl, he⟩
    refine ⟨d, i, hd, ?_⟩
    rw [if_neg (by rw [not_or, not_not, Bool.not_eq_false]; exact ⟨hf, hl⟩)]
    exact he

theorem Decision.span_hi_le (d : Decision) : d.span.hi ≤ 2 ^ d.pfx.addr.family.width := by
  have h := d.pfx.block_hi_le
  rw [Block.hi_eq, ← d.pfx.masked_point, Addr.point, Prefix.block_exp] at h
  change d.pfx.addr.family.base + _ + _ ≤ _ at h
  change d.pfx.masked.addr.value + 2 ^ d.pfx.host ≤ _
  omega

theorem decisionEvents_pos {i : Nat} {d : Decision} (hf : d.pfx.addr.family = f)
    {e : ProjectionEvent} (he : e ∈ decisionEvents f i d) :
    e.index = i ∧ e.boundary.Valid f.width ∧ e.pos f.width = d.span.edge e.remove := by
  subst hf
  have hva := toNat_addr128 d.pfx.masked.addr
  have hlt : (addr128 d.pfx.masked.addr).toNat < 2 ^ d.pfx.addr.family.width :=
    hva ▸ d.pfx.masked.addr.lt
  have hle := d.span_hi_le
  simp only [decisionEvents, mem_cons, not_mem_nil, or_false] at he
  rcases he with rfl | rfl
  · refine ⟨rfl, fun _ => hlt, ?_⟩
    simp [ProjectionEvent.pos, ProjectionBoundary.toNat, hva, Decision.span, Span.edge]
  · obtain ⟨had, hvali⟩ := addPower_toNat (width_ok d.pfx.addr.family) d.pfx.host_le hlt
    refine ⟨rfl, hvali, ?_⟩
    change (addPower _ d.pfx.host _).toNat _ = d.span.hi
    rw [had, hva]
    change min d.span.hi _ = _
    omega

/-- **The ranges of a family**, whatever order the sort leaves equal boundaries in. -/
theorem sweep_events
    {sorted : List ProjectionEvent} (hp : sorted.Perm (projectionEvents ds f now))
    (hso : sorted.Pairwise fun a b => compareBoundary b.boundary a.boundary ≠ .lt) :
    Swept (familySpan ds f now) f.width (2 ^ f.width)
      (sweep ds sorted.length sorted (fun _ => false) [] []) := by
  have hpos : ∀ i s, familySpan ds f now i = some s → s.lo < s.hi := by
    intro i s hs
    obtain ⟨d, -, -, -, rfl⟩ := familySpan_eq_some.mp hs
    exact Nat.lt_add_of_pos_right (Nat.two_pow_pos _)
  have hdl : ∀ i s, familySpan ds f now i = some s → deadlineOf ds i = s.deadline := by
    intro i s hs
    obtain ⟨d, hd, -, -, rfl⟩ := familySpan_eq_some.mp hs
    simp [deadlineOf, hd, Decision.span]
  have hev : ∀ e ∈ sorted, e.boundary.Valid f.width ∧ ∃ s,
      familySpan ds f now e.index = some s ∧ e.pos f.width = s.edge e.remove := by
    intro e he
    obtain ⟨i, d, hd, hf, hl, he⟩ := mem_projectionEvents.mp (hp.mem_iff.mp he)
    obtain ⟨rfl, hva, hat⟩ := decisionEvents_pos hf he
    exact ⟨hva, d.span, familySpan_eq_some.mpr ⟨d, hd, hf, hl, rfl⟩, hat⟩
  have hal : ∀ (remove : Bool) i s, familySpan ds f now i = some s →
      ∃ e ∈ sorted, e.index = i ∧ e.remove = remove := by
    intro remove i s hs
    obtain ⟨d, hd, hf, hl, -⟩ := familySpan_eq_some.mp hs
    have hmem : ∀ e ∈ decisionEvents f i d, e ∈ sorted := fun e he =>
      hp.mem_iff.mpr (mem_projectionEvents.mpr ⟨i, d, hd, hf, hl, he⟩)
    cases remove with
    | false => exact ⟨_, hmem _ mem_cons_self, rfl, rfl⟩
    | true => exact ⟨_, hmem _ (mem_cons_of_mem _ mem_cons_self), rfl, rfl⟩
  cases sorted with
  | nil =>
    refine ⟨by simp [sweep], by simp [sweep], by simp [sweep], by simp [sweep], by simp [sweep], ?_⟩
    rintro x - ⟨i, s, hs, -⟩
    obtain ⟨e, he, -⟩ := hal false i s hs
    cases he
  | cons ev rest =>
    have hpe : Pending (familySpan ds f now) f.width (ev.pos f.width) (ev :: rest) := by
      have ho : (ev :: rest).Pairwise fun a b => a.pos f.width ≤ b.pos f.width := by
        refine hso.imp_of_mem ?_
        intro a b ha hb hab
        rwa [compareBoundary_eq (hev b hb).1 (hev a ha).1, ne_eq, Nat.compare_eq_lt,
          not_lt] at hab
      refine ⟨ho, fun e he => (hev e he).1, fun e he => (hev e he).2, ?_,
        fun i s remove hs _ => hal remove i s hs⟩
      intro e he
      rcases mem_cons.mp he with rfl | he
      · exact le_rfl
      · exact (pairwise_cons.mp ho).1 e he
    -- nothing starts before the first event
    have hfirst : ∀ i s, familySpan ds f now i = some s → ev.pos f.width ≤ s.lo := by
      intro i s hs
      obtain ⟨e, he, rfl, hr⟩ := hal false i s hs
      obtain ⟨s', hs', hat⟩ := (hev e he).2
      rw [hs] at hs'
      cases hs'
      rw [hr] at hat
      exact le_of_le_of_eq (hpe.after e he) hat
    refine sweep_spec hpos hdl (Nat.lt_succ_self _) hpe rfl ?_ ?_ ?_
    · intro i
      refine iff_of_false (by simp) ?_
      rintro ⟨s, hs, hlt, -⟩
      have := hfirst i s hs
      omega
    · exact ⟨List.Pairwise.nil, by simp, by simp⟩
    · refine ⟨by simp, by simp, by simp, by simp, List.Pairwise.nil, ?_⟩
      rintro x hx ⟨i, s, hs, hlo, -⟩
      have := hfirst i s hs
      omega

end Perimeterd.CrowdSec
