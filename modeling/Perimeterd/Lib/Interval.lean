import Perimeterd.Lib.Search

/-!
# Merging intervals

Closed intervals of numbers, in any order, sorted and swept: an interval that overlaps or touches the
last one grows it, any other is put after it. The result has a gap between neighbours (`Apart`), and
a list with gaps is determined by the numbers it holds (`Apart.unique`). So two lists merge to the
same intervals exactly when they hold the same numbers (`merge_eq_iff`).
-/

namespace Lib

open List

structure Interval where
  lo : Nat
  hi : Nat
deriving DecidableEq

namespace Interval

def less (a b : Interval) : Bool := if a.lo ≠ b.lo then a.lo < b.lo else a.hi < b.hi

/-- The sweep; `last` is the interval at the end of the result. -/
def sweep (last : Interval) : List Interval → List Interval
  | [] => [last]
  | next :: rest =>
      if next.lo ≤ last.hi + 1 then sweep (if last.hi < next.hi then ⟨last.lo, next.hi⟩ else last) rest
      else last :: sweep next rest

def merge (l : List Interval) : List Interval :=
  match sortSlice less l with
  | [] => []
  | first :: rest => sweep first rest

def Holds (l : List Interval) (x : Nat) : Prop := ∃ a ∈ l, a.lo ≤ x ∧ x ≤ a.hi

/-- In order, with a gap between neighbours. -/
structure Apart (l : List Interval) : Prop where
  proper : ∀ a ∈ l, a.lo ≤ a.hi
  gaps : l.Pairwise fun a b => a.hi + 1 < b.lo

variable {a b : Interval} {l m : List Interval} {x : Nat}

theorem holds_cons : Holds (a :: l) x ↔ (a.lo ≤ x ∧ x ≤ a.hi) ∨ Holds l x := by
  simp [Holds]

theorem sweep_spec : ∀ {last : Interval}, last.lo ≤ last.hi →
    (∀ a ∈ l, a.lo ≤ a.hi ∧ last.lo ≤ a.lo) → l.Pairwise (fun a b => a.lo ≤ b.lo) →
      Apart (sweep last l) ∧ (∀ a ∈ sweep last l, last.lo ≤ a.lo) ∧
        ∀ x, Holds (sweep last l) x ↔ Holds (last :: l) x := by
  induction l with
  | nil =>
    intro last hl _ _
    exact ⟨⟨by simpa [sweep], by simp [sweep]⟩, by simp [sweep], fun _ => Iff.rfl⟩
  | cons next rest ih =>
    intro last hl hr hs
    obtain ⟨⟨hn, hln⟩, hr⟩ := forall_mem_cons.mp hr
    obtain ⟨hnr, hs⟩ := pairwise_cons.mp hs
    rw [sweep]
    split
    case isTrue hle =>
      generalize hg : (if last.hi < next.hi then Interval.mk last.lo next.hi else last) = grown
      obtain ⟨ha, hst, hc⟩ := @ih grown (by grind) (by grind) hs
      refine ⟨ha, by grind, fun x => ?_⟩
      rw [hc, holds_cons, holds_cons, holds_cons]
      grind
    case isFalse hgt =>
      obtain ⟨ha, hst, hc⟩ := ih hn (fun a hm => ⟨(hr a hm).1, hnr a hm⟩) hs
      refine ⟨⟨forall_mem_cons.mpr ⟨hl, ha.proper⟩, pairwise_cons.mpr ⟨?_, ha.gaps⟩⟩,
        by grind, fun x => ?_⟩
      · intro b hb
        have hle := hst b hb
        omega
      · rw [holds_cons, hc, holds_cons, holds_cons, holds_cons]

theorem Apart.tail (h : Apart (a :: l)) : Apart l ∧ ∀ x, Holds l x → a.hi + 1 < x := by
  obtain ⟨hg, hl⟩ := pairwise_cons.mp h.gaps
  refine ⟨⟨fun b hb => h.proper b (mem_cons_of_mem _ hb), hl⟩, ?_⟩
  rintro x ⟨b, hb, hx, -⟩
  exact (hg b hb).trans_le hx

theorem Apart.head_le (ha : Apart (a :: l)) (hb : Apart (b :: m))
    (h : ∀ x, Holds (b :: m) x → Holds (a :: l) x) : a.lo ≤ b.lo ∧ (a.lo = b.lo → b.hi ≤ a.hi) := by
  have hp := hb.proper b mem_cons_self
  have hin : ∀ x, b.lo ≤ x → x ≤ b.hi → (a.lo ≤ x ∧ x ≤ a.hi) ∨ a.hi + 1 < x := fun x h₁ h₂ =>
    (holds_cons.mp (h x (holds_cons.mpr (.inl ⟨h₁, h₂⟩)))).imp_right (ha.tail.2 x)
  have hq := ha.proper a mem_cons_self
  refine ⟨by grind, fun heq => ?_⟩
  -- otherwise the number after the end of `a` would be held
  by_contra hlt
  have hn := hin (a.hi + 1) (by omega) (by omega)
  omega

theorem Apart.eq_nil (h : Apart l) (hno : ∀ x, ¬ Holds l x) : l = [] := by
  cases l with
  | nil => rfl
  | cons a l =>
    exact absurd (holds_cons.mpr (.inl ⟨le_rfl, h.proper a mem_cons_self⟩)) (hno a.lo)

/-- **Intervals with gaps are determined by what they hold.** -/
theorem Apart.unique (hl : Apart l) (hm : Apart m) (h : ∀ x, Holds l x ↔ Holds m x) : l = m := by
  induction l generalizing m with
  | nil => exact (hm.eq_nil fun x hx => by simpa [Holds] using (h x).mpr hx).symm
  | cons a l ih =>
    cases m with
    | nil => exact hl.eq_nil fun x hx => by simpa [Holds] using (h x).mp hx
    | cons b m =>
      obtain ⟨h₁, h₂⟩ := hl.head_le hm fun x => (h x).mpr
      obtain ⟨h₃, h₄⟩ := hm.head_le hl fun x => (h x).mp
      obtain ⟨hl', hla⟩ := hl.tail
      obtain ⟨hm', hma⟩ := hm.tail
      have heq : a = b := by
        cases a
        cases b
        grind
      subst heq
      rw [ih hl' hm' fun x => ?_]
      have hx := h x
      rw [holds_cons, holds_cons] at hx
      grind

theorem merge_spec (h : ∀ a ∈ l, a.lo ≤ a.hi) :
    Apart (merge l) ∧ ∀ x, Holds (merge l) x ↔ Holds l x := by
  have hkey : ∀ a b : Interval, less a b = true ↔ toLex (a.lo, a.hi) < toLex (b.lo, b.hi) := by
    grind [less, Prod.Lex.toLex_lt_toLex]
  have hso : (sortSlice less l).Pairwise fun a b => a.lo ≤ b.lo :=
    (sortSlice_sorted _ hkey l).imp fun h => (Prod.Lex.toLex_le_toLex.mp h).elim le_of_lt (·.1.le)
  have hc : ∀ x, Holds (sortSlice less l) x ↔ Holds l x := by simp [Holds]
  have hp : ∀ a ∈ sortSlice less l, a.lo ≤ a.hi := fun a ha => h a (mem_sortSlice.mp ha)
  unfold merge
  split
  case h_1 heq => exact ⟨⟨nofun, .nil⟩, heq ▸ hc⟩
  case h_2 first rest heq =>
    rw [heq] at hso hp hc
    obtain ⟨hle, hso⟩ := pairwise_cons.mp hso
    obtain ⟨hf, hp⟩ := forall_mem_cons.mp hp
    obtain ⟨ha, -, hs⟩ := sweep_spec hf (fun a ha => ⟨hp a ha, hle a ha⟩) hso
    exact ⟨ha, fun x => (hs x).trans (hc x)⟩

/-- **Two lists merge to the same intervals iff they hold the same numbers.** -/
theorem merge_eq_iff (hl : ∀ a ∈ l, a.lo ≤ a.hi) (hm : ∀ a ∈ m, a.lo ≤ a.hi) :
    merge l = merge m ↔ ∀ x, Holds l x ↔ Holds m x := by
  obtain ⟨hal, hcl⟩ := merge_spec hl
  obtain ⟨ham, hcm⟩ := merge_spec hm
  refine ⟨fun h x => ?_, fun h => hal.unique ham fun x => ?_⟩
  · rw [← hcl, h, hcm]
  · rw [hcl, hcm, h]

/-! ## Intervals of other things -/

section

variable {α : Type*} (view : α → Interval) (ls : α → α → Bool) (step : α → List α → List α)

/-- A list sorted, and swept from its first element on. -/
def mergeBy (l : List α) : List α :=
  match sortSlice ls l with
  | [] => []
  | first :: rest => step first rest

theorem mergeBy_map (hle : ∀ a b, less (view a) (view b) = ls a b) (hnil : ∀ a, step a [] = [a])
    (hcons : ∀ a b l, ∃ c,
      view c = (if (view a).hi < (view b).hi then ⟨(view a).lo, (view b).hi⟩ else view a) ∧
      step a (b :: l) = if (view b).lo ≤ (view a).hi + 1 then step c l else a :: step b l)
    (l : List α) : (mergeBy ls step l).map view = merge (l.map view) := by
  have hsw : ∀ l a, (step a l).map view = sweep (view a) (l.map view) := by
    intro l
    induction l with
    | nil => intro a; rw [hnil]; rfl
    | cons b l ih =>
      intro a
      obtain ⟨c, hc, heq⟩ := hcons a b l
      rw [heq, map_cons, sweep]
      split
      · rw [ih, hc]
      · rw [map_cons, ih]
  have hso : sortSlice less (l.map view) = (sortSlice ls l).map view :=
    (map_insertionSort _ _ _ _ fun a _ b _ => by rw [hle]).symm
  rw [merge, hso, mergeBy]
  cases sortSlice ls l with
  | nil => rfl
  | cons first rest => exact hsw rest first

end

end Interval

end Lib
