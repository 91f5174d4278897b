import Mathlib

/-!
# Covering a finite set exactly once

A list of pieces inside a finite set covers every point exactly once if and only if the pieces are
pairwise disjoint and their sizes add up to the size of the set: a check on pairs and one sum in
place of a check on points. Both directions are one double count of the pairs (piece, point in it).
-/

namespace Lib

variable {α : Type*} [DecidableEq α]

/-- How many pieces of a list hold a point. -/
def holding (l : List (Finset α)) (x : α) : Nat := l.countP (x ∈ ·)

theorem holding_cons (s : Finset α) (l : List (Finset α)) (x : α) :
    holding (s :: l) x = holding l x + if x ∈ s then 1 else 0 := by
  simp [holding, List.countP_cons]

theorem sum_card_eq (l : List (Finset α)) (total : Finset α) (hsu : ∀ s ∈ l, s ⊆ total) :
    (l.map Finset.card).sum = ∑ x ∈ total, holding l x := by
  induction l with
  | nil => simp [holding]
  | cons s l ih =>
    have hs : s.card = ∑ x ∈ total, if x ∈ s then 1 else 0 := by
      rw [← Finset.card_filter, Finset.filter_mem_eq_inter,
        Finset.inter_eq_right.mpr (hsu s List.mem_cons_self)]
    rw [List.map_cons, List.sum_cons, ih fun t ht => hsu t (List.mem_cons_of_mem _ ht), hs,
      ← Finset.sum_add_distrib]
    exact Finset.sum_congr rfl fun x _ => by rw [holding_cons, Nat.add_comm]

theorem holding_le_one {l : List (Finset α)} (hd : l.Pairwise Disjoint) (x : α) :
    holding l x ≤ 1 := by
  induction l with
  | nil => simp [holding]
  | cons s l ih =>
    obtain ⟨hs, hl⟩ := List.pairwise_cons.mp hd
    rw [holding_cons]
    split
    case isTrue hx =>
      have hno : holding l x = 0 := List.countP_eq_zero.mpr fun t ht hxt =>
          Finset.disjoint_left.mp (hs t ht) hx (of_decide_eq_true hxt)
      omega
    case isFalse => exact ih hl

theorem pairwise_disjoint_of_holding {l : List (Finset α)} (h : ∀ x, holding l x ≤ 1) :
    l.Pairwise Disjoint := by
  induction l with
  | nil => exact .nil
  | cons s l ih =>
    simp only [holding_cons] at h
    refine List.pairwise_cons.mpr ⟨fun t ht => ?_, ih fun x => ?_⟩
    · rw [Finset.disjoint_left]
      intro x hs hxt
      have hp : 0 < holding l x := List.countP_pos_iff.mpr ⟨t, ht, decide_eq_true hxt⟩
      have ho := h x
      rw [if_pos hs] at ho
      omega
    · have ho := h x
      omega

/-- **Exactly once means disjoint and of the right size.** -/
theorem exact_cover_iff {l : List (Finset α)} {total : Finset α} (hsu : ∀ s ∈ l, s ⊆ total) :
    (l.Pairwise Disjoint ∧ (l.map Finset.card).sum = total.card) ↔
      ∀ x ∈ total, holding l x = 1 := by
  rw [sum_card_eq l total hsu, Finset.card_eq_sum_ones]
  constructor
  · rintro ⟨hd, hsum⟩
    exact (Finset.sum_eq_sum_iff_of_le fun x _ => holding_le_one hd x).mp hsum
  · intro ho
    refine ⟨pairwise_disjoint_of_holding fun x => ?_, Finset.sum_congr rfl ho⟩
    by_cases hx : x ∈ total
    · exact (ho x hx).le
    · have hno : holding l x = 0 :=
        List.countP_eq_zero.mpr fun s hs hxs => hx (hsu s hs (of_decide_eq_true hxs))
      omega

end Lib
