import Mathlib

/-!
# Counting what a list of holders holds

A resource that is counted by reference has holders, each of which holds a list of resources. The
tally of a resource is how many times it is held altogether: the number a reference count has to be
equal to. Holders come at the end of the list and change in place, so the tally is followed through
`++` and `List.set`.
-/

namespace Lib

open List

variable {σ α : Type*} [DecidableEq α]

/-- How often the holders hold each resource. -/
def tally (held : σ → List α) (holders : List σ) (a : α) : Nat :=
  (holders.map fun h => (held h).count a).sum

variable {held : σ → List α} {holders : List σ} {a : α}

@[simp] theorem tally_append (more : List σ) :
    tally held (holders ++ more) a = tally held holders a + tally held more a := by
  simp [tally]

@[simp] theorem tally_singleton (h : σ) : tally held [h] a = (held h).count a := by
  simp [tally]

theorem tally_set {i : Nat} {old : σ} (hold : holders[i]? = some old) (new : σ) :
    tally held (holders.set i new) a + (held old).count a =
      tally held holders a + (held new).count a := by
  induction holders generalizing i with
  | nil => cases hold
  | cons h hs ih =>
    cases i with
    | zero =>
      cases hold
      simp only [tally, set_cons_zero, map_cons, sum_cons]
      omega
    | succ i =>
      have := ih hold
      simp only [tally, set_cons_succ, map_cons, sum_cons] at this ⊢
      omega

theorem tally_pos {h : σ} (hh : h ∈ holders) (ha : a ∈ held h) : 0 < tally held holders a := by
  have hc : 0 < (held h).count a := count_pos_iff.mpr ha
  have hle : (held h).count a ≤ tally held holders a :=
    le_sum_of_mem (mem_map_of_mem (f := fun h => (held h).count a) hh)
  omega

theorem tally_eq_countP (hno : ∀ h ∈ holders, (held h).Nodup) :
    tally held holders a = holders.countP fun h => decide (a ∈ held h) := by
  induction holders with
  | nil => rfl
  | cons h hs ih =>
    have hc := List.Nodup.count (a := a) (hno h mem_cons_self)
    have hrest := ih fun h hh => hno h (mem_cons_of_mem _ hh)
    simp only [tally, map_cons, sum_cons, countP_cons, decide_eq_true_eq] at hrest ⊢
    omega

end Lib
