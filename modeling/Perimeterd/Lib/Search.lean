import Mathlib

/-!
# Binary search and sorting, as the Go standard library does them

Two facts about the standard library carry most of the list reasoning downstream, and both are
stated here once, over arbitrary types.

* `search` is `sort.Search`: the **actual** bisection, not its documented answer. It is defined
  for every predicate, monotone or not, so a model that calls it on a list that turns out to be
  unsorted still computes what the program computes. `search_spec` is the documented reading,
  under the documented hypothesis.
* `sortSlice` is `sort.Slice` / `sort.SliceStable` driven by a `less` function. Insertion sort is
  used because it is structurally recursive (so a witness can evaluate it) and stable; where ties
  are not equal elements the results below only use "a sorted permutation".
-/

namespace Lib

open List

/-! ## Bisection -/

/-- The loop of `sort.Search`: `i` and `j` bracket the answer, `fuel` bounds the halvings. -/
def searchLoop (f : Nat → Bool) : Nat → Nat → Nat → Nat
  | 0, i, _ => i
  | fuel + 1, i, j =>
      if i < j then
        let h := (i + j) / 2
        if f h then searchLoop f fuel i h else searchLoop f fuel (h + 1) j
      else i

def search (n : Nat) (f : Nat → Bool) : Nat := searchLoop f n 0 n

variable {α : Type*} {l : List α} {p : α → Bool}

theorem searchLoop_spec {f : Nat → Bool} {n : Nat}
    (hmo : ∀ i j, i ≤ j → j < n → f i = true → f j = true) :
    ∀ (fuel i j : Nat), j - i ≤ fuel → i ≤ j → j ≤ n →
      (∀ k, k < i → f k = false) → (∀ k, j ≤ k → k < n → f k = true) →
      searchLoop f fuel i j ≤ n ∧
        (∀ k, k < searchLoop f fuel i j → f k = false) ∧
        (∀ k, searchLoop f fuel i j ≤ k → k < n → f k = true) := by
  intro fuel
  induction fuel with
  | zero =>
    intro i j hf hij hjn hlo hhi
    have : i = j := by omega
    subst this
    exact ⟨hjn, hlo, hhi⟩
  | succ fuel ih =>
    intro i j hf hij hjn hlo hhi
    by_cases hlt : i < j
    · simp only [searchLoop, if_pos hlt]
      cases hm : f ((i + j) / 2) with
      | true =>
        simp only [if_true]
        refine ih i ((i + j) / 2) (by omega) (by omega) (by omega) hlo fun k hk hkn => ?_
        exact hmo _ _ hk hkn hm
      | false =>
        simp only [Bool.false_eq_true, if_false]
        refine ih ((i + j) / 2 + 1) j (by omega) (by omega) hjn (fun k hk => ?_) hhi
        -- a `true` below the midpoint would have propagated up to it
        cases hk' : f k with
        | false => rfl
        | true =>
          have := hmo k ((i + j) / 2) (by omega) (by omega) hk'
          rw [hm] at this
          cases this
    · have : i = j := by omega
      subst this
      simp only [searchLoop, if_neg hlt]
      exact ⟨hjn, hlo, hhi⟩

/-- **`sort.Search` finds the boundary of a monotone predicate**: everything below the answer
fails it, everything from the answer on satisfies it. -/
theorem search_spec {f : Nat → Bool} {n : Nat}
    (hmo : ∀ i j, i ≤ j → j < n → f i = true → f j = true) :
    search n f ≤ n ∧ (∀ k, k < search n f → f k = false) ∧
      (∀ k, search n f ≤ k → k < n → f k = true) :=
  searchLoop_spec hmo n 0 n (by omega) (by omega) le_rfl (fun k hk => absurd hk (by omega))
    fun k hk hkn => absurd hkn (by omega)

/-- `sort.Search(len(l), func(i) { return p(l[i]) })`. -/
def searchIn {α : Type*} (l : List α) (p : α → Bool) : Nat :=
  search l.length fun i => (l[i]?).any p

theorem searchLoop_le (f : Nat → Bool) : ∀ (fuel i j : Nat), i ≤ j → searchLoop f fuel i j ≤ j := by
  intro fuel
  induction fuel with
  | zero => intro i j h; exact h
  | succ fuel ih =>
    intro i j h
    rw [searchLoop]
    split
    · dsimp only
      split
      · exact le_trans (ih i _ (by omega)) (by omega)
      · exact ih _ j (by omega)
    · exact h

theorem searchIn_le_length (l : List α) (p : α → Bool) : searchIn l p ≤ l.length :=
  searchLoop_le _ _ _ _ (Nat.zero_le _)

section

variable (hmo : l.Pairwise fun a b => p a = true → p b = true)

include hmo

theorem searchIn_eq_length_takeWhile : searchIn l p = (l.takeWhile fun a => !p a).length := by
  have hm : ∀ i j, i ≤ j → j < l.length → (l[i]?).any p = true → (l[j]?).any p = true := by
    intro i j hij hj hi
    rcases Nat.lt_or_eq_of_le hij with hlt | rfl
    · have hi' : i < l.length := by omega
      rw [List.getElem?_eq_getElem hi', Option.any_some] at hi
      rw [List.getElem?_eq_getElem hj, Option.any_some]
      exact pairwise_iff_getElem.mp hmo i j hi' hj hlt hi
    · exact hi
  obtain ⟨hle, hbe, hab⟩ := search_spec hm
  change searchIn l p ≤ l.length at hle
  change ∀ k, k < searchIn l p → (l[k]?).any p = false at hbe
  change ∀ k, searchIn l p ≤ k → k < l.length → (l[k]?).any p = true at hab
  have hta : l.take (searchIn l p) = l.takeWhile fun a => !p a := by
    conv_rhs => rw [← take_append_drop (searchIn l p) l]
    rw [takeWhile_append_of_pos]
    · cases hd : l.drop (searchIn l p) with
      | nil => simp
      | cons a rest =>
        have hlt : searchIn l p < l.length := by
          by_contra hge
          rw [drop_eq_nil_of_le (by omega)] at hd
          cases hd
        have ha : a = l[searchIn l p] := by
          have := drop_eq_getElem_cons hlt
          rw [hd] at this
          exact (List.cons.inj this).1
        have hp := hab _ le_rfl hlt
        rw [List.getElem?_eq_getElem hlt, Option.any_some, ← ha] at hp
        simp [hp]
    · intro a ha
      obtain ⟨k, hk, rfl⟩ := mem_iff_getElem.mp ha
      rw [length_take] at hk
      have hp := hbe k (by omega)
      rw [List.getElem?_eq_getElem (by omega), Option.any_some] at hp
      rw [getElem_take, hp]
      rfl
  rw [← hta, length_take]
  omega

theorem take_searchIn : l.take (searchIn l p) = l.takeWhile fun a => !p a := by
  rw [searchIn_eq_length_takeWhile hmo]
  conv_lhs =>
    rw [← takeWhile_append_dropWhile (p := fun a => !p a) (l := l)]
  rw [take_left']
  rw [takeWhile_append_dropWhile]

theorem drop_searchIn : l.drop (searchIn l p) = l.dropWhile fun a => !p a := by
  rw [searchIn_eq_length_takeWhile hmo]
  conv_lhs =>
    rw [← takeWhile_append_dropWhile (p := fun a => !p a) (l := l)]
  rw [drop_left']
  rw [takeWhile_append_dropWhile]

theorem not_of_mem_take_searchIn
    {a : α} (ha : a ∈ l.take (searchIn l p)) : p a = false := by
  rw [take_searchIn hmo] at ha
  simpa using mem_takeWhile_imp ha

theorem of_mem_drop_searchIn
    {a : α} (ha : a ∈ l.drop (searchIn l p)) : p a = true := by
  rw [drop_searchIn hmo] at ha
  have hs : (l.dropWhile fun a => !p a).Pairwise fun a b => p a = true → p b = true :=
    hmo.sublist (dropWhile_sublist _)
  cases hd : l.dropWhile fun a => !p a with
  | nil => rw [hd] at ha; cases ha
  | cons b rest =>
    have hb : p b = true := by
      have := head_dropWhile_not (fun a => !p a) (l := l) (by rw [hd]; simp)
      simpa [hd] using this
    rw [hd] at ha hs
    rcases mem_cons.mp ha with rfl | ha
    · exact hb
    · exact (pairwise_cons.mp hs).1 a ha hb

end

theorem window_eq_filter {q : α → Bool} (hp : l.Pairwise fun a b => p a = true → p b = true)
    (hq : l.Pairwise fun a b => q a = true → q b = true) :
    (l.take (searchIn l q)).drop (searchIn l p) = l.filter fun a => p a && !q a := by
  have hsp : l = (l.take (searchIn l q)).take (searchIn l p) ++
      ((l.take (searchIn l q)).drop (searchIn l p) ++ l.drop (searchIn l q)) := by
    rw [← append_assoc, take_append_drop, take_append_drop]
  conv_rhs => rw [hsp]
  rw [filter_append, filter_append]
  have h₁ : ((l.take (searchIn l q)).take (searchIn l p)).filter (fun a => p a && !q a) = [] := by
    refine filter_eq_nil_iff.mpr fun a ha => ?_
    rw [take_take] at ha
    have hmem : a ∈ l.take (searchIn l p) := take_subset_take_left _ (Nat.min_le_left _ _) ha
    simp [not_of_mem_take_searchIn hp hmem]
  have h₂ : (l.drop (searchIn l q)).filter (fun a => p a && !q a) = [] := by
    refine filter_eq_nil_iff.mpr fun a ha => ?_
    simp [of_mem_drop_searchIn hq ha]
  have h₃ : ((l.take (searchIn l q)).drop (searchIn l p)).filter (fun a => p a && !q a) =
      (l.take (searchIn l q)).drop (searchIn l p) := by
    refine filter_eq_self.mpr fun a ha => ?_
    have hq' := not_of_mem_take_searchIn hq (mem_of_mem_drop ha)
    rw [drop_take] at ha
    have hp' := of_mem_drop_searchIn hp (mem_of_mem_take ha)
    simp [hp', hq']
  rw [h₁, h₂, h₃, nil_append, append_nil]

theorem searchIn_le_searchIn {q : α → Bool} (hp : l.Pairwise fun a b => p a = true → p b = true)
    (hq : l.Pairwise fun a b => q a = true → q b = true)
    (him : ∀ a ∈ l, q a = true → p a = true) : searchIn l p ≤ searchIn l q := by
  by_contra hlt
  have hql : searchIn l q < l.length := by
    rw [searchIn_eq_length_takeWhile hp] at hlt
    have hle := (takeWhile_sublist (p := fun a => !p a) (l := l)).length_le
    omega
  have hmem : l[searchIn l q] ∈ l.drop (searchIn l q) := mem_drop_iff_getElem.mpr ⟨0, by omega, rfl⟩
  have htr := him _ (getElem_mem hql) (of_mem_drop_searchIn hq hmem)
  have hm' : l[searchIn l q] ∈ l.take (searchIn l p) :=
    mem_take_iff_getElem.mpr ⟨searchIn l q, by omega, rfl⟩
  rw [not_of_mem_take_searchIn hp hm'] at htr
  cases htr

/-! ## Sorting by a `less` function -/

/-- `sort.Slice(l, less)`: `a` may stand before `b` unless `b` is less. -/
def sortSlice {α : Type*} (less : α → α → Bool) (l : List α) : List α :=
  l.insertionSort fun a b => less b a = false

theorem sortSlice_perm (less : α → α → Bool) (l : List α) : (sortSlice less l).Perm l :=
  perm_insertionSort _ l

@[simp] theorem mem_sortSlice {less : α → α → Bool} {a : α} : a ∈ sortSlice less l ↔ a ∈ l :=
  (sortSlice_perm less l).mem_iff

@[simp] theorem length_sortSlice (less : α → α → Bool) (l : List α) :
    (sortSlice less l).length = l.length :=
  (sortSlice_perm less l).length_eq

theorem sortSlice_sorted {κ : Type*} [LinearOrder κ] (key : α → κ) {less : α → α → Bool}
    (h : ∀ a b, less a b = true ↔ key a < key b) (l : List α) :
    (sortSlice less l).Pairwise fun a b => key a ≤ key b := by
  have hle : ∀ a b, less b a = false ↔ key a ≤ key b := fun a b => by
    rw [← Bool.not_eq_true, h, not_lt]
  have : Std.Total (fun a b : α => less b a = false) :=
    ⟨fun a b => by rw [hle, hle]; exact le_total _ _⟩
  have : IsTrans α (fun a b : α => less b a = false) :=
    ⟨fun a b c h₁ h₂ => (hle a c).mpr (((hle a b).mp h₁).trans ((hle b c).mp h₂))⟩
  exact (pairwise_insertionSort _ l).imp fun {a b} => (hle a b).mp

theorem takeWhile_eq_filter {q : α → Bool} (h : l.Pairwise fun a b => q b = true → q a = true) :
    l.takeWhile q = l.filter q ∧ l.dropWhile q = l.filter (fun a => !q a) := by
  induction l with
  | nil => exact ⟨rfl, rfl⟩
  | cons a l ih =>
    rw [pairwise_cons] at h
    obtain ⟨ht, hd⟩ := ih h.2
    cases hq : q a with
    | true => simp [hq, ht, hd]
    | false =>
      have hno : ∀ b ∈ l, q b = false := by
        intro b hb
        by_contra hne
        rw [Bool.not_eq_false] at hne
        rw [h.1 b hb hne] at hq
        cases hq
      have hrest : l.filter (fun a => !q a) = l :=
        filter_eq_self.mpr fun b hb => by rw [hno b hb]; rfl
      refine ⟨?_, ?_⟩
      · rw [takeWhile_cons, filter_cons, hq]
        simpa using hno
      · rw [dropWhile_cons, filter_cons, hq, hrest]
        simp

theorem head?_eq_argmin {β : Type*} [DecidableEq α] [LinearOrder β] {l' : List α} {f : α → β}
    (hp : l'.Perm l) (hso : l'.Pairwise fun a b => f a < f b) : l'.head? = l.argmin f := by
  cases l' with
  | nil => rw [nil_perm.mp hp]; rfl
  | cons m rest =>
    rw [pairwise_cons] at hso
    have hmi : ∀ a ∈ l, a = m ∨ f m < f a := by
      intro a ha
      rcases mem_cons.mp (hp.mem_iff.mpr ha) with rfl | ha
      · exact .inl rfl
      · exact .inr (hso.1 a ha)
    refine (argmin_eq_some_iff.mpr ⟨hp.mem_iff.mp mem_cons_self, ?_, ?_⟩).symm
    · intro a ha
      rcases hmi a ha with rfl | h
      · exact le_rfl
      · exact h.le
    · intro a ha hle
      rcases hmi a ha with rfl | h
      · exact le_rfl
      · exact absurd hle (not_le.mpr h)

end Lib
