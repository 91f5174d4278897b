import Mathlib

/-!
# Lists related element by element

A loop that maps a fallible function over a list succeeds when `List.Forall₂` relates its input and
its output. These are the ways such a relation is read: from an output element back to its input, as
an equation between what both lists have in common, and through a search that the two lists answer
at the same place.
-/

namespace Lib

open List

variable {α β γ : Type*} {R : α → β → Prop} {l : List α} {m : List β}

theorem forall₂_exists_left (h : List.Forall₂ R l m) {b : β} (hb : b ∈ m) : ∃ a ∈ l, R a b := by
  induction h with
  | nil => cases hb
  | cons hab _ ih =>
    rcases mem_cons.mp hb with rfl | hb
    · exact ⟨_, mem_cons_self, hab⟩
    · obtain ⟨a, ha, hR⟩ := ih hb
      exact ⟨a, mem_cons_of_mem _ ha, hR⟩

theorem forall₂_exists_right (h : List.Forall₂ R l m) {a : α} (ha : a ∈ l) : ∃ b ∈ m, R a b := by
  induction h with
  | nil => cases ha
  | cons hab _ ih =>
    rcases mem_cons.mp ha with rfl | ha
    · exact ⟨_, mem_cons_self, hab⟩
    · obtain ⟨b, hb, hR⟩ := ih ha
      exact ⟨b, mem_cons_of_mem _ hb, hR⟩

theorem forall₂_map_eq {f : α → γ} {g : β → γ} (h : List.Forall₂ R l m)
    (hR : ∀ a ∈ l, ∀ b, R a b → f a = g b) : l.map f = m.map g := by
  induction h with
  | nil => rfl
  | cons hab _ ih =>
    rw [map_cons, map_cons, hR _ mem_cons_self _ hab,
      ih fun a ha => hR a (mem_cons_of_mem _ ha)]

theorem forall₂_find? {p : α → Bool} {q : β → Bool} (h : List.Forall₂ R l m)
    (hpq : ∀ a ∈ l, ∀ b, R a b → p a = q b) :
    (l.find? p = none ∧ m.find? q = none) ∨
      ∃ a b, l.find? p = some a ∧ m.find? q = some b ∧ a ∈ l ∧ R a b := by
  induction h with
  | nil => exact .inl ⟨rfl, rfl⟩
  | @cons a b l m hab _ ih =>
    have hh := hpq a mem_cons_self b hab
    rw [List.find?_cons, List.find?_cons, ← hh]
    cases p a with
    | true => exact .inr ⟨a, b, rfl, rfl, mem_cons_self, hab⟩
    | false =>
      rcases ih fun a ha => hpq a (mem_cons_of_mem _ ha) with hno | ⟨a, b, ha, hb, hmem, hR⟩
      · exact .inl hno
      · exact .inr ⟨a, b, ha, hb, mem_cons_of_mem _ hmem, hR⟩

/-! ## One more at the end -/

theorem forall_mem_concat {P : α → Prop} {a : α} :
    (∀ x ∈ l ++ [a], P x) ↔ (∀ x ∈ l, P x) ∧ P a := by
  rw [forall_mem_append, forall_mem_singleton]

theorem nodup_map_concat {f : α → γ} {a : α} :
    ((l ++ [a]).map f).Nodup ↔ (l.map f).Nodup ∧ ∀ x ∈ l, f x ≠ f a := by
  simp [nodup_append]

/-! ## Places -/

theorem getElem?_set_cases {i j : Nat} {a b : α} (h : (l.set i a)[j]? = some b) :
    (j = i ∧ b = a) ∨ (j ≠ i ∧ l[j]? = some b) := by
  by_cases hj : j = i
  · subst hj
    have hlt : j < l.length := by
      simpa using (List.getElem?_eq_some_iff.mp h).1
    rw [List.getElem?_set_self hlt] at h
    exact .inl ⟨rfl, (Option.some.inj h).symm⟩
  · rw [List.getElem?_set_ne (Ne.symm hj)] at h
    exact .inr ⟨hj, h⟩

theorem getElem?_concat_cases {j : Nat} {a b : α} (h : (l ++ [a])[j]? = some b) :
    l[j]? = some b ∨ (j = l.length ∧ b = a) := by
  rcases Nat.lt_or_ge j l.length with hlt | hge
  · exact .inl ((List.getElem?_append_left hlt).symm.trans h)
  · rw [List.getElem?_append_right hge] at h
    have hlt := (List.getElem?_eq_some_iff.mp h).1
    rw [length_singleton] at hlt
    exact .inr ⟨by omega, mem_singleton.mp (mem_of_getElem? h)⟩

/-! ## Two predicates on one list -/

theorem find?_congr_mem {p q : α → Bool} (h : ∀ a ∈ l, p a = q a) : l.find? p = l.find? q := by
  induction l with
  | nil => rfl
  | cons a l ih =>
    rw [List.find?_cons, List.find?_cons, h a mem_cons_self,
      ih fun b hb => h b (mem_cons_of_mem _ hb)]

theorem any_congr_mem {p q : α → Bool} (h : ∀ a ∈ l, p a = q a) : l.any p = l.any q := by
  rw [Bool.eq_iff_iff, any_eq_true, any_eq_true]
  exact exists_congr fun a => and_congr_right fun ha => by rw [h a ha]

theorem filter_eq_singleton {p : α → Bool} (h : l.Pairwise fun a b => ¬ (p a = true ∧ p b = true))
    {a : α} (ha : a ∈ l) (hp : p a = true) : l.filter p = [a] := by
  have hno : (l.filter p).Pairwise fun _ _ => False :=
    (h.filter p).imp_of_mem fun {x y} hx hy hxy =>
      hxy ⟨(mem_filter.mp hx).2, (mem_filter.mp hy).2⟩
  have hmem : a ∈ l.filter p := mem_filter.mpr ⟨ha, hp⟩
  cases hl : l.filter p with
  | nil =>
    rw [hl] at hmem
    cases hmem
  | cons b rest =>
    rw [hl] at hno hmem
    cases rest with
    | nil => rw [mem_singleton.mp hmem]
    | cons c rest => exact ((pairwise_cons.mp hno).1 c mem_cons_self).elim

end Lib
