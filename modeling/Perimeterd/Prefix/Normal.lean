import Perimeterd.Prefix.Set

/-!
# Normal forms

`canonicalize` looks at each candidate once and compares it with the last prefix it kept. What it keeps
is nevertheless described without the scan: **the prefixes that lie in no larger one of the list**
(`mem_canonicalize`). A canonical list is determined by its members, so the normal form depends on
which prefixes are given and not on their order or number, and it is its own normal form.

The second half says of `Set` what a caller relies on, with no reference to the line of addresses:
every set is sorted, masked and disjoint, its bisection is linear search, and the operations are the
set operations.
-/

namespace Perimeterd

open Lib List

namespace Prefix

/-! ## What the scan keeps -/

variable {l : List Prefix}

theorem keepUncovered_holds {last : Prefix} (hl : last.Masked)
    (hm : ∀ p ∈ l, p.Masked) (hs : (last :: l).Pairwise fun p q => less q p = false) :
    ∀ p ∈ l, ∃ r ∈ last :: keepUncovered (some last) l, p.block ⊆ r.block := by
  induction l generalizing last with
  | nil => nofun
  | cons c rest ih =>
    have hc : c.Masked := hm c mem_cons_self
    have hmr : ∀ p ∈ rest, p.Masked := fun p hp => hm p (mem_cons_of_mem _ hp)
    obtain ⟨hfirst, hrest⟩ := pairwise_cons.mp hs
    have hle : less c last = false := hfirst c mem_cons_self
    intro p hp
    rw [keepUncovered]
    cases hco : last.contains c.addr with
    | true =>
      simp only [Option.any_some, hco, if_true]
      rcases mem_cons.mp hp with rfl | hp
      · exact ⟨last, mem_cons_self, subset_of_less hl hc hle hco⟩
      · refine ih hl hmr (pairwise_cons.mpr ⟨fun q hq => ?_, ?_⟩) p hp
        · exact hfirst q (mem_cons_of_mem _ hq)
        · exact (pairwise_cons.mp hrest).2
    | false =>
      simp only [Option.any_some, hco, Bool.false_eq_true, if_false]
      rcases mem_cons.mp hp with rfl | hp
      · exact ⟨_, mem_cons_of_mem _ mem_cons_self, fun _ h => h⟩
      · obtain ⟨r, hr, hsu⟩ := ih hc hmr hrest p hp
        exact ⟨r, mem_cons_of_mem _ hr, hsu⟩

theorem canonicalize_subset {p : Prefix} (h : p ∈ canonicalize l) : p ∈ l :=
  mem_sortSlice.mp ((keepUncovered_sublist none _).subset h)

theorem canonicalize_holds (hm : ∀ p ∈ l, p.Masked) {p : Prefix} (hp : p ∈ l) :
    ∃ r ∈ canonicalize l, p.block ⊆ r.block := by
  have hms : ∀ q ∈ sortSlice less l, q.Masked := fun q hq => hm q (mem_sortSlice.mp hq)
  have hin : p ∈ sortSlice less l := mem_sortSlice.mpr hp
  have hso := sorted_by_less l
  unfold canonicalize
  cases hl : sortSlice less l with
  | nil =>
    rw [hl] at hin
    cases hin
  | cons c rest =>
    rw [hl] at hms hso hin
    have hst : keepUncovered none (c :: rest) = c :: keepUncovered (some c) rest := by
      simp [keepUncovered]
    rw [hst]
    rcases mem_cons.mp hin with rfl | hin
    · exact ⟨p, mem_cons_self, fun _ h => h⟩
    · exact keepUncovered_holds (hms c mem_cons_self)
        (fun q hq => hms q (mem_cons_of_mem _ hq)) hso p hin

/-- **What `canonicalize` keeps**: the prefixes that lie in no other. -/
theorem mem_canonicalize (hm : ∀ p ∈ l, p.Masked) {p : Prefix} :
    p ∈ canonicalize l ↔ p ∈ l ∧ ∀ q ∈ l, p.block ⊆ q.block → p = q := by
  have hc := (canonicalize_spec hm).1
  constructor
  · intro hp
    refine ⟨canonicalize_subset hp, fun q hq hsu => ?_⟩
    obtain ⟨r, hr, hqr⟩ := canonicalize_holds hm hq
    have hpr : p = r := hc.unique hp hr p.contains_addr
      (contains_iff.mpr (hqr _ (hsu _ p.addr_mem)))
    rw [← hpr] at hqr
    exact eq_of_block (hc.masked p hp) (hm q hq) (Block.subset_antisymm hsu hqr)
  · rintro ⟨hp, hl⟩
    obtain ⟨r, hr, hsu⟩ := canonicalize_holds hm hp
    rw [hl r (canonicalize_subset hr) hsu]
    exact hr

theorem Canonical.eq_of_mem_iff {m : List Prefix} (hl : Canonical l) (hm : Canonical m)
    (h : ∀ p, p ∈ l ↔ p ∈ m) : l = m := by
  have han : Std.Antisymm fun p q : Prefix => p.block.Before q.block := ⟨fun p q hpq hqp => by
    have hp := p.block.lo_lt_hi
    have hq := q.block.lo_lt_hi
    unfold Block.Before at hpq hqp
    omega⟩
  have hir : Std.Irrefl fun p q : Prefix => p.block.Before q.block := ⟨fun p h => by
    have hp := p.block.lo_lt_hi
    unfold Block.Before at h
    omega⟩
  exact hl.tidy.eq_of_mem_iff hm.tidy h

theorem canonicalize_congr {m : List Prefix} (hl : ∀ p ∈ l, p.Masked)
    (h : ∀ p, p ∈ l ↔ p ∈ m) : canonicalize l = canonicalize m := by
  have hm : ∀ p ∈ m, p.Masked := fun p hp => hl p ((h p).mpr hp)
  refine (canonicalize_spec hl).1.eq_of_mem_iff (canonicalize_spec hm).1 fun p => ?_
  rw [mem_canonicalize hl, mem_canonicalize hm, h p]
  exact and_congr_right fun _ => forall_congr' fun q => by rw [h q]

theorem canonicalize_of_canonical (h : Canonical l) : canonicalize l = l := by
  refine (canonicalize_spec h.masked).1.eq_of_mem_iff h fun p => ?_
  rw [mem_canonicalize h.masked]
  refine and_iff_left_of_imp fun hp q hq hsu => ?_
  exact h.unique hp hq p.contains_addr (contains_iff.mpr (hsu _ p.addr_mem))

/-! ## `Normalize` of valid prefixes -/

theorem maskAll_valid (ps : List Prefix) : ∀ i, maskAll i (ps.map .valid) = .ok (ps.map masked) := by
  induction ps with
  | nil => intro i; rfl
  | cons p rest ih =>
    intro i
    rw [map_cons, maskAll, validate, ih (i + 1)]
    rfl

theorem normalize_valid (ps : List Prefix) :
    normalize (ps.map .valid) = .ok (canonicalize (ps.map masked)) := by
  rw [normalize, maskAll_valid]

theorem masked_of_mem_map {ps : List Prefix} : ∀ p ∈ ps.map masked, p.Masked := by
  intro p hp
  obtain ⟨q, -, rfl⟩ := mem_map.mp hp
  exact q.masked_masked

/-! ## In the order of the source -/

theorem Canonical.sorted (h : Canonical l) : l.Pairwise fun p q => less p q = true :=
  h.tidy.imp fun hbe => less_iff.mpr (.inl (point_lt_of_before hbe))

theorem Canonical.disjoint (h : Canonical l) : l.Pairwise fun p q => p.overlaps q = false :=
  h.tidy.imp overlaps_of_before

/-! ## Sets -/

namespace Set

structure Sound (s : Set) : Prop where
  masked : ∀ p ∈ s.prefixes, p.Masked
  sorted : s.prefixes.Pairwise fun p q => less p q = true
  disjoint : s.prefixes.Pairwise fun p q => p.overlaps q = false
  searched : ∀ a, s.contains a = s.prefixes.any (·.contains a)
  ipv4 : ∀ a, s.ipv4.contains a = (s.contains a && a.is4)
  ipv6 : ∀ a, s.ipv6.contains a = (s.contains a && !a.is4)

theorem contains_eq_any (s : Set) (a : Addr) : s.contains a = s.prefixes.any (·.contains a) := by
  rw [Bool.eq_iff_iff, contains_iff_mem, any_eq_true]
  rfl

theorem view_contains (s : Set) (f : Family) (a : Addr) :
    (s.view f).contains a = (s.contains a && a.family = f) := by
  rw [Bool.eq_iff_iff, contains_iff_mem, mem_view, Bool.and_eq_true, contains_iff_mem,
    decide_eq_true_eq]

theorem sound (s : Set) : Sound s where
  masked := s.canonical.masked
  sorted := s.canonical.sorted
  disjoint := s.canonical.disjoint
  searched := s.contains_eq_any
  ipv4 a := s.view_contains .ipv4 a
  ipv6 a := by
    refine (s.view_contains .ipv6 a).trans ?_
    cases hf : a.family <;> simp [Addr.is4, hf]

/-- **The set operations are exact, and their results are sets again.** `Difference` holds the
addresses of the first set that the second does not hold, `Union` those that some set holds; both come
out sorted by family and address, masked and disjoint, which is what `Contains`, the family views and
the next operation need. -/
theorem operations_exact :
    (∀ inc exc : Set, Sound (difference inc exc) ∧
      ∀ a, (difference inc exc).contains a = (inc.contains a && !exc.contains a)) ∧
    ∀ sets : List Set, Sound (union sets) ∧
      ∀ a, (union sets).contains a = sets.any (·.contains a) := by
  refine ⟨fun inc exc => ⟨sound _, fun a => ?_⟩, fun sets => ⟨sound _, fun a => ?_⟩⟩
  · rw [Bool.eq_iff_iff, contains_iff_mem, mem_difference, Bool.and_eq_true, contains_iff_mem,
      Bool.not_eq_true', ← Bool.not_eq_true, contains_iff_mem]
  · rw [Bool.eq_iff_iff, contains_iff_mem, mem_union, any_eq_true]
    exact exists_congr fun s => and_congr_right fun _ => contains_iff_mem.symm

end Set

end Prefix

end Perimeterd
