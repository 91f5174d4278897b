import Perimeterd.Lib.Result
import Perimeterd.Policy.Model

/-!
# Dynamic projections

`internal/firewall/dynamic.go`. A list of timed prefixes may authorize a native change only when it
passes `validateDynamic`. The check sorts and then looks at neighbours only; `validateDynamic_iff`
says that this is enough: it accepts exactly the lists of masked prefixes with non-zero deadlines of
which no two overlap.
-/

namespace Perimeterd.Firewall

open Lib Policy List

/-- Prefixes by address and then by length. -/
def comparePrefixes (p q : Prefix) : Ordering :=
  (p.addr.compare q.addr).then (compare p.bits q.bits)

/-- The comparison of `ValidateDynamic`. -/
def timedCompare (a b : TimedPrefix) : Ordering :=
  (a.pfx.addr.compare b.pfx.addr).then (compare a.pfx.bits b.pfx.bits)

def isSorted : List TimedPrefix → Bool
  | a :: b :: rest => timedCompare b a ≠ .lt && isSorted (b :: rest)
  | _ => true

/-- Some prefix overlaps the one after it. -/
def overlapsNext : List TimedPrefix → Bool
  | a :: b :: rest => a.pfx.overlaps b.pfx || overlapsNext (b :: rest)
  | _ => false

def validateTimed : List TimedPrefix → Except String Unit
  | [] => .ok ()
  | value :: rest =>
      if ¬ value.pfx.Masked then
        .error "firewall dynamic projection contains an invalid canonical prefix"
      else if value.deadline = 0 then
        .error "firewall dynamic projection requires an absolute deadline"
      else validateTimed rest

def validateDynamic (values : List TimedPrefix) : Except String Unit := do
  validateTimed values
  let ordered :=
    if isSorted values then values
    else sortSlice (fun a b => timedCompare a b = .lt) values
  if overlapsNext ordered then
    .error "firewall dynamic projection contains overlapping prefixes"
  else .ok ()

/-! ## What is accepted -/

theorem validateTimed_iff {vs : List TimedPrefix} :
    validateTimed vs = .ok () ↔ ∀ v ∈ vs, v.pfx.Masked ∧ v.deadline ≠ 0 := by
  induction vs with
  | nil => simp [validateTimed]
  | cons v rest ih =>
    rw [validateTimed, ite_throw_eq_ok, ite_throw_eq_ok, not_not, ih]
    simp [and_assoc]

theorem comparePrefixes_lt {p q : Prefix} : comparePrefixes p q = .lt ↔ p.key < q.key := by
  rw [comparePrefixes, Ordering.then_eq_lt, Addr.compare_lt, Addr.compare_eq, Nat.compare_eq_eq,
    Nat.compare_eq_lt, Prefix.key_lt]

theorem point_le_of_compare {a b : TimedPrefix} (h : timedCompare b a ≠ .lt) :
    a.pfx.addr.point ≤ b.pfx.addr.point :=
  Prefix.point_le_of_key (not_lt.mp (comparePrefixes_lt.not.mp h))

theorem isSorted_spec : ∀ {vs : List TimedPrefix}, isSorted vs = true →
    vs.IsChain fun a b => a.pfx.addr.point ≤ b.pfx.addr.point
  | [], _ => List.IsChain.nil
  | [_], _ => List.IsChain.singleton _
  | a :: b :: rest, h => by
    rw [isSorted, Bool.and_eq_true, decide_eq_true_eq] at h
    exact List.IsChain.cons_cons (point_le_of_compare h.1) (isSorted_spec h.2)

theorem sorted_spec (vs : List TimedPrefix) :
    (sortSlice (fun a b => decide (timedCompare a b = .lt)) vs).IsChain
      fun a b => a.pfx.addr.point ≤ b.pfx.addr.point := by
  refine List.Pairwise.isChain ?_
  exact (sortSlice_sorted (·.pfx.key) (fun _ _ => decide_eq_true_iff.trans comparePrefixes_lt)
    vs).imp Prefix.point_le_of_key

theorem overlapsNext_spec : ∀ {vs : List TimedPrefix}, (∀ v ∈ vs, v.pfx.Masked) →
    vs.IsChain (fun a b => a.pfx.addr.point ≤ b.pfx.addr.point) →
      overlapsNext vs = false → vs.IsChain fun a b => a.pfx.block.Before b.pfx.block
  | [], _, _, _ => List.IsChain.nil
  | [_], _, _, _ => List.IsChain.singleton _
  | a :: b :: rest, hm, hs, hno => by
    rw [isChain_cons_cons] at hs
    rw [overlapsNext, Bool.or_eq_false_iff] at hno
    have ha := (hm a mem_cons_self).point
    have hb := (hm b (mem_cons_of_mem _ mem_cons_self)).point
    have ih := overlapsNext_spec (fun v hv => hm v (mem_cons_of_mem _ hv)) hs.2 hno.2
    refine List.IsChain.cons_cons ?_ ih
    obtain ⟨h₁, h₂⟩ : ¬ a.pfx.block ⊆ b.pfx.block ∧ ¬ b.pfx.block ⊆ a.pfx.block := by
      rw [← not_or, ← Prefix.overlaps_iff, hno.1]
      simp
    rcases Block.nested_or_apart a.pfx.block b.pfx.block with h | h | h | h
    · exact absurd h h₁
    · exact absurd h h₂
    · exact h
    · have := b.pfx.block.lo_lt_hi
      unfold Block.Before at h
      omega

theorem overlapsNext_of_apart : ∀ {vs : List TimedPrefix},
    (vs.Pairwise fun a b => a.pfx.overlaps b.pfx = false) → overlapsNext vs = false
  | [], _ => rfl
  | [_], _ => rfl
  | a :: b :: rest, h => by
    rw [pairwise_cons] at h
    rw [overlapsNext, h.1 b mem_cons_self, overlapsNext_of_apart h.2]
    rfl

/-- What `validateDynamic` accepts: masked prefixes with deadlines, no two of which overlap. -/
structure Acceptable (values : List TimedPrefix) : Prop where
  masked : ∀ v ∈ values, v.pfx.Masked
  deadline : ∀ v ∈ values, v.deadline ≠ 0
  apart : values.Pairwise fun a b => a.pfx.overlaps b.pfx = false

theorem ordered_spec (vs : List TimedPrefix) :
    ∃ ordered, (if isSorted vs then vs
        else sortSlice (fun a b => decide (timedCompare a b = .lt)) vs) = ordered ∧
      ordered.Perm vs ∧
      ordered.IsChain fun a b => a.pfx.addr.point ≤ b.pfx.addr.point := by
  by_cases hs : isSorted vs = true
  · exact ⟨vs, if_pos hs, List.Perm.refl _, isSorted_spec hs⟩
  · exact ⟨_, if_neg hs, sortSlice_perm _ vs, sorted_spec vs⟩

/-- **The adjacent scan decides disjointness of the whole list.** -/
theorem validateDynamic_iff {values : List TimedPrefix} :
    validateDynamic values = .ok () ↔ Acceptable values := by
  obtain ⟨ordered, heq, hp, hc⟩ := ordered_spec values
  have hsy : Std.Symm fun a b : TimedPrefix => a.pfx.overlaps b.pfx = false :=
    ⟨fun a b h => by rwa [Prefix.overlaps_comm]⟩
  have hsc : (∀ v ∈ values, v.pfx.Masked) → (overlapsNext ordered = false ↔
      values.Pairwise fun a b => a.pfx.overlaps b.pfx = false) := by
    intro hm
    have hm' : ∀ v ∈ ordered, v.pfx.Masked := fun v hv => hm v (hp.mem_iff.mp hv)
    rw [← hp.pairwise_iff fun h => hsy.symm _ _ h]
    constructor
    · intro hno
      have htr : IsTrans TimedPrefix fun a b => a.pfx.block.Before b.pfx.block :=
        ⟨fun _ _ _ => Block.Before.trans⟩
      have hbe := isChain_iff_pairwise.mp (overlapsNext_spec hm' hc hno)
      exact hbe.imp Prefix.overlaps_of_before
    · exact overlapsNext_of_apart
  rw [validateDynamic, bind_eq_ok]
  simp only [heq]
  constructor
  · rintro ⟨⟨⟩, hti, hrest⟩
    rw [ite_throw_eq_ok] at hrest
    have hm : ∀ v ∈ values, v.pfx.Masked := fun v hv => (validateTimed_iff.mp hti v hv).1
    exact ⟨hm, fun v hv => (validateTimed_iff.mp hti v hv).2,
      (hsc hm).mp (by simpa using hrest.1)⟩
  · intro h
    refine ⟨(), validateTimed_iff.mpr fun v hv => ⟨h.masked v hv, h.deadline v hv⟩, ?_⟩
    rw [(hsc h.masked).mpr h.apart]
    rfl

theorem validateDynamic_pairwise {values : List TimedPrefix}
    (h : ∀ v ∈ values, v.pfx.Masked ∧ v.deadline ≠ 0) : validateDynamic values = .ok () ↔
      values.Pairwise fun a b => a.pfx.overlaps b.pfx = false := by
  rw [validateDynamic_iff]
  exact ⟨Acceptable.apart, fun ha => ⟨fun v hv => (h v hv).1, fun v hv => (h v hv).2, ha⟩⟩

theorem validateDynamic_mapped :
    validateDynamic [⟨⟨.v6 0 0 0 0 0 0xFFFF 0x0A00 0, 104, by decide⟩, 7⟩, ⟨.v4 10 0 0 0 8, 7⟩] =
        .ok () ∧
      ¬ validateDynamic [⟨.v4 10 0 0 0 8, 7⟩, ⟨.v6 0 0 0 0, 5⟩, ⟨.v4 10 1 0 0 16, 9⟩] = .ok () := by
  constructor
  · exact (validateDynamic_pairwise (by decide)).mpr (by decide)
  · exact (validateDynamic_pairwise (by decide)).not.mpr (by decide)

end Perimeterd.Firewall
