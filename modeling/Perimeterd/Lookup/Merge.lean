import Perimeterd.Lookup.Partition
import Perimeterd.Prefix.Range

/-!
# Putting outcomes together again

`coalesceOutcomes` and `mergePrefixes` of `internal/lookup/evaluate.go`. Outcomes that agree in
everything but their prefix are one group, and the prefixes of a group are merged: two neighbouring
halves become the prefix around them, as often as that happens.

Merging works on a stack. Its invariant (`Stacked`) says what is meant: the prefixes on the stack are
apart, hold every prefix seen so far, and hold nothing else. No two on the stack are halves of one
prefix (`Unpaired`), so the result is as short as it can be (`mergePrefixes_minimal`). `coalesced`
carries the invariant over to outcomes: what is said about an address before is said after, by one
outcome, and nothing else is.
-/

namespace Perimeterd.Lookup

open Lib Policy List

/-! ## Merging prefixes -/

def parentPrefix (p : Prefix) : Prefix :=
  (Prefix.mk p.addr (p.bits - 1) (Nat.le_trans (Nat.sub_le _ _) p.le)).masked

def siblings (left right : Prefix) : Bool :=
  left.bits ≠ 0 && left.bits = right.bits && parentPrefix right = parentPrefix left

/-- The inner loop of `mergePrefixes`, on a stack without its top. -/
def mergeTop (top : Prefix) : List Prefix → List Prefix
  | [] => [top]
  | left :: rest =>
      if siblings left top then mergeTop (parentPrefix left) rest else top :: left :: rest

/-- The body of the loop of `mergePrefixes`. The last element of `out` is in front. -/
def mergeStep (out : List Prefix) (value : Prefix) : List Prefix :=
  match out with
  | [] => [value]
  | last :: rest =>
      if last.contains value.addr && last.bits ≤ value.bits then last :: rest
      else mergeTop value (last :: rest)

def mergePrefixes (values : List Prefix) : List Prefix :=
  ((sortSlice boundaryLess values).foldl mergeStep []).reverse

variable {l r : Outcome}

theorem parentPrefix_masked (p : Prefix) : (parentPrefix p).Masked := Prefix.masked_masked _

theorem parentPrefix_block {p : Prefix} (h : p.bits ≠ 0) : (parentPrefix p).block = p.block.parent := by
  have hexp : p.addr.family.width - (p.bits - 1) = p.host + 1 := by
    have := p.le
    unfold Prefix.host
    omega
  have hmem : p.addr.point ∈ p.block.parent := Block.subset_parent _ _ p.addr_mem
  rw [parentPrefix, Prefix.masked_block, Block.eq_around hmem]
  exact congrArg (Block.around p.addr.point) hexp

theorem siblings_spec {left right : Prefix} (h : siblings left right = true)
    (hbe : left.block.Before right.block) :
    0 < (parentPrefix left).block.exp ∧ left.block = (parentPrefix left).block.left ∧
      right.block = (parentPrefix left).block.right := by
  simp only [siblings, Bool.and_eq_true, decide_eq_true_eq] at h
  obtain ⟨⟨hz, hbits⟩, hp⟩ := h
  have hl := parentPrefix_block hz
  have hri := hp ▸ parentPrefix_block (hbits ▸ hz)
  rw [hl]
  exact ⟨Nat.succ_pos _, Block.halves_of_parent_eq (hl.symm.trans hri) hbe⟩

/-- The stack `out` after the prefixes `seen`, which ascend. -/
structure Stacked (seen out : List Prefix) : Prop where
  masked : ∀ p ∈ out, p.Masked
  falling : out.Pairwise fun p q => q.block.Before p.block
  within : ∀ v ∈ seen, ∃ p ∈ out, v.block ⊆ p.block
  filled : ∀ p ∈ out, ∀ x ∈ p.block, ∃ v ∈ seen, x ∈ v.block
  short : out.length ≤ seen.length

/-- No two prefixes on the stack are the halves of one. -/
def Unpaired (out : List Prefix) : Prop := out.Pairwise fun p q => siblings q p = false

namespace Stacked

variable {seen out rest : List Prefix} {top left value p : Prefix}

theorem parent (h : Stacked seen (top :: left :: rest)) (hsi : siblings left top = true) :
    Stacked seen (parentPrefix left :: rest) := by
  have hf := pairwise_cons.mp h.falling
  have hrest := pairwise_cons.mp hf.2
  obtain ⟨hpo, hl, hri⟩ := siblings_spec hsi (hf.1 left mem_cons_self)
  have hmem : ∀ x, x ∈ (parentPrefix left).block ↔ x ∈ left.block ∨ x ∈ top.block := fun x => by
    rw [hl, hri]
    exact Block.mem_halves hpo
  refine ⟨?_, ?_, ?_, ?_, ?_⟩
  · rw [forall_mem_cons]
    exact ⟨parentPrefix_masked left, fun p hp =>
      h.masked p (mem_cons_of_mem _ (mem_cons_of_mem _ hp))⟩
  · refine pairwise_cons.mpr ⟨fun p hp => ?_, hrest.2⟩
    have hbe := hrest.1 p hp
    rwa [Block.Before, hl, Block.left_lo hpo] at hbe
  · intro v hv
    obtain ⟨p, hp, hsu⟩ := h.within v hv
    rcases mem_cons.mp hp with rfl | hp
    · exact ⟨_, mem_cons_self, fun x hx => (hmem x).mpr (.inr (hsu x hx))⟩
    · rcases mem_cons.mp hp with rfl | hp
      · exact ⟨_, mem_cons_self, fun x hx => (hmem x).mpr (.inl (hsu x hx))⟩
      · exact ⟨p, mem_cons_of_mem _ hp, hsu⟩
  · rw [forall_mem_cons]
    refine ⟨fun x hx => ?_, fun p hp =>
      h.filled p (mem_cons_of_mem _ (mem_cons_of_mem _ hp))⟩
    rcases (hmem x).mp hx with hx | hx
    · exact h.filled left (mem_cons_of_mem _ mem_cons_self) x hx
    · exact h.filled top mem_cons_self x hx
  · exact Nat.le_of_succ_le h.short

theorem mergeTop (h : Stacked seen (top :: rest)) : Stacked seen (mergeTop top rest) := by
  induction rest generalizing top with
  | nil => exact h
  | cons left rest ih =>
    rw [Lookup.mergeTop]
    split
    case isTrue hsi => exact ih (h.parent hsi)
    case isFalse => exact h

theorem unpaired_mergeTop (h : Stacked seen (top :: rest)) (hun : Unpaired rest) :
    Unpaired (Lookup.mergeTop top rest) := by
  induction rest generalizing top with
  | nil => exact pairwise_singleton _ _
  | cons left rest ih =>
    rw [Lookup.mergeTop]
    split
    case isTrue hsi => exact ih (h.parent hsi) (pairwise_cons.mp hun).2
    case isFalse hno =>
      have hf := pairwise_cons.mp h.falling
      refine pairwise_cons.mpr ⟨forall_mem_cons.mpr ⟨by simpa using hno, ?_⟩, hun⟩
      -- Deeper prefixes do not touch the top: `left` lies between.
      intro p hp
      by_contra hsi
      rw [Bool.not_eq_false] at hsi
      obtain ⟨hpo, hl, hri⟩ := siblings_spec hsi (hf.1 p (mem_cons_of_mem _ hp))
      have htl := hf.1 left mem_cons_self
      have hlp := (pairwise_cons.mp hf.2).1 p hp
      rw [Block.Before, hri, Block.right_lo hpo] at htl
      rw [Block.Before, hl, Block.left_hi hpo] at hlp
      have := left.block.lo_lt_hi
      omega

section

variable (h : Stacked seen out)

include h

theorem push (hm : value.Masked) (haf : ∀ p ∈ out, p.block.Before value.block) :
    Stacked (seen ++ [value]) (value :: out) where
  masked := forall_mem_cons.mpr ⟨hm, h.masked⟩
  falling := pairwise_cons.mpr ⟨haf, h.falling⟩
  within v hv := by
    rcases mem_append.mp hv with hv | hv
    · obtain ⟨p, hp, hsu⟩ := h.within v hv
      exact ⟨p, mem_cons_of_mem _ hp, hsu⟩
    · rw [mem_singleton.mp hv]
      exact ⟨value, mem_cons_self, Block.subset_refl _⟩
  filled p hp x hx := by
    rcases mem_cons.mp hp with rfl | hp
    · exact ⟨p, mem_append_right _ (mem_singleton_self _), hx⟩
    · obtain ⟨v, hv, hxv⟩ := h.filled p hp x hx
      exact ⟨v, mem_append_left _ hv, hxv⟩
  short := by
    rw [length_cons, length_append]
    exact Nat.succ_le_succ h.short

theorem skip (hp : p ∈ out) (hsu : value.block ⊆ p.block) : Stacked (seen ++ [value]) out where
  masked := h.masked
  falling := h.falling
  within v hv := by
    rcases mem_append.mp hv with hv | hv
    · exact h.within v hv
    · rw [mem_singleton.mp hv]
      exact ⟨p, hp, hsu⟩
  filled q hq x hx := by
    obtain ⟨v, hv, hxv⟩ := h.filled q hq x hx
    exact ⟨v, mem_append_left _ hv, hxv⟩
  short := by
    rw [length_append]
    exact Nat.le_add_right_of_le h.short

theorem unique {q : Prefix} (hp : p ∈ out) (hq : q ∈ out) {x : Nat}
    (hxp : x ∈ p.block) (hxq : x ∈ q.block) : p.block = q.block := by
  have hti : Tidy (out.map Prefix.block).reverse :=
    pairwise_reverse.mpr (pairwise_map.mpr h.falling)
  have hin : ∀ {r}, r ∈ out → r.block ∈ (out.map Prefix.block).reverse := fun hr =>
    mem_reverse.mpr (mem_map_of_mem hr)
  exact hti.unique (hin hp) (hin hq) hxp hxq

theorem lo_le {bound : Nat} (hse : ∀ v ∈ seen, v.block.lo ≤ bound)
    (hp : p ∈ out) : p.block.lo ≤ bound := by
  obtain ⟨v, hv, hlo⟩ := h.filled p hp _ p.block.lo_mem
  obtain ⟨q, hq, hsu⟩ := h.within v hv
  have hbl := h.unique hq hp (hsu _ hlo) p.block.lo_mem
  exact Nat.le_trans (hbl ▸ hsu.bounds.1) (hse v hv)

theorem subset_of_start (hap : ∀ v ∈ seen, v = value ∨ Separate v value) (hp : p ∈ out)
    (hst : p.contains value.addr = true) : value.block ⊆ p.block := by
  have hx := Prefix.contains_iff.mp hst
  obtain ⟨v, hv, hxv⟩ := h.filled p hp _ hx
  obtain rfl : v = value := (hap v hv).resolve_right fun hse => hse _ hxv value.addr_mem
  obtain ⟨q, hq, hsu⟩ := h.within v hv
  rw [h.unique hp hq hx (hsu _ v.addr_mem)]
  exact hsu

theorem step_cases (hm : value.Masked) (hlo : ∀ v ∈ seen, v.block.lo ≤ value.block.lo)
    (hap : ∀ v ∈ seen, v = value ∨ Separate v value) :
    mergeStep out value = out ∧ Stacked (seen ++ [value]) out ∨
      mergeStep out value = Lookup.mergeTop value out ∧ Stacked (seen ++ [value]) (value :: out) := by
  unfold mergeStep
  cases out with
  | nil => exact .inr ⟨rfl, h.push hm (fun _ hp => by cases hp)⟩
  | cons last rest =>
    have hl : last ∈ last :: rest := mem_cons_self
    dsimp only
    split
    case isTrue hh =>
      rw [Bool.and_eq_true] at hh
      exact .inl ⟨rfl, h.skip hl (h.subset_of_start hap hl hh.1)⟩
    case isFalse hno =>
      -- A prefix that starts inside the top lies inside it, so it is not the shorter one.
      have ho : last.contains value.addr = false := by
        by_contra hin
        rw [Bool.not_eq_false] at hin
        have hsu := h.subset_of_start hap hl hin
        have hexp := hsu.exp_le
        have hf := Prefix.contains_family hin
        rw [Prefix.block_exp, Prefix.block_exp, Prefix.host, Prefix.host, hf] at hexp
        have hle := value.le
        have hle' := last.le
        rw [hin, Bool.true_and, decide_eq_true_eq] at hno
        rw [hf] at hle'
        omega
      have hbe : last.block.Before value.block := by
        refine Block.before_of_lo_le (h.lo_le hlo hl) fun hmem => ?_
        rw [← hm.point, ← Prefix.contains_iff, ho] at hmem
        cases hmem
      refine .inr ⟨rfl, h.push hm ?_⟩
      rw [forall_mem_cons]
      exact ⟨hbe, fun p hp => ((pairwise_cons.mp h.falling).1 p hp).trans hbe⟩

/-- **A step keeps the stack.** -/
theorem step (hun : Unpaired out) (hm : value.Masked)
    (hlo : ∀ v ∈ seen, v.block.lo ≤ value.block.lo)
    (hap : ∀ v ∈ seen, v = value ∨ Separate v value) :
    Stacked (seen ++ [value]) (mergeStep out value) ∧ Unpaired (mergeStep out value) := by
  obtain ⟨heq, hst⟩ | ⟨heq, hst⟩ := h.step_cases hm hlo hap
  · rw [heq]
    exact ⟨hst, hun⟩
  · rw [heq]
    exact ⟨hst.mergeTop, hst.unpaired_mergeTop hun⟩

/-- **The whole run keeps it.** -/
theorem run (hun : Unpaired out) (hm : ∀ v ∈ rest, v.Masked)
    (hasc : (seen ++ rest).Pairwise fun v w => v.block.lo ≤ w.block.lo)
    (hap : ∀ v ∈ seen ++ rest, ∀ w ∈ seen ++ rest, v = w ∨ Separate v w) :
    Stacked (seen ++ rest) (rest.foldl mergeStep out) ∧ Unpaired (rest.foldl mergeStep out) := by
  induction rest generalizing seen out with
  | nil =>
    rw [append_nil]
    exact ⟨h, hun⟩
  | cons value rest ih =>
    have hvalue : value ∈ seen ++ value :: rest := mem_append_right _ mem_cons_self
    obtain ⟨hst, hun⟩ := h.step hun (hm value mem_cons_self)
      (fun v hv => (pairwise_append.mp hasc).2.2 v hv value mem_cons_self)
      fun v hv => hap v (mem_append_left _ hv) value hvalue
    have hass : seen ++ value :: rest = seen ++ [value] ++ rest := by simp
    rw [hass] at hasc hap ⊢
    exact ih hst hun (fun v hv => hm v (mem_cons_of_mem _ hv)) hasc hap

end

end Stacked

/-- **Merging keeps exactly the addresses, and leaves prefixes that are apart.** -/
theorem mergePrefixes_spec {values : List Prefix} (hm : ∀ v ∈ values, v.Masked)
    (hap : ∀ v ∈ values, ∀ w ∈ values, v = w ∨ Separate v w) :
    Stacked values (mergePrefixes values).reverse ∧ Unpaired (mergePrefixes values).reverse := by
  have hmem : ∀ {v}, v ∈ sortSlice boundaryLess values → v ∈ values := mem_sortSlice.mp
  have hasc : (sortSlice boundaryLess values).Pairwise fun v w => v.block.lo ≤ w.block.lo :=
    (ascending_sortSlice values).imp_of_mem fun {v w} hv hw hle => by
      rwa [(hm v (hmem hv)).point, (hm w (hmem hw)).point] at hle
  have hnil : Stacked [] [] := ⟨nofun, .nil, nofun, nofun, Nat.le_refl _⟩
  obtain ⟨hru, hun⟩ := hnil.run .nil (fun v hv => hm v (hmem hv)) hasc
    fun v hv w hw => hap v (hmem hv) w (hmem hw)
  rw [nil_append] at hru
  rw [mergePrefixes, reverse_reverse]
  refine ⟨⟨hru.masked, hru.falling, fun v hv => hru.within v (mem_sortSlice.mpr hv),
    fun p hp x hx => ?_, ?_⟩, hun⟩
  · obtain ⟨v, hv, hxv⟩ := hru.filled p hp x hx
    exact ⟨v, hmem hv, hxv⟩
  · exact length_sortSlice boundaryLess values ▸ hru.short

/-! ## The shortest list -/

theorem separate_of_overlaps {p q : Prefix} (h : p.overlaps q = false) : Separate p q :=
  fun _ hp hq => Bool.eq_false_iff.mp h (Prefix.overlaps_of_mem hp hq)

theorem siblings_of_parent {p q : Prefix} (hp : p.Masked) (hq : q.Masked)
    (hf : p.addr.family = q.addr.family) (hpa : p.block.parent = q.block.parent)
    (hne : p ≠ q) : siblings p q = true := by
  have hhost : p.host = q.host := by simpa [Block.parent] using congrArg Block.exp hpa
  have hbits : p.bits = q.bits := by
    have := p.le
    have := q.le
    unfold Prefix.host at hhost
    rw [hf] at *
    omega
  have hz : p.bits ≠ 0 := by
    intro hz
    have hin : p.contains q.addr = true := by
      have hlt := q.addr.lt
      simp [Prefix.contains, Prefix.host, hz, hf, Nat.div_eq_of_lt, hlt, hf ▸ p.addr.lt]
    have hqp := Block.eq_around (Prefix.contains_iff.mp hin)
    exact hne (Prefix.eq_of_block hp hq (hqp.trans (by rw [Prefix.block_exp, hhost]; rfl)))
  have hpp : parentPrefix q = parentPrefix p :=
    Prefix.eq_of_block (parentPrefix_masked q) (parentPrefix_masked p)
      (by rw [parentPrefix_block hz, parentPrefix_block (hbits ▸ hz), hpa])
  simp [siblings, ← hbits, hz, hpp]

theorem Stacked.covered_iff {seen out : List Prefix} (h : Stacked seen out) {a : Addr} :
    Prefix.Covered out a ↔ Prefix.Covered seen a := by
  constructor
  · rintro ⟨p, hp, ha⟩
    obtain ⟨v, hv, hx⟩ := h.filled p hp _ (Prefix.contains_iff.mp ha)
    exact ⟨v, hv, Prefix.contains_iff.mpr hx⟩
  · rintro ⟨v, hv, ha⟩
    obtain ⟨p, hp, hsu⟩ := h.within v hv
    exact ⟨p, hp, Prefix.contains_iff.mpr (hsu _ (Prefix.contains_iff.mp ha))⟩

theorem Stacked.parent_ne {seen out : List Prefix} {f : Family} (h : Stacked seen out)
    (hun : Unpaired out) (hf : ∀ v ∈ seen, v.addr.family = f) :
    out.Pairwise fun p q => p.block.parent ≠ q.block.parent := by
  have hfam : ∀ p ∈ out, p.addr.family = f := by
    intro p hp
    obtain ⟨v, hv, hx⟩ := h.filled p hp _ p.addr_mem
    rw [← Prefix.contains_family (Prefix.contains_iff.mpr hx), hf v hv]
  refine (h.falling.and hun).imp_of_mem fun {p q} hp hq hpq hpa => ?_
  have hsi := siblings_of_parent (h.masked q hq) (h.masked p hp)
    ((hfam q hq).trans (hfam p hp).symm) hpa.symm
    fun heq => hpq.1.not_mem q.block.lo_mem (heq ▸ q.block.lo_mem)
  rw [hpq.2] at hsi
  cases hsi

/-- **Merging is exact and minimal.** -/
theorem mergePrefixes_minimal {values : List Prefix} {f : Family} (hm : ∀ v ∈ values, v.Masked)
    (hap : values.Pairwise fun p q => p.overlaps q = false) (hf : ∀ v ∈ values, v.addr.family = f) :
    (∀ p ∈ mergePrefixes values, p.Masked) ∧
      (mergePrefixes values).Pairwise (fun p q => p.addr.compare q.addr = .lt ∧
        p.overlaps q = false) ∧
      (∀ a, Prefix.Covered (mergePrefixes values) a ↔ Prefix.Covered values a) ∧
      ∀ others, (∀ a, Prefix.Covered others a ↔ Prefix.Covered values a) →
        (mergePrefixes values).length ≤ others.length := by
  have hsy : Std.Symm Separate := ⟨fun _ _ => Separate.symm⟩
  have hse := hap.imp separate_of_overlaps
  obtain ⟨hst, hun⟩ := mergePrefixes_spec hm fun v hv w hw =>
    (eq_or_ne v w).imp_right (hse.forall hv hw)
  have hmem : ∀ {p}, p ∈ mergePrefixes values → p ∈ (mergePrefixes values).reverse :=
    mem_reverse.mpr
  have hbe := pairwise_reverse.mp hst.falling
  have hcov : ∀ a, Prefix.Covered (mergePrefixes values) a ↔ Prefix.Covered values a := fun a => by
    simpa [Prefix.Covered] using hst.covered_iff (a := a)
  refine ⟨fun p hp => hst.masked p (hmem hp), hbe.imp fun h =>
    ⟨Addr.compare_lt.mpr (Prefix.point_lt_of_before h), Prefix.overlaps_of_before h⟩, hcov,
    fun others hot => ?_⟩
  have hne : Std.Symm fun p q : Prefix => p.block.parent ≠ q.block.parent := ⟨fun _ _ => Ne.symm⟩
  refine Prefix.length_le_of_largest hbe (fun p hp => largest_of_unpaired
    (pairwise_map.mpr hbe) ?_ (mem_map_of_mem hp)) (fun a ha => ?_) fun a ha => ?_
  · rw [forall_mem_map]
    refine fun p hp => forall_mem_map.mpr fun q hq hpa => ?_
    by_contra hpq
    exact (hst.parent_ne hun hf).forall (hmem hp) (hmem hq) (fun heq => hpq (heq ▸ rfl)) hpa
  · obtain ⟨p, hp, hin⟩ := (hcov a).mpr ((hot a).mp ha)
    exact ⟨_, mem_map_of_mem hp, Prefix.contains_iff.mp hin⟩
  · exact (hot a).mpr ((hcov a).mp ha)

theorem mergePrefixes_minimal_halves :
    mergePrefixes [.v4 10 0 0 128 25, .v4 10 0 1 0 24, .v4 10 0 0 0 25, .v4 10 0 3 0 24] =
        [.v4 10 0 0 0 23, .v4 10 0 3 0 24] ∧
      ∀ others, (∀ a, Prefix.Covered others a ↔ Prefix.Covered
          [.v4 10 0 0 128 25, .v4 10 0 1 0 24, .v4 10 0 0 0 25, .v4 10 0 3 0 24] a) →
        2 ≤ others.length := by
  have hm : mergePrefixes [.v4 10 0 0 128 25, .v4 10 0 1 0 24, .v4 10 0 0 0 25, .v4 10 0 3 0 24] =
      [.v4 10 0 0 0 23, .v4 10 0 3 0 24] := by decide +kernel
  refine ⟨hm, fun others h => ?_⟩
  have := (mergePrefixes_minimal (f := .ipv4) (by decide) (by decide) (by decide)).2.2.2 others h
  rwa [hm] at this

/-! ## The order of outcomes -/

def Role.text : Role → String
  | .allow => "allow"
  | .block => "block"
  | .includes => "include"
  | .excludes => "exclude"
  | .decision => "decision"

def protocolText : Protocol → String
  | .tcp => "tcp"
  | .udp => "udp"
  | .icmp => "icmp"
  | .other => "other"

def PortBasis.text : PortBasis → String
  | .currentDestination => "current_destination"
  | .originalDestination => "original_destination"
  | .other text => text

def Verdict.text : Verdict → String
  | .blocked => "blocked"
  | .notBlocked => "not_blocked"

def Stage.text : Stage → String
  | .notManaged => "not_managed"
  | .globalAllow => "global_allow"
  | .globalBlock => "global_block"
  | .crowdsec => "crowdsec"
  | .classifier => "classifier"
  | .policy => "policy"
  | .pass => "pass"

/-- Lists of the same length, by their first difference. -/
def firstDifference : List String → List String → Bool
  | a :: left, b :: right => if a ≠ b then a < b else firstDifference left right
  | _, _ => false

/-- Lists by length, and then by their first difference. -/
def listLess (left right : List String) : Bool :=
  if left.length ≠ right.length then left.length < right.length else firstDifference left right

def evidenceLess (l r : Evidence) : Bool :=
  if l.kind ≠ r.kind then l.kind < r.kind
  else if l.name ≠ r.name then l.name < r.name
  else if l.provider ≠ r.provider then l.provider < r.provider
  else if l.release ≠ r.release then l.release < r.release
  else if l.policy ≠ r.policy then l.policy < r.policy
  else if l.role ≠ r.role then l.role.text < r.role.text
  else if l.network ≠ r.network then boundaryLess l.network r.network
  else if l.contributing ≠ r.contributing then !l.contributing
  else if l.decisionID ≠ r.decisionID then l.decisionID < r.decisionID
  else if l.decisionDeadline ≠ r.decisionDeadline then l.decisionDeadline < r.decisionDeadline
  else if l.leaseDeadline ≠ r.leaseDeadline then l.leaseDeadline < r.leaseDeadline
  else if l.retrievedAt ≠ r.retrievedAt then l.retrievedAt < r.retrievedAt
  else listLess l.via r.via

def evidenceListLess : List Evidence → List Evidence → Bool
  | a :: left, b :: right =>
      if evidenceLess a b then true
      else if evidenceLess b a then false
      else evidenceListLess left right
  | _, _ => false

/-- The order of attachments within `outcomeLess`. -/
def Attachment.less (l r : Attachment) : Bool :=
  if l.name ≠ r.name then l.name < r.name
  else if l.portBasis ≠ r.portBasis then l.portBasis.text < r.portBasis.text
  else if l.managed ≠ r.managed then !l.managed
  else if l.inputInterfaces ≠ r.inputInterfaces then listLess l.inputInterfaces r.inputInterfaces
  else listLess l.outputInterfaces r.outputInterfaces

/-- The order of ports within `outcomeLess`. -/
def portsLess : Option Ports → Option Ports → Bool
  | none, some _ => true
  | some l, some r => if l.start ≠ r.start then l.start < r.start else l.stop < r.stop
  | _, none => false

def outcomeLess (l r : Outcome) : Bool :=
  if l.network ≠ r.network then boundaryLess l.network r.network
  else if l.direction ≠ r.direction then l.direction = .egress
  else if l.protocol ≠ r.protocol then protocolText l.protocol < protocolText r.protocol
  else if l.ports ≠ r.ports then portsLess l.ports r.ports
  else if l.attachment ≠ r.attachment then l.attachment.less r.attachment
  else if l.verdict ≠ r.verdict then l.verdict.text < r.verdict.text
  else if l.stage ≠ r.stage then l.stage.text < r.stage.text
  else if l.policy ≠ r.policy then l.policy < r.policy
  else if l.priority ≠ r.priority then l.priority < r.priority
  else if l.reason ≠ r.reason then l.reason < r.reason
  else if l.evidence.length ≠ r.evidence.length then l.evidence.length < r.evidence.length
  else evidenceListLess l.evidence r.evidence

/-! ## Groups -/

def Outcome.relocate (o : Outcome) (p : Prefix) : Outcome := { o with network := p }

/-- `outcomeSame`: everything but the network agrees. -/
def outcomeSame (l r : Outcome) : Bool :=
  l.direction = r.direction && l.protocol = r.protocol && l.verdict = r.verdict &&
  l.action = r.action && l.stage = r.stage && l.policy = r.policy && l.priority = r.priority &&
  l.reason = r.reason && l.attachment = r.attachment && l.ports = r.ports && l.evidence = r.evidence

structure OutcomeGroup where
  prototype : Outcome
  prefixes : List Prefix

def OutcomeGroup.add (g : OutcomeGroup) (p : Prefix) : OutcomeGroup :=
  { g with prefixes := g.prefixes ++ [p] }

/-- An outcome joins the first group it agrees with, or founds one. -/
def joinOutcome (groups : List OutcomeGroup) (o : Outcome) : List OutcomeGroup :=
  match groups with
  | [] => [⟨o, [o.network]⟩]
  | g :: rest =>
      if outcomeSame g.prototype o then g.add o.network :: rest
      else g :: joinOutcome rest o

def coalesceOutcomes (values : List Outcome) : List Outcome :=
  sortSlice outcomeLess ((values.foldl joinOutcome []).flatMap fun g =>
    (mergePrefixes g.prefixes).map g.prototype.relocate)

theorem outcomeSame_iff : outcomeSame l r = true ↔ l.relocate r.network = r := by
  obtain ⟨⟩ := l
  obtain ⟨⟩ := r
  simp only [outcomeSame, Outcome.relocate, Bool.and_eq_true, decide_eq_true_eq, Outcome.mk.injEq]
  tauto

theorem relocate_eq (h : outcomeSame l r = true) (p : Prefix) : l.relocate p = r.relocate p := by
  rw [outcomeSame_iff] at h
  rw [← h]
  rfl

theorem outcomeSame_of_relocate {p : Prefix} (h : l.relocate p = r.relocate p) :
    outcomeSame l r = true := by
  have hmo : (l.relocate p).relocate r.network = (r.relocate p).relocate r.network := by rw [h]
  exact outcomeSame_iff.mpr hmo

theorem outcomeSame_symm (h : outcomeSame l r = true) : outcomeSame r l = true :=
  outcomeSame_of_relocate (relocate_eq h l.network).symm

theorem outcomeSame_trans {m : Outcome} (h : outcomeSame l m = true)
    (h' : outcomeSame m r = true) : outcomeSame l r = true :=
  outcomeSame_of_relocate ((relocate_eq h l.network).trans (relocate_eq h' l.network))

/-- The records of an outcome: itself and its evidence. -/
def Outcome.records (o : Outcome) : Nat := 1 + o.evidence.length

def OutcomeGroup.members (g : OutcomeGroup) : List Outcome := g.prefixes.map g.prototype.relocate

theorem members_join (gs : List OutcomeGroup) (o : Outcome) :
    ((joinOutcome gs o).flatMap OutcomeGroup.members).Perm
      (gs.flatMap OutcomeGroup.members ++ [o]) := by
  induction gs with
  | nil => exact .rfl
  | cons g rest ih =>
    rw [joinOutcome, flatMap_cons]
    split
    case isTrue hsa =>
      have hadd : (g.add o.network).members = g.members ++ [o] := by
        simp [OutcomeGroup.members, OutcomeGroup.add, outcomeSame_iff.mp hsa]
      rw [flatMap_cons, hadd, append_assoc, append_assoc]
      exact perm_append_comm.append_left _
    case isFalse =>
      rw [flatMap_cons, append_assoc]
      exact ih.append_left _

theorem prototypes_join (gs : List OutcomeGroup) (o : Outcome) :
    (joinOutcome gs o).map OutcomeGroup.prototype = gs.map OutcomeGroup.prototype ∨
    (∀ r ∈ gs.map OutcomeGroup.prototype, outcomeSame r o = false) ∧
      (joinOutcome gs o).map OutcomeGroup.prototype = gs.map OutcomeGroup.prototype ++ [o] := by
  induction gs with
  | nil => exact .inr ⟨by simp, rfl⟩
  | cons g rest ih =>
    rw [joinOutcome]
    split
    case isTrue => exact .inl rfl
    case isFalse hsa =>
      simp only [map_cons, forall_mem_cons]
      rcases ih with hjo | ⟨hno, hjo⟩
      · exact .inl (congrArg _ hjo)
      · exact .inr ⟨⟨Bool.eq_false_iff.mpr hsa, hno⟩, congrArg _ hjo⟩

structure Gathered (seen : List Outcome) (groups : List OutcomeGroup) : Prop where
  apart : (groups.map OutcomeGroup.prototype).Pairwise fun l r => outcomeSame l r = false
  members : (groups.flatMap OutcomeGroup.members).Perm seen

namespace Gathered

variable {seen rest : List Outcome} {gs : List OutcomeGroup} {o : Outcome}

theorem join (h : Gathered seen gs) : Gathered (seen ++ [o]) (joinOutcome gs o) := by
  refine ⟨?_, (members_join gs o).trans (h.members.append_right _)⟩
  rcases prototypes_join gs o with hjo | ⟨hno, hjo⟩
  · exact hjo ▸ h.apart
  · rw [hjo]
    exact pairwise_append.mpr ⟨h.apart, pairwise_singleton _ _, fun r hr _ ho =>
      mem_singleton.mp ho ▸ hno r hr⟩

theorem run (h : Gathered seen gs) : Gathered (seen ++ rest) (rest.foldl joinOutcome gs) := by
  induction rest generalizing seen gs with
  | nil =>
    rw [append_nil]
    exact h
  | cons o rest ih =>
    rw [append_cons]
    exact ih h.join

theorem placed (h : Gathered seen gs) (ho : o ∈ seen) :
    ∃ g ∈ gs, ∃ p ∈ g.prefixes, g.prototype.relocate p = o := by
  obtain ⟨g, hg, hmem⟩ := mem_flatMap.mp (h.members.mem_iff.mpr ho)
  exact ⟨g, hg, mem_map.mp hmem⟩

theorem drawn (h : Gathered seen gs) {g : OutcomeGroup} (hg : g ∈ gs) {p : Prefix}
    (hp : p ∈ g.prefixes) : g.prototype.relocate p ∈ seen :=
  h.members.mem_iff.mp (mem_flatMap.mpr ⟨g, hg, mem_map_of_mem hp⟩)

end Gathered

theorem gathered (vs : List Outcome) : Gathered vs (vs.foldl joinOutcome []) := by
  have hnil : Gathered [] [] := ⟨.nil, .nil⟩
  exact hnil.run

/-- What became of outcomes: they say the same, each address is spoken for by one, and there are no
more records. -/
structure Coalesced (values result : List Outcome) : Prop where
  masked : ∀ r ∈ result, r.network.Masked
  said : ∀ o ∈ values, ∀ x ∈ o.network.block,
    ∃ r ∈ result, x ∈ r.network.block ∧ outcomeSame r o = true
  meant : ∀ r ∈ result, ∀ x ∈ r.network.block,
    ∃ o ∈ values, x ∈ o.network.block ∧ outcomeSame r o = true
  apart : result.Pairwise fun r s => outcomeSame r s = true → Separate r.network s.network
  records : (result.map Outcome.records).sum ≤ (values.map Outcome.records).sum

theorem Coalesced.perm {vs result other : List Outcome} (h : Coalesced vs result)
    (hp : result.Perm other) : Coalesced vs other where
  masked r hr := h.masked r (hp.mem_iff.mpr hr)
  said o ho x hx := by
    obtain ⟨r, hr, hsa⟩ := h.said o ho x hx
    exact ⟨r, hp.mem_iff.mp hr, hsa⟩
  meant r hr := h.meant r (hp.mem_iff.mpr hr)
  apart := (hp.pairwise_iff fun {_ _} hrs hsam => (hrs (outcomeSame_symm hsam)).symm).mp h.apart
  records := (hp.map Outcome.records).sum_nat ▸ h.records

def OutcomeGroup.merged (g : OutcomeGroup) : List Outcome :=
  (mergePrefixes g.prefixes).map g.prototype.relocate

theorem merged_same {g : OutcomeGroup} (h : r ∈ g.merged) : outcomeSame r g.prototype = true := by
  obtain ⟨p, -, rfl⟩ := mem_map.mp h
  exact outcomeSame_of_relocate (p := p) rfl

theorem sum_records_relocate (o : Outcome) (ps : List Prefix) :
    ((ps.map o.relocate).map Outcome.records).sum = ps.length * o.records := by
  rw [map_map, ← sum_replicate_nat, ← map_const']
  rfl

theorem merged_records {g : OutcomeGroup} (h : Stacked g.prefixes (mergePrefixes g.prefixes).reverse) :
    (g.merged.map Outcome.records).sum ≤ (g.members.map Outcome.records).sum := by
  rw [OutcomeGroup.merged, OutcomeGroup.members, sum_records_relocate, sum_records_relocate,
    ← length_reverse]
  exact Nat.mul_le_mul_right _ h.short

/-- **Putting outcomes together changes nothing of what they say.** -/
theorem coalesceOutcomes_spec {vs : List Outcome} (hm : ∀ o ∈ vs, o.network.Masked)
    (hap : ∀ o ∈ vs, ∀ o' ∈ vs, outcomeSame o o' = true →
      o.network = o'.network ∨ Separate o.network o'.network) :
    Coalesced vs (coalesceOutcomes vs) := by
  have hgr := gathered vs
  set gs := vs.foldl joinOutcome [] with hd
  have hst : ∀ g ∈ gs, Stacked g.prefixes (mergePrefixes g.prefixes).reverse := by
    intro g hg
    refine (mergePrefixes_spec (fun p hp => hm _ (hgr.drawn hg hp)) fun p hp q hq => ?_).1
    refine hap _ (hgr.drawn hg hp) _ (hgr.drawn hg hq) ?_
    exact outcomeSame_of_relocate (p := p) rfl
  have hme : Coalesced vs (gs.flatMap OutcomeGroup.merged) := by
    refine ⟨?_, ?_, ?_, ?_, ?_⟩
    · intro r hr
      obtain ⟨g, hg, hr⟩ := mem_flatMap.mp hr
      obtain ⟨p, hp, rfl⟩ := mem_map.mp hr
      exact (hst g hg).masked p (mem_reverse.mpr hp)
    · intro o ho x hx
      obtain ⟨g, hg, p, hp, rfl⟩ := hgr.placed ho
      obtain ⟨q, hq, hsu⟩ := (hst g hg).within p hp
      have hr : g.prototype.relocate q ∈ g.merged := mem_map_of_mem (mem_reverse.mp hq)
      exact ⟨_, mem_flatMap.mpr ⟨g, hg, hr⟩, hsu x hx, outcomeSame_of_relocate (p := q) rfl⟩
    · intro r hr x hx
      obtain ⟨g, hg, hr⟩ := mem_flatMap.mp hr
      obtain ⟨p, hp, rfl⟩ := mem_map.mp hr
      obtain ⟨q, hq, hxq⟩ := (hst g hg).filled p (mem_reverse.mpr hp) x hx
      exact ⟨_, hgr.drawn hg hq, hxq, outcomeSame_of_relocate (p := q) rfl⟩
    · refine pairwise_flatMap.mpr ⟨fun g hg => ?_, (pairwise_map.mp hgr.apart).imp fun {g h} hgh r hr s hs => ?_⟩
      · -- within a group the prefixes are apart
        have hf := pairwise_reverse.mp (hst g hg).falling
        refine pairwise_map.mpr (hf.imp fun {p q} hbe _ x hxp hxq => ?_)
        exact hbe.not_mem hxp hxq
      · -- outcomes of different groups do not agree
        intro hsa
        have hpr := outcomeSame_trans (outcomeSame_symm (merged_same hr))
          (outcomeSame_trans hsa (merged_same hs))
        rw [hgh] at hpr
        cases hpr
    · rw [← (hgr.members.map _).sum_nat, map_flatMap, map_flatMap, flatMap_def, flatMap_def,
        sum_flatten, sum_flatten, map_map, map_map]
      exact sum_le_sum fun g hg => merged_records (hst g hg)
  exact hme.perm (sortSlice_perm outcomeLess _).symm

end Perimeterd.Lookup
