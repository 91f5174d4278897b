import Perimeterd.Prefix.Canonical

/-!
# Subtracting prefixes

`subtractNode` walks the binary trie under one included prefix: a node no exclusion meets is kept
whole, a node inside an exclusion is dropped, and any other node is halved. Its contract is
`Subtracts`: what it returns is canonical, stays inside the node, and covers exactly the node's
addresses that no exclusion covers.

`processFamily` runs it once per included prefix with two cursors over the exclusions. The first
cursor never moves back; that is sound because the included prefixes are in line order, so an
exclusion that ends before one of them begins ends before all later ones too.
-/

namespace Perimeterd

open Lib List

namespace Prefix

/-- `result` is `node` minus `excludes`, in canonical form. -/
structure Subtracts (node : Prefix) (excludes result : List Prefix) : Prop where
  canonical : Canonical result
  inside : ∀ p ∈ result, p.block ⊆ node.block
  covered : ∀ a, Covered result a ↔ node.contains a = true ∧ ¬ Covered excludes a

/-! ## Comparisons on the line -/

variable {e p node : Prefix} {excludes : List Prefix}

theorem end_lt_iff (hp : p.Masked) :
    (prefixEnd e).compare p.addr = .lt ↔ e.block.Before p.block := by
  rw [Addr.compare_lt, hp.point, Block.Before, ← prefixEnd_point]
  omega

theorem start_gt_iff (he : e.Masked) :
    e.addr.compare (prefixEnd p) = .gt ↔ p.block.Before e.block := by
  rw [Addr.compare_gt, he.point, Block.Before, ← prefixEnd_point]
  omega

theorem nested_of_not_apart {q : Prefix} (h₁ : ¬ p.block.Before q.block)
    (h₂ : ¬ q.block.Before p.block) : p.block ⊆ q.block ∨ q.block ⊆ p.block := by
  rcases Block.nested_or_apart p.block q.block with h | h | h | h
  · exact .inl h
  · exact .inr h
  · exact absurd h h₁
  · exact absurd h h₂

theorem not_contains_of_before {q : Prefix} (h : p.block.Before q.block) {a : Addr}
    (ha : p.contains a = true) : q.contains a = false := by
  rw [← Bool.not_eq_true, contains_iff]
  exact h.not_mem (contains_iff.mp ha)

/-! ## One node -/

/-- The exclusions that meet a node, as the code's two bisections cut them out. -/
def meeting (node : Prefix) (excludes : List Prefix) : List Prefix :=
  excludes.filter fun e =>
    !decide (e.block.Before node.block) && !decide (node.block.Before e.block)

theorem overlapRange_spec (hn : node.Masked) (hx : Canonical excludes) :
    (overlapRange node excludes).1 ≤ (overlapRange node excludes).2 ∧
      (excludes.take (overlapRange node excludes).2).drop (overlapRange node excludes).1 =
        meeting node excludes := by
  have hp : excludes.Pairwise fun a b =>
      ((prefixEnd a).compare node.addr != .lt) = true →
        ((prefixEnd b).compare node.addr != .lt) = true := by
    refine hx.tidy.imp ?_
    intro a b hab ha
    rw [bne_iff_ne, ne_eq, end_lt_iff hn] at ha ⊢
    exact fun hb => ha (hab.trans hb)
  have hq : excludes.Pairwise fun a b =>
      (a.addr.compare (prefixEnd node) == .gt) = true →
        (b.addr.compare (prefixEnd node) == .gt) = true := by
    refine hx.tidy.imp_of_mem ?_
    intro a b ha hb hab hgt
    rw [beq_iff_eq, start_gt_iff (hx.masked _ ‹_›)] at hgt ⊢
    exact hgt.trans hab
  constructor
  · refine searchIn_le_searchIn hp hq fun e he hgt => ?_
    rw [beq_iff_eq, start_gt_iff (hx.masked e he)] at hgt
    rw [bne_iff_ne, ne_eq, end_lt_iff hn]
    intro hlt
    have h₁ := (hgt.trans hlt : node.block.Before node.block)
    exact absurd h₁ (Nat.not_le.mpr node.block.lo_lt_hi)
  · refine (window_eq_filter hp hq).trans (filter_congr fun e he => ?_)
    have h₁ := end_lt_iff (e := e) hn
    have h₂ := start_gt_iff (p := node) (hx.masked e he)
    rw [Bool.eq_iff_iff]
    simp only [Bool.and_eq_true, bne_iff_ne, ne_eq, Bool.not_eq_true', decide_eq_false_iff_not,
      beq_eq_false_iff_ne, h₁, h₂]

theorem covered_window {a : Addr} (ha : node.contains a = true) :
    Covered (meeting node excludes) a ↔ Covered excludes a := by
  constructor
  · rintro ⟨e, he, hc⟩
    exact ⟨e, (mem_filter.mp he).1, hc⟩
  · rintro ⟨e, he, hc⟩
    refine ⟨e, mem_filter.mpr ⟨he, ?_⟩, hc⟩
    simp only [Bool.and_eq_true, Bool.not_eq_true', decide_eq_false_iff_not]
    constructor
    · intro h
      rw [not_contains_of_before h hc] at ha
      cases ha
    · intro h
      rw [not_contains_of_before h ha] at hc
      cases hc

theorem head_covers_iff :
    (decide (e.bits ≤ node.bits) && e.contains node.addr) = true ↔ node.block ⊆ e.block := by
  rw [Bool.and_eq_true, decide_eq_true_eq, contains_iff]
  constructor
  · rintro ⟨hb, hc⟩
    have hf := contains_family (contains_iff.mpr hc)
    refine Block.subset_of_mem node.addr_mem hc ?_
    simp only [block_exp, host, hf]
    omega
  · intro hs
    have hc := hs _ node.addr_mem
    have hf := contains_family (contains_iff.mpr hc)
    have hexp := hs.exp_le
    simp only [block_exp, host, hf] at hexp
    have h₁ := e.le
    have h₂ := node.le
    rw [hf] at h₁
    exact ⟨by omega, hc⟩

theorem Subtracts.keep (hn : node.Masked) (h : ∀ a, node.contains a = true → ¬ Covered excludes a) :
    Subtracts node excludes [node] where
  canonical := ⟨by simpa using hn, by simp⟩
  inside := by simpa using Block.subset_refl _
  covered a := by
    simp only [covered_cons, covered_nil, or_false]
    exact ⟨fun ha => ⟨ha, h a ha⟩, fun ha => ha.1⟩

theorem Subtracts.of_meeting {result : List Prefix}
    (h : Subtracts node (meeting node excludes) result) : Subtracts node excludes result where
  canonical := h.canonical
  inside := h.inside
  covered a := by
    rw [h.covered]
    exact and_congr_right fun ha => not_congr (covered_window ha)

theorem Subtracts.keep_of_meeting (hn : node.Masked)
    (h : meeting node excludes = []) : Subtracts node excludes [node] := by
  refine Subtracts.keep hn fun a ha hc => ?_
  rw [← covered_window ha] at hc
  rw [h] at hc
  exact covered_nil a hc

theorem Subtracts.drop_of_meeting
    (he : e ∈ meeting node excludes) (hs : node.block ⊆ e.block) : Subtracts node excludes [] where
  canonical := Canonical.nil
  inside := by simp
  covered a := by
    simp only [covered_nil, false_iff, not_and, not_not]
    intro ha
    exact ⟨e, (mem_filter.mp he).1, contains_iff.mpr (hs _ (contains_iff.mp ha))⟩

theorem Subtracts.halves {l r : Prefix} {rl rr : List Prefix} (hpo : 0 < node.host)
    (hlb : l.block = node.block.left) (hrb : r.block = node.block.right)
    (hl : Subtracts l excludes rl) (hr : Subtracts r excludes rr) :
    Subtracts node excludes (rl ++ rr) where
  canonical := by
    refine ⟨fun p hp => ?_, pairwise_append.mpr ⟨hl.canonical.tidy, hr.canonical.tidy, ?_⟩⟩
    · rcases mem_append.mp hp with hp | hp
      · exact hl.canonical.masked p hp
      · exact hr.canonical.masked p hp
    · intro p hp q hq
      have h₁ := (hl.inside p hp).bounds.2
      have h₂ := (hr.inside q hq).bounds.1
      have hmi := Block.left_before_right (b := node.block) (by simpa using hpo)
      rw [← hlb, ← hrb] at hmi
      unfold Block.Before at *
      omega
  inside p hp := by
    rcases mem_append.mp hp with hp | hp
    · exact Block.subset_trans (hl.inside p hp) (hlb ▸ Block.left_subset (by simpa using hpo))
    · exact Block.subset_trans (hr.inside p hp) (hrb ▸ Block.right_subset (by simpa using hpo))
  covered a := by
    have hmem : node.contains a = true ↔ l.contains a = true ∨ r.contains a = true := by
      rw [contains_iff, contains_iff, contains_iff, hlb, hrb]
      exact Block.mem_halves (by simpa using hpo)
    rw [covered_append, hl.covered, hr.covered, hmem]
    tauto

theorem subtractNode_step (fuel : Nat) (hn : node.Masked) (hx : Canonical excludes) :
    (meeting node excludes = [] ∧ subtractNode fuel node excludes = [node]) ∨
      (∃ e ∈ meeting node excludes, node.block ⊆ e.block ∧ subtractNode fuel node excludes = []) ∨
      (∃ e ∈ meeting node excludes, ¬ node.block ⊆ e.block) ∧
        subtractNode fuel node excludes =
          match split node, fuel with
          | some (left, right), fuel + 1 =>
              subtractNode fuel left (meeting node excludes) ++
                subtractNode fuel right (meeting node excludes)
          | _, _ => [] := by
  obtain ⟨hle, hw⟩ := overlapRange_spec hn hx
  rw [subtractNode]
  by_cases heq : (overlapRange node excludes).1 = (overlapRange node excludes).2
  · refine .inl ⟨?_, by simp [heq]⟩
    rw [← hw, heq]
    exact drop_eq_nil_of_le (by rw [length_take]; omega)
  · right
    have hne : meeting node excludes ≠ [] := by
      rw [← hw, Ne, drop_eq_nil_iff, length_take]
      have h₁ : (overlapRange node excludes).2 ≤ excludes.length := searchIn_le_length _ _
      omega
    obtain ⟨e, rest, he⟩ := exists_cons_of_ne_nil hne
    simp only [heq, if_false, hw]
    rw [he]
    have hh : ((e :: rest).head?.any fun e => decide (e.bits ≤ node.bits) &&
        e.contains node.addr) = true ↔ node.block ⊆ e.block := head_covers_iff
    by_cases hc : node.block ⊆ e.block
    · exact .inl ⟨e, by simp, hc, by rw [if_pos (hh.mpr hc)]⟩
    · refine .inr ⟨⟨e, by simp, hc⟩, ?_⟩
      rewrite [if_neg (fun h => hc (hh.mp h))]
      rcases node.split with _ | ⟨l, r⟩ <;> cases fuel <;> rfl

/-- **`subtractNode` computes the difference of one prefix and a canonical list.** The induction is
on the host bits, which is the depth of the trie below the node. -/
theorem subtractNode_spec : ∀ (n : Nat) (node : Prefix) {excludes : List Prefix},
    node.host = n → node.Masked → Canonical excludes →
      Subtracts node excludes (subtractNode n node excludes) := by
  intro n
  induction n with
  | zero =>
    intro node excludes hh hn hx
    rcases subtractNode_step 0 hn hx with ⟨hw, hr⟩ | ⟨e, he, hs, hr⟩ | ⟨⟨e, he, hs⟩, -⟩
    · rw [hr]; exact Subtracts.keep_of_meeting hn hw
    · rw [hr]; exact Subtracts.drop_of_meeting he hs
    · -- a single address that meets an exclusion lies inside it
      exfalso
      have hme := (mem_filter.mp he).2
      simp only [Bool.and_eq_true, Bool.not_eq_true', decide_eq_false_iff_not] at hme
      rcases nested_of_not_apart hme.2 hme.1 with h | h
      · exact hs h
      · exact hs (Block.subset_of_mem (h _ e.addr_mem) e.addr_mem (by simp [hh]))
  | succ n ih =>
    intro node excludes hh hn hx
    rcases subtractNode_step (n + 1) hn hx with ⟨hw, hr⟩ | ⟨e, he, hs, hr⟩ | ⟨-, hr⟩
    · rw [hr]; exact Subtracts.keep_of_meeting hn hw
    · rw [hr]; exact Subtracts.drop_of_meeting he hs
    · rcases split_spec hn with ⟨h0, -⟩ | ⟨l, r, hsp, hp, hlm, hrm, hlb, hrb, hlh, hrh⟩
      · omega
      · have hxm : Canonical (meeting node excludes) := hx.sublist filter_sublist
        rw [hr, hsp]
        have hl := ih l (by omega) hlm hxm
        have hr' := ih r (by omega) hrm hxm
        exact (Subtracts.halves hp hlb hrb hl hr').of_meeting

/-! ## One family -/

theorem dropWhile_before {inc : Prefix} (hi : inc.Masked) (hx : Canonical excludes) :
    excludes.dropWhile (fun e => (prefixEnd e).compare inc.addr == .lt) =
      excludes.filter fun e => !decide (e.block.Before inc.block) := by
  induction excludes with
  | nil => rfl
  | cons e rest ih =>
    have hrest : Canonical rest := hx.sublist (sublist_cons_self e rest)
    have hta := (pairwise_cons.mp hx.tidy).1
    by_cases hb : e.block.Before inc.block
    · have h₁ : ((prefixEnd e).compare inc.addr == .lt) = true := by
        rw [beq_iff_eq, end_lt_iff hi]; exact hb
      simp only [dropWhile_cons, h₁, if_true, ih hrest, filter_cons, hb, decide_true,
        Bool.not_true, Bool.false_eq_true, if_false]
    · have h₁ : ((prefixEnd e).compare inc.addr == .lt) = false := by
        rw [beq_eq_false_iff_ne, ne_eq, end_lt_iff hi]; exact hb
      have hal : ∀ e' ∈ e :: rest, (!decide (e'.block.Before inc.block)) = true := by
        intro e' he'
        rw [Bool.not_eq_true', decide_eq_false_iff_not]
        rcases mem_cons.mp he' with rfl | he'
        · exact hb
        · exact fun h => hb ((hta e' he').trans h)
      simp only [dropWhile_cons, h₁, Bool.false_eq_true, if_false]
      exact (filter_eq_self.mpr hal).symm

theorem takeWhile_within {inc : Prefix} {remaining : List Prefix} (hx : Canonical remaining) :
    remaining.takeWhile (fun e => e.addr.compare (prefixEnd inc) != .gt) =
      remaining.filter fun e => !decide (inc.block.Before e.block) := by
  induction remaining with
  | nil => rfl
  | cons e rest ih =>
    have hrest : Canonical rest := hx.sublist (sublist_cons_self e rest)
    have hta := (pairwise_cons.mp hx.tidy).1
    have hem := hx.masked e (by simp)
    by_cases hb : inc.block.Before e.block
    · have h₁ : (e.addr.compare (prefixEnd inc) != .gt) = false := by
        rw [bne_eq_false_iff_eq, start_gt_iff hem]; exact hb
      have hno : ∀ e' ∈ e :: rest, (!decide (inc.block.Before e'.block)) = false := by
        intro e' he'
        rw [Bool.not_eq_false', decide_eq_true_eq]
        rcases mem_cons.mp he' with rfl | he'
        · exact hb
        · exact hb.trans (hta e' he')
      simp only [takeWhile_cons, h₁, Bool.false_eq_true, if_false]
      exact (filter_eq_nil_iff.mpr fun e' he' => by simp [hno e' he']).symm
    · have h₁ : (e.addr.compare (prefixEnd inc) != .gt) = true := by
        rw [bne_iff_ne, ne_eq, start_gt_iff hem]; exact hb
      simp only [takeWhile_cons, h₁, if_true, ih hrest, filter_cons, hb, decide_false,
        Bool.not_false]

theorem processFamily_window {inc : Prefix} (hi : inc.Masked) (hx : Canonical excludes) :
    (excludes.dropWhile fun e => (prefixEnd e).compare inc.addr == .lt).takeWhile
        (fun e => e.addr.compare (prefixEnd inc) != .gt) = meeting inc excludes := by
  rw [dropWhile_before hi hx, takeWhile_within (hx.sublist filter_sublist), filter_filter,
    meeting]
  refine filter_congr fun e _ => ?_
  rw [Bool.and_comm]

/-- **`processFamily` subtracts a canonical list from a canonical list.** -/
theorem processFamily_spec {includes : List Prefix} : ∀ {excludes : List Prefix},
    Canonical includes → Canonical excludes →
      Canonical (processFamily includes excludes) ∧
        (∀ p ∈ processFamily includes excludes, ∃ i ∈ includes, p.block ⊆ i.block) ∧
        ∀ a, Covered (processFamily includes excludes) a ↔
          Covered includes a ∧ ¬ Covered excludes a := by
  induction includes with
  | nil => intro excludes _ _; simp [processFamily, Canonical.nil]
  | cons inc includes ih =>
    intro excludes hinc hx
    have him := hinc.masked inc (by simp)
    have haf := (pairwise_cons.mp hinc.tidy).1
    have hre : Canonical (excludes.filter fun e => !decide (e.block.Before inc.block)) :=
      hx.sublist filter_sublist
    obtain ⟨hca, hin, hco⟩ := ih (hinc.sublist (sublist_cons_self _ _)) hre
    rw [processFamily, processFamily_window him hx, dropWhile_before him hx]
    -- the contribution of `inc` itself
    have hh : Subtracts inc excludes (if (meeting inc excludes).isEmpty then [inc]
          else subtractNode inc.host inc (meeting inc excludes)) := by
      split
      · exact Subtracts.keep_of_meeting him (isEmpty_iff.mp ‹_›)
      · exact (subtractNode_spec inc.host inc rfl him (hx.sublist filter_sublist)).of_meeting
    refine ⟨⟨fun p hp => ?_, pairwise_append.mpr ⟨hh.canonical.tidy, hca.tidy, ?_⟩⟩,
      fun p hp => ?_, fun a => ?_⟩
    · rcases mem_append.mp hp with hp | hp
      · exact hh.canonical.masked p hp
      · exact hca.masked p hp
    · intro p hp q hq
      obtain ⟨i, hi, hqi⟩ := hin q hq
      have h₁ := (hh.inside p hp).bounds.2
      have h₂ := hqi.bounds.1
      have h₃ := haf i hi
      unfold Block.Before at *
      omega
    · rcases mem_append.mp hp with hp | hp
      · exact ⟨inc, by simp, hh.inside p hp⟩
      · obtain ⟨i, hi, hpi⟩ := hin p hp
        exact ⟨i, by simp [hi], hpi⟩
    · rw [covered_append, hh.covered, hco, covered_cons]
      -- an exclusion dropped at `inc` cannot reach a later included prefix
      have hsa : Covered includes a →
          (Covered (excludes.filter fun e => !decide (e.block.Before inc.block)) a ↔
            Covered excludes a) := by
        rintro ⟨i, hi, hia⟩
        constructor
        · rintro ⟨e, he, hc⟩
          exact ⟨e, (mem_filter.mp he).1, hc⟩
        · rintro ⟨e, he, hc⟩
          refine ⟨e, mem_filter.mpr ⟨he, ?_⟩, hc⟩
          rw [Bool.not_eq_true', decide_eq_false_iff_not]
          intro hb
          have := not_contains_of_before (hb.trans (haf i hi)) hc
          rw [hia] at this
          cases this
      tauto

end Prefix

end Perimeterd
