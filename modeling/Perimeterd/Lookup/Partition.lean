import Perimeterd.CrowdSec.Store
import Perimeterd.Lookup.Static

/-!
# Partitioning a query

`partitionPrefixes` of `internal/lookup/evaluate.go`. The network of a query is halved until no
boundary lies strictly inside a piece, so that every set, source record, lease and decision either
holds the whole of a cell or nothing of it (`Atomic`) and a cell can be answered by its first address.
The pieces wait in one list: a piece that has to be halved leaves its left half in place and its right
half at the end. The work is bounded; beyond the bound there is no partition.
-/

namespace Perimeterd.Lookup

open Lib Policy List

def maxRecords : Nat := 4096

def partitionLimit : Nat := maxRecords * 8

variable {boundaries : List Prefix}

theorem or_bit_lt {v w i : Nat} (hv : v < 2 ^ w) (hi : i < w) : v ||| 2 ^ (w - 1 - i) < 2 ^ w :=
  Nat.or_lt_two_pow hv (Nat.pow_lt_pow_right (by norm_num) (by omega))

def splitPrefix (p : Prefix) : Option (Prefix × Prefix) :=
  if h : p.bits < p.addr.family.width then
    let left : Prefix := (Prefix.mk p.addr (p.bits + 1) h).masked
    let right : Prefix :=
      { addr :=
          { family := p.addr.family
            value := left.addr.value ||| 2 ^ (p.addr.family.width - 1 - p.bits)
            lt := or_bit_lt left.addr.lt h }
        bits := p.bits + 1
        le := h }
    some (left, right.masked)
  else none

/-- The boundaries that do not start before a piece. -/
def onward (boundaries : List Prefix) (node : Prefix) : List Prefix :=
  boundaries.drop (searchIn boundaries fun b => b.addr.compare node.addr != .lt)

/-- The boundaries that start inside the query. -/
def window (query : Prefix) (boundaries : List Prefix) : List Prefix :=
  let boundaries := onward boundaries query
  boundaries.take (searchIn boundaries fun b => !query.contains b.addr)

/-- The closure `add`, over all its calls: a prefix that does not lie strictly inside the query is
skipped. The flag is `owned`. -/
def addBoundaries (query : Prefix) : List Prefix → Bool → List Prefix → Option (List Prefix × Bool)
  | boundaries, owned, [] => some (boundaries, owned)
  | boundaries, owned, value :: rest =>
      if value.bits ≤ query.bits ∨ ¬ query.contains value.addr then
        addBoundaries query boundaries owned rest
      else if boundaries.length ≥ partitionLimit then none
      else addBoundaries query (boundaries ++ [value]) true rest

/-- Whether some boundary lies strictly inside a piece. -/
def splits (boundaries : List Prefix) (node : Prefix) : Bool :=
  ((onward boundaries node).takeWhile fun b => node.contains b.addr).any fun b =>
    node.bits < b.bits

/-- The work loop: `done` are the pieces before the index, `pending` those from it on. -/
def halve (boundaries done pending : List Prefix) : Option (List Prefix) :=
  match pending with
  | [] => some done
  | node :: rest =>
      if splits boundaries node then
        match splitPrefix node with
        | none => none
        | some (left, right) =>
            if done.length + (rest.length + 2) > partitionLimit then none
            else halve boundaries done (left :: (rest ++ [right]))
      else halve boundaries (done ++ [node]) rest
termination_by (partitionLimit + 1 - (done.length + pending.length), pending.length)
decreasing_by
  · simp only [List.length_cons, List.length_append, List.length_nil]
    apply Prod.Lex.left
    omega
  · simp only [List.length_cons, List.length_append, List.length_nil]
    rw [show done.length + (0 + 1) + rest.length = done.length + (rest.length + 1) by omega]
    exact Prod.Lex.right _ (Nat.lt_succ_self _)

def partitionPrefixes (query : Prefix) (boundaries : List Prefix) (timed : List TimedPrefix)
    (decisions : List CrowdSec.Decision) : Option (List Prefix) :=
  if query.bits = query.addr.family.width then some [query]
  else
    let boundaries := window query boundaries
    if boundaries.length > partitionLimit then none
    else do
      let (boundaries, owned) ←
        addBoundaries query boundaries false (timed.map (·.pfx) ++ decisions.map (·.pfx))
      let boundaries :=
        if owned then compact (sortSlice boundaryLess boundaries) else boundaries
      let work ← halve boundaries [] [query]
      return sortSlice (fun a b => a.addr.compare b.addr = .lt) work

/-! ## Halves -/

variable {qy : Prefix} {cells : List Prefix}

/-- **The halves of a masked prefix.** -/
theorem splitPrefix_spec {p : Prefix} (hm : p.Masked) (hp : 0 < p.host) :
    ∃ l r, splitPrefix p = some (l, r) ∧ l.Masked ∧ r.Masked ∧ l.block = p.block.left ∧
      r.block = p.block.right := by
  have h : p.bits < p.addr.family.width := by
    unfold Prefix.host at hp
    omega
  have hexp : 0 < p.block.exp := hp
  have hh : p.addr.family.width - (p.bits + 1) = p.host - 1 := by
    unfold Prefix.host
    omega
  have hlo : p.addr.point = p.block.left.lo := by rw [Block.left_lo hexp, hm.point]
  have hbl : (Prefix.mk p.addr (p.bits + 1) h).block = p.block.left := Prefix.block_eq_of_lo hh hlo
  -- The left half starts where the whole does, so masking changes nothing.
  have hl : (Prefix.mk p.addr (p.bits + 1) h).Masked := Prefix.masked_of_point (by rw [hbl, ← hlo])
  have hvalue : (Prefix.mk p.addr (p.bits + 1) h).masked.addr.value = p.addr.value := by
    rw [hl]
  have hbi : p.addr.family.width - 1 - p.bits = p.host - 1 := by
    unfold Prefix.host
    omega
  unfold splitPrefix
  rw [dif_pos h]
  refine ⟨_, _, rfl, Prefix.masked_masked _, Prefix.masked_masked _, ?_, ?_⟩
  · rw [Prefix.masked_block, hbl]
  · rw [Prefix.masked_block]
    refine Prefix.block_eq_of_lo hh ?_
    rw [Block.right_lo hexp, ← hm.point, Prefix.block_exp]
    simp only [Addr.point, hvalue, hbi]
    rw [Prefix.or_bit_of_masked hm.value (by omega), Nat.add_assoc]

/-! ## Boundaries -/

section Boundaries

variable {node b : Prefix} {boundaries : List Prefix}

theorem onward_mono (hasc : Ascending boundaries) :
    boundaries.Pairwise fun a b => (a.addr.compare node.addr != .lt) = true →
      (b.addr.compare node.addr != .lt) = true := by
  refine hasc.imp fun {a b} hab h => ?_
  rw [bne_iff_ne, ne_eq, Addr.compare_lt] at h ⊢
  omega

theorem mem_onward (hasc : Ascending boundaries) :
    b ∈ onward boundaries node ↔ b ∈ boundaries ∧ node.addr.point ≤ b.addr.point := by
  constructor
  · intro h
    have hge := of_mem_drop_searchIn (onward_mono hasc) h
    rw [bne_iff_ne, ne_eq, Addr.compare_lt] at hge
    exact ⟨mem_of_mem_drop h, Nat.not_lt.mp hge⟩
  · rintro ⟨h, hle⟩
    rw [← take_append_drop (searchIn boundaries fun b => b.addr.compare node.addr != .lt)
      boundaries, mem_append] at h
    refine h.resolve_left fun hta => ?_
    have hlt := not_of_mem_take_searchIn (onward_mono hasc) hta
    rw [bne_eq_false_iff_eq, Addr.compare_lt] at hlt
    omega

theorem onward_contains (hm : node.Masked) (hasc : Ascending boundaries) :
    (onward boundaries node).Pairwise fun a b =>
      node.contains b.addr = true → node.contains a.addr = true := by
  refine (hasc.sublist (drop_sublist _ _)).imp_of_mem fun {a b} ha _ hab h => ?_
  have hl := ((mem_onward hasc).mp ha).2
  rw [Prefix.contains_iff, Block.mem_iff] at h ⊢
  rw [hm.point] at hl
  omega

/-- **The boundaries met in front of a piece are those that start inside it.** -/
theorem mem_takeWhile_onward (hm : node.Masked) (hasc : Ascending boundaries) :
    b ∈ (onward boundaries node).takeWhile (fun b => node.contains b.addr) ↔
      b ∈ boundaries ∧ node.contains b.addr = true := by
  rw [(takeWhile_eq_filter (onward_contains hm hasc)).1, mem_filter, mem_onward hasc]
  refine and_congr_left fun hb => and_iff_left ?_
  rw [hm.point]
  exact (Block.mem_iff.mp (Prefix.contains_iff.mp hb)).1

theorem mem_window (hm : node.Masked) (hasc : Ascending boundaries) :
    b ∈ window node boundaries ↔ b ∈ boundaries ∧ node.contains b.addr = true := by
  have hen : (onward boundaries node).Pairwise fun a b =>
      (!node.contains a.addr) = true → (!node.contains b.addr) = true := by
    refine (onward_contains hm hasc).imp fun {a b} h ha => ?_
    rw [Bool.not_eq_true'] at ha ⊢
    by_contra hb
    rw [h (Bool.not_eq_false _ ▸ hb)] at ha
    cases ha
  rw [← mem_takeWhile_onward hm hasc, window, take_searchIn hen]
  simp only [Bool.not_not]

theorem window_ascending (hasc : Ascending boundaries) : Ascending (window node boundaries) :=
  hasc.sublist ((take_sublist _ _).trans (drop_sublist _ _))

theorem splits_iff (hm : node.Masked) (hasc : Ascending boundaries) :
    splits boundaries node = true ↔
      ∃ b ∈ boundaries, node.contains b.addr = true ∧ node.bits < b.bits := by
  rw [splits, any_eq_true]
  simp only [mem_takeWhile_onward hm hasc, decide_eq_true_eq, and_assoc]

theorem addBoundaries_spec {qy : Prefix} {vs : List Prefix} :
    ∀ {boundaries : List Prefix} {owned : Bool} {all : List Prefix} {owned' : Bool},
      addBoundaries qy boundaries owned vs = some (all, owned') →
        (∀ b, b ∈ all ↔ b ∈ boundaries ∨
          b ∈ vs ∧ qy.bits < b.bits ∧ qy.contains b.addr = true) ∧
        (owned' = false → all = boundaries ∧ owned = false) := by
  induction vs with
  | nil =>
    intro boundaries owned all owned' h
    cases h
    simp
  | cons value rest ih =>
    intro boundaries owned all owned' h
    rw [addBoundaries] at h
    split at h
    case isTrue hskip =>
      obtain ⟨hmem, ho⟩ := ih h
      refine ⟨fun b => (hmem b).trans (or_congr_right ?_), ho⟩
      rw [mem_cons]
      refine ⟨fun hb => ⟨.inr hb.1, hb.2⟩, fun hb => ⟨hb.1.resolve_left ?_, hb.2⟩⟩
      rintro rfl
      rcases hskip with hbits | hou
      · exact Nat.not_le.mpr hb.2.1 hbits
      · exact hou hb.2.2
    case isFalse had =>
      rw [Option.ite_none_left_eq_some] at h
      obtain ⟨hmem, ho⟩ := ih h.2
      rw [not_or, not_not, Nat.not_le] at had
      refine ⟨fun b => (hmem b).trans ?_, fun hf => ?_⟩
      · rw [mem_append, mem_singleton, mem_cons]
        constructor
        · rintro ((hb | rfl) | hb)
          · exact .inl hb
          · exact .inr ⟨.inl rfl, had⟩
          · exact .inr ⟨.inr hb.1, hb.2⟩
        · rintro (hb | ⟨rfl | hb, hin⟩)
          · exact .inl (.inl hb)
          · exact .inl (.inr rfl)
          · exact .inr ⟨hb, hin⟩
      · cases (ho hf).2

end Boundaries

/-! ## Cells -/

/-- Two prefixes without a common address. -/
def Separate (p q : Prefix) : Prop := ∀ x, x ∈ p.block → x ∉ q.block

theorem Separate.symm {p q : Prefix} (h : Separate p q) : Separate q p := fun x hq hp => h x hp hq

/-- Masked prefixes that divide a network among them. -/
structure Tiles (query : Prefix) (cells : List Prefix) : Prop where
  masked : ∀ c ∈ cells, c.Masked
  inside : ∀ c ∈ cells, c.block ⊆ query.block
  separate : cells.Pairwise Separate
  cover : ∀ x ∈ query.block, ∃ c ∈ cells, x ∈ c.block

theorem Tiles.family (h : Tiles qy cells) {c : Prefix}
    (hc : c ∈ cells) : c.addr.family = qy.addr.family :=
  (Prefix.contains_family (Prefix.contains_iff.mpr (h.inside c hc _ c.addr_mem))).symm

/-- A boundary holds the whole of a cell or nothing of it. -/
def Atomic (b cell : Prefix) : Prop :=
  ∀ a, cell.contains a = true → b.contains a = b.contains cell.addr

theorem Tiles.perm {other : List Prefix} (h : Tiles qy cells)
    (hp : cells.Perm other) : Tiles qy other where
  masked c hc := h.masked c (hp.mem_iff.mpr hc)
  inside c hc := h.inside c (hp.mem_iff.mpr hc)
  separate := (hp.pairwise_iff Separate.symm).mp h.separate
  cover x hx := by
    obtain ⟨c, hc, hxc⟩ := h.cover x hx
    exact ⟨c, hp.mem_iff.mp hc, hxc⟩

theorem Tiles.single (hm : qy.Masked) : Tiles qy [qy] where
  masked := by simpa using hm
  inside := by simpa using Block.subset_refl _
  separate := pairwise_singleton _ _
  cover x hx := ⟨qy, mem_singleton_self _, hx⟩

theorem Tiles.halves {node l r : Prefix}
    (h : Tiles qy (node :: cells)) (hp : 0 < node.host) (hl : l.Masked) (hr : r.Masked)
    (hle : l.block = node.block.left) (hri : r.block = node.block.right) :
    Tiles qy (l :: r :: cells) := by
  have hexp : 0 < node.block.exp := hp
  have hin : ∀ c, c = l ∨ c = r → c.block ⊆ node.block := by
    rintro c (rfl | rfl)
    · exact hle ▸ Block.left_subset hexp
    · exact hri ▸ Block.right_subset hexp
  have hse := pairwise_cons.mp h.separate
  refine ⟨?_, ?_, ?_, ?_⟩
  · rw [forall_mem_cons, forall_mem_cons]
    exact ⟨hl, hr, fun c hc => h.masked c (mem_cons_of_mem _ hc)⟩
  · have hno := h.inside node mem_cons_self
    rw [forall_mem_cons, forall_mem_cons]
    exact ⟨Block.subset_trans (hin l (.inl rfl)) hno,
      Block.subset_trans (hin r (.inr rfl)) hno,
      fun c hc => h.inside c (mem_cons_of_mem _ hc)⟩
  · rw [pairwise_cons, pairwise_cons, forall_mem_cons]
    refine ⟨⟨fun x hx hx' => ?_, fun c hc x hx => hse.1 c hc x (hin l (.inl rfl) x hx)⟩,
      fun c hc x hx => hse.1 c hc x (hin r (.inr rfl) x hx), hse.2⟩
    rw [hle] at hx
    rw [hri] at hx'
    exact (Block.left_before_right hexp).not_mem hx hx'
  · intro x hx
    obtain ⟨c, hc, hxc⟩ := h.cover x hx
    rcases mem_cons.mp hc with rfl | hc
    · rcases (Block.mem_halves hexp).mp hxc with hxl | hxr
      · exact ⟨l, mem_cons_self, hle ▸ hxl⟩
      · exact ⟨r, mem_cons_of_mem _ mem_cons_self, hri ▸ hxr⟩
    · exact ⟨c, mem_cons_of_mem _ (mem_cons_of_mem _ hc), hxc⟩

theorem host_pos_of_splits {node b : Prefix} (hb : node.contains b.addr = true)
    (hbits : node.bits < b.bits) : 0 < node.host := by
  have hf := Prefix.contains_family hb
  have hle := b.le
  unfold Prefix.host
  rw [← hf] at hle
  omega

/-- **The work loop divides the query, and stops at pieces no boundary splits.** -/
theorem halve_spec (hasc : Ascending boundaries) (done pending : List Prefix)
    (h : halve boundaries done pending = some cells) (hti : Tiles qy (done ++ pending))
    (hd : ∀ c ∈ done, splits boundaries c = false) :
    Tiles qy cells ∧ ∀ c ∈ cells, splits boundaries c = false := by
  fun_induction halve boundaries done pending with
  | case1 done =>
    cases h
    rw [append_nil] at hti
    exact ⟨hti, hd⟩
  | case2 => cases h
  | case3 => cases h
  | case4 done node rest hsp left right hh hli ih =>
    have hno : node ∈ done ++ node :: rest := mem_append_right _ mem_cons_self
    have hm := hti.masked node hno
    obtain ⟨b, -, hin, hbits⟩ := (splits_iff hm hasc).mp hsp
    have hp := host_pos_of_splits hin hbits
    obtain ⟨l, r, hspl, hl, hr, hle, hri⟩ := splitPrefix_spec hm hp
    rw [hh] at hspl
    cases hspl
    refine ih h ?_ hd
    have ht' := (hti.perm perm_middle).halves hp hl hr hle hri
    refine ht'.perm ?_
    refine (List.Perm.cons left ?_).trans perm_middle.symm
    rw [← append_assoc]
    exact (perm_append_singleton right (done ++ rest)).symm
  | case5 done node rest hsp ih =>
    exact ih h (by simpa using hti) (forall_mem_concat.mpr ⟨hd, Bool.eq_false_iff.mpr hsp⟩)

theorem atomic_of_not_splits {cell b : Prefix} (hm : cell.Masked)
    (hasc : Ascending boundaries) (hsp : splits boundaries cell = false)
    (hb : cell.contains b.addr = true → cell.bits < b.bits → b ∈ boundaries) : Atomic b cell := by
  intro a ha
  rw [Bool.eq_iff_iff, Prefix.contains_iff, Prefix.contains_iff]
  rw [Prefix.contains_iff] at ha
  rcases Nat.lt_or_ge b.host cell.host with hlt | hge
  · -- a smaller boundary does not meet the piece at all
    have ho : cell.contains b.addr = false := by
      by_contra hin
      rw [Bool.not_eq_false] at hin
      have hf := Prefix.contains_family hin
      have hbits : cell.bits < b.bits := by
        unfold Prefix.host at hlt
        rw [hf] at hlt
        omega
      rw [(splits_iff hm hasc).mpr ⟨b, hb hin hbits, hin, hbits⟩] at hsp
      cases hsp
    have hno : ∀ x ∈ cell.block, x ∉ b.block := by
      intro x hx hxb
      have hsu := Block.subset_of_mem hxb hx hlt.le
      rw [← Bool.not_eq_true, Prefix.contains_iff] at ho
      exact ho (hsu _ b.addr_mem)
    exact iff_of_false (hno _ ha) (hno _ cell.addr_mem)
  · constructor
    · intro hx
      exact Block.subset_of_mem ha hx hge _ cell.addr_mem
    · intro hx
      exact Block.subset_of_mem cell.addr_mem hx hge _ ha

theorem atomic_single {cell : Prefix} (hm : cell.Masked)
    (hbits : cell.bits = cell.addr.family.width) (b : Prefix) : Atomic b cell := by
  have hnil : splits [] cell = false := rfl
  refine atomic_of_not_splits hm List.Pairwise.nil hnil fun hin hlt => ?_
  have hp := host_pos_of_splits hin hlt
  rw [Prefix.host, hbits, Nat.sub_self] at hp
  cases hp

/-- **A partition**: cells that divide the query, each of them whole for every boundary, lease and
decision. -/
theorem partitionPrefixes_spec (hm : qy.Masked)
    (hasc : Ascending boundaries) {timed : List TimedPrefix} {ds : List CrowdSec.Decision}
    (h : partitionPrefixes qy boundaries timed ds = some cells) :
    Tiles qy cells ∧ ∀ cell ∈ cells, (∀ b ∈ boundaries, Atomic b cell) ∧
      (∀ v ∈ timed, Atomic v.pfx cell) ∧ ∀ d ∈ ds, Atomic d.pfx cell := by
  unfold partitionPrefixes at h
  split at h
  case isTrue hbits =>
    cases h
    refine ⟨Tiles.single hm, fun cell hce => ?_⟩
    rw [mem_singleton.mp hce]
    exact ⟨fun b _ => atomic_single hm hbits b, fun v _ => atomic_single hm hbits v.pfx,
      fun d _ => atomic_single hm hbits d.pfx⟩
  case isFalse =>
    dsimp only at h
    rw [Option.ite_none_left_eq_some] at h
    obtain ⟨⟨all, owned⟩, hal, h⟩ := Option.bind_eq_some_iff.mp h.2
    obtain ⟨work, hw, h⟩ := Option.bind_eq_some_iff.mp h
    cases h
    obtain ⟨hmem, ho⟩ := addBoundaries_spec hal
    set used := if owned then compact (sortSlice boundaryLess all) else all with huse
    have hus : ∀ b, b ∈ used ↔ b ∈ all := by
      intro b
      rw [huse]
      split
      · rw [mem_compact, mem_sortSlice]
      · exact Iff.rfl
    have hu : Ascending used := by
      rw [huse]
      split
      · exact ascending_sorted all
      case isFalse hno =>
        rw [(ho (Bool.not_eq_true _ ▸ hno)).1]
        exact window_ascending hasc
    obtain ⟨hti, hsp⟩ := halve_spec hu [] [qy] hw (Tiles.single hm) (by simp)
    have hp := (sortSlice_perm (fun a b => a.addr.compare b.addr = .lt) work).symm
    refine ⟨hti.perm hp, fun cell hce => ?_⟩
    have hin := hp.mem_iff.mpr hce
    -- What lies strictly inside a cell lies strictly inside the query.
    have hqu : ∀ b : Prefix, cell.contains b.addr = true → cell.bits < b.bits →
        qy.contains b.addr = true ∧ qy.bits < b.bits := by
      intro b hb hbits
      have hsu := hti.inside cell hin
      have hexp := hsu.exp_le
      have hce := Prefix.contains_iff.mpr (hsu _ cell.addr_mem)
      refine ⟨Prefix.contains_iff.mpr (hsu _ (Prefix.contains_iff.mp hb)), ?_⟩
      have hf := Prefix.contains_family hce
      have hle := qy.le
      rw [Prefix.block_exp, Prefix.block_exp, Prefix.host, Prefix.host, hf] at hexp
      rw [hf] at hle
      omega
    have hat : ∀ b : Prefix, (cell.contains b.addr = true → cell.bits < b.bits → b ∈ all) →
        Atomic b cell := fun b hb =>
      atomic_of_not_splits (hti.masked cell hin) hu (hsp cell hin)
        fun hc hbits => (hus b).mpr (hb hc hbits)
    refine ⟨fun b hb => hat b fun hc hbits => ?_, fun v hv => hat v.pfx fun hc hbits => ?_,
      fun d hd => hat d.pfx fun hc hbits => ?_⟩
    · exact (hmem b).mpr (.inl ((mem_window hm hasc).mpr ⟨hb, (hqu b hc hbits).1⟩))
    · obtain ⟨hq, hqb⟩ := hqu v.pfx hc hbits
      exact (hmem v.pfx).mpr (.inr ⟨mem_append_left _ (mem_map_of_mem hv), hqb, hq⟩)
    · obtain ⟨hq, hqb⟩ := hqu d.pfx hc hbits
      exact (hmem d.pfx).mpr (.inr ⟨mem_append_right _ (mem_map_of_mem hd), hqb, hq⟩)

end Perimeterd.Lookup
