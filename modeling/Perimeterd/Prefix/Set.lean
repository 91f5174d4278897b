import Perimeterd.Prefix.Difference

/-!
# `prefix.Set`

The immutable set type the policy compiler works with. The Go type keeps its fields private and
every constructor goes through `canonicalize`, so "the prefixes are canonical and `v6Start` is where
IPv6 begins" holds of every value of the type; here both are fields. `Set.Mem` is the meaning of a
set, and each operation has one lemma that says what it does to it.
-/

namespace Perimeterd

open Lib List

namespace Prefix

/-- Test used to locate the first IPv6 prefix. -/
def is6 (p : Prefix) : Bool := p.addr.family = .ipv6

structure Set where
  prefixes : List Prefix
  v6Start : Nat
  canonical : Canonical prefixes
  v6Start_eq : v6Start = searchIn prefixes is6

namespace Set

variable {s : Set} {l : List Prefix} {a : Addr}

@[ext] theorem ext {t : Set} (h : s.prefixes = t.prefixes) : s = t := by
  obtain ⟨ps, v, hc, hv⟩ := s
  obtain ⟨qs, w, hd, hw⟩ := t
  simp only at h
  subst h
  subst hv
  subst hw
  rfl

instance : DecidableEq Set := fun s t =>
  decidable_of_iff (s.prefixes = t.prefixes) ⟨Set.ext, fun h => h ▸ rfl⟩

/-- The meaning of a set: the addresses its prefixes cover. -/
def Mem (s : Set) (a : Addr) : Prop := Covered s.prefixes a

instance (s : Set) (a : Addr) : Decidable (s.Mem a) := inferInstanceAs (Decidable (Covered _ _))

/-! ## The boundary between the families -/

theorem is6_iff {p : Prefix} : p.is6 = true ↔ 2 ^ 128 ≤ p.addr.point := by
  have h := p.addr.point_family
  rw [is6, decide_eq_true_eq]
  cases hf : p.addr.family <;> simp only [hf, true_iff, reduceCtorEq, false_iff, not_lt] at h
  · simp only [reduceCtorEq, false_iff, not_le]; exact h
  · simpa using h

theorem is6_mono (h : Canonical l) : l.Pairwise fun p q => p.is6 = true → q.is6 = true := by
  refine h.tidy.imp_of_mem ?_
  intro p q hp hq hb h6
  rw [is6_iff] at h6 ⊢
  have h₁ := (Block.mem_iff.mp p.addr_mem).2
  have h₂ := (Block.mem_iff.mp q.addr_mem).1
  unfold Block.Before at hb
  omega

theorem take_v6Start (s : Set) : ∀ p ∈ s.prefixes.take s.v6Start, p.is6 = false := by
  intro p hp
  rw [s.v6Start_eq] at hp
  exact not_of_mem_take_searchIn (is6_mono s.canonical) hp

theorem drop_v6Start (s : Set) : ∀ p ∈ s.prefixes.drop s.v6Start, p.is6 = true := by
  intro p hp
  rw [s.v6Start_eq] at hp
  exact of_mem_drop_searchIn (is6_mono s.canonical) hp

theorem v6Start_le (s : Set) : s.v6Start ≤ s.prefixes.length :=
  s.v6Start_eq ▸ searchIn_le_length _ _

theorem searchIn_of_all_false (h : ∀ p ∈ l, p.is6 = false) : searchIn l is6 = l.length := by
  have hm : l.Pairwise fun p q => p.is6 = true → q.is6 = true :=
    pairwise_of_forall_mem_list fun p hp q _ h6 => absurd h6 (by simp [h p hp])
  rw [searchIn_eq_length_takeWhile hm, takeWhile_eq_self_iff.mpr (fun p hp => by simp [h p hp])]

theorem searchIn_of_all_true (h : ∀ p ∈ l, p.is6 = true) : searchIn l is6 = 0 := by
  have hm : l.Pairwise fun p q => p.is6 = true → q.is6 = true :=
    pairwise_of_forall_mem_list fun p _ q hq _ => h q hq
  rw [searchIn_eq_length_takeWhile hm]
  cases l with
  | nil => rfl
  | cons p rest => simp [h p (by simp)]

/-! ## Construction -/

def fromCanonical (values : List Prefix) (h : Canonical values) : Set :=
  ⟨values, searchIn values is6, h, rfl⟩

def empty : Set := fromCanonical [] Canonical.nil

def new (values : List NetipPrefix) : Except String Set :=
  match h : normalize values with
  | .error e => .error e
  | .ok ps => .ok (fromCanonical ps (normalize_spec h).1)

theorem masked_flatMap {sets : List Set} : ∀ p ∈ sets.flatMap prefixes, p.Masked := by
  intro p hp
  obtain ⟨s, _, hps⟩ := mem_flatMap.mp hp
  exact s.canonical.masked p hps

def union (sets : List Set) : Set :=
  fromCanonical (canonicalize (sets.flatMap prefixes)) (canonicalize_spec masked_flatMap).1

theorem new_spec {vs : List NetipPrefix} (h : new vs = .ok s) (a : Addr) :
    s.Mem a ↔ ∃ p, .valid p ∈ vs ∧ p.contains a = true := by
  unfold new at h
  split at h
  · cases h
  · rename_i ps hn
    simp only [Except.ok.injEq] at h
    subst h
    exact (normalize_spec hn).2 a

theorem mem_union {sets : List Set} : (union sets).Mem a ↔ ∃ s ∈ sets, s.Mem a := by
  refine ((canonicalize_spec masked_flatMap).2 a).trans ?_
  constructor
  · rintro ⟨p, hp, ha⟩
    obtain ⟨s, hs, hps⟩ := mem_flatMap.mp hp
    exact ⟨s, hs, p, hps, ha⟩
  · rintro ⟨s, hs, p, hps, ha⟩
    exact ⟨p, mem_flatMap.mpr ⟨s, hs, hps⟩, ha⟩

/-! ## Family views -/

def ipv4 (s : Set) : Set where
  prefixes := s.prefixes.take s.v6Start
  v6Start := s.v6Start
  canonical := s.canonical.sublist (List.take_sublist _ _)
  v6Start_eq := by
    rw [searchIn_of_all_false s.take_v6Start, List.length_take]
    have := s.v6Start_le
    omega

def ipv6 (s : Set) : Set where
  prefixes := s.prefixes.drop s.v6Start
  v6Start := 0
  canonical := s.canonical.sublist (List.drop_sublist _ _)
  v6Start_eq := (searchIn_of_all_true s.drop_v6Start).symm

def view (s : Set) : Family → Set
  | .ipv4 => s.ipv4
  | .ipv6 => s.ipv6

theorem mem_view_prefixes {f : Family} {p : Prefix} :
    p ∈ (s.view f).prefixes ↔ p ∈ s.prefixes ∧ p.addr.family = f := by
  have h4 := s.take_v6Start
  have h6 := s.drop_v6Start
  have hsp : p ∈ s.prefixes ↔ p ∈ s.prefixes.take s.v6Start ∨ p ∈ s.prefixes.drop s.v6Start := by
    conv_lhs => rw [← take_append_drop s.v6Start s.prefixes]
    exact mem_append
  cases f with
  | ipv4 =>
    change p ∈ s.prefixes.take s.v6Start ↔ _
    constructor
    · intro hp
      refine ⟨hsp.mpr (Or.inl hp), ?_⟩
      have := h4 p hp
      rw [is6, decide_eq_false_iff_not] at this
      cases hf : p.addr.family <;> simp_all
    · rintro ⟨hp, hf⟩
      refine (hsp.mp hp).resolve_right fun hd => ?_
      have := h6 p hd
      rw [is6, hf] at this
      cases this
  | ipv6 =>
    change p ∈ s.prefixes.drop s.v6Start ↔ _
    constructor
    · intro hp
      exact ⟨hsp.mpr (Or.inr hp), by simpa [is6] using h6 p hp⟩
    · rintro ⟨hp, hf⟩
      refine (hsp.mp hp).resolve_left fun hd => ?_
      have := h4 p hd
      rw [is6, hf] at this
      cases this

theorem mem_view {f : Family} : (s.view f).Mem a ↔ s.Mem a ∧ a.family = f := by
  constructor
  · rintro ⟨p, hp, ha⟩
    obtain ⟨hps, hf⟩ := mem_view_prefixes.mp hp
    exact ⟨⟨p, hps, ha⟩, contains_family ha ▸ hf⟩
  · rintro ⟨⟨p, hp, ha⟩, hf⟩
    exact ⟨p, mem_view_prefixes.mpr ⟨hp, (contains_family ha).trans hf⟩, ha⟩

/-! ## Difference -/

theorem canonical_processFamilies (inc exc : Set) :
    Canonical (processFamily inc.ipv4.prefixes exc.ipv4.prefixes ++
      processFamily inc.ipv6.prefixes exc.ipv6.prefixes) := by
  obtain ⟨h4, hin, -⟩ := processFamily_spec inc.ipv4.canonical exc.ipv4.canonical
  obtain ⟨h6, hin6, -⟩ := processFamily_spec inc.ipv6.canonical exc.ipv6.canonical
  refine ⟨fun p hp => ?_, pairwise_append.mpr ⟨h4.tidy, h6.tidy, ?_⟩⟩
  · rcases mem_append.mp hp with hp | hp
    · exact h4.masked p hp
    · exact h6.masked p hp
  · intro p hp q hq
    obtain ⟨i, hi, hpi⟩ := hin p hp
    obtain ⟨j, hj, hqj⟩ := hin6 q hq
    -- the included prefixes stand on the two sides of the family boundary
    have hij : i.block.Before j.block := by
      have ht := inc.canonical.tidy
      rw [← take_append_drop inc.v6Start inc.prefixes] at ht
      exact (pairwise_append.mp ht).2.2 i hi j hj
    have h₁ := hpi.bounds.2
    have h₂ := hqj.bounds.1
    unfold Block.Before at *
    omega

def difference (inc exc : Set) : Set :=
  if inc.prefixes.isEmpty then empty
  else if exc.prefixes.isEmpty then fromCanonical inc.prefixes inc.canonical
  else
    fromCanonical
      (processFamily inc.ipv4.prefixes exc.ipv4.prefixes ++
        processFamily inc.ipv6.prefixes exc.ipv6.prefixes)
      (canonical_processFamilies inc exc)

/-- **`Difference` is set difference**, over both families at once. -/
theorem mem_difference {inc exc : Set} : (difference inc exc).Mem a ↔ inc.Mem a ∧ ¬ exc.Mem a := by
  unfold difference
  split
  · rename_i h
    have h0 : inc.prefixes = [] := isEmpty_iff.mp h
    simp [Mem, empty, fromCanonical, h0]
  · split
    · rename_i h
      have h0 : exc.prefixes = [] := isEmpty_iff.mp h
      simp [Mem, fromCanonical, h0]
    · obtain ⟨-, -, hc4⟩ := processFamily_spec inc.ipv4.canonical exc.ipv4.canonical
      obtain ⟨-, -, hc6⟩ := processFamily_spec inc.ipv6.canonical exc.ipv6.canonical
      change Covered (_ ++ _) a ↔ _
      rw [covered_append, hc4 a, hc6 a]
      change (inc.view .ipv4).Mem a ∧ ¬ (exc.view .ipv4).Mem a ∨
        (inc.view .ipv6).Mem a ∧ ¬ (exc.view .ipv6).Mem a ↔ _
      rw [mem_view, mem_view, mem_view, mem_view]
      cases a.family <;> simp

/-! ## Membership by bisection -/

def contains (s : Set) (a : Addr) : Bool :=
  let window := if a.is4 then s.prefixes.take s.v6Start else s.prefixes.drop s.v6Start
  let position := searchIn window fun p => p.addr.compare a == .gt
  if position = 0 then false
  else (window[position - 1]?).any (·.contains a)

theorem bisect_contains (h : Canonical l) (a : Addr) :
    (let position := searchIn l fun p => p.addr.compare a == .gt
     (if position = 0 then false else (l[position - 1]?).any (·.contains a)) = true) ↔
      Covered l a := by
  have hm : l.Pairwise fun p q =>
      (p.addr.compare a == .gt) = true → (q.addr.compare a == .gt) = true := by
    refine h.tidy.imp_of_mem ?_
    intro p q hp hq hb hgt
    rw [beq_iff_eq, Addr.compare_gt] at hgt ⊢
    have h₁ := (Block.mem_iff.mp p.addr_mem).2
    have h₂ := (Block.mem_iff.mp q.addr_mem).1
    unfold Block.Before at hb
    omega
  have hle := searchIn_le_length l fun p => p.addr.compare a == .gt
  constructor
  · intro hsome
    dsimp only at hsome
    split at hsome
    · cases hsome
    · rename_i hne
      have hlt : searchIn l (fun p => p.addr.compare a == .gt) - 1 < l.length := by omega
      rw [List.getElem?_eq_getElem hlt, Option.any_some] at hsome
      exact ⟨_, getElem_mem hlt, hsome⟩
  · rintro ⟨p, hp, hpa⟩
    -- `p` starts at or before `a`, and everything after it starts beyond `a`
    obtain ⟨i, hi, rfl⟩ := mem_iff_getElem.mp hp
    have hmem := Block.mem_iff.mp (contains_iff.mp hpa)
    have hpo : i < searchIn l fun p => p.addr.compare a == .gt := by
      by_contra hge
      have hd : l[i] ∈ l.drop (searchIn l fun p => p.addr.compare a == .gt) :=
        mem_drop_iff_getElem.mpr
          ⟨i - searchIn l (fun p => p.addr.compare a == .gt), by omega, by congr 1; omega⟩
      have hgt := of_mem_drop_searchIn hm hd
      rw [beq_iff_eq, Addr.compare_gt, (h.masked _ hp).point] at hgt
      omega
    have hl : searchIn l (fun p => p.addr.compare a == .gt) = i + 1 := by
      by_contra hne
      have hlt : i + 1 < l.length := by omega
      have ht : l[i + 1] ∈ l.take (searchIn l fun p => p.addr.compare a == .gt) :=
        mem_take_iff_getElem.mpr ⟨i + 1, by omega, rfl⟩
      have hng := not_of_mem_take_searchIn hm ht
      rw [beq_eq_false_iff_ne, ne_eq, Addr.compare_gt, (h.masked _ (getElem_mem hlt)).point] at hng
      have hb := pairwise_iff_getElem.mp h.tidy i (i + 1) hi hlt (by omega)
      unfold Block.Before at hb
      omega
    dsimp only
    rw [hl, if_neg (by omega), Nat.add_sub_cancel, List.getElem?_eq_getElem hi]
    exact hpa

/-- **Bisection agrees with membership.** -/
theorem contains_iff_mem : s.contains a = true ↔ s.Mem a := by
  have hvi : (if a.is4 then s.prefixes.take s.v6Start else s.prefixes.drop s.v6Start) =
      (s.view a.family).prefixes := by
    cases hf : a.family <;> simp [Addr.is4, hf, view, ipv4, ipv6]
  unfold contains
  rw [hvi]
  refine (bisect_contains (s.view a.family).canonical a).trans ?_
  change (s.view a.family).Mem a ↔ _
  rw [mem_view]
  simp

end Set

end Prefix

end Perimeterd
