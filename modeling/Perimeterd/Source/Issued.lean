import Perimeterd.Source.Canonical

/-!
# The snapshots the source package hands out

A snapshot is made in one place: loading a manifest's content. What a policy is compiled from is then
what the records say: a key resolves to an address exactly when the record of that selector has a
prefix that contains it (`Issued.resolves`).
-/

namespace Perimeterd

open Lib Policy List

namespace Policy

/-- The prefixes of a record contain an address. -/
def ResolvedSelector.Holds (record : ResolvedSelector) (a : Addr) : Prop :=
  ∃ p, (.valid p ∈ record.ipv4 ∨ .valid p ∈ record.ipv6) ∧ p.contains a = true

theorem newSnapshotLoop_spec : ∀ {i : Nat} {ents : List (Selector × Prefix.Set)}
    {rcs : List ResolvedSelector} {s : Snapshot},
    newSnapshotLoop i ents rcs = .ok s → (ents.map Prod.fst).Nodup →
      (s.entries.map Prod.fst).Nodup ∧ ∃ built, s.entries = ents ++ built ∧
        List.Forall₂ (fun record entry =>
          canonicalSelector record.selector.kind record.selector.value = .ok entry.1 ∧
            ∀ a, entry.2.Mem a ↔ record.Holds a) rcs built
  | _, ents, [], s, h, hno => by
    cases h
    exact ⟨hno, [], (append_nil _).symm, .nil⟩
  | i, ents, record :: rest, s, h, hno => by
    rw [newSnapshotLoop] at h
    obtain ⟨selector, hse, h⟩ := bind_eq_ok.mp h
    obtain ⟨hnew, h⟩ := ite_throw_eq_ok.mp h
    obtain ⟨⟨⟩, -, h⟩ := bind_eq_ok.mp h
    obtain ⟨⟨⟩, -, h⟩ := bind_eq_ok.mp h
    obtain ⟨v4, h4, h⟩ := bind_eq_ok.mp h
    obtain ⟨v6, h6, h⟩ := bind_eq_ok.mp h
    have hf : selector ∉ ents.map Prod.fst := by simpa using hnew
    have hn' : ((ents ++ [(selector, Prefix.Set.union [v4, v6])]).map Prod.fst).Nodup :=
      nodup_map_concat.mpr ⟨hno, fun k hk (heq : k.1 = selector) =>
        hf (heq ▸ mem_map_of_mem hk)⟩
    obtain ⟨hke, built, hbu, hal⟩ := newSnapshotLoop_spec h hn'
    refine ⟨hke, (selector, Prefix.Set.union [v4, v6]) :: built, ?_, .cons ⟨?_, fun a => ?_⟩ hal⟩
    · rw [hbu, append_assoc]
      rfl
    · exact mapError_eq_ok.mp hse
    · have hme := Prefix.Set.new_spec (mapError_eq_ok.mp h4) a
      have hmem6 := Prefix.Set.new_spec (mapError_eq_ok.mp h6) a
      simp only [Prefix.Set.mem_union, mem_cons, not_mem_nil, or_false,
        exists_eq_left, hme, hmem6, ResolvedSelector.Holds, or_and_right, exists_or]

/-- **What a compiled snapshot resolves a key to.** -/
theorem newSnapshot_resolves {rcs : List ResolvedSelector} {s : Snapshot}
    (h : newSnapshot rcs = .ok s) (k : Selector) (a : Addr) :
    s.Resolves k a ↔ ∃ record ∈ rcs,
      canonicalSelector record.selector.kind record.selector.value = .ok k ∧ record.Holds a := by
  obtain ⟨hke, built, hbu, hal⟩ := newSnapshotLoop_spec h nodup_nil
  rw [nil_append] at hbu
  subst hbu
  have hl : ∀ {set : Prefix.Set}, s.lookup k = some set ↔ (k, set) ∈ s.entries := by
    intro set
    unfold Snapshot.lookup
    rw [Option.map_eq_some_iff]
    constructor
    · rintro ⟨⟨k', set'⟩, hf, rfl⟩
      obtain rfl : k' = k := by simpa using List.find?_some hf
      exact mem_of_find?_eq_some hf
    · intro hin
      refine ⟨(k, set), ?_, rfl⟩
      cases hf : s.entries.find? (·.1 = k) with
      | none => simpa using List.find?_eq_none.mp hf _ hin
      | some entry =>
        have hkey : entry.1 = k := by simpa using List.find?_some hf
        rw [inj_on_of_nodup_map hke (mem_of_find?_eq_some hf) hin hkey]
  unfold Snapshot.Resolves
  simp only [hl]
  constructor
  · rintro ⟨set, hin, hmem⟩
    obtain ⟨record, hre, hse, hset⟩ := forall₂_exists_left hal hin
    exact ⟨record, hre, hse, (hset a).mp hmem⟩
  · rintro ⟨record, hre, hse, hh⟩
    obtain ⟨⟨k', set⟩, hin, hs', hset⟩ := forall₂_exists_right hal hre
    obtain rfl : k' = k := Except.ok.inj (hs'.symm.trans hse)
    exact ⟨set, hin, (hset a).mpr hh⟩

end Policy

namespace Source

section Issued

variable {tx : Texts} {s : Snapshot}

theorem Issued.compiled (h : Issued tx s) :
    newSnapshot (resolvedSelectors s.records) = .ok s.policy := by
  cases h with
  | empty => rfl
  | loaded h =>
    rw [loadContent] at h
    obtain ⟨⟨⟩, -, h⟩ := bind_eq_ok.mp h
    obtain ⟨records, -, h⟩ := bind_eq_ok.mp h
    obtain ⟨⟨⟩, -, h⟩ := bind_eq_ok.mp h
    obtain ⟨compiled, hc, h⟩ := bind_eq_ok.mp h
    cases pure_eq_ok.mp h
    exact hc

/-- **The records say what a key resolves to.** -/
theorem Issued.resolves (h : Issued tx s) (k : Selector) (a : Addr) :
    s.policy.Resolves k a ↔ ∃ record ∈ s.records, record.selector = k ∧
      ∃ p, (.valid p ∈ record.ipv4 ∨ .valid p ∈ record.ipv6) ∧ p.contains a = true := by
  rw [newSnapshot_resolves h.compiled]
  constructor
  · rintro ⟨_, hin, hse, hh⟩
    obtain ⟨record, hre, rfl⟩ := mem_map.mp hin
    have hset := (h.isLoaded.settled record hre).selector
    exact ⟨record, hre, Except.ok.inj (hset.symm.trans hse), hh⟩
  · rintro ⟨record, hre, rfl, hh⟩
    exact ⟨_, mem_map_of_mem hre, (h.isLoaded.settled record hre).selector, hh⟩

theorem checkFamily_eq_ok {f : Family} : ∀ {i : Nat} {vs : List NetipPrefix},
    checkFamily f i vs = .ok () → ∀ p, .valid p ∈ vs → p.addr.family = f
  | _, [], _, p, hp => by cases hp
  | i, .valid r :: rest, h, p, hp => by
    rw [checkFamily] at h
    split at h
    case isTrue hf =>
      rcases mem_cons.mp hp with hp | hp
      · cases hp
        exact hf
      · exact checkFamily_eq_ok h p hp
    case isFalse => cases h
  | _, .zero :: _, h, _, _ => by cases h
  | _, .badBits _ :: _, h, _, _ => by cases h

theorem settled_family {vs : List NetipPrefix} {f : Family} (h : normalizeFamily vs f = .ok vs) :
    ∃ ps, vs = ps.map .valid ∧ Prefix.Canonical ps ∧ ∀ p ∈ ps, p.addr.family = f := by
  unfold normalizeFamily at h
  obtain ⟨⟨⟩, hf, h⟩ := bind_eq_ok.mp h
  obtain ⟨ps, hps, h⟩ := bind_eq_ok.mp h
  have hva := pure_eq_ok.mp h
  refine ⟨ps, hva.symm, (Prefix.normalize_spec hps).1, fun p hp => ?_⟩
  exact checkFamily_eq_ok hf p (hva ▸ mem_map_of_mem hp)

end Issued

/-! ## What a record says of its source -/

theorem canonicalSelector_named {kind : SelectorKind} {v : String} {s : Selector}
    (h : canonicalSelector kind v = .ok s) : s.kind = kind ∧ s.value ≠ "" := by
  unfold canonicalSelector at h
  split at h
  all_goals
    obtain ⟨hva, rfl⟩ := ite_ok_eq_ok.mp h
    refine ⟨rfl, fun hempty => ?_⟩
    dsimp only at hempty
    rw [hempty] at hva
    exact absurd hva (by decide)

/-- A country comes from one of two providers, and only DB-IP has releases. -/
inductive Provenance (c : Record) : Prop
  | dbip (source : c.sourceKind = .dbipLite) (kind : c.selector.kind = .country)
      (release : validRelease c.release = true)
  | ripe (source : c.sourceKind = .unset)
      (kind : c.selector.kind = .country ∨ c.selector.kind = .asn) (release : c.release = "")
  | text (kind : c.selector.kind = .ipList ∨ c.selector.kind = .provider) (release : c.release = "")

theorem canonical_provenance {tx : Texts} {rc c : Record}
    (h : canonicalRecord tx rc = .ok c) : Provenance c := by
  have hof := canonicalOf_of_eq_ok h
  obtain ⟨hki, -⟩ := canonicalSelector_named hof.selector
  have hso : c.sourceKind = rc.sourceKind.canonical := by rw [hof.kept]
  have hrel : c.release = rc.release := by rw [hof.kept]
  rw [canonicalRecord] at h
  obtain ⟨selector, hse, h⟩ := bind_eq_ok.mp h
  obtain ⟨transport, -, h⟩ := bind_eq_ok.mp h
  obtain ⟨hme, h⟩ := guard_eq_ok.mp h
  obtain rfl : selector = c.selector := Except.ok.inj (hse.symm.trans hof.selector)
  have hempty : rc.sourceKind ≠ .dbipLite → c.release = "" := fun hne =>
    hrel.trans (not_not.mp fun hsome => hme ⟨hne, hsome⟩)
  have hri : canonicalRIPE { rc with selector := c.selector, transport := transport } = .ok c →
      c.selector.kind = .country ∨ c.selector.kind = .asn := by
    intro h
    obtain ⟨-, -, -, _, _, _, hre, -⟩ := canonicalRIPE_eq_ok h
    unfold ripeRequestFor at hre
    split at hre
    case h_1 hk => exact .inl hk
    case h_2 hk => exact .inr hk
    case h_3 => cases hre
  cases hk : rc.sourceKind with
  | dbipLite =>
    simp only [hk] at h
    obtain ⟨⟨⟩, hva, -⟩ := bind_eq_ok.mp h
    unfold validateDBIPRecord at hva
    obtain ⟨hc, hva⟩ := ite_throw_eq_ok.mp hva
    obtain ⟨-, hva⟩ := ite_throw_eq_ok.mp hva
    obtain ⟨hmo, -⟩ := ite_throw_eq_ok.mp hva
    refine .dbip (by rw [hso, hk]; rfl) (hki.trans (not_not.mp (not_or.mp hc).2)) ?_
    rw [hrel]
    simpa using hmo
  | ipList =>
    simp only [hk] at h
    exact .text (.inl (canonicalText_eq_ok h).2.1) (hempty (by rw [hk]; decide))
  | provider =>
    simp only [hk] at h
    exact .text (.inr (canonicalText_eq_ok h).2.1) (hempty (by rw [hk]; decide))
  | unset =>
    simp only [hk] at h
    exact .ripe (by rw [hso, hk]; rfl) (hri h) (hempty (by rw [hk]; decide))
  | ripestat =>
    simp only [hk] at h
    exact .ripe (by rw [hso, hk]; rfl) (hri h) (hempty (by rw [hk]; decide))
  | other text =>
    simp only [hk] at h
    cases h

end Source

end Perimeterd
